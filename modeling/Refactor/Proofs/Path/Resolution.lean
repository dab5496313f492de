import Mathlib.Logic.Function.Iterate
import Refactor.Proofs.Path.Relative

/-!
# Lexical resolution

Dots are resolved from left to right: one dot stays, two dots take back the last name, and climb where there is none. A
path then leads to a place that is given by how often it climbs above its start and by the names it goes down from there.
Normalizing lets two dots cancel two dots as they cancel a name, also those right behind the root, so of the climbs only
their parity is left.

* `Bearing`, `Path.bearing` — the climbs and the names of a path
* `Component.walk`, `Bearing.walk_from` — where components lead from a directory
* `Path.resolved` — the components of a path with its dots resolved
* `Path.foldl_resolveStep_folded` — what normalizing makes of components, one after the other
* `Path.normalize_resolves` — the outcome of normalizing, and where it is the resolved path
-/

namespace Refactor

open Tree (pathOf)

/-! ## Climbs and names -/

/-- A way seen from its start: how often it climbs, and the names it goes down from there. -/
structure Bearing where
  climbs : Nat
  names : List String
deriving DecidableEq, Repr

namespace Bearing

def start : Bearing := ⟨0, []⟩

/-- One component further. -/
def step (b : Bearing) : Component → Bearing
  | .root | .here => b
  | .parent => if b.names = [] then ⟨b.climbs + 1, []⟩ else ⟨b.climbs, b.names.dropLast⟩
  | .name s => ⟨b.climbs, b.names ++ [s]⟩

/-- The components of a way: all climbs, and behind them the names. -/
def components (b : Bearing) : List Component := List.replicate b.climbs .parent ++ b.names.map .name

/-- A way on which two climbs count as none. -/
def folded (b : Bearing) : Bearing := ⟨b.climbs % 2, b.names⟩

def Valid (b : Bearing) : Prop := ∀ s ∈ b.names, Path.IsName s

variable {b : Bearing}

theorem folded_folded (b : Bearing) : b.folded.folded = b.folded := by
  simp [folded]

theorem folded_eq_iff (b : Bearing) : b.folded = b ↔ b.climbs ≤ 1 := by
  obtain ⟨climbs, names⟩ := b
  rw [folded, mk.injEq, and_iff_left rfl]
  dsimp only
  omega

theorem root_not_mem_components (b : Bearing) : .root ∉ b.components := by
  simp [components]

theorem components_eq (h : b.Valid) :
    b.components = (Path.way (List.replicate b.climbs "..") b.names).map Path.componentOf := by
  rw [Path.map_componentOf_way _ h, List.length_replicate, components]

theorem Valid.step (h : b.Valid) {s : String} (hs : Path.IsSegment s) : (b.step (Path.componentOf s)).Valid := by
  by_cases hdots : s = ".."
  · subst hdots
    show (b.step .parent).Valid
    unfold Bearing.step
    dsimp only
    split
    · simp [Valid]
    · exact fun t ht => h t (List.dropLast_subset _ ht)
  · rw [Path.componentOf_name ⟨hs, hdots⟩]
    intro t ht
    rcases List.mem_append.mp ht with ht | ht
    · exact h t ht
    · rw [List.mem_singleton.mp ht]
      exact ⟨hs, hdots⟩

theorem valid_foldl {ss : List String} (hss : ∀ s ∈ ss, Path.IsSegment s) (h : b.Valid) :
    ((ss.map Path.componentOf).foldl step b).Valid := by
  induction ss generalizing b with
  | nil => exact h
  | cons s ss ih =>
    rw [List.map_cons, List.foldl_cons]
    exact ih (fun t ht => hss t (List.mem_cons_of_mem _ ht)) (h.step (hss s List.mem_cons_self))

theorem foldl_components (b : Bearing) : b.components.foldl step start = b := by
  have hclimb : ∀ n k, (List.replicate n Component.parent).foldl step ⟨k, []⟩ = ⟨k + n, []⟩ := by
    intro n
    induction n with
    | zero => exact fun k => rfl
    | succ n ih =>
      intro k
      rw [List.replicate_succ, List.foldl_cons, step, if_pos rfl, ih, Nat.add_right_comm, Nat.add_assoc]
  have hdown : ∀ (names : List String) (c : Bearing),
      (names.map Component.name).foldl step c = ⟨c.climbs, c.names ++ names⟩ := by
    intro names
    induction names with
    | nil => exact fun c => by simp
    | cons s names ih =>
      intro c
      rw [List.map_cons, List.foldl_cons, step, ih]
      simp
  rw [components, List.foldl_append, start, hclimb, hdown]
  simp

end Bearing

/-! ## Where components lead -/

/-- The directory that a component leads to, directories being given by the names below the root. Nothing lies above the
root, so two dots stay there. -/
def Component.walk (dir : List String) : Component → List String
  | .root => []
  | .here => dir
  | .parent => dir.dropLast
  | .name s => dir ++ [s]

namespace Bearing

/-- The place that a way leads to from a directory. -/
def reach (b : Bearing) (dir : List String) : List String := List.dropLast^[b.climbs] dir ++ b.names

theorem length_iterate_dropLast (n : Nat) (dir : List String) : (List.dropLast^[n] dir).length = dir.length - n := by
  induction n with
  | zero => rfl
  | succ n ih =>
    rw [Function.iterate_succ_apply', List.length_dropLast, ih]
    omega

theorem reach_step (b : Bearing) (dir : List String) {c : Component} (hc : c ≠ .root) :
    (b.step c).reach dir = c.walk (b.reach dir) := by
  cases c with
  | root => exact absurd rfl hc
  | here => rfl
  | name s => exact (List.append_assoc _ _ _).symm
  | parent =>
    unfold step reach Component.walk
    dsimp only
    split
    · rename_i hnames
      rw [hnames, List.append_nil, List.append_nil, Function.iterate_succ_apply']
    · rename_i hnames
      rw [List.dropLast_append_of_ne_nil hnames]

theorem walk_from {cs : List Component} (hcs : Component.root ∉ cs) (b : Bearing) (dir : List String) :
    cs.foldl Component.walk (b.reach dir) = (cs.foldl step b).reach dir := by
  induction cs generalizing b with
  | nil => rfl
  | cons c cs ih =>
    rw [List.mem_cons, not_or] at hcs
    rw [List.foldl_cons, List.foldl_cons, ← reach_step b dir (Ne.symm hcs.1), ih hcs.2]

end Bearing

/-! ## Normalizing components -/

namespace Path

theorem resolveStep_name_parent (cs : List Component) (s : String) : resolveStep (cs ++ [.name s]) .parent = cs := by
  cases cs with
  | nil => rfl
  | cons c cs =>
    cases c with
    | root => exact resolveStep_parent cs s
    | here | parent | name _ => exact @List.dropLast_concat _ (_ :: cs) _

/-- What one component does to a way of which only the parity of its climbs is written down. -/
theorem resolveStep_folded {lead : List Component} (hlead : lead = [] ∨ lead = [.root]) (b : Bearing) {c : Component}
    (hc : c ≠ .root) : resolveStep (lead ++ b.folded.components) c = lead ++ (b.step c).folded.components := by
  cases c with
  | root => exact absurd rfl hc
  | here => rfl
  | name s => simp [resolveStep, Bearing.step, Bearing.folded, Bearing.components]
  | parent =>
    obtain ⟨climbs, names⟩ := b
    cases names using List.reverseRecOn with
    | nil =>
      -- nothing but climbs stands there, and two of them cancel each other
      rcases Nat.mod_two_eq_zero_or_one climbs with hparity | hparity <;> rcases hlead with rfl | rfl <;>
        simp [Bearing.step, Bearing.folded, Bearing.components, resolveStep, Nat.add_mod, hparity]
    | append_singleton names s =>
      have hwritten : lead ++ (Bearing.folded ⟨climbs, names ++ [s]⟩).components =
          lead ++ (Bearing.folded ⟨climbs, names⟩).components ++ [.name s] := by
        simp [Bearing.folded, Bearing.components]
      rw [hwritten, resolveStep_name_parent]
      simp [Bearing.step]

/-- Normalizing components one after the other keeps their way, with the climbs folded. -/
theorem foldl_resolveStep_folded {lead : List Component} (hlead : lead = [] ∨ lead = [.root]) {cs : List Component}
    (hcs : .root ∉ cs) (b : Bearing) :
    cs.foldl resolveStep (lead ++ b.folded.components) = lead ++ (cs.foldl Bearing.step b).folded.components := by
  induction cs generalizing b with
  | nil => rfl
  | cons c cs ih =>
    rw [List.mem_cons, not_or] at hcs
    rw [List.foldl_cons, List.foldl_cons, resolveStep_folded hlead b (Ne.symm hcs.1), ih hcs.2]

/-! ## Paths -/

/-- Where the components of a path lead. -/
def bearing (p : Path) : Bearing := p.components.foldl Bearing.step .start

def lead (p : Path) : List Component := if p.isAbsolute then [.root] else []

/-- The components of a path with its dots resolved from left to right. At the root two dots stay there; what a relative
path climbs above its start is kept. -/
def resolved (p : Path) : List Component :=
  if p.isAbsolute then .root :: p.bearing.names.map .name else p.bearing.components

theorem lead_cases (p : Path) : p.lead = [] ∨ p.lead = [.root] := by
  unfold lead
  split
  · exact Or.inr rfl
  · exact Or.inl rfl

theorem root_not_mem (ss : List String) : Component.root ∉ ss.map componentOf := by
  intro hmem
  obtain ⟨s, _, hs⟩ := List.mem_map.mp hmem
  unfold componentOf at hs
  split at hs <;> cases hs

/-- A path has the components of segments behind its root or behind a leading dot. -/
theorem components_cases (p : Path) : ∃ ss : List String, (∀ s ∈ ss, IsSegment s) ∧
    (p.components = p.lead ++ ss.map componentOf ∨ p.isAbsolute = false ∧ p.components = .here :: ss.map componentOf) := by
  by_cases h : p.isAbsolute = true
  · obtain ⟨ss, hss, hcomponents⟩ := components_absolute h
    exact ⟨ss, hss, Or.inl (by rw [hcomponents, lead, if_pos h]; rfl)⟩
  · have hslash : ∀ s ∈ p.segments, '/' ∉ s.toList := fun s => no_slash_of_mem_segments
    rw [Bool.not_eq_true] at h
    have hlead : p.lead = [] := by
      rw [lead, h]
      rfl
    rw [hlead, h]
    cases hsegments : p.segments with
    | nil =>
      have hnone : p.components = [] := by
        rw [components, h, hsegments]
        rfl
      exact ⟨[], by simp, Or.inl hnone⟩
    | cons first rest =>
      have hcomponents : p.components = (firstComponent? first).toList ++ rest.filterMap innerComponent? := by
        rw [components, h, hsegments]
        rfl
      rw [hsegments] at hslash
      by_cases hdot : first = "."
      · subst hdot
        obtain ⟨ts, hts, heq⟩ := filterMap_innerComponent?_eq_map fun s hs => hslash s (List.mem_cons_of_mem _ hs)
        exact ⟨ts, hts, Or.inr ⟨rfl, by rw [hcomponents, ← heq]; rfl⟩⟩
      · obtain ⟨ts, hts, heq⟩ := filterMap_innerComponent?_eq_map hslash
        refine ⟨ts, hts, Or.inl ?_⟩
        have hfirst : firstComponent? first = innerComponent? first := if_neg (by simpa using hdot)
        rw [hcomponents, List.nil_append, ← heq, hfirst, List.filterMap_cons]
        cases innerComponent? first <;> rfl

variable (p : Path)

theorem valid_bearing : p.bearing.Valid := by
  obtain ⟨ss, hss, hcomponents⟩ := p.components_cases
  have hstart : Bearing.start.Valid := by simp [Bearing.start, Bearing.Valid]
  unfold bearing
  rcases hcomponents with hcomponents | ⟨_, hcomponents⟩
  · rw [hcomponents, List.foldl_append]
    rcases p.lead_cases with hlead | hlead <;> rw [hlead] <;> exact Bearing.valid_foldl hss hstart
  · rw [hcomponents]
    exact Bearing.valid_foldl hss hstart

theorem foldl_resolveStep_components :
    p.components.foldl resolveStep [] = p.lead ++ p.bearing.folded.components := by
  obtain ⟨ss, hss, hcomponents⟩ := p.components_cases
  have hfold : ∀ lead : List Component, lead = [] ∨ lead = [.root] → (ss.map componentOf).foldl resolveStep lead =
      lead ++ ((ss.map componentOf).foldl Bearing.step .start).folded.components := fun lead hlead => by
    have hrun := foldl_resolveStep_folded hlead (root_not_mem ss) .start
    have hnone : Bearing.start.folded.components = [] := rfl
    rwa [hnone, List.append_nil] at hrun
  unfold bearing
  rcases hcomponents with hcomponents | ⟨hrelative, hcomponents⟩
  · rw [hcomponents, List.foldl_append, List.foldl_append]
    rcases p.lead_cases with hlead | hlead
    · rw [hlead]
      exact hfold [] (Or.inl rfl)
    · rw [hlead]
      exact hfold [.root] (Or.inr rfl)
  · rw [hcomponents, lead, hrelative]
    exact hfold [] (Or.inl rfl)

/-- A path written from the components of a way has these components again. -/
theorem components_ofComponents_way {lead : List Component} (hlead : lead = [] ∨ lead = [.root]) {b : Bearing}
    (hb : b.Valid) : (ofComponents (lead ++ b.components)).components = lead ++ b.components := by
  have hsegments := isSegment_way (List.replicate b.climbs "..") hb
  rw [Bearing.components_eq hb]
  rcases hlead with rfl | rfl
  · rw [List.nil_append, ofComponents_joinWith hsegments, components_joinWith hsegments]
  · rw [List.singleton_append, ofComponents_pathOf hsegments, components_segments hsegments]

/-- A normalized path has the root of the path, of the climbs only one when their number is odd, and all names. -/
theorem components_normalize_eq : p.normalize.components = p.lead ++ p.bearing.folded.components := by
  rw [normalize, foldl_resolveStep_components]
  exact components_ofComponents_way p.lead_cases p.valid_bearing

theorem normalize_normalize : p.normalize.normalize = p.normalize := by
  have hbearing : p.normalize.bearing = p.bearing.folded := by
    rw [bearing, components_normalize_eq, List.foldl_append]
    rcases p.lead_cases with hlead | hlead <;> rw [hlead] <;> exact Bearing.foldl_components _
  have hlead : p.normalize.lead = p.lead := by
    rcases p.lead_cases with hlead | hlead
    · have hcomponents := p.components_normalize_eq
      rw [hlead, List.nil_append] at hcomponents
      have habsolute : ¬ p.normalize.isAbsolute = true := by
        intro habsolute
        rw [components_of_absolute habsolute] at hcomponents
        exact Bearing.root_not_mem_components _ (hcomponents ▸ List.mem_cons_self)
      rw [hlead, lead, if_neg habsolute]
    · have hcomponents := p.components_normalize_eq
      rw [hlead] at hcomponents
      rw [hlead, lead, if_pos (isAbsolute_of_components hcomponents)]
  rw [normalize, foldl_resolveStep_components, hbearing, hlead, Bearing.folded_folded, ← foldl_resolveStep_components,
    normalize]

/-! ## Where paths lead -/

theorem foldl_walk_lead (b : Bearing) (dir : List String) :
    (p.lead ++ b.components).foldl Component.walk dir = b.reach (if p.isAbsolute then [] else dir) := by
  have hway : ∀ dir, b.components.foldl Component.walk dir = b.reach dir := fun dir => by
    have hwalk := Bearing.walk_from b.root_not_mem_components .start dir
    rwa [Bearing.foldl_components, Bearing.reach, Bearing.start, List.append_nil] at hwalk
  rw [List.foldl_append, hway]
  unfold lead
  split <;> rfl

theorem foldl_walk_components (dir : List String) :
    p.components.foldl Component.walk dir = p.bearing.reach (if p.isAbsolute then [] else dir) := by
  obtain ⟨ss, hss, hcomponents⟩ := p.components_cases
  have hway : ∀ dir, (ss.map componentOf).foldl Component.walk dir =
      ((ss.map componentOf).foldl Bearing.step .start).reach dir := fun dir => by
    have hwalk := Bearing.walk_from (root_not_mem ss) .start dir
    rwa [Bearing.reach, Bearing.start, List.append_nil] at hwalk
  unfold bearing
  rcases hcomponents with hcomponents | ⟨hrelative, hcomponents⟩
  · rw [hcomponents, List.foldl_append, List.foldl_append]
    unfold lead
    split <;> exact hway _
  · rw [hcomponents, hrelative]
    exact hway dir

theorem foldl_walk_resolved (dir : List String) :
    p.resolved.foldl Component.walk dir = p.components.foldl Component.walk dir := by
  have hresolved : p.resolved = p.lead ++ (if p.isAbsolute then ⟨0, p.bearing.names⟩ else p.bearing : Bearing).components := by
    unfold resolved lead
    split <;> rfl
  rw [hresolved, foldl_walk_lead, foldl_walk_components]
  split
  · exact congrArg (· ++ p.bearing.names) (Function.iterate_fixed rfl _).symm
  · rfl

/-- The normalized path is the resolved one just where an absolute path climbs an even number of times, and a relative one
at most once. -/
theorem normalize_eq_resolved_iff : p.normalize.components = p.resolved ↔
    if p.isAbsolute then p.bearing.climbs % 2 = 0 else p.bearing.climbs ≤ 1 := by
  rw [components_normalize_eq, resolved, lead]
  split
  · rw [List.singleton_append, List.cons_inj_right]
    exact List.append_left_eq_self.trans (List.replicate_eq_nil_iff _)
  · rw [List.nil_append, ← Bearing.folded_eq_iff]
    refine ⟨fun heq => ?_, fun heq => by rw [heq]⟩
    rw [← Bearing.foldl_components p.bearing.folded, heq, Bearing.foldl_components]

/-- The normalized path leads where the path leads just where the path is absolute or climbs at most once. -/
theorem normalize_leads_iff :
    (∀ dir, p.normalize.components.foldl Component.walk dir = p.components.foldl Component.walk dir) ↔
      p.isAbsolute = true ∨ p.bearing.climbs ≤ 1 := by
  have hreach : ∀ dir, (p.normalize.components.foldl Component.walk dir = p.components.foldl Component.walk dir ↔
      List.dropLast^[p.bearing.climbs % 2] (if p.isAbsolute then [] else dir) =
        List.dropLast^[p.bearing.climbs] (if p.isAbsolute then [] else dir)) := fun dir => by
    rw [components_normalize_eq, foldl_walk_lead, foldl_walk_components]
    exact List.append_left_inj _
  simp only [hreach]
  by_cases habsolute : p.isAbsolute = true
  · -- above the root nothing is lost by climbing
    refine iff_of_true (fun dir => ?_) (Or.inl habsolute)
    rw [if_pos habsolute, Function.iterate_fixed rfl, Function.iterate_fixed rfl]
  · simp only [habsolute, Bool.false_eq_true, if_false, false_or]
    refine ⟨fun hsame => ?_, fun hle => ?_⟩
    · -- a directory that is just deep enough tells the numbers of climbs apart
      have hlength := congrArg List.length (hsame (List.replicate p.bearing.climbs ""))
      rw [Bearing.length_iterate_dropLast, Bearing.length_iterate_dropLast, List.length_replicate] at hlength
      omega
    · rw [Nat.mod_eq_of_lt (by omega)]
      exact fun dir => rfl

/-- Normalizing keeps the root and the names of a path; of its climbs it keeps none when they are even in number, and one
otherwise. The outcome is the resolved path just where an absolute path climbs an even number of times and a relative one
at most once, it leads where the path leads just where the path is absolute or climbs at most once, and normalizing it
again changes nothing. -/
theorem normalize_resolves (p : Path) :
    p.normalize.components = p.lead ++ (List.replicate (p.bearing.climbs % 2) .parent ++ p.bearing.names.map .name) ∧
      (p.normalize.components = p.resolved ↔ if p.isAbsolute then p.bearing.climbs % 2 = 0 else p.bearing.climbs ≤ 1) ∧
      ((∀ dir, p.normalize.components.foldl Component.walk dir = p.components.foldl Component.walk dir) ↔
        p.isAbsolute = true ∨ p.bearing.climbs ≤ 1) ∧
      p.normalize.normalize = p.normalize :=
  ⟨p.components_normalize_eq, p.normalize_eq_resolved_iff, p.normalize_leads_iff, p.normalize_normalize⟩

example : (Path.mk "../../a").normalize.components = [.name "a"] ∧ (Path.mk "/..").normalize.components = [.root, .parent] := by
  decide

end Path

end Refactor
