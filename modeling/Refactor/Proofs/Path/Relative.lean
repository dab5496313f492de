import Refactor.Proofs.Path.Inside

/-!
# Ways from one directory to another

The way from a directory to a path climbs out of what the two do not share and goes down from there. Joined to the
directory it came from and resolved, it ends at the path again.

* `Path.components_join` — the components of a joined path
* `Path.relativeSteps_names` — the way between two lists of names
* `Path.Normal`, `Path.Below` — paths without dots, and those below a root
* `Path.relativeTo?_names` — the text of the way between paths that go down
* `Path.components_normalize_way` — where the way leads
-/

namespace Refactor

open Tree (pathOf)

namespace Path

/-! ## Components of joined texts -/

def inner (s : String) : List Component := ((s.toList.splitOn '/').map String.ofList).filterMap innerComponent?

theorem inner_append (s t : String) : inner (s ++ "/" ++ t) = inner s ++ inner t := by
  have hsplit : (s ++ "/" ++ t).toList.splitOn '/' = s.toList.splitOn '/' ++ t.toList.splitOn '/' := by
    rw [String.toList_append, String.toList_append, List.append_assoc]
    exact List.splitOnP_append_cons _ _ (by decide)
  rw [inner, hsplit, List.map_append, List.filterMap_append]
  rfl

theorem splitOn_joinWith {ss : List String} (h : ∀ s ∈ ss, IsSegment s) (hne : ss ≠ []) :
    (joinWith "/" ss).toList.splitOn '/' = ss.map String.toList := by
  have hslash : ∀ l ∈ ss.map String.toList, '/' ∉ l := by
    intro l hl
    obtain ⟨t, ht, rfl⟩ := List.mem_map.mp hl
    exact (h t ht).2.2
  rw [joinWith_toList, List.splitOn_intercalate _ hslash (by simpa using hne)]

theorem inner_joinWith {ss : List String} (h : ∀ s ∈ ss, IsSegment s) : inner (joinWith "/" ss) = ss.map componentOf := by
  cases ss with
  | nil => rfl
  | cons s rest =>
    rw [inner, splitOn_joinWith h (by simp), List.map_map]
    simp only [Function.comp_def, String.ofList_toList, List.map_id']
    exact filterMap_innerComponent? h

theorem components_eq_inner {p : Path} (h : p.isAbsolute = true) : p.components = .root :: inner p.raw := by
  have hraw := h
  unfold isAbsolute Refactor.startsWith at hraw
  obtain ⟨rest, hrest⟩ := List.isPrefixOf_iff_prefix.mp hraw
  have hsplit : p.raw.toList.splitOn '/' = [] :: rest.splitOn '/' := by
    rw [← hrest]
    exact List.splitOn_cons_eq_if_modifyHead '/' rest
  rw [components_of_absolute h, inner]
  unfold segments
  dsimp only
  rw [h, if_pos rfl, hsplit]
  rfl

theorem components_join {p : Path} (h : p.isAbsolute = true) {s : String} (hs : (Path.mk s).isAbsolute = false) :
    (p.join ⟨s⟩).components = p.components ++ inner s := by
  have habsolute : (p.join ⟨s⟩).isAbsolute = true := isAbsolute_join h
  rw [components_eq_inner habsolute, components_eq_inner h, List.cons_append, List.cons.injEq]
  refine ⟨rfl, ?_⟩
  have hnonempty : (p.raw == "") = false := by
    rw [beq_eq_false_iff_ne]
    intro hraw
    rw [isAbsolute, hraw] at h
    cases h
  unfold join
  rw [hs, if_neg (by simp), hnonempty, Bool.false_or]
  split
  · -- the slash at the end of the path is the one between the two
    rename_i hend
    rw [endsWith_slash_iff] at hend
    obtain ⟨front, hfront⟩ := List.getLast?_eq_some_iff.mp hend
    have hraw : p.raw = String.ofList front ++ "/" ++ "" := by
      apply String.toList_injective
      simp [hfront]
    have hempty : inner "" = [] := rfl
    rw [hraw, inner_append, hempty, List.append_nil]
    show inner (String.ofList front ++ "/" ++ "" ++ s) = _
    rw [String.append_empty, inner_append]
  · exact inner_append p.raw s

/-! ## Components of relative texts -/

theorem components_joinWith {ss : List String} (h : ∀ s ∈ ss, IsSegment s) :
    (Path.mk (joinWith "/" ss)).components = ss.map componentOf := by
  unfold components
  rw [joinWith_not_absolute h, if_neg (by simp)]
  unfold segments
  dsimp only
  rw [joinWith_not_absolute h, if_neg (by simp)]
  cases ss with
  | nil => rfl
  | cons s rest =>
    have hfirst : firstComponent? s = some (componentOf s) := by
      unfold firstComponent?
      rw [if_neg (by simpa using (h s (by simp)).2.1)]
      exact innerComponent?_of_not_blank (h s (by simp)).not_blank
    rw [splitOn_joinWith h (by simp)]
    simp only [List.map_cons, List.map_map, Function.comp_def, String.ofList_toList, List.map_id']
    rw [hfirst, filterMap_innerComponent? fun t ht => h t (List.mem_cons_of_mem _ ht)]
    rfl

theorem join_joinWith {ss : List String} {s : String} (h : ∀ t ∈ ss, IsSegment t) (hs : IsSegment s) :
    (Path.mk (joinWith "/" ss)).join ⟨s⟩ = ⟨joinWith "/" (ss ++ [s])⟩ := by
  unfold join
  rw [not_startsWith_slash hs.2.2, if_neg (by simp)]
  cases ss using List.reverseRecOn with
  | nil => simp [joinWith]
  | append_singleton ss t =>
    have ht := h t (by simp)
    have htlist : t.toList ≠ [] := by simpa using ht.1
    have hlast := getLast?_joinWith ht.1 ss
    have hraw : (joinWith "/" (ss ++ [t]) == "") = false := by
      rw [beq_eq_false_iff_ne]
      intro hraw
      rw [hraw] at hlast
      exact htlist (List.getLast?_eq_none_iff.mp hlast.symm)
    have hend : Refactor.endsWith (joinWith "/" (ss ++ [t])) "/" = false := by
      rw [← Bool.not_eq_true, endsWith_slash_iff, hlast]
      exact fun hslash => ht.2.2 (List.mem_of_getLast? hslash)
    dsimp only
    rw [hraw, hend, if_neg (by simp), @joinWith_append (ss ++ [t]) [s] (by simp) (by simp)]
    rfl

theorem ofComponents_joinWith {ss : List String} (h : ∀ s ∈ ss, IsSegment s) :
    ofComponents (ss.map componentOf) = ⟨joinWith "/" ss⟩ := by
  induction ss using List.reverseRecOn with
  | nil => rfl
  | append_singleton ss s ih =>
    have hss : ∀ t ∈ ss, IsSegment t := fun t ht => h t (List.mem_append_left _ ht)
    unfold ofComponents at ih ⊢
    rw [List.map_append, List.foldl_append, ih hss, List.map_singleton, List.foldl_cons, List.foldl_nil, text_componentOf,
      join_joinWith hss (h s (by simp))]

theorem slashed_joinWith {ss : List String} (h : ∀ s ∈ ss, IsSegment s) :
    (Path.mk (joinWith "/" ss)).slashed = joinWith "/" ss := by
  have hkept : (ss.map componentOf).filter (· != .root) = ss.map componentOf := by
    refine List.filter_eq_self.mpr fun c hc => ?_
    obtain ⟨s, _, rfl⟩ := List.mem_map.mp hc
    unfold componentOf
    split <;> rfl
  unfold slashed
  rw [components_joinWith h, hkept, List.map_map]
  simp only [Function.comp_def, text_componentOf, List.map_id']

/-! ## The way between two directories -/

/-- Segments that climb as often as the first list is long, and go down the second one. -/
def way (up down : List String) : List String := List.replicate up.length ".." ++ down

theorem isSegment_way (up : List String) {down : List String} (h : ∀ s ∈ down, IsName s) : ∀ s ∈ way up down, IsSegment s := by
  intro s hs
  rcases List.mem_append.mp hs with hs | hs
  · rw [List.eq_of_mem_replicate hs]
    exact ⟨by decide, by decide, by decide⟩
  · exact (h s hs).1

theorem map_componentOf_way (up : List String) {down : List String} (h : ∀ s ∈ down, IsName s) :
    (way up down).map componentOf = List.replicate up.length .parent ++ down.map .name := by
  rw [way, List.map_append, List.map_replicate, List.map_congr_left fun s hs => componentOf_name (h s hs)]
  rfl

theorem relativeSteps_append (shared as bs : List Component) :
    relativeSteps (shared ++ as) (shared ++ bs) true = relativeSteps as bs true := by
  induction shared with
  | nil => rfl
  | cons c shared ih =>
    rw [List.cons_append, List.cons_append, relativeSteps, if_pos (by simp), ih]

theorem relativeSteps_climb : ∀ up : List String,
    relativeSteps [] (up.map .name) false = some (List.replicate up.length .parent)
  | [] => rfl
  | n :: up => by
    rw [List.map_cons, relativeSteps, relativeSteps_climb up]
    rfl

/-- The way climbs out of what the two do not share and goes down from there. -/
theorem relativeSteps_names : ∀ ts ds : List String, ∃ shared down up, ts = shared ++ down ∧ ds = shared ++ up ∧
    relativeSteps (ts.map .name) (ds.map .name) true = some (List.replicate up.length .parent ++ down.map .name)
  | [], [] => ⟨[], [], [], rfl, rfl, rfl⟩
  | [], d :: ds => by
    refine ⟨[], [], d :: ds, rfl, rfl, ?_⟩
    rw [List.map_nil, List.map_cons, relativeSteps, relativeSteps_climb, List.append_nil]
    rfl
  | t :: ts, [] => ⟨[], t :: ts, [], rfl, rfl, rfl⟩
  | t :: ts, d :: ds => by
    by_cases hsame : t = d
    · subst hsame
      obtain ⟨shared, down, up, rfl, rfl, hway⟩ := relativeSteps_names ts ds
      refine ⟨t :: shared, down, up, rfl, rfl, ?_⟩
      rw [List.map_cons, List.map_cons, relativeSteps, if_pos (by simp), hway]
    · refine ⟨[], t :: ts, d :: ds, rfl, rfl, ?_⟩
      rw [List.map_cons, List.map_cons, relativeSteps, if_neg (by simp [hsame]), if_neg (by simp), if_neg (by simp)]
      simp [List.replicate_succ, Function.comp_def, List.map_const']

/-- The way from one directory to a path that both go straight down from a place. -/
theorem relativeTo?_names {p dir : Path} {rs ts ds : List String} (hts : ∀ t ∈ ts, IsName t)
    (hp : p.components = .root :: (rs ++ ts).map .name) (hdir : dir.components = .root :: (rs ++ ds).map .name) :
    ∃ shared down up, ts = shared ++ down ∧ ds = shared ++ up ∧ p.relativeTo? dir = some ⟨joinWith "/" (way up down)⟩ := by
  obtain ⟨shared, down, up, rfl, rfl, hway⟩ := relativeSteps_names ts ds
  have hdown : ∀ s ∈ down, IsName s := fun s hs => hts s (List.mem_append_right _ hs)
  refine ⟨shared, down, up, rfl, rfl, ?_⟩
  have hsteps : relativeSteps p.components dir.components true = some ((way up down).map componentOf) := by
    have hboth : ∀ ss : List String, (rs ++ ss).map Component.name =
        rs.map Component.name ++ ss.map Component.name := fun ss => List.map_append
    rw [hp, hdir, map_componentOf_way up hdown, ← hway, hboth, hboth]
    exact relativeSteps_append (.root :: rs.map .name) _ _
  unfold relativeTo?
  rw [isAbsolute_of_components hp, isAbsolute_of_components hdir, if_neg (by simp), hsteps, Option.map_some,
    ofComponents_joinWith (isSegment_way up hdown)]

/-! ## Where the way leads -/

theorem foldl_resolveStep_names (out : List Component) (ss : List String) :
    (ss.map .name).foldl resolveStep out = out ++ ss.map .name := by
  induction ss generalizing out with
  | nil => simp
  | cons s ss ih =>
    rw [List.map_cons, List.foldl_cons, ih]
    simp [resolveStep]

theorem resolveStep_parent (cs : List Component) (s : String) :
    resolveStep (.root :: (cs ++ [.name s])) .parent = .root :: cs := by
  cases cs with
  | nil => rfl
  | cons c cs =>
    show ((.root :: c :: cs) ++ [Component.name s]).dropLast = .root :: c :: cs
    exact List.dropLast_concat

theorem foldl_resolveStep_climb (cs : List Component) (up : List String) :
    (List.replicate up.length .parent).foldl resolveStep (.root :: (cs ++ up.map .name)) = .root :: cs := by
  induction up using List.reverseRecOn with
  | nil => simp
  | append_singleton up s ih =>
    rw [List.length_append, List.length_singleton, List.replicate_succ, List.foldl_cons, List.map_append,
      List.map_singleton, ← List.append_assoc, resolveStep_parent, ih]

/-- A text whose components are a way, joined to the directory where the way starts, leads where the way ends. -/
theorem components_normalize_way {dir : Path} {shared up down : List String} {s : String}
    (hdir : dir.components = .root :: (shared ++ up).map .name) (hnames : ∀ t ∈ shared ++ down, IsName t)
    (hs : (Path.mk s).isAbsolute = false) (hway : inner s = (way up down).map componentOf) :
    ((dir.join ⟨s⟩).normalize).components = .root :: (shared ++ down).map .name := by
  have hdown : ∀ t ∈ down, IsName t := fun t ht => hnames t (List.mem_append_right _ ht)
  have hjoin : (dir.join ⟨s⟩).components =
      .root :: ((shared ++ up).map .name ++ (List.replicate up.length .parent ++ down.map .name)) := by
    rw [components_join (isAbsolute_of_components hdir) hs, hdir, hway, map_componentOf_way up hdown]
    rfl
  have hnormal : (dir.join ⟨s⟩).normalize = pathOf (shared ++ down) := by
    have hstart : ((shared ++ up).map Component.name).foldl resolveStep [.root] =
        .root :: (shared.map .name ++ up.map .name) := by
      rw [foldl_resolveStep_names, List.map_append]
      rfl
    rw [normalize_of_components hjoin, List.foldl_append, List.foldl_append, hstart, foldl_resolveStep_climb,
      foldl_resolveStep_names, List.cons_append, ← List.map_append, ← ofComponents_pathOf fun t ht => (hnames t ht).1,
      List.map_congr_left fun t ht => componentOf_name (hnames t ht)]
  rw [hnormal, components_names hnames]

/-! ## Normal paths -/

/-- An absolute path without a step upwards. -/
structure Normal (p : Path) : Prop where
  absolute : p.isAbsolute = true
  down : .parent ∉ p.components

structure Below (root p : Path) : Prop extends p.Normal where
  inside : p.startsWith root = true
  proper : (p == root) = false

def componentsBelow (root p : Path) : List Component := p.components.drop root.components.length

theorem Below.names {root p : Path} (hroot : root.Normal) (h : root.Below p) : ∃ rs ns : List String,
    (∀ n ∈ rs ++ ns, IsName n) ∧ ns ≠ [] ∧ root.components = .root :: rs.map .name ∧
      p.components = .root :: (rs ++ ns).map .name ∧ root.componentsBelow p = ns.map .name := by
  obtain ⟨rs, _, hrs⟩ := components_down hroot.absolute hroot.down
  obtain ⟨names, hnames, hp⟩ := components_down h.absolute h.down
  obtain ⟨rest, hrest⟩ := (startsWith_iff p root).mp h.inside
  rw [hrs, hp, List.cons_append, List.cons.injEq] at hrest
  obtain ⟨rs', ns, rfl, hsame, rfl⟩ := List.map_eq_append_iff.mp hrest.2.symm
  obtain rfl : rs' = rs := List.map_injective_iff.mpr (fun a b hab => by injection hab) hsame
  refine ⟨rs', ns, hnames, ?_, hrs, hp, ?_⟩
  · rintro rfl
    have hproper := h.proper
    rw [← Bool.not_eq_true, beq_iff, hrs, hp, List.append_nil] at hproper
    exact hproper rfl
  · rw [componentsBelow, hrs, hp, List.map_append]
    simp

/-- A path below a root ends in a name that stands below the root. -/
theorem Below.last {root p : Path} (hroot : root.Normal) (h : root.Below p) {rs : List String}
    (hrs : root.components = .root :: rs.map .name) : ∃ is n, p.components = .root :: ((rs ++ is).map .name ++ [.name n]) ∧
      .name n ∈ root.componentsBelow p := by
  obtain ⟨rs', ns, -, hne, hrs', hp, hbelow⟩ := h.names hroot
  obtain rfl : rs' = rs := by
    rw [hrs, List.cons.injEq] at hrs'
    exact List.map_injective_iff.mpr (fun a b hab => by injection hab) hrs'.2.symm
  obtain ⟨is, n, rfl⟩ := List.eq_nil_or_concat ns |>.resolve_left hne
  exact ⟨is, n, by rw [hp]; simp, by rw [hbelow]; simp⟩

/-- The directory of a path below a root lies in the root, and the path has one name more. -/
theorem Below.parent? {root p : Path} (hroot : root.Normal) (h : root.Below p) {rs : List String}
    (hrs : root.components = .root :: rs.map .name) : ∃ is n dir, p.parent? = some dir ∧
      dir.components = .root :: (rs ++ is).map .name ∧ p.components = dir.components ++ [.name n] := by
  obtain ⟨is, n, hlast, -⟩ := h.last hroot hrs
  obtain ⟨dir, hdir, hcomponents⟩ := components_parent? hlast
  exact ⟨is, n, dir, hdir, hcomponents, by rw [hcomponents, hlast]; rfl⟩

end Path

end Refactor
