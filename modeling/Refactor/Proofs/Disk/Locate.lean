import Refactor.Proofs.Disk.Entries
import Refactor.Proofs.Path.Inside

/-!
# Where a path leads

Without links, a path leads to one place whatever the tree holds; the tree only decides whether it gets there.

* `Tree.landing`, `Tree.trail` — where steps lead, and the places they go down to on the way
* `Tree.locate_eq_ok_iff` — a path leads to its place when everything before its last step is a directory
* `Tree.finds_names_iff` — a path that goes straight down finds what stands at its names
* `Tree.isDir_parent?` — a file lies in the directory that its parent names
-/

namespace Refactor.Tree

open Path (IsName IsSegment componentOf isBlankSegment)

/-! ## Steps -/

/-- Where steps from a place lead. -/
def landing (here : Place) : List String → Place
  | [] => here
  | s :: rest =>
    if s == "." then landing here rest
    else if s == ".." then landing here.dropLast rest
    else landing (here ++ [s]) rest

/-- The places that steps go down to. -/
def trail (here : Place) : List String → List Place
  | [] => []
  | s :: rest =>
    if s == "." then trail here rest
    else if s == ".." then trail here.dropLast rest
    else (here ++ [s]) :: trail (here ++ [s]) rest

theorem landing_append (as bs : List String) : ∀ here, landing here (as ++ bs) = landing (landing here as) bs := by
  induction as with
  | nil => exact fun _ => rfl
  | cons a as ih =>
    intro here
    simp only [List.cons_append, landing]
    split_ifs <;> exact ih _

theorem trail_append (as bs : List String) : ∀ here,
    trail here (as ++ bs) = trail here as ++ trail (landing here as) bs := by
  induction as with
  | nil => exact fun _ => rfl
  | cons a as ih =>
    intro here
    simp only [List.cons_append, landing, trail]
    split_ifs
    · exact ih _
    · exact ih _
    · rw [ih]
      rfl

theorem landing_filter : ∀ (ss : List String) (here : Place), landing here (ss.filter (· != ".")) = landing here ss
  | [], _ => rfl
  | s :: rest, here => by
    by_cases h : s = "."
    · subst h
      exact landing_filter rest here
    · rw [List.filter_cons, if_pos (by simpa using h), landing, landing]
      have hdot : (s == ".") = false := by simpa using h
      simp only [hdot, Bool.false_eq_true, if_false]
      split_ifs <;> exact landing_filter rest _

theorem trail_filter : ∀ (ss : List String) (here : Place), trail here (ss.filter (· != ".")) = trail here ss
  | [], _ => rfl
  | s :: rest, here => by
    by_cases h : s = "."
    · subst h
      simp [trail, trail_filter rest here]
    · have hbne : (s != ".") = true := by simpa using h
      rw [List.filter_cons, if_pos hbne]
      simp only [trail, trail_filter rest]

variable {t : Tree}

/-- What stops a walk before its last step: the first place on the way that is no directory. -/
def Stops (t : Tree) (route : List Place) (e : SystemFault) : Prop :=
  ∃ before q after, route = before ++ q :: after ∧ (∀ p ∈ before, t.get? p = some .dir) ∧
    ((e = .notFound ∧ t.get? q = none) ∨ (e = .notDirectory ∧ ∃ b, t.get? q = some (.file b)))

/-- A walk gets to its end over directories, or it is stopped by something that is none. -/
theorem walk_cases (h : t.WellFormed) (follow : Bool) (links : Nat) : ∀ (ss : List String) (fuel : Nat) (here : Place),
    ss.length < fuel →
    (t.walk follow fuel links here ss = .ok (landing here ss) ∧
      ∀ q ∈ trail here ss.dropLast, t.get? q = some .dir) ∨
    ∃ e, t.walk follow fuel links here ss = .error e ∧ t.Stops (trail here ss.dropLast) e
  | [], fuel + 1, here, _ => Or.inl ⟨rfl, by simp [trail]⟩
  | s :: rest, fuel + 1, here, hfuel => by
    have ih := fun here' => walk_cases h follow links rest fuel here' (by simpa using hfuel)
    rw [walk, landing]
    by_cases hdot : s = "."
    · subst hdot
      have htrail : trail here ("." :: rest).dropLast = trail here rest.dropLast := by cases rest <;> rfl
      rw [htrail]
      exact ih here
    by_cases hdots : s = ".."
    · subst hdots
      have htrail : trail here (".." :: rest).dropLast = trail here.dropLast rest.dropLast := by cases rest <;> rfl
      rw [htrail]
      exact ih here.dropLast
    simp only [beq_iff_eq, hdot, hdots, if_false]
    cases rest with
    | nil =>
      refine Or.inl ⟨?_, by simp [trail]⟩
      split
      · rfl
      · rfl
      · cases fuel with
        | zero => simp at hfuel
        | succ fuel => rfl
      · rename_i target hlink
        exact absurd hlink (h.noLinks _ _)
    | cons r rest =>
      have htrail : trail here (s :: r :: rest).dropLast =
          (here ++ [s]) :: trail (here ++ [s]) (r :: rest).dropLast := by
        rw [List.dropLast_cons_cons, trail]
        simp [hdot, hdots]
      rw [htrail]
      split
      · rename_i hnone
        exact Or.inr ⟨.notFound, rfl, [], _, _, rfl, by simp, Or.inl ⟨rfl, hnone⟩⟩
      · rename_i b hfile
        exact Or.inr ⟨.notDirectory, rfl, [], _, _, rfl, by simp, Or.inr ⟨rfl, b, hfile⟩⟩
      · rename_i hdir
        rcases ih (here ++ [s]) with ⟨hok, hdirs⟩ | ⟨e, herror, before, q, after, hroute, hbefore, hcase⟩
        · refine Or.inl ⟨hok, fun q hq => ?_⟩
          rcases List.mem_cons.mp hq with rfl | hq
          · exact hdir
          · exact hdirs q hq
        · exact Or.inr ⟨e, herror, _ :: before, q, after, by rw [hroute]; rfl,
            List.forall_mem_cons.mpr ⟨hdir, hbefore⟩, hcase⟩
      · rename_i target hlink
        exact absurd hlink (h.noLinks _ _)

/-! ## Places of paths -/

/-- The place that a path leads to. -/
def placeOf (p : Path) : Place := landing [] (steps p.raw)

def routeOf (p : Path) : List Place := trail [] (steps p.raw).dropLast

theorem locate_cases (h : t.WellFormed) (follow : Bool) {p : Path} (hp : p.raw ≠ "") :
    (t.locate follow p = .ok (placeOf p) ∧ ∀ q ∈ routeOf p, t.get? q = some .dir) ∨
    ∃ e, t.locate follow p = .error e ∧ t.Stops (routeOf p) e := by
  unfold locate
  rw [beq_eq_false_iff_ne.mpr hp, if_neg (by simp)]
  exact walk_cases h follow 0 (steps p.raw) _ [] (by omega)

/-- A path leads to its place when its way is there. -/
theorem locate_eq_ok_iff (h : t.WellFormed) (follow : Bool) (p : Path) (place : Place) :
    t.locate follow p = .ok place ↔
      p.raw ≠ "" ∧ place = placeOf p ∧ ∀ q ∈ routeOf p, t.get? q = some .dir := by
  by_cases hp : p.raw = ""
  · simp [locate, hp]
  rcases locate_cases h follow hp with ⟨hok, hroute⟩ | ⟨e, herror, before, q, after, heq, _, hcase⟩
  · rw [hok, Except.ok.injEq]
    exact ⟨fun heq => ⟨hp, heq.symm, hroute⟩, fun hplace => hplace.2.1.symm⟩
  · rw [herror]
    refine ⟨fun heq => (by cases heq), fun hplace => ?_⟩
    have hdir := hplace.2.2 q (by rw [heq]; simp)
    rcases hcase with ⟨_, hnone⟩ | ⟨_, b, hfile⟩
    · rw [hnone] at hdir
      cases hdir
    · rw [hfile] at hdir
      cases hdir

theorem entry_eq_ok_iff (follow : Bool) (p : Path) (place : Place) (e : Entry) :
    t.entry follow p = .ok (place, e) ↔ t.locate follow p = .ok place ∧ t.get? place = some e := by
  unfold entry
  show (t.locate follow p >>= _) = _ ↔ _
  cases hlocate : t.locate follow p with
  | error f => simp [bind, Except.bind]
  | ok q =>
    simp only [bind, Except.bind, Except.ok.injEq]
    cases hq : t.get? q with
    | none =>
      simp only [reduceCtorEq, false_iff, not_and]
      rintro rfl
      simp [hq]
    | some f =>
      simp only [Except.ok.injEq, Prod.mk.injEq]
      constructor
      · rintro ⟨rfl, rfl⟩
        exact ⟨rfl, hq⟩
      · rintro ⟨rfl, he⟩
        exact ⟨rfl, by simpa [hq] using he⟩

/-- Something that a path finds, whether links are followed or not. -/
def Finds (t : Tree) (p : Path) (e : Entry) : Prop :=
  p.raw ≠ "" ∧ (∀ q ∈ routeOf p, t.get? q = some .dir) ∧ t.get? (placeOf p) = some e

theorem entry_eq_ok_iff_finds (h : t.WellFormed) (follow : Bool) (p : Path) (place : Place) (e : Entry) :
    t.entry follow p = .ok (place, e) ↔ place = placeOf p ∧ t.Finds p e := by
  rw [entry_eq_ok_iff, locate_eq_ok_iff h]
  constructor
  · rintro ⟨⟨hp, rfl, hroute⟩, he⟩
    exact ⟨rfl, hp, hroute, he⟩
  · rintro ⟨rfl, hp, hroute, he⟩
    exact ⟨⟨hp, rfl, hroute⟩, he⟩

theorem exists?_iff (h : t.WellFormed) (p : Path) : t.exists? p = true ↔ ∃ e, t.Finds p e := by
  unfold exists?
  constructor
  · intro hok
    cases hentry : t.entry true p with
    | error f => rw [hentry] at hok; cases hok
    | ok found => exact ⟨found.2, ((entry_eq_ok_iff_finds h true p found.1 found.2).mp hentry).2⟩
  · rintro ⟨e, he⟩
    rw [(entry_eq_ok_iff_finds h true p _ e).mpr ⟨rfl, he⟩]
    rfl

theorem isDir_iff (h : t.WellFormed) (p : Path) : t.isDir p = true ↔ t.Finds p .dir := by
  unfold isDir
  constructor
  · intro hdir
    split at hdir
    · rename_i place hentry
      exact ((entry_eq_ok_iff_finds h true p place .dir).mp hentry).2
    · cases hdir
  · intro hfinds
    rw [(entry_eq_ok_iff_finds h true p _ .dir).mpr ⟨rfl, hfinds⟩]

theorem read_eq_ok_iff (h : t.WellFormed) (p : Path) (b : ByteArray) : t.read p = .ok b ↔ t.Finds p (.file b) := by
  unfold read
  constructor
  · intro hread
    split at hread
    · rename_i place content hentry
      cases hread
      exact ((entry_eq_ok_iff_finds h true p place _).mp hentry).2
    all_goals cases hread
  · intro hfinds
    rw [(entry_eq_ok_iff_finds h true p _ _).mpr ⟨rfl, hfinds⟩]

/-! ## Paths that go straight down -/

theorem steps_pathOf {ss : List String} (hne : ss ≠ []) (h : ∀ s ∈ ss, IsSegment s) : steps (pathOf ss).raw = ss := by
  unfold steps
  dsimp only
  rw [Path.not_endsWith_slash hne h, if_neg (by simp), Path.pathOf_toList, List.splitOn_cons_eq_if_modifyHead]
  simp only [beq_self_eq_true, if_true]
  rw [List.splitOn_intercalate]
  · simp only [List.map_cons, List.map_map, Function.comp_def, String.ofList_toList, List.map_id']
    rw [List.filter_cons, if_neg (by simp), List.filter_eq_self]
    exact fun s hs => by simpa using (h s hs).1
  · simpa using fun s hs => (h s hs).2.2
  · simpa using hne

theorem steps_top : steps (pathOf []).raw = ["."] := by decide

theorem landing_names : ∀ {ss : List String} (here : Place), (∀ s ∈ ss, IsName s) → landing here ss = here ++ ss
  | [], here, _ => by simp [landing]
  | s :: rest, here, h => by
    have hs := h s (by simp)
    rw [landing, if_neg (by simpa using hs.1.2.1), if_neg (by simpa using hs.2),
      landing_names _ fun r hr => h r (by simp [hr])]
    simp

theorem mem_trail_names : ∀ {ss : List String} {here q : Place}, (∀ s ∈ ss, IsName s) →
    (q ∈ trail here ss ↔ ∃ front, front <+: ss ∧ front ≠ [] ∧ q = here ++ front)
  | [], here, q, _ => by simp [trail]
  | s :: rest, here, q, h => by
    have hs := h s (by simp)
    rw [trail, if_neg (by simpa using hs.1.2.1), if_neg (by simpa using hs.2), List.mem_cons,
      mem_trail_names fun r hr => h r (by simp [hr])]
    constructor
    · rintro (rfl | ⟨front, hfront, hne, rfl⟩)
      · exact ⟨[s], by simp, by simp, rfl⟩
      · exact ⟨s :: front, by simpa using hfront, by simp, by simp⟩
    · rintro ⟨front, hfront, hne, rfl⟩
      cases front with
      | nil => exact absurd rfl hne
      | cons f front =>
        obtain ⟨rfl, htail⟩ := List.cons_prefix_cons.mp hfront
        cases front with
        | nil => exact Or.inl rfl
        | cons g front => exact Or.inr ⟨g :: front, htail, by simp, by simp⟩

theorem trail_names_pairwise : ∀ {ss : List String} {here : Place}, (∀ s ∈ ss, IsName s) →
    (trail here ss).Pairwise fun p q => p.length < q.length
  | [], here, _ => by simp [trail]
  | s :: rest, here, h => by
    have hs := h s (by simp)
    have hrest : ∀ r ∈ rest, IsName r := fun r hr => h r (by simp [hr])
    rw [trail, if_neg (by simpa using hs.1.2.1), if_neg (by simpa using hs.2)]
    refine List.pairwise_cons.mpr ⟨fun q hq => ?_, trail_names_pairwise hrest⟩
    obtain ⟨front, _, hne, rfl⟩ := (mem_trail_names hrest).mp hq
    rw [@List.length_append _ (here ++ [s]) front]
    exact Nat.lt_add_of_pos_right (List.length_pos_of_ne_nil hne)

theorem placeOf_names {ss : List String} (h : ∀ s ∈ ss, IsName s) : placeOf (pathOf ss) = ss := by
  unfold placeOf
  cases ss with
  | nil => rw [steps_top]; rfl
  | cons s rest => rw [steps_pathOf (by simp) fun s hs => (h s hs).1, landing_names [] h, List.nil_append]

theorem mem_routeOf_names {ss : List String} (h : ∀ s ∈ ss, IsName s) {q : Place} :
    q ∈ routeOf (pathOf ss) ↔ q <+: ss.dropLast ∧ q ≠ [] := by
  unfold routeOf
  cases ss with
  | nil =>
    rw [steps_top]
    simp [trail]
  | cons s rest =>
    rw [steps_pathOf (by simp) fun s hs => (h s hs).1,
      mem_trail_names fun n hn => h n (List.dropLast_subset _ hn)]
    simp

theorem routeOf_names_pairwise {ss : List String} (h : ∀ s ∈ ss, IsName s) :
    (routeOf (pathOf ss)).Pairwise fun p q => p.length < q.length := by
  unfold routeOf
  cases ss with
  | nil =>
    rw [steps_top]
    exact List.Pairwise.nil
  | cons s rest =>
    rw [steps_pathOf (by simp) fun s hs => (h s hs).1]
    exact trail_names_pairwise fun n hn => h n (List.dropLast_subset _ hn)

theorem route_names_iff (h : t.WellFormed) {ss : List String} (hss : ∀ s ∈ ss, IsName s) :
    (∀ q ∈ routeOf (pathOf ss), t.get? q = some .dir) ↔ t.get? ss.dropLast = some .dir := by
  constructor
  · intro hroute
    by_cases hnil : ss.dropLast = []
    · rw [hnil]
      rfl
    · exact hroute _ ((mem_routeOf_names hss).mpr ⟨List.prefix_rfl, hnil⟩)
  · intro hdir q hq
    obtain ⟨⟨rest, hrest⟩, _⟩ := (mem_routeOf_names hss).mp hq
    by_cases hnil : rest = []
    · simpa [hnil, hdir] using congrArg t.get? hrest
    · exact h.dir_of_lt rest hnil (by rw [hrest, hdir]; simp)

theorem finds_names_iff (h : t.WellFormed) {ss : List String} (hss : ∀ s ∈ ss, IsName s) (e : Entry) :
    t.Finds (pathOf ss) e ↔ t.get? ss = some e := by
  unfold Finds
  rw [placeOf_names hss, route_names_iff h hss]
  refine ⟨fun hfinds => hfinds.2.2, fun hget => ⟨by simpa using Path.raw_pathOf_ne ss, ?_, hget⟩⟩
  cases ss using List.reverseRecOn with
  | nil => rfl
  | append_singleton ss s =>
    rw [List.dropLast_concat]
    exact h.parents ss s (by rw [hget]; simp)

theorem read_names_iff (h : t.WellFormed) {ss : List String} (hss : ∀ s ∈ ss, IsName s) {b : ByteArray} :
    t.read (pathOf ss) = .ok b ↔ t.fileAt ss = some b := by
  rw [fileAt_eq_some_iff, ← finds_names_iff h hss, ← read_eq_ok_iff h]

theorem exists?_names_iff (h : t.WellFormed) {ss : List String} (hss : ∀ s ∈ ss, IsName s) :
    t.exists? (pathOf ss) = true ↔ t.get? ss ≠ none := by
  rw [exists?_iff h, Option.ne_none_iff_exists']
  exact exists_congr fun e => finds_names_iff h hss e

theorem isDir_names_iff (h : t.WellFormed) {ss : List String} (hss : ∀ s ∈ ss, IsName s) :
    t.isDir (pathOf ss) = true ↔ t.get? ss = some .dir := by
  rw [isDir_iff h, finds_names_iff h hss]

theorem locate_names_iff (h : t.WellFormed) (follow : Bool) {ss : List String} (hss : ∀ s ∈ ss, IsName s)
    (place : Place) : t.locate follow (pathOf ss) = .ok place ↔ place = ss ∧ t.get? ss.dropLast = some .dir := by
  rw [locate_eq_ok_iff h, placeOf_names hss, route_names_iff h hss]
  simp [(by simpa using Path.raw_pathOf_ne ss : (pathOf ss).raw ≠ "")]

/-! ## Parents -/

theorem no_slash_of_mem_steps {raw s : String} (h : s ∈ steps raw) : s ≠ "" ∧ '/' ∉ s.toList := by
  have hnames : s ∈ ((raw.toList.splitOn '/').map String.ofList).filter (· != "") ∨ s = "." := by
    unfold steps at h
    dsimp only at h
    split at h
    · simpa using h
    · exact Or.inl h
  rcases hnames with hnames | rfl
  · obtain ⟨hmem, hne⟩ := List.mem_filter.mp hnames
    obtain ⟨part, hpart, rfl⟩ := List.mem_map.mp hmem
    exact ⟨by simpa using hne, by simpa using Text.not_mem_of_mem_splitOn hpart⟩
  · decide

/-- Steps over directories end in one. -/
theorem dir_landing (h : t.WellFormed) : ∀ (ss : List String) (here : Place), t.get? here = some .dir →
    (∀ q ∈ trail here ss, t.get? q = some .dir) → t.get? (landing here ss) = some .dir
  | [], _, hhere, _ => hhere
  | s :: rest, here, hhere, htrail => by
    rw [trail] at htrail
    rw [landing]
    split_ifs at htrail ⊢ with hdot hdots
    · exact dir_landing h rest here hhere htrail
    · refine dir_landing h rest here.dropLast ?_ htrail
      cases here using List.reverseRecOn with
      | nil => rfl
      | append_singleton here n =>
        rw [List.dropLast_concat]
        exact h.parents here n (by rw [hhere]; simp)
    · exact dir_landing h rest (here ++ [s]) (htrail _ (by simp)) fun q hq => htrail q (by simp [hq])

/-- A path whose way is there leads to a directory, or to a name in one. -/
theorem placeOf_cases (h : t.WellFormed) {p : Path} (hroute : ∀ q ∈ routeOf p, t.get? q = some .dir) :
    t.get? (placeOf p) = some .dir ∨
      ∃ d s, placeOf p = d ++ [s] ∧ IsName s ∧ t.get? d = some .dir ∧ steps p.raw = (steps p.raw).dropLast ++ [s] := by
  unfold placeOf routeOf at *
  have hslash : ∀ s ∈ steps p.raw, s ≠ "" ∧ '/' ∉ s.toList := fun s hs => no_slash_of_mem_steps hs
  generalize steps p.raw = ss at *
  cases ss using List.reverseRecOn with
  | nil => exact Or.inl rfl
  | append_singleton ss s =>
    rw [List.dropLast_concat] at hroute ⊢
    have hdir := dir_landing h ss [] rfl hroute
    rw [landing_append]
    by_cases hdot : s = "."
    · subst hdot
      exact Or.inl hdir
    by_cases hdots : s = ".."
    · subst hdots
      refine Or.inl (dir_landing h [".."] _ hdir (by simp [trail]))
    · have hs := hslash s (by simp)
      exact Or.inr ⟨landing [] ss, s, by simp [landing, hdot, hdots], ⟨⟨hs.1, hdot, hs.2⟩, hdots⟩, hdir, rfl⟩

theorem steps_of_absolute {p : Path} (h : p.isAbsolute = true) :
    (steps p.raw).filter (· != ".") = p.components.tail.map Component.text := by
  have hsplit : (p.raw.toList.splitOn '/').map String.ofList = "" :: p.segments := by
    have hraw : ∃ cs, p.raw.toList = '/' :: cs := by
      unfold Path.isAbsolute Refactor.startsWith at h
      cases hlist : p.raw.toList with
      | nil => rw [hlist] at h; cases h
      | cons c cs =>
        rw [hlist] at h
        simp only [String.reduceToList, List.isPrefixOf, Bool.and_true, beq_iff_eq] at h
        exact ⟨cs, by rw [h]⟩
    obtain ⟨cs, hcs⟩ := hraw
    unfold Path.segments
    dsimp only
    rw [h, if_pos rfl, hcs, List.splitOn_cons_eq_if_modifyHead]
    simp
  have hcomponents : (p.segments.filterMap Path.innerComponent?).map Component.text =
      (p.segments.filter (· != "")).filter (· != ".") := by
    induction p.segments with
    | nil => rfl
    | cons s rest ih =>
      by_cases hempty : s = ""
      · subst hempty
        simpa [Path.innerComponent?] using ih
      by_cases hdot : s = "."
      · subst hdot
        simpa [Path.innerComponent?] using ih
      · have hblank : isBlankSegment s = false := by simp [isBlankSegment, hempty, hdot]
        rw [List.filterMap_cons, Path.innerComponent?_of_not_blank hblank]
        simp only [List.map_cons, Path.text_componentOf, ih]
        simp [hempty, hdot]
  rw [Path.components_of_absolute h, List.tail_cons, hcomponents]
  unfold steps
  dsimp only
  rw [hsplit]
  split <;> simp [List.filter_append]

theorem placeOf_congr {p q : Path} (h : p.isAbsolute = true) (hpq : p.components = q.components) :
    placeOf p = placeOf q := by
  have hq : q.isAbsolute = true := Path.isAbsolute_of_components (hpq ▸ Path.components_of_absolute h)
  unfold placeOf
  rw [← landing_filter (steps p.raw), ← landing_filter (steps q.raw), steps_of_absolute h, steps_of_absolute hq, hpq]

theorem Finds.dir_mono {t' : Tree} {p : Path} (h : t.Finds p .dir)
    (hdirs : ∀ q, t.get? q = some .dir → t'.get? q = some .dir) : t'.Finds p .dir :=
  ⟨h.1, fun q hq => hdirs q (h.2.1 q hq), hdirs _ h.2.2⟩

theorem isDir_of_trail (h : t.WellFormed) {p : Path} (hp : p.raw ≠ "")
    (htrail : ∀ q ∈ trail [] (steps p.raw), t.get? q = some .dir) : t.isDir p = true := by
  refine (isDir_iff h p).mpr ⟨hp, fun q hq => htrail q ?_, dir_landing h _ [] rfl htrail⟩
  unfold routeOf at hq
  generalize steps p.raw = ss at *
  cases ss using List.reverseRecOn with
  | nil => exact hq
  | append_singleton ss s =>
    rw [List.dropLast_concat] at hq
    rw [trail_append]
    exact List.mem_append_left _ hq

/-- The parent of the path of a file is the directory that the file lies in. -/
theorem isDir_parent? (h : t.WellFormed) {p : Path} (habs : p.isAbsolute = true)
    (hroute : ∀ q ∈ routeOf p, t.get? q = some .dir) (hfile : t.get? (placeOf p) ≠ some .dir) :
    ∃ dir, p.parent? = some dir ∧ t.isDir dir = true := by
  obtain hdir | ⟨d, s, hplace, hs, hd, hsteps⟩ := placeOf_cases h hroute
  · exact absurd hdir hfile
  have hdot : (s != ".") = true := by simpa using hs.1.2.1
  have htexts := steps_of_absolute habs
  rw [hsteps, List.filter_append, List.filter_cons, if_pos hdot, List.filter_nil] at htexts
  obtain ⟨cs, c, hcomponents, hcs⟩ : ∃ cs c, p.components = .root :: (cs ++ [c]) ∧
      cs.map Component.text = (steps p.raw).dropLast.filter (· != ".") := by
    rw [Path.components_of_absolute habs, List.tail_cons] at htexts
    obtain ⟨cs, last, hsplit, hcs, hlast⟩ := List.map_eq_append_iff.mp htexts.symm
    obtain ⟨c, rfl, _⟩ : ∃ c, last = [c] ∧ c.text = s := by
      cases last with
      | nil => simp at hlast
      | cons c rest => simpa [and_comm] using hlast
    exact ⟨cs, c, by rw [Path.components_of_absolute habs, hsplit], hcs⟩
  obtain ⟨dir, hparent, hdir⟩ := Path.components_parent? hcomponents
  have hdirabs := Path.isAbsolute_of_components hdir
  refine ⟨dir, hparent, isDir_of_trail h ?_ fun q hq => hroute q ?_⟩
  · intro hraw
    rw [Path.isAbsolute, hraw] at hdirabs
    cases hdirabs
  · rw [← trail_filter, steps_of_absolute hdirabs, hdir, List.tail_cons, hcs, trail_filter] at hq
    exact hq

end Refactor.Tree
