import Mathlib.Data.List.DropRight
import Mathlib.Data.List.Infix
import Refactor.Disk.Walk
import Refactor.Proofs.Path.Order
import Refactor.Proofs.Text.Searches

/-!
# Paths and their segments

An absolute path is read segment by segment. Segments that are empty or a dot carry no component, so the cuts of
a path can be said on its segments alone.

* `Path.IsSegment`, `Path.IsName` — segments that carry a component, and those that go down
* `Path.segments_pathOf`, `Path.components_pathOf` — reading a path that was written from segments
* `Path.segments_of_components` — the segment that carries the last component
* `Path.parent?_of_absolute`, `Path.components_parent?` — the parent of an absolute path
* `Path.parent?_pathOf`, `Path.ancestors_pathOf`, `Path.join_pathOf` — cuts and joins of written paths
-/

namespace Refactor

open Tree (pathOf)

/-! ## Joined texts -/

theorem toList_joinWith (sep : String) : ∀ ss : List String,
    (joinWith sep ss).toList = sep.toList.intercalate (ss.map String.toList)
  | [] => rfl
  | [s] => by simp [joinWith]
  | s :: t :: rest => by
    rw [joinWith, String.toList_append, String.toList_append, toList_joinWith sep (t :: rest)]
    simp [List.intercalate]

theorem joinWith_toList (ss : List String) : (joinWith "/" ss).toList = ['/'].intercalate (ss.map String.toList) :=
  toList_joinWith "/" ss

theorem joinWith_append : ∀ {ss ts : List String}, ss ≠ [] → ts ≠ [] →
    joinWith "/" (ss ++ ts) = joinWith "/" ss ++ "/" ++ joinWith "/" ts
  | [a], t :: ts, _, _ => by simp [joinWith]
  | a :: b :: ss, ts, _, hts => by
    have ih := @joinWith_append (b :: ss) ts (by simp) hts
    simp only [List.cons_append, joinWith] at ih ⊢
    rw [ih]
    simp [String.append_assoc]

namespace Path

/-! ## Segments -/

/-- A segment that carries a component. -/
def IsSegment (s : String) : Prop := s ≠ "" ∧ s ≠ "." ∧ '/' ∉ s.toList

/-- A segment that goes down. -/
def IsName (s : String) : Prop := IsSegment s ∧ s ≠ ".."

instance : DecidablePred IsName := fun s =>
  inferInstanceAs (Decidable ((s ≠ "" ∧ s ≠ "." ∧ '/' ∉ s.toList) ∧ s ≠ ".."))

def isBlankSegment (s : String) : Bool := s == "" || s == "."

theorem IsSegment.not_blank {s : String} (h : IsSegment s) : isBlankSegment s = false := by
  simp [isBlankSegment, h.1, h.2.1]

theorem pathOf_toList (ss : List String) : (pathOf ss).raw.toList = '/' :: ['/'].intercalate (ss.map String.toList) := by
  rw [pathOf, String.toList_append, joinWith_toList]
  rfl

theorem isAbsolute_pathOf (ss : List String) : (pathOf ss).isAbsolute = true := by
  simp [isAbsolute, Refactor.startsWith, pathOf_toList]

theorem segments_pathOf {ss : List String} (hne : ss ≠ []) (h : ∀ s ∈ ss, '/' ∉ s.toList) :
    (pathOf ss).segments = ss := by
  unfold segments
  dsimp only
  rw [isAbsolute_pathOf, if_pos rfl, pathOf_toList, List.splitOn_cons_eq_if_modifyHead]
  simp only [beq_self_eq_true, if_true, List.map_cons, List.drop_succ_cons, List.drop_zero]
  rw [List.splitOn_intercalate]
  · simp [Function.comp_def]
  · simpa using h
  · simpa using hne

theorem no_slash_of_mem_segments {p : Path} {s : String} (h : s ∈ p.segments) : '/' ∉ s.toList := by
  have hall : s ∈ (p.raw.toList.splitOn '/').map String.ofList := by
    unfold segments at h
    dsimp only at h
    split at h
    · exact List.mem_of_mem_drop h
    · exact h
  obtain ⟨part, hpart, rfl⟩ := List.mem_map.mp hall
  simpa using Text.not_mem_of_mem_splitOn hpart

/-! ## Components -/

def componentOf (s : String) : Component := if s == ".." then .parent else .name s

theorem innerComponent?_of_blank {s : String} (h : isBlankSegment s = true) : innerComponent? s = none := by
  unfold innerComponent?
  exact if_pos h

theorem innerComponent?_of_not_blank {s : String} (h : isBlankSegment s = false) :
    innerComponent? s = some (componentOf s) := by
  unfold innerComponent? componentOf
  rw [if_neg (by rw [isBlankSegment] at h; simp [h])]
  split <;> rfl

theorem components_of_absolute {p : Path} (h : p.isAbsolute = true) :
    p.components = .root :: p.segments.filterMap innerComponent? := by
  unfold components
  rw [if_pos h]

theorem components_pathOf {ss : List String} (h : ∀ s ∈ ss, '/' ∉ s.toList) :
    (pathOf ss).components = .root :: ss.filterMap innerComponent? := by
  rw [components_of_absolute (isAbsolute_pathOf ss)]
  cases ss with
  | nil => rfl
  | cons s rest => rw [segments_pathOf (by simp) h]

theorem filterMap_innerComponent? {ss : List String} (h : ∀ s ∈ ss, IsSegment s) :
    ss.filterMap innerComponent? = ss.map componentOf := by
  rw [← List.filterMap_eq_map]
  refine List.filterMap_congr fun s hs => ?_
  exact innerComponent?_of_not_blank (h s hs).not_blank

theorem componentOf_name {s : String} (h : IsName s) : componentOf s = .name s := by
  simp [componentOf, h.2]

theorem components_names {ss : List String} (h : ∀ s ∈ ss, IsName s) :
    (pathOf ss).components = .root :: ss.map .name := by
  rw [components_pathOf fun s hs => (h s hs).1.2.2, filterMap_innerComponent? fun s hs => (h s hs).1]
  congr 1
  exact List.map_congr_left fun s hs => componentOf_name (h s hs)

theorem pathOf_beq_iff {ss ts : List String} (hs : ∀ s ∈ ss, IsName s) (ht : ∀ t ∈ ts, IsName t) :
    (pathOf ss == pathOf ts) = true ↔ ss = ts := by
  rw [beq_iff, components_names hs, components_names ht, List.cons.injEq]
  constructor
  · rintro ⟨_, h⟩
    exact (List.map_injective_iff.mpr fun a b hab => by injection hab) h
  · rintro rfl
    exact ⟨rfl, rfl⟩

theorem isAbsolute_of_components {p : Path} {cs : List Component} (h : p.components = .root :: cs) :
    p.isAbsolute = true := by
  by_contra habs
  have hinner : ∀ s c, innerComponent? s = some c → c ≠ .root := by
    intro s c hc
    unfold innerComponent? at hc
    split at hc
    · cases hc
    · split at hc <;> cases hc <;> simp
  unfold components at h
  rw [if_neg habs] at h
  split at h
  · cases h
  · rename_i first rest _
    have hmem : Component.root ∈ (firstComponent? first).toList ++ rest.filterMap innerComponent? := by simp [h]
    rcases List.mem_append.mp hmem with hmem | hmem
    · rw [Option.mem_toList] at hmem
      unfold firstComponent? at hmem
      split at hmem
      · cases hmem
      · exact hinner _ _ hmem rfl
    · obtain ⟨s, _, hs⟩ := List.mem_filterMap.mp hmem
      exact hinner _ _ hs rfl

/-! ## Parents -/

theorem trimmedSegments_of_absolute {p : Path} (h : p.isAbsolute = true) :
    p.trimmedSegments = p.segments.rdropWhile isBlankSegment := by
  unfold trimmedSegments
  split
  · rename_i hs
    simp [hs]
  · rename_i first rest hs
    have hblank : (first == "" || (first == "." && p.isAbsolute)) = isBlankSegment first := by
      simp [h, isBlankSegment]
    have hrest : (rest.reverse.dropWhile fun s => s == "" || s == ".").reverse = rest.rdropWhile isBlankSegment := rfl
    rw [hs, hrest, hblank]
    have hcons : (first :: rest).rdropWhile isBlankSegment =
        if rest.rdropWhile isBlankSegment = [] then [first].rdropWhile isBlankSegment
        else first :: rest.rdropWhile isBlankSegment := by
      unfold List.rdropWhile
      rw [List.reverse_cons, List.dropWhile_append]
      cases hd : List.dropWhile isBlankSegment rest.reverse <;> simp
    rw [hcons]
    dsimp only
    by_cases hempty : rest.rdropWhile isBlankSegment = []
    · rw [hempty]
      cases hfirst : isBlankSegment first
      · simp [List.rdropWhile, hfirst]
      · simp [List.rdropWhile, hfirst]
    · rw [if_neg hempty]
      simp [hempty]

theorem trimmedSegments_pathOf {ss : List String} (h : ∀ s ∈ ss, '/' ∉ s.toList) :
    (pathOf ss).trimmedSegments = ss.rdropWhile isBlankSegment := by
  rw [trimmedSegments_of_absolute (isAbsolute_pathOf ss)]
  cases ss with
  | nil => rfl
  | cons s rest => rw [segments_pathOf (by simp) h]

theorem rdropWhile_blank {ss : List String} (h : ∀ s ∈ ss, IsSegment s) : ss.rdropWhile isBlankSegment = ss := by
  rw [List.rdropWhile_eq_self_iff]
  intro hne
  simp [(h _ (List.getLast_mem hne)).not_blank]

theorem filterMap_rdropWhile (ss : List String) :
    (ss.rdropWhile isBlankSegment).filterMap innerComponent? = ss.filterMap innerComponent? := by
  induction ss using List.reverseRecOn with
  | nil => rfl
  | append_singleton ss s ih =>
    cases hs : isBlankSegment s
    · rw [List.rdropWhile_concat_neg _ _ _ (by simp [hs])]
    · rw [List.rdropWhile_concat_pos _ _ _ hs, ih, List.filterMap_append]
      simp [innerComponent?_of_blank hs]

/-- The parent of an absolute path, said on its segments. -/
theorem parent?_of_absolute {p : Path} (h : p.isAbsolute = true) :
    p.parent? = if p.segments.rdropWhile isBlankSegment = [] then none
      else some (pathOf ((p.segments.rdropWhile isBlankSegment).dropLast.rdropWhile isBlankSegment)) := by
  have hslash : ∀ s ∈ (p.segments.rdropWhile isBlankSegment).dropLast, '/' ∉ s.toList := fun s hs =>
    no_slash_of_mem_segments ((List.rdropWhile_prefix _ _).subset (List.dropLast_subset _ hs))
  unfold parent?
  rw [trimmedSegments_of_absolute h, h]
  cases hss : p.segments.rdropWhile isBlankSegment with
  | nil => rfl
  | cons s rest =>
    rw [hss] at hslash
    rw [if_neg (by simp)]
    show some (pathOf (pathOf _).trimmedSegments) = _
    rw [trimmedSegments_pathOf hslash]

/-- The last segment that carries a component carries the last one. -/
theorem segments_of_components {p : Path} {cs : List Component} {c : Component} (h : p.components = .root :: (cs ++ [c])) :
    ∃ ss s, p.segments.rdropWhile isBlankSegment = ss ++ [s] ∧ (∀ t ∈ ss, '/' ∉ t.toList) ∧
      ss.filterMap innerComponent? = cs ∧ componentOf s = c := by
  rw [components_of_absolute (isAbsolute_of_components h), List.cons.injEq, ← filterMap_rdropWhile] at h
  have hslash : ∀ s ∈ p.segments.rdropWhile isBlankSegment, '/' ∉ s.toList := fun s hs =>
    no_slash_of_mem_segments ((List.rdropWhile_prefix _ _).subset hs)
  have hlast : ∀ hne, ¬ isBlankSegment ((p.segments.rdropWhile isBlankSegment).getLast hne) = true :=
    fun hne => List.rdropWhile_last_not _ _ hne
  generalize p.segments.rdropWhile isBlankSegment = ss at h hslash hlast
  cases ss using List.reverseRecOn with
  | nil => simp at h
  | append_singleton ss s =>
    have hs : isBlankSegment s = false := by simpa using hlast (by simp)
    have hcs := h.2
    rw [List.filterMap_append, List.filterMap_cons, innerComponent?_of_not_blank hs] at hcs
    simp only [List.filterMap_nil] at hcs
    obtain ⟨hss, hc⟩ := List.append_inj' hcs rfl
    exact ⟨ss, s, rfl, fun t ht => hslash t (List.mem_append_left _ ht), hss, List.head_eq_of_cons_eq hc⟩

theorem components_parent? {p : Path} {cs : List Component} {c : Component}
    (h : p.components = .root :: (cs ++ [c])) :
    ∃ q, p.parent? = some q ∧ q.components = .root :: cs := by
  obtain ⟨ss, s, hsegments, hslash, hcs, -⟩ := segments_of_components h
  refine ⟨pathOf (ss.rdropWhile isBlankSegment), ?_, ?_⟩
  · rw [parent?_of_absolute (isAbsolute_of_components h), hsegments, if_neg (by simp), List.dropLast_concat]
  · have hsub : ∀ t ∈ ss.rdropWhile isBlankSegment, '/' ∉ t.toList := fun t ht =>
      hslash t ((List.rdropWhile_prefix _ _).subset ht)
    rw [components_pathOf hsub, filterMap_rdropWhile, hcs]

theorem parent?_pathOf {ss : List String} {s : String} (h : ∀ t ∈ ss ++ [s], IsSegment t) :
    (pathOf (ss ++ [s])).parent? = some (pathOf ss) := by
  have hss : ∀ t ∈ ss, IsSegment t := fun t ht => h t (List.mem_append_left _ ht)
  rw [parent?_of_absolute (isAbsolute_pathOf _), segments_pathOf (by simp) fun t ht => (h t ht).2.2,
    rdropWhile_blank h]
  rw [if_neg (by simp), List.dropLast_concat, rdropWhile_blank hss]

theorem parent?_top : (pathOf []).parent? = none := by decide

/-! ## Ancestors -/

theorem upwards_concat (ss : List String) (s : String) :
    (ss ++ [s]).inits.reverse.map pathOf = pathOf (ss ++ [s]) :: ss.inits.reverse.map pathOf := by
  simp [List.inits_append]

theorem ancestors_go_pathOf : ∀ (n : Nat) {ss : List String}, ss.length < n → (∀ s ∈ ss, IsSegment s) →
    ancestors.go n (pathOf ss) = ss.inits.reverse.map pathOf
  | n + 1, ss, hn, h => by
    cases ss using List.reverseRecOn with
    | nil =>
      rw [ancestors.go, parent?_top]
      rfl
    | append_singleton ss s =>
      have hss : ∀ t ∈ ss, IsSegment t := fun t ht => h t (List.mem_append_left _ ht)
      rw [ancestors.go, parent?_pathOf h]
      dsimp only
      rw [ancestors_go_pathOf n (by simp at hn; omega) hss, upwards_concat]

theorem ancestors_pathOf {ss : List String} (h : ∀ s ∈ ss, IsSegment s) :
    (pathOf ss).ancestors = ss.inits.reverse.map pathOf := by
  unfold ancestors
  rw [components_pathOf fun s hs => (h s hs).2.2, filterMap_innerComponent? h]
  exact ancestors_go_pathOf _ (by rw [List.length_cons, List.length_map]; omega) h

/-! ## Joins -/

theorem not_startsWith_slash {s : String} (h : '/' ∉ s.toList) : (Path.mk s).isAbsolute = false := by
  unfold isAbsolute Refactor.startsWith
  cases hs : s.toList with
  | nil => rfl
  | cons c rest =>
    rw [hs] at h
    simp only [List.mem_cons, not_or] at h
    simp [List.isPrefixOf, h.1]

theorem endsWith_slash_iff (s : String) : Refactor.endsWith s "/" = true ↔ s.toList.getLast? = some '/' := by
  unfold Refactor.endsWith
  rw [List.getLast?_eq_head?_reverse]
  cases s.toList.reverse with
  | nil => simp
  | cons c rest =>
    simp only [String.reduceToList, List.reverse_singleton, List.isPrefixOf, Bool.and_true, beq_iff_eq,
      List.head?_cons, Option.some.injEq]
    exact eq_comm

theorem getLast?_joinWith {s : String} (h : s ≠ "") : ∀ ss : List String,
    (joinWith "/" (ss ++ [s])).toList.getLast? = s.toList.getLast?
  | [] => by simp [joinWith]
  | a :: rest => by
    have hs : s.toList ≠ [] := by simpa using h
    rw [joinWith_append (by simp) (by simp), String.toList_append, List.getLast?_append]
    simp only [joinWith]
    cases hl : s.toList.getLast? with
    | none => exact absurd (List.getLast?_eq_none_iff.mp hl) hs
    | some c => rfl

theorem not_endsWith_slash {ss : List String} (hne : ss ≠ []) (h : ∀ s ∈ ss, IsSegment s) :
    Refactor.endsWith (pathOf ss).raw "/" = false := by
  rw [← Bool.not_eq_true, endsWith_slash_iff]
  cases ss using List.reverseRecOn with
  | nil => exact absurd rfl hne
  | append_singleton ss s =>
    have hs := h s (by simp)
    have hslist : s.toList ≠ [] := by simpa using hs.1
    rw [pathOf, String.toList_append, List.getLast?_append, getLast?_joinWith hs.1]
    cases hl : s.toList.getLast? with
    | none => exact absurd (List.getLast?_eq_none_iff.mp hl) hslist
    | some c =>
      have hc : c ∈ s.toList := List.mem_of_getLast? hl
      simp only [Option.some_or, Option.some.injEq]
      rintro rfl
      exact hs.2.2 hc

theorem join_pathOf {ss : List String} {s : String} (h : ∀ t ∈ ss, IsSegment t) (hs : '/' ∉ s.toList) :
    (pathOf ss).join ⟨s⟩ = pathOf (ss ++ [s]) := by
  unfold join
  rw [not_startsWith_slash hs, if_neg (by simp)]
  cases ss with
  | nil => rfl
  | cons a rest =>
    have hraw : ((pathOf (a :: rest)).raw == "") = false := by
      rw [beq_eq_false_iff_ne]
      intro hraw
      have := congrArg String.toList hraw
      rw [pathOf_toList] at this
      simp at this
    rw [hraw, not_endsWith_slash (by simp) h, if_neg (by simp)]
    simp only [pathOf, Path.mk.injEq]
    rw [joinWith_append (by simp) (by simp)]
    simp [joinWith, String.append_assoc]

theorem under_pathOf {names : List String} : ∀ {ss : List String}, (∀ s ∈ ss, IsSegment s) →
    (∀ n ∈ names, IsSegment n) → Tree.under (pathOf ss) names = pathOf (ss ++ names) := by
  induction names with
  | nil => intro ss _ _; simp [Tree.under]
  | cons n names ih =>
    intro ss hss hnames
    have hn := hnames n (by simp)
    have hrest : ∀ m ∈ names, IsSegment m := fun m hm => hnames m (by simp [hm])
    have hssn : ∀ s ∈ ss ++ [n], IsSegment s := by
      intro s hs
      rcases List.mem_append.mp hs with hs | hs
      · exact hss s hs
      · rw [List.mem_singleton.mp hs]; exact hn
    have hstep : Tree.under (pathOf ss) (n :: names) = Tree.under ((pathOf ss).join ⟨n⟩) names := rfl
    rw [hstep, join_pathOf hss hn.2.2, ih hssn hrest]
    simp

end Path

end Refactor
