import Refactor.Proofs.Path.Segments

/-!
# Paths inside a directory

What is left of a path below a directory, put below another one, and paths that are resolved in a root.

* `Path.stripLead?_pathOf`, `Path.join_relative`, `Path.rebase?_pathOf` — taking a path from one directory to another
* `Path.normalize_absolute`, `Path.resolveIn_pathOf` — resolved paths carry a component in every segment
* `Path.normalize_pathOf`, `Path.components_normalize` — what resolving leaves as it is
* `Path.names_of_startsWith` — a resolved path inside a root goes straight down
-/

namespace Refactor.Path

open Tree (pathOf)

/-! ## Below a directory -/

theorem startsWith_iff (p q : Path) : p.startsWith q = true ↔ q.components <+: p.components := by
  unfold startsWith
  exact List.isPrefixOf_iff_prefix

theorem dropSegments_append {ss : List String} (rest : List String) (h : ∀ s ∈ ss, IsSegment s)
    (hrest : ∀ s ∈ rest.head?, IsSegment s) : dropSegments ss.length (ss ++ rest) = rest := by
  induction ss with
  | nil =>
    cases rest with
    | nil => rfl
    | cons s rest =>
      have hs := (hrest s rfl).not_blank
      rw [isBlankSegment] at hs
      simp [dropSegments, hs]
  | cons s ss ih =>
    have hs := (h s (by simp)).not_blank
    rw [isBlankSegment] at hs
    simp only [List.cons_append, List.length_cons, dropSegments, hs, Bool.false_eq_true, if_false]
    exact ih fun t ht => h t (by simp [ht])

theorem components_segments {ss : List String} (h : ∀ s ∈ ss, IsSegment s) :
    (pathOf ss).components = .root :: ss.map componentOf := by
  rw [components_pathOf fun s hs => (h s hs).2.2, filterMap_innerComponent? h]

/-- What is left of a path below a directory. -/
theorem stripLead?_pathOf {ss names : List String} (hss : ∀ s ∈ ss, IsSegment s) (hnames : ∀ n ∈ names, IsSegment n) :
    (pathOf (ss ++ names)).stripLead? (pathOf ss) = some ⟨joinWith "/" names⟩ := by
  have hall : ∀ s ∈ ss ++ names, IsSegment s := by
    intro s hs
    rcases List.mem_append.mp hs with hs | hs
    · exact hss s hs
    · exact hnames s hs
  have hstarts : (pathOf (ss ++ names)).startsWith (pathOf ss) = true := by
    rw [startsWith_iff, components_segments hss, components_segments hall, List.map_append]
    exact (List.prefix_cons_inj _).mpr (List.prefix_append _ _)
  have htrim : (pathOf (ss ++ names)).trimmedSegments = ss ++ names := by
    rw [trimmedSegments_pathOf fun s hs => (hall s hs).2.2, rdropWhile_blank hall]
  unfold stripLead?
  rw [hstarts, components_segments hss, isAbsolute_pathOf, htrim]
  simp only [Bool.not_true, Bool.false_eq_true, if_false, List.length_cons, List.length_map, Nat.add_one_sub_one,
    if_true, Nat.add_eq_zero_iff, Nat.one_ne_zero, and_false, beq_iff_eq]
  rw [dropSegments_append names hss fun s hs => hnames s (List.mem_of_mem_head? hs)]
  simp [ofSegments]

theorem joinWith_not_absolute {names : List String} (h : ∀ n ∈ names, IsSegment n) :
    (Path.mk (joinWith "/" names)).isAbsolute = false := by
  cases names with
  | nil => rfl
  | cons n rest =>
    unfold isAbsolute Refactor.startsWith
    rw [joinWith_toList]
    have hn := h n (by simp)
    cases hlist : n.toList with
    | nil => exact absurd (String.toList_eq_nil_iff.mp hlist) hn.1
    | cons c cs =>
      have hc : c ≠ '/' := by
        rintro rfl
        exact hn.2.2 (by simp [hlist])
      cases rest <;> simp [List.intercalate, hlist, List.isPrefixOf, Ne.symm hc]

theorem raw_pathOf_ne (ss : List String) : ((pathOf ss).raw == "") = false := by
  rw [beq_eq_false_iff_ne]
  intro hraw
  have hlist := congrArg String.toList hraw
  rw [pathOf_toList] at hlist
  simp at hlist

theorem join_relative {ds names : List String} (hds : ∀ d ∈ ds, IsSegment d) (hnames : ∀ n ∈ names, IsSegment n)
    (hne : names ≠ []) : (pathOf ds).join ⟨joinWith "/" names⟩ = pathOf (ds ++ names) := by
  unfold join
  rw [joinWith_not_absolute hnames, if_neg (by simp), raw_pathOf_ne]
  cases ds with
  | nil => rfl
  | cons d rest =>
    rw [not_endsWith_slash (by simp) hds, if_neg (by simp)]
    simp only [pathOf, Path.mk.injEq]
    rw [joinWith_append (by simp) hne]
    simp [String.append_assoc]

theorem join_empty {ds : List String} (hds : ∀ d ∈ ds, IsSegment d) (hne : ds ≠ []) :
    (pathOf ds).join ⟨""⟩ = ⟨(pathOf ds).raw ++ "/"⟩ := by
  unfold join
  rw [raw_pathOf_ne, not_endsWith_slash hne hds]
  simp [isAbsolute, Refactor.startsWith]

/-- A path below one directory, put at the same place below another one. -/
theorem rebase?_pathOf {ss ds names : List String} (hss : ∀ s ∈ ss, IsSegment s) (hds : ∀ d ∈ ds, IsSegment d)
    (hnames : ∀ n ∈ names, IsSegment n) :
    (pathOf (ss ++ names)).rebase? (pathOf ss) (pathOf ds) = some (pathOf (ds ++ names)) := by
  unfold rebase?
  rw [stripLead?_pathOf hss hnames, Option.map_some]
  cases names with
  | nil => simp [joinWith]
  | cons n rest =>
    have hraw : (joinWith "/" (n :: rest) == "") = false := by
      rw [beq_eq_false_iff_ne]
      intro hraw
      have hlist := congrArg String.toList hraw
      rw [joinWith_toList] at hlist
      have hn := (hnames n (by simp)).1
      cases rest <;> simp_all [List.intercalate]
    dsimp only
    rw [hraw, if_neg (by simp), join_relative hds hnames (by simp)]

/-! ## Resolved paths -/

/-- Segments in which only the first may go up. -/
def Resolved (ss : List String) : Prop := (∀ s ∈ ss, IsSegment s) ∧ ∀ s ∈ ss.tail, s ≠ ".."

theorem resolved_nil : Resolved [] := ⟨by simp, by simp⟩

theorem Resolved.append_name {ss : List String} (h : Resolved ss) {s : String} (hs : IsName s) : Resolved (ss ++ [s]) := by
  refine ⟨fun t ht => ?_, fun t ht => ?_⟩
  · rcases List.mem_append.mp ht with ht | ht
    · exact h.1 t ht
    · rw [List.mem_singleton.mp ht]
      exact hs.1
  · cases ss with
    | nil => simp at ht
    | cons a rest =>
      rcases List.mem_append.mp (show t ∈ rest ++ [s] from ht) with ht | ht
      · exact h.2 t ht
      · rw [List.mem_singleton.mp ht]
        exact hs.2

theorem Resolved.dropLast {ss : List String} (h : Resolved ss) : Resolved ss.dropLast := by
  refine ⟨fun s hs => h.1 s (List.dropLast_subset _ hs), fun s hs => h.2 s ?_⟩
  rw [List.tail_dropLast] at hs
  exact List.dropLast_subset _ hs

/-- One component applied to resolved segments below the root gives resolved segments again. -/
theorem resolveStep_resolved {ss : List String} (h : Resolved ss) {s : String} (hs : IsSegment s) :
    ∃ ts, Resolved ts ∧
      resolveStep (.root :: ss.map componentOf) (componentOf s) = .root :: ts.map componentOf := by
  by_cases hdots : s = ".."
  · subst hdots
    show ∃ ts, Resolved ts ∧ resolveStep (.root :: ss.map componentOf) .parent = _
    cases ss with
    | nil =>
      refine ⟨[".."], ⟨?_, by simp⟩, rfl⟩
      simpa using hs
    | cons a rest =>
      refine ⟨(a :: rest).dropLast, h.dropLast, ?_⟩
      simp [resolveStep, List.map_dropLast, List.dropLast_cons_of_ne_nil]
  · have hname : IsName s := ⟨hs, hdots⟩
    refine ⟨ss ++ [s], h.append_name hname, ?_⟩
    rw [componentOf_name hname]
    simp [resolveStep, componentOf_name hname]

theorem foldl_resolveStep {segs : List String} : ∀ {ss : List String}, Resolved ss → (∀ s ∈ segs, IsSegment s) →
    ∃ ts, Resolved ts ∧
      (segs.map componentOf).foldl resolveStep (.root :: ss.map componentOf) = .root :: ts.map componentOf := by
  induction segs with
  | nil => exact fun {ss} h _ => ⟨ss, h, rfl⟩
  | cons s segs ih =>
    intro ss h hsegs
    obtain ⟨ts, hts, hstep⟩ := resolveStep_resolved h (hsegs s (by simp))
    obtain ⟨us, hus, hfold⟩ := ih hts fun t ht => hsegs t (by simp [ht])
    refine ⟨us, hus, ?_⟩
    rw [List.map_cons, List.foldl_cons, hstep, hfold]

theorem text_componentOf {s : String} : (componentOf s).text = s := by
  unfold componentOf
  split
  · rename_i h
    rw [beq_iff_eq.mp h]
    rfl
  · rfl

theorem ofComponents_pathOf {ss : List String} (h : ∀ s ∈ ss, IsSegment s) :
    ofComponents (.root :: ss.map componentOf) = pathOf ss := by
  have hfold : ∀ (ts pre : List String), (∀ s ∈ pre, IsSegment s) → (∀ s ∈ ts, IsSegment s) →
      (ts.map componentOf).foldl (fun p c => p.join ⟨c.text⟩) (pathOf pre) = pathOf (pre ++ ts) := by
    intro ts
    induction ts with
    | nil => intro pre _ _; simp
    | cons t ts ih =>
      intro pre hpre hts
      have ht := hts t (by simp)
      rw [List.map_cons, List.foldl_cons, text_componentOf, join_pathOf hpre ht.2.2, ih]
      · simp
      · intro s hs
        rcases List.mem_append.mp hs with hs | hs
        · exact hpre s hs
        · rw [List.mem_singleton.mp hs]
          exact ht
      · exact fun s hs => hts s (by simp [hs])
  exact hfold ss [] (by simp) h

/-- The components of segments, blank ones left out. -/
theorem filterMap_innerComponent?_eq_map {ss : List String} (h : ∀ s ∈ ss, '/' ∉ s.toList) :
    ∃ ts : List String, (∀ t ∈ ts, IsSegment t) ∧ ss.filterMap innerComponent? = ts.map componentOf := by
  refine ⟨ss.filter fun s => !isBlankSegment s, fun t ht => ?_, ?_⟩
  · obtain ⟨hmem, hblank⟩ := List.mem_filter.mp ht
    simp only [isBlankSegment, Bool.not_or, Bool.and_eq_true, Bool.not_eq_true', beq_eq_false_iff_ne, ne_eq] at hblank
    exact ⟨hblank.1, hblank.2, h t hmem⟩
  · clear h
    induction ss with
    | nil => rfl
    | cons s rest ih =>
      cases hs : isBlankSegment s
      · simp [innerComponent?_of_not_blank hs, hs, ih]
      · simp [innerComponent?_of_blank hs, hs, ih]

theorem components_absolute {p : Path} (h : p.isAbsolute = true) :
    ∃ ss : List String, (∀ s ∈ ss, IsSegment s) ∧ p.components = .root :: ss.map componentOf := by
  obtain ⟨ss, hss, heq⟩ := filterMap_innerComponent?_eq_map fun s (hs : s ∈ p.segments) => no_slash_of_mem_segments hs
  exact ⟨ss, hss, by rw [components_of_absolute h, heq]⟩

theorem normalize_of_components {p : Path} {cs : List Component} (h : p.components = .root :: cs) :
    p.normalize = ofComponents (cs.foldl resolveStep [.root]) := by
  unfold normalize
  rw [h]
  rfl

theorem normalize_absolute {p : Path} (h : p.isAbsolute = true) : ∃ ss, Resolved ss ∧ p.normalize = pathOf ss := by
  obtain ⟨segs, hsegs, hcomponents⟩ := components_absolute h
  obtain ⟨ss, hss, hfold⟩ := foldl_resolveStep resolved_nil hsegs
  refine ⟨ss, hss, ?_⟩
  rw [normalize_of_components hcomponents]
  show ofComponents (List.foldl resolveStep (.root :: [].map componentOf) _) = _
  rw [hfold, ofComponents_pathOf hss.1]

/-- Components that are resolved already stay as they are. -/
theorem foldl_resolveStep_resolved : ∀ {ts ss : List String}, Resolved (ss ++ ts) →
    (ts.map componentOf).foldl resolveStep (.root :: ss.map componentOf) = .root :: (ss ++ ts).map componentOf
  | [], ss, _ => by simp
  | t :: ts, ss, h => by
    have hstep : resolveStep (.root :: ss.map componentOf) (componentOf t) = .root :: (ss ++ [t]).map componentOf := by
      by_cases hdots : t = ".."
      · subst hdots
        -- only the first segment goes up, so nothing stands before it
        cases ss with
        | nil => rfl
        | cons a rest => exact absurd rfl (h.2 ".." (List.mem_append_right rest List.mem_cons_self))
      · rw [List.map_append, List.map_singleton,
          componentOf_name ⟨h.1 t (List.mem_append_right ss List.mem_cons_self), hdots⟩]
        rfl
    have hassoc : ss ++ t :: ts = ss ++ [t] ++ ts := by simp
    rw [hassoc] at h ⊢
    rw [List.map_cons, List.foldl_cons, hstep, foldl_resolveStep_resolved h]

theorem normalize_pathOf {ss : List String} (h : Resolved ss) : (pathOf ss).normalize = pathOf ss := by
  have hfold : (ss.map componentOf).foldl resolveStep (.root :: [].map componentOf) = _ := foldl_resolveStep_resolved h
  rw [normalize_of_components (components_segments h.1)]
  show ofComponents (List.foldl resolveStep (.root :: [].map componentOf) _) = _
  rw [hfold, List.nil_append, ofComponents_pathOf h.1]

/-- The components of an absolute path without a step upwards are names. -/
theorem components_down {p : Path} (h : p.isAbsolute = true) (hparent : .parent ∉ p.components) :
    ∃ names : List String, (∀ n ∈ names, IsName n) ∧ p.components = .root :: names.map .name := by
  obtain ⟨ss, hss, hcomponents⟩ := components_absolute h
  have hnames : ∀ s ∈ ss, IsName s := by
    refine fun s hs => ⟨hss s hs, ?_⟩
    rintro rfl
    refine hparent ?_
    rw [hcomponents]
    exact List.mem_cons_of_mem _ (List.mem_map_of_mem (f := componentOf) hs)
  refine ⟨ss, hnames, hcomponents.trans ?_⟩
  rw [List.map_congr_left fun s hs => componentOf_name (hnames s hs)]

/-- Without a step upwards, only blank segments are lost. -/
theorem components_normalize {p : Path} (h : p.isAbsolute = true) (hparent : .parent ∉ p.components) :
    p.normalize.components = p.components := by
  obtain ⟨names, hnames, hcomponents⟩ := components_down h hparent
  have hresolved : Resolved names :=
    ⟨fun s hs => (hnames s hs).1, fun s hs => (hnames s (List.mem_of_mem_tail hs)).2⟩
  have hsame : p.normalize = (pathOf names).normalize := by
    rw [normalize_of_components hcomponents, normalize_of_components (components_names hnames)]
  rw [hsame, normalize_pathOf hresolved, components_names hnames, hcomponents]

theorem isAbsolute_join {p q : Path} (h : p.isAbsolute = true) : (p.join q).isAbsolute = true := by
  unfold join
  split
  · assumption
  · have hraw : ∀ s : String, (Path.mk (p.raw ++ s)).isAbsolute = true := by
      intro s
      unfold isAbsolute Refactor.startsWith at h ⊢
      rw [List.isPrefixOf_iff_prefix] at h ⊢
      rw [String.toList_append]
      exact h.trans (List.prefix_append _ _)
    split
    · exact hraw q.raw
    · rw [String.append_assoc]
      exact hraw ("/" ++ q.raw)

theorem resolveIn_pathOf (p : Path) (root : List String) :
    ∃ ss, Resolved ss ∧ p.resolveIn (pathOf root) = pathOf ss := by
  unfold resolveIn
  split
  · exact normalize_absolute (by assumption)
  · exact normalize_absolute (isAbsolute_join (isAbsolute_pathOf root))

/-- A resolved path inside a root that is not the top goes straight down. -/
theorem names_of_startsWith {root ss : List String} (hroot : ∀ s ∈ root, IsName s) (hne : root ≠ []) (h : Resolved ss)
    (hstarts : (pathOf ss).startsWith (pathOf root) = true) : (∀ s ∈ ss, IsName s) ∧ root <+: ss := by
  rw [startsWith_iff, components_names hroot, components_segments h.1, List.prefix_cons_inj] at hstarts
  have hlead : root <+: ss := by
    have htexts := hstarts.map Component.text
    have hname : ∀ t : String, (Component.name t).text = t := fun _ => rfl
    simpa only [List.map_map, Function.comp_def, text_componentOf, hname, List.map_id'] using htexts
  refine ⟨fun s hs => ?_, hlead⟩
  obtain ⟨rest, rfl⟩ := hlead
  cases root with
  | nil => exact absurd rfl hne
  | cons a root =>
    rcases List.mem_cons.mp hs with rfl | htail
    · exact hroot s (by simp)
    · exact ⟨h.1 s hs, h.2 s htail⟩

end Refactor.Path
