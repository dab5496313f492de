import Refactor.Proofs.Path.Inside

/-!
# Ancestors

A path that names anything but the root has a parent, and that names all its components but the last. So the ancestors of
a path are the paths of the same kind, absolute or relative, whose components start those of the path.

* `Path.parent?_cases` — what the parent of a path names
* `Path.IsAncestor` — a proper ancestor of a path, said on the components
* `Path.above_isAncestor`, `Path.exists_above_iff` — the ancestors that are listed, and that all are listed
* `Path.above_pairwise` — they stand one below the other
-/

namespace Refactor.Path

open Tree (pathOf)

/-! ## Relative paths -/

variable {p q : Path}

theorem toList_raw_of_relative (h : p.isAbsolute = false) :
    p.raw.toList = ['/'].intercalate (p.segments.map String.toList) := by
  unfold segments
  dsimp only
  rw [h, if_neg (by simp), List.map_map]
  simp only [Function.comp_def, String.toList_ofList, List.map_id']
  exact (List.intercalate_splitOn '/').symm

theorem rest_of_relative {rest : List String} (h : p.isAbsolute = false) (hs : p.segments = "" :: rest) : rest = [] := by
  have hraw := toList_raw_of_relative h
  rw [hs] at hraw
  cases rest with
  | nil => rfl
  | cons s rest =>
    have hslash : p.raw.toList.head? = some '/' := by
      rw [hraw]
      simp [List.intercalate]
    unfold isAbsolute Refactor.startsWith at h
    cases hp : p.raw.toList with
    | nil => simp [hp] at hslash
    | cons c cs =>
      rw [hp] at h hslash
      simp_all

theorem components_of_relative {first : String} {rest : List String} (h : p.isAbsolute = false)
    (hs : p.segments = first :: rest) :
    p.components = (firstComponent? first).toList ++ rest.filterMap innerComponent? := by
  rw [components, h, hs]
  rfl

/-- A path that is written from segments, the first of them not empty, is relative and has these segments. -/
theorem relative_ofSegments {first : String} {rest : List String} (hfirst : first ≠ "")
    (hslash : ∀ s ∈ first :: rest, '/' ∉ s.toList) :
    (ofSegments false (first :: rest)).isAbsolute = false ∧ (ofSegments false (first :: rest)).segments = first :: rest := by
  have hraw : (ofSegments false (first :: rest)).raw.toList = ['/'].intercalate ((first :: rest).map String.toList) := by
    rw [← joinWith_toList]
    simp [ofSegments]
  have habsolute : (ofSegments false (first :: rest)).isAbsolute = false := by
    unfold isAbsolute Refactor.startsWith
    rw [hraw]
    cases hchars : first.toList with
    | nil => exact absurd (String.toList_eq_nil_iff.mp hchars) hfirst
    | cons c cs =>
      have hc : c ≠ '/' := by
        rintro rfl
        exact hslash first (by simp) (by simp [hchars])
      cases rest <;> simp [List.intercalate, List.isPrefixOf, hchars, hc.symm]
  refine ⟨habsolute, ?_⟩
  unfold segments
  dsimp only
  rw [habsolute, if_neg (by simp), hraw, List.splitOn_intercalate]
  · simp [Function.comp_def]
  · simpa using hslash
  · simp

theorem trimmedSegments_of_relative {first : String} {rest : List String} (h : p.isAbsolute = false)
    (hs : p.segments = first :: rest) (hfirst : first ≠ "") :
    p.trimmedSegments = first :: rest.rdropWhile isBlankSegment := by
  unfold trimmedSegments
  rw [hs, h]
  simp only [beq_eq_false_iff_ne.mpr hfirst, Bool.and_false, Bool.or_self, Bool.false_eq_true, if_false]
  rfl

/-! ## Parents -/

theorem parent?_of_absolute_cases (h : p.isAbsolute = true) :
    p.parent? = none ∧ p.components = [.root] ∨
      ∃ q c, p.parent? = some q ∧ q.isAbsolute = true ∧ p.components = q.components ++ [c] := by
  have hcomponents := components_of_absolute h
  cases hcs : p.segments.filterMap innerComponent? using List.reverseRecOn with
  | nil =>
    refine Or.inl ⟨?_, by rw [hcomponents, hcs]⟩
    rw [parent?_of_absolute h, if_pos]
    by_contra hne
    have hlast := List.rdropWhile_last_not isBlankSegment p.segments hne
    rw [Bool.not_eq_true] at hlast
    have hmem : componentOf _ ∈ (p.segments.rdropWhile isBlankSegment).filterMap innerComponent? :=
      List.mem_filterMap.mpr ⟨_, List.getLast_mem hne, innerComponent?_of_not_blank hlast⟩
    rw [filterMap_rdropWhile, hcs] at hmem
    cases hmem
  | append_singleton cs c =>
    rw [hcs] at hcomponents
    obtain ⟨q, hq, hqs⟩ := components_parent? hcomponents
    exact Or.inr ⟨q, c, hq, isAbsolute_of_components hqs, by rw [hcomponents, hqs]; rfl⟩

theorem firstComponent?_of_ne {first : String} (h : first ≠ "") : ∃ c, firstComponent? first = some c := by
  unfold firstComponent? innerComponent?
  by_cases hdot : first = "."
  · exact ⟨_, if_pos (by simp [hdot])⟩
  · simp only [beq_eq_false_iff_ne.mpr hdot, beq_eq_false_iff_ne.mpr h, Bool.or_self, Bool.false_eq_true, if_false]
    split <;> exact ⟨_, rfl⟩

/-- The parent of a relative path with more than one segment drops the last one. -/
theorem parent?_of_relative {first s : String} {kept rest : List String} (h : p.isAbsolute = false)
    (hs : p.segments = first :: rest) (hfirst : first ≠ "") (hkept : rest.rdropWhile isBlankSegment = kept ++ [s]) :
    ∃ q, p.parent? = some q ∧ q.isAbsolute = false ∧
      q.components = (firstComponent? first).toList ++ kept.filterMap innerComponent? := by
  have hslash : ∀ t ∈ first :: kept, '/' ∉ t.toList := by
    intro t ht
    have hmem : t ∈ first :: rest := by
      refine List.mem_cons.mpr ((List.mem_cons.mp ht).imp_right fun ht => ?_)
      exact (List.rdropWhile_prefix _ _).subset (hkept ▸ List.mem_append_left _ ht)
    rw [← hs] at hmem
    exact no_slash_of_mem_segments hmem
  have hslash' : ∀ t ∈ first :: kept.rdropWhile isBlankSegment, '/' ∉ t.toList := fun t ht =>
    hslash t (List.mem_cons.mpr ((List.mem_cons.mp ht).imp_right fun ht => (List.rdropWhile_prefix _ _).subset ht))
  obtain ⟨hrelative, hsegments⟩ := relative_ofSegments hfirst hslash
  obtain ⟨hrelative', hsegments'⟩ := relative_ofSegments hfirst hslash'
  refine ⟨ofSegments false (first :: kept.rdropWhile isBlankSegment), ?_, hrelative', ?_⟩
  · have hdrop : (first :: (kept ++ [s])).dropLast = first :: kept := by
      rw [← List.cons_append, List.dropLast_concat]
    unfold parent?
    rw [trimmedSegments_of_relative h hs hfirst, hkept, h]
    dsimp only
    rw [hdrop, trimmedSegments_of_relative hrelative hsegments hfirst]
  · rw [components_of_relative hrelative' hsegments', filterMap_rdropWhile]

theorem parent?_of_relative_cases (h : p.isAbsolute = false) :
    p.parent? = none ∧ p.components = [] ∨
      ∃ q c, p.parent? = some q ∧ q.isAbsolute = false ∧ p.components = q.components ++ [c] := by
  cases hs : p.segments with
  | nil =>
    refine Or.inl ⟨?_, by rw [components, h, hs]; rfl⟩
    unfold parent? trimmedSegments
    rw [hs]
  | cons first rest =>
    have hcomponents := components_of_relative h hs
    by_cases hfirst : first = ""
    · subst hfirst
      obtain rfl := rest_of_relative h hs
      refine Or.inl ⟨?_, hcomponents⟩
      unfold parent? trimmedSegments
      rw [hs]
      rfl
    · obtain ⟨top, htop⟩ := firstComponent?_of_ne hfirst
      rw [← filterMap_rdropWhile, htop] at hcomponents
      refine Or.inr ?_
      cases hkept : rest.rdropWhile isBlankSegment using List.reverseRecOn with
      | nil =>
        -- one segment is left, and above it is the empty path
        refine ⟨⟨""⟩, top, ?_, rfl, by rw [hcomponents, hkept]; rfl⟩
        unfold parent?
        rw [trimmedSegments_of_relative h hs hfirst, hkept, h]
        rfl
      | append_singleton kept s =>
        have hlast : isBlankSegment s = false := by
          have hne : rest.rdropWhile isBlankSegment ≠ [] := by simp [hkept]
          have hnot := List.rdropWhile_last_not isBlankSegment rest hne
          simpa [hkept] using hnot
        obtain ⟨q, hparent, hrelative, hq⟩ := parent?_of_relative h hs hfirst hkept
        refine ⟨q, componentOf s, hparent, hrelative, ?_⟩
        rw [hcomponents, hkept, hq, htop, List.filterMap_append, List.append_assoc]
        simp [innerComponent?_of_not_blank hlast]

/-- The root and the empty path have no parent. Any other path has one of its kind that names all but the last of its
components. -/
theorem parent?_cases (p : Path) :
    p.parent? = none ∧ (p.components = [] ∨ p.components = [.root]) ∨
      ∃ q c, p.parent? = some q ∧ q.isAbsolute = p.isAbsolute ∧ p.components = q.components ++ [c] := by
  cases h : p.isAbsolute with
  | true => exact (parent?_of_absolute_cases h).imp_left fun ⟨hparent, hroot⟩ => ⟨hparent, Or.inr hroot⟩
  | false => exact (parent?_of_relative_cases h).imp_left fun ⟨hparent, hempty⟩ => ⟨hparent, Or.inl hempty⟩

/-! ## Ancestors -/

theorem isAbsolute_congr (h : p.components = q.components) : p.isAbsolute = q.isAbsolute := by
  rw [Bool.eq_iff_iff]
  exact ⟨fun hp => isAbsolute_of_components (h ▸ components_of_absolute hp),
    fun hq => isAbsolute_of_components (h ▸ components_of_absolute hq)⟩

/-- `d` is a proper ancestor of `p`: it names the first components of `p`, not all of them, and is absolute when `p` is. -/
def IsAncestor (d p : Path) : Prop :=
  d.components <+: p.components ∧ d.components ≠ p.components ∧ d.isAbsolute = p.isAbsolute

def above (p : Path) : List Path := p.ancestors.drop 1

variable {d : Path}

theorem not_isAncestor_top (h : p.components = [] ∨ p.components = [.root]) : ¬ d.IsAncestor p := by
  rintro ⟨hleads, hne, habsolute⟩
  rcases h with h | h
  · rw [h] at hleads hne
    exact hne (List.prefix_nil.mp hleads)
  · have hd : d.components = [] := by
      rw [h] at hleads hne
      exact (List.prefix_concat_iff.mp hleads).elim (absurd · hne) List.prefix_nil.mp
    rw [isAbsolute_of_components h] at habsolute
    rw [components_of_absolute habsolute] at hd
    cases hd

/-- The ancestors of a path are its parent and what lies above that. -/
theorem isAncestor_iff_parent {c : Component} (h : p.components = q.components ++ [c])
    (habsolute : q.isAbsolute = p.isAbsolute) :
    d.IsAncestor p ↔ d.components <+: q.components ∧ d.isAbsolute = q.isAbsolute := by
  rw [IsAncestor, h, habsolute, List.prefix_concat_iff]
  constructor
  · rintro ⟨heq | hleads, hne, hkind⟩
    · exact absurd heq hne
    · exact ⟨hleads, hkind⟩
  · rintro ⟨hleads, hkind⟩
    refine ⟨Or.inr hleads, fun heq => ?_, hkind⟩
    have hlength := hleads.length_le
    simp [heq] at hlength

theorem exists_go_iff : ∀ {n : Nat} {p : Path}, p.components.length < n → ∀ d : Path,
    (∃ a ∈ ancestors.go n p, (a == d) = true) ↔ d.components <+: p.components ∧ d.isAbsolute = p.isAbsolute
  | n + 1, p, hn, d => by
    have hself : (p == d) = true ∨ d.IsAncestor p ↔ d.components <+: p.components ∧ d.isAbsolute = p.isAbsolute := by
      rw [beq_iff]
      constructor
      · rintro (h | h)
        · exact ⟨h ▸ List.prefix_rfl, (isAbsolute_congr h).symm⟩
        · exact ⟨h.1, h.2.2⟩
      · rintro ⟨hleads, hkind⟩
        by_cases h : d.components = p.components
        · exact Or.inl h.symm
        · exact Or.inr ⟨hleads, h, hkind⟩
    rw [← hself, ancestors.go, List.exists_mem_cons_iff]
    refine or_congr_right ?_
    rcases parent?_cases p with ⟨hnone, htop⟩ | ⟨q, c, hq, hkind, hcomponents⟩
    · rw [hnone]
      simpa using not_isAncestor_top htop
    · rw [hq, isAncestor_iff_parent hcomponents hkind]
      refine exists_go_iff ?_ d
      rw [hcomponents, List.length_append] at hn
      simpa using hn

theorem above_cases (p : Path) : p.above = [] ∧ (p.components = [] ∨ p.components = [.root]) ∨
    ∃ q c, p.above = ancestors.go p.components.length q ∧ q.isAbsolute = p.isAbsolute ∧
      p.components = q.components ++ [c] := by
  unfold above ancestors
  rw [ancestors.go]
  rcases parent?_cases p with ⟨hnone, htop⟩ | ⟨q, c, hq, hkind, hcomponents⟩
  · exact Or.inl ⟨by rw [hnone]; rfl, htop⟩
  · exact Or.inr ⟨q, c, by rw [hq]; rfl, hkind, hcomponents⟩

theorem exists_above_iff (p d : Path) : (∃ a ∈ p.above, (a == d) = true) ↔ d.IsAncestor p := by
  rcases above_cases p with ⟨hnone, htop⟩ | ⟨q, c, hq, hkind, hcomponents⟩
  · rw [hnone]
    simpa using not_isAncestor_top htop
  · rw [hq, isAncestor_iff_parent hcomponents hkind]
    refine exists_go_iff ?_ d
    rw [hcomponents, List.length_append]
    simp

theorem above_isAncestor {a : Path} (h : a ∈ p.above) : a.IsAncestor p :=
  (exists_above_iff p a).mp ⟨a, h, by simp⟩

theorem go_pairwise : ∀ (n : Nat) {p : Path}, p.components.length < n →
    (ancestors.go n p).Pairwise fun a b => b.IsAncestor a
  | n + 1, p, hn => by
    rw [ancestors.go]
    rcases parent?_cases p with ⟨hnone, _⟩ | ⟨q, c, hq, hkind, hcomponents⟩
    · rw [hnone]
      exact List.pairwise_singleton _ _
    · have hn' : q.components.length < n := by
        rw [hcomponents, List.length_append] at hn
        simpa using hn
      rw [hq]
      refine List.pairwise_cons.mpr ⟨fun a ha => ?_, go_pairwise n hn'⟩
      rw [isAncestor_iff_parent hcomponents hkind]
      exact (exists_go_iff hn' a).mp ⟨a, ha, by simp⟩

theorem above_pairwise (p : Path) : p.above.Pairwise fun a b => b.IsAncestor a :=
  (go_pairwise _ (Nat.lt_succ_self _)).sublist (List.drop_sublist 1 _)

theorem IsAncestor.trans {a b c : Path} (h : a.IsAncestor b) (h' : b.IsAncestor c) : a.IsAncestor c := by
  refine ⟨h.1.trans h'.1, fun heq => ?_, h.2.2.trans h'.2.2⟩
  exact h.2.1 (h.1.eq_of_length_le (heq ▸ h'.1.length_le))

end Refactor.Path
