import Mathlib.Data.String.Basic
import Mathlib.Order.Compare
import Refactor.Path.Map

/-!
# The order of paths, and maps and sets by it

Paths are compared by their components. Two paths that compare equal are the same path, so sorted lists of
paths behave as sets and sorted lists of pairs as maps, whatever way each path is written.

* `Path.beq_iff`, `Path.cmp_eq_iff` — equality of paths is equality of components
* `PathMap.find?_insert`, `PathMap.find?_erase`, `PathMap.find?_ofList_isSome` — maps
* `PathSet.contains_insert`, `PathSet.contains_union`, `PathSet.mem_collect_of_unique` — sets
-/

namespace Refactor

/-! ## Equality and order -/

namespace Component

theorem compare_eq_iff (a b : String) : compareOfLessAndEq a b = .eq ↔ a = b := by
  unfold compareOfLessAndEq
  constructor
  · intro h
    split at h
    · cases h
    · split at h
      · assumption
      · cases h
  · rintro rfl
    rw [if_neg (lt_irrefl a), if_pos rfl]

theorem cmp_eq_iff (a b : Component) : a.cmp b = .eq ↔ a = b := by
  cases a <;> cases b <;> simp [cmp, rank, compare_eq_iff] <;> simp [compareOfLessAndEq]

end Component

namespace Path

theorem beq_iff (p q : Path) : (p == q) = true ↔ p.components = q.components :=
  beq_iff_eq (a := p.components) (b := q.components)

theorem beq_comm (p q : Path) : (p == q) = (q == p) := by
  rw [Bool.eq_iff_iff, beq_iff, beq_iff]
  exact eq_comm

theorem beq_eq_false_iff (p q : Path) : (p == q) = false ↔ p.components ≠ q.components := by
  rw [← Bool.not_eq_true, beq_iff]

instance : EquivBEq Path where
  rfl := by simp [beq_iff]
  symm h := by rw [beq_iff] at h ⊢; exact h.symm
  trans h h' := by rw [beq_iff] at h h' ⊢; exact h.trans h'

theorem cmpComponents_eq_iff : ∀ as bs : List Component, cmpComponents as bs = .eq ↔ as = bs
  | [], [] => by simp [cmpComponents]
  | [], _ :: _ => by simp [cmpComponents]
  | _ :: _, [] => by simp [cmpComponents]
  | a :: as, b :: bs => by
    simp [cmpComponents, Ordering.then_eq_eq, Component.cmp_eq_iff, cmpComponents_eq_iff as bs]

theorem cmp_eq_iff (p q : Path) : p.cmp q = .eq ↔ (p == q) = true := by
  rw [beq_iff]
  exact cmpComponents_eq_iff _ _

end Path

/-! ## Maps -/

namespace PathMap

variable {α : Type}

theorem find?_insert (p q : Path) (a : α) (m : PathMap α) :
    (insert p a m).find? q = if q == p then some a else m.find? q := by
  induction m with
  | nil =>
    show ([(p, a)] : PathMap α).lookup q = _
    rw [List.lookup_cons]
    cases q == p <;> rfl
  | cons entry rest ih =>
    obtain ⟨r, b⟩ := entry
    unfold find? at ih ⊢
    simp only [insert]
    split
    · rw [List.lookup_cons]
      cases q == p <;> rfl
    · rename_i h
      rw [Path.cmp_eq_iff] at h
      have hqr : (q == r) = (q == p) := by
        rw [Bool.eq_iff_iff, Path.beq_iff, Path.beq_iff, ← (Path.beq_iff p r).mp h]
      rw [List.lookup_cons, List.lookup_cons, hqr]
      cases q == p <;> rfl
    · rename_i h
      have hne : (p == r) = false := by
        rw [← Bool.not_eq_true, ← Path.cmp_eq_iff, h]; simp
      rw [List.lookup_cons, List.lookup_cons, ih]
      split
      · rename_i hqr
        have hqp : (q == p) = false := by
          rw [Path.beq_eq_false_iff] at hne ⊢
          intro h
          exact hne (h ▸ (Path.beq_iff q r).mp hqr)
        simp [hqp]
      · rfl

theorem find?_erase (p q : Path) (m : PathMap α) : (m.erase p).find? q = if q == p then none else m.find? q := by
  induction m with
  | nil => simp [erase, find?]
  | cons entry rest ih =>
    obtain ⟨r, b⟩ := entry
    unfold find? erase at ih ⊢
    by_cases hrp : (r == p) = true
    · have hqr : (q == r) = (q == p) := by
        rw [Bool.eq_iff_iff, Path.beq_iff, Path.beq_iff, (Path.beq_iff r p).mp hrp]
      simp only [List.filter_cons, hrp, Bool.not_true, Bool.false_eq_true, if_false, ih, List.lookup_cons, hqr]
      cases q == p <;> rfl
    · simp only [Bool.not_eq_true] at hrp
      simp only [List.filter_cons, hrp, Bool.not_false, if_true, List.lookup_cons, ih]
      split
      · rename_i hqr
        have hqp : (q == p) = false := by
          rw [Path.beq_eq_false_iff] at hrp ⊢
          intro h
          exact hrp (h ▸ (Path.beq_iff q r).mp hqr).symm
        simp [hqp]
      · rfl

theorem contains_eq (m : PathMap α) (p : Path) : m.contains p = (m.find? p).isSome := by
  unfold contains find?
  induction m with
  | nil => rfl
  | cons entry rest ih =>
    rw [List.any_cons, List.lookup_cons, ih, Path.beq_comm]
    cases p == entry.1 <;> simp

/-- A path is in the map of a list when the list has an entry for it. -/
theorem find?_ofList_isSome (entries : List (Path × α)) (p : Path) :
    ((ofList entries).find? p).isSome = true ↔ ∃ entry ∈ entries, (p == entry.1) = true := by
  have hfold : ∀ (entries : List (Path × α)) (m : PathMap α),
      ((entries.foldl (fun m entry => insert entry.1 entry.2 m) m).find? p).isSome = true ↔
        (m.find? p).isSome = true ∨ ∃ entry ∈ entries, (p == entry.1) = true := by
    intro entries
    induction entries with
    | nil => simp
    | cons first rest ih =>
      intro m
      rw [List.foldl_cons, ih, find?_insert]
      cases hfirst : p == first.1 <;> simp [hfirst]
  exact (hfold entries []).trans (by simp [find?])

theorem find?_congr {p q : Path} (h : p.components = q.components) (m : PathMap α) : m.find? p = m.find? q := by
  unfold find?
  induction m with
  | nil => rfl
  | cons entry rest ih =>
    obtain ⟨r, b⟩ := entry
    have hr : (p == r) = (q == r) := by rw [Bool.eq_iff_iff, Path.beq_iff, Path.beq_iff, h]
    rw [List.lookup_cons, List.lookup_cons, ih, hr]

theorem exists_entry_of_find? {m : PathMap α} {p : Path} {a : α} (h : m.find? p = some a) :
    ∃ entry ∈ m, (entry.1 == p) = true ∧ entry.2 = a := by
  induction m with
  | nil => cases h
  | cons first rest ih =>
    unfold find? at h ih
    rw [List.lookup_cons] at h
    split at h
    · rename_i hp
      refine ⟨first, by simp, ?_, Option.some.inj h⟩
      rw [Path.beq_comm]
      exact hp
    · obtain ⟨entry, hentry, hfound⟩ := ih h
      exact ⟨entry, List.mem_cons_of_mem _ hentry, hfound⟩

theorem not_beq_of_find?_none {m : PathMap α} {p : Path} (h : m.find? p = none) :
    ∀ entry ∈ m, (p == entry.1) = false := by
  intro entry hentry
  have hnone : (p != entry.1) = true := List.lookup_eq_none_iff.mp h entry hentry
  rwa [bne, Bool.not_eq_true'] at hnone

end PathMap

/-! ## Sets -/

namespace PathSet

theorem mem_insert {p q : Path} {s : PathSet} (h : q ∈ insert p s) : q = p ∨ q ∈ s := by
  induction s with
  | nil => exact Or.inl (by simpa [insert] using h)
  | cons r rest ih =>
    simp only [insert] at h
    split at h
    · exact List.mem_cons.mp h
    · exact Or.inr h
    · rcases List.mem_cons.mp h with rfl | h
      · simp
      · rcases ih h with rfl | h <;> simp_all

theorem contains_insert (p q : Path) (s : PathSet) : (insert p s).contains q = (q == p || s.contains q) := by
  induction s with
  | nil => simp [insert]
  | cons r rest ih =>
    simp only [insert]
    split
    · simp [List.contains_cons]
    · rename_i h
      rw [Path.cmp_eq_iff, Path.beq_iff] at h
      have hqr : (q == r) = (q == p) := by rw [Bool.eq_iff_iff, Path.beq_iff, Path.beq_iff, h]
      simp [List.contains_cons, hqr]
    · rw [List.contains_cons, List.contains_cons, ih, Bool.or_left_comm]

theorem contains_congr {p q : Path} (h : (p == q) = true) (s : PathSet) : s.contains p = s.contains q := by
  rw [Bool.eq_iff_iff, List.contains_iff_exists_mem_beq, List.contains_iff_exists_mem_beq]
  rw [Path.beq_iff] at h
  simp only [Path.beq_iff, h]

theorem mem_union {q : Path} {ps : List Path} : ∀ {s : PathSet}, q ∈ union s ps → q ∈ s ∨ q ∈ ps := by
  induction ps with
  | nil => intro s h; exact Or.inl h
  | cons p ps ih =>
    intro s h
    rcases ih (s := insert p s) h with h | h
    · rcases mem_insert h with rfl | h
      · simp
      · exact Or.inl h
    · simp [h]

theorem contains_union (q : Path) (ps : List Path) :
    ∀ s : PathSet, (union s ps).contains q = (s.contains q || ps.contains q) := by
  induction ps with
  | nil => intro s; simp [union]
  | cons p ps ih =>
    intro s
    have h : union s (p :: ps) = union (insert p s) ps := rfl
    rw [h, ih, contains_insert, List.contains_cons]
    cases (q == p) <;> cases s.contains q <;> simp

theorem mem_ofList {q : Path} {ps : List Path} (h : q ∈ ofList ps) : q ∈ ps := by
  rcases mem_union (s := []) h with h | h
  · simp at h
  · exact h

theorem contains_ofList (q : Path) (ps : List Path) : (ofList ps).contains q = ps.contains q := by
  have h : ofList ps = union [] ps := rfl
  rw [h, contains_union]
  simp

theorem mem_replace {p q : Path} {s : PathSet} (h : q ∈ replace p s) : q = p ∨ q ∈ s := by
  induction s with
  | nil => exact Or.inl (by simpa [replace] using h)
  | cons r rest ih =>
    rw [replace] at h
    split at h
    · exact List.mem_cons.mp h
    · exact (List.mem_cons.mp h).imp_right (List.mem_cons_of_mem r)
    · rcases List.mem_cons.mp h with rfl | h
      · exact Or.inr (by simp)
      · exact (ih h).imp_right (List.mem_cons_of_mem r)

theorem mem_replace_self (p : Path) (s : PathSet) : p ∈ replace p s := by
  induction s with
  | nil => simp [replace]
  | cons r rest ih =>
    rw [replace]
    split
    · simp
    · simp
    · exact List.mem_cons_of_mem r ih

theorem mem_replace_of_mem {p q : Path} {s : PathSet} (hq : q ∈ s) (hne : (p == q) = false) : q ∈ replace p s := by
  induction s with
  | nil => cases hq
  | cons r rest ih =>
    rw [replace]
    split
    · exact List.mem_cons_of_mem p hq
    · rename_i heq
      rw [Path.cmp_eq_iff] at heq
      rcases List.mem_cons.mp hq with rfl | hq
      · rw [hne] at heq
        cases heq
      · exact List.mem_cons_of_mem p hq
    · rcases List.mem_cons.mp hq with rfl | hq
      · simp
      · exact List.mem_cons_of_mem r (ih hq)

theorem mem_collect {q : Path} {ps : List Path} (h : q ∈ collect ps) : q ∈ ps := by
  have hfold : ∀ {ps : List Path} {s : PathSet}, q ∈ ps.foldl (fun s p => replace p s) s → q ∈ s ∨ q ∈ ps := by
    intro ps
    induction ps with
    | nil => exact Or.inl
    | cons p ps ih =>
      intro s h
      rcases ih h with h | h
      · exact (mem_replace h).elim (fun heq => Or.inr (by simp [heq])) Or.inl
      · exact Or.inr (List.mem_cons_of_mem p h)
  exact (hfold h).resolve_left (by simp)

/-- A path that is written in one way only is collected. -/
theorem mem_collect_of_unique {q : Path} {ps : List Path} (hq : q ∈ ps) (hunique : ∀ p ∈ ps, (p == q) = true → p = q) :
    q ∈ collect ps := by
  have hfold : ∀ {ps : List Path} {s : PathSet}, (∀ p ∈ ps, (p == q) = true → p = q) → q ∈ s ∨ q ∈ ps →
      q ∈ ps.foldl (fun s p => replace p s) s := by
    intro ps
    induction ps with
    | nil => exact fun _ h => h.resolve_right (by simp)
    | cons p ps ih =>
      intro s hunique h
      refine ih (fun p' hp' => hunique p' (List.mem_cons_of_mem p hp')) ?_
      by_cases heq : p = q
      · exact Or.inl (heq ▸ mem_replace_self p s)
      · have hne : (p == q) = false := Bool.eq_false_iff.mpr fun hbeq => heq (hunique p (by simp) hbeq)
        refine h.imp (fun hs => mem_replace_of_mem hs hne) fun hps => ?_
        exact (List.mem_cons.mp hps).resolve_left (Ne.symm heq)
  exact hfold hunique (Or.inr hq)

end PathSet

end Refactor
