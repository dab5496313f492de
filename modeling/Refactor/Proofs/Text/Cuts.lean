import Refactor.Text.Basic

/-!
# Cuts at byte offsets

A text is cut at a byte offset just when the offset is the size of what stands before it.

* `Text.splitAtByte?_eq_some_iff` — a cut text, and the size of its first part
* `Text.slice?_eq_some_iff` — a part in the middle of a text
* `Text.prefix_of_utf8Size_le` — of two beginnings of a text, the one with fewer bytes is a beginning of the other
* `Text.run_le_of_last` — a place behind another character lies behind a run
-/

namespace Refactor.Text

@[simp] theorem utf8Size_nil : utf8Size [] = 0 := rfl

@[simp] theorem utf8Size_cons (c : Char) (cs : List Char) : utf8Size (c :: cs) = c.utf8Size + utf8Size cs := rfl

@[simp] theorem utf8Size_append (as bs : List Char) : utf8Size (as ++ bs) = utf8Size as + utf8Size bs := by
  induction as with
  | nil => simp
  | cons a as ih => simp [ih, Nat.add_assoc]

@[simp] theorem utf16Size_append (as bs : List Char) : utf16Size (as ++ bs) = utf16Size as + utf16Size bs := by
  induction as with
  | nil => simp [utf16Size]
  | cons a as ih => simp [utf16Size, ih, Nat.add_assoc]

@[simp] theorem utf8Size_reverse (cs : List Char) : utf8Size cs.reverse = utf8Size cs := by
  induction cs with
  | nil => rfl
  | cons c cs ih => simp [ih, Nat.add_comm]

theorem utf8Size_eq_zero_iff {cs : List Char} : utf8Size cs = 0 ↔ cs = [] := by
  cases cs with
  | nil => simp
  | cons c cs =>
    have hpos := c.utf8Size_pos
    simp only [utf8Size_cons, reduceCtorEq, iff_false]
    omega

/-! ## Beginnings of a text -/

theorem prefix_of_utf8Size_le : ∀ {as bs as' bs' : List Char}, as ++ bs = as' ++ bs' → utf8Size as ≤ utf8Size as' →
    as <+: as'
  | [], _, _, _, _, _ => List.nil_prefix
  | a :: as, _, [], _, _, hsize => by
    have hpos := a.utf8Size_pos
    simp only [utf8Size_cons, utf8Size_nil] at hsize
    omega
  | a :: as, bs, a' :: as', bs', h, hsize => by
    simp only [List.cons_append, List.cons.injEq] at h
    obtain ⟨rfl, h⟩ := h
    simp only [utf8Size_cons] at hsize
    exact (List.prefix_cons_inj a).mpr (prefix_of_utf8Size_le h (by omega))

theorem append_inj_of_utf8Size {as bs as' bs' : List Char} (h : as ++ bs = as' ++ bs')
    (hsize : utf8Size as = utf8Size as') : as = as' ∧ bs = bs' := by
  have hfront := prefix_of_utf8Size_le h (Nat.le_of_eq hsize)
  have hback := prefix_of_utf8Size_le h.symm (Nat.le_of_eq hsize.symm)
  have heq := hfront.eq_of_length (Nat.le_antisymm hfront.length_le hback.length_le)
  subst heq
  exact ⟨rfl, List.append_cancel_left h⟩

/-- A run of characters of a class ends before any later place with a character of another class right before it. -/
theorem run_le_of_last {p : Char → Bool} {before run rest before' rest' : List Char}
    (h : before ++ run ++ rest = before' ++ rest') (hrun : ∀ c ∈ run, p c = true)
    (hlast : ∀ c ∈ before'.getLast?, p c = false) (hlt : utf8Size before < utf8Size before') :
    utf8Size before + utf8Size run ≤ utf8Size before' := by
  refine Nat.le_of_not_lt fun hinside => ?_
  obtain ⟨shared, rfl⟩ := prefix_of_utf8Size_le ((List.append_assoc _ _ _).symm.trans h) (Nat.le_of_lt hlt)
  have hpart : before ++ shared <+: before ++ run := by
    refine prefix_of_utf8Size_le h.symm ?_
    rw [utf8Size_append before run]
    omega
  have hshared : shared <+: run := (List.prefix_append_right_inj before).mp hpart
  cases hend : shared.getLast? with
  | none =>
    rw [List.getLast?_eq_none_iff.mp hend, List.append_nil] at hlt
    omega
  | some c =>
    have hmem : c ∈ run := hshared.subset (List.mem_of_getLast? hend)
    have hnot := hlast c (by rw [List.getLast?_append, hend]; rfl)
    rw [hrun c hmem] at hnot
    cases hnot

/-! ## Cuts -/

theorem splitAtByte?_utf8Size (as bs : List Char) : splitAtByte? (utf8Size as) (as ++ bs) = some (as, bs) := by
  induction as with
  | nil =>
    rw [utf8Size_nil, List.nil_append]
    unfold splitAtByte?
    rfl
  | cons a as ih =>
    have hpos := a.utf8Size_pos
    obtain ⟨n, hn⟩ : ∃ n, utf8Size (a :: as) = n + 1 := ⟨utf8Size (a :: as) - 1, by simp; omega⟩
    have hrest : n + 1 - a.utf8Size = utf8Size as := by
      simp only [utf8Size_cons] at hn
      omega
    rw [hn, List.cons_append, splitAtByte?, if_pos (by simp at hn; omega), hrest, ih]
    rfl

theorem splitAtByte?_eq_some_iff {n : Nat} {cs as bs : List Char} :
    splitAtByte? n cs = some (as, bs) ↔ cs = as ++ bs ∧ utf8Size as = n := by
  constructor
  · intro h
    fun_induction splitAtByte? n cs generalizing as bs with
    | case1 cs =>
      cases h
      exact ⟨rfl, rfl⟩
    | case2 n => cases h
    | case3 n c cs hsize ih =>
      obtain ⟨⟨front, back⟩, hsplit, heq⟩ := Option.map_eq_some_iff.mp h
      cases heq
      obtain ⟨rfl, hfront⟩ := ih hsplit
      refine ⟨rfl, ?_⟩
      rw [utf8Size_cons, hfront]
      omega
    | case4 n c cs hsize => cases h
  · rintro ⟨rfl, rfl⟩
    exact splitAtByte?_utf8Size as bs

/-- A part of a text stands between the sizes of what comes before its start and before its end. -/
theorem slice?_eq_some_iff {cs mid : List Char} {a b : Nat} :
    slice? cs a b = some mid ↔
      ∃ front back, cs = front ++ mid ++ back ∧ utf8Size front = a ∧ utf8Size front + utf8Size mid = b := by
  unfold slice?
  constructor
  · intro h
    obtain ⟨⟨front, rest⟩, hsplit, h⟩ := Option.bind_eq_some_iff.mp h
    dsimp only at h
    split at h
    · cases h
    · rename_i hle
      obtain ⟨⟨mid', back⟩, hmid, heq⟩ := Option.bind_eq_some_iff.mp h
      cases heq
      obtain ⟨rfl, hfront⟩ := splitAtByte?_eq_some_iff.mp hsplit
      obtain ⟨rfl, hsize⟩ := splitAtByte?_eq_some_iff.mp hmid
      refine ⟨front, back, by simp, hfront, ?_⟩
      dsimp only at hsize ⊢
      omega
  · rintro ⟨front, back, rfl, rfl, rfl⟩
    rw [List.append_assoc, splitAtByte?_utf8Size]
    simp only [Option.bind_eq_bind, Option.bind_some]
    rw [if_neg (by omega), Nat.add_sub_cancel_left, splitAtByte?_utf8Size]
    rfl

end Refactor.Text
