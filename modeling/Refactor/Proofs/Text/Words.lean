import Refactor.Planning.Symbols
import Refactor.Proofs.Edit.Overlaps

/-!
# Names as whole words

A span that holds a name as a whole word begins and ends where a name does. So two such spans for one name are the same
span, or one ends before the other one starts: were they to share a character, the later one would start behind a character
of the name.

* `WholeWord`, `isWholeToken_iff` — spans that hold a name as a whole word
* `isIdentifier_spec` — the characters of an identifier are those of a name
* `WholeWord.eq_or_beside` — different spans of one name do not overlap
-/

namespace Refactor

open Text (utf8Size)

/-! ## Spans of words -/

/-- A span that holds a name, with no character of a name right before it or right behind it. -/
def WholeWord (content : List Char) (range : Span) (name : List Char) : Prop :=
  ∃ before after, content = before ++ name ++ after ∧
    range.byteRange? content = some (utf8Size before, utf8Size before + utf8Size name) ∧
    (∀ c ∈ before.getLast?, isNameChar c = false) ∧ ∀ c ∈ after.head?, isNameChar c = false

theorem not_any_isNameChar_iff {o : Option Char} : (!o.any isNameChar) = true ↔ ∀ c ∈ o, isNameChar c = false := by
  cases o <;> simp

theorem isWholeToken_iff {content : List Char} {range : Span} {name : String} :
    isWholeToken content range name = true ↔ WholeWord content range name.toList := by
  unfold isWholeToken
  constructor
  · intro h
    split at h
    · cases h
    · rename_i a b hrange
      split at h
      · rename_i before rest upTo after hbefore hafter
        rw [Bool.and_eq_true, Bool.and_eq_true, beq_iff_eq, not_any_isNameChar_iff, not_any_isNameChar_iff] at h
        obtain ⟨⟨hslice, hb⟩, ha⟩ := h
        obtain ⟨front, back, rfl, rfl, rfl⟩ := Text.slice?_eq_some_iff.mp hslice
        rw [List.append_assoc, Text.splitAtByte?_utf8Size] at hbefore
        rw [← Text.utf8Size_append, Text.splitAtByte?_utf8Size] at hafter
        cases hbefore
        cases hafter
        exact ⟨before, after, rfl, hrange, hb, ha⟩
      · cases h
  · rintro ⟨before, after, rfl, hrange, hb, ha⟩
    have hbefore : Text.splitAtByte? (utf8Size before) (before ++ name.toList ++ after) =
        some (before, name.toList ++ after) := by
      rw [List.append_assoc, Text.splitAtByte?_utf8Size]
    have hafter : Text.splitAtByte? (utf8Size before + utf8Size name.toList) (before ++ name.toList ++ after) =
        some (before ++ name.toList, after) := by
      rw [← Text.utf8Size_append, Text.splitAtByte?_utf8Size]
    have hslice : Text.slice? (before ++ name.toList ++ after) (utf8Size before)
        (utf8Size before + utf8Size name.toList) = some name.toList :=
      Text.slice?_eq_some_iff.mpr ⟨before, after, rfl, rfl, rfl⟩
    rw [hrange]
    dsimp only
    rw [hbefore, hafter]
    dsimp only
    rw [hslice, Bool.and_eq_true, Bool.and_eq_true, not_any_isNameChar_iff, not_any_isNameChar_iff]
    exact ⟨⟨BEq.rfl, hb⟩, ha⟩

instance {content : List Char} {range : Span} {name : String} : Decidable (WholeWord content range name.toList) :=
  decidable_of_iff _ isWholeToken_iff

/-! ## Identifiers -/

theorem isAlphanumeric_of_isAlphanum {c : Char} (h : c.isAlphanum = true) : Text.isAlphanumeric c = true := by
  have hascii : c.toNat < 128 := by
    unfold Char.isAlphanum Char.isAlpha Char.isUpper Char.isLower Char.isDigit at h
    simp only [Bool.or_eq_true, Bool.and_eq_true, decide_eq_true_eq, UInt32.le_iff_toNat_le, ge_iff_le] at h
    have hupper : 'Z'.val.toNat = 90 := rfl
    have hlower : 'z'.val.toNat = 122 := rfl
    have hdigit : '9'.val.toNat = 57 := rfl
    show c.val.toNat < 128
    omega
  rw [Text.isAlphanumeric, if_pos hascii, h]

theorem isNameChar_of_isWordChar {c : Char} (h : Text.isWordChar c = true) : isNameChar c = true := by
  unfold Text.isWordChar at h
  unfold isNameChar
  rw [Bool.or_eq_true, Bool.or_eq_true] at h ⊢
  exact h.imp_left fun h => h.imp_left isAlphanumeric_of_isAlphanum

theorem isIdentifier_spec {name : String} (h : isIdentifier name = true) :
    name.toList ≠ [] ∧ ∀ c ∈ name.toList, isNameChar c = true := by
  unfold isIdentifier at h
  split at h
  · cases h
  · rename_i c cs hname
    rw [Bool.and_eq_true, Bool.and_eq_true, List.all_eq_true] at h
    obtain ⟨⟨hfirst, _⟩, hrest⟩ := h
    rw [hname]
    refine ⟨List.cons_ne_nil c cs, List.forall_mem_cons.mpr ⟨isNameChar_of_isWordChar hfirst, fun d hd => ?_⟩⟩
    exact isNameChar_of_isWordChar (hrest d hd)

theorem identifierAt?_spec {content : List Char} {p : Position} {name : String}
    (h : identifierAt? content p = some name) : isIdentifier name = true := by
  obtain ⟨offset, _, h⟩ := Option.bind_eq_some_iff.mp h
  obtain ⟨cut, _, h⟩ := Option.bind_eq_some_iff.mp h
  dsimp only at h
  split at h
  · rename_i hname
    rwa [← Option.some.inj h]
  · cases h

/-! ## Spans of one word -/

namespace Span

theorem ext_of_ends {r r' : Span} (hstart : r.start = r'.start) (hstop : r.stop = r'.stop) : r = r' := by
  rw [Position.eq_iff] at hstart hstop
  cases r
  cases r'
  simp_all [start, stop]

end Span

/-- Two spans that hold a name as a whole word are one span, or they stand beside each other. -/
theorem WholeWord.eq_or_beside {content name : List Char} {r r' : Span} (h : WholeWord content r name)
    (h' : WholeWord content r' name) (hne : name ≠ []) (hname : ∀ c ∈ name, isNameChar c = true) :
    r = r' ∨ r.overlaps r' = false := by
  obtain ⟨before, after, rfl, hrange, hbefore, _⟩ := h
  obtain ⟨before', after', heq, hrange', hbefore', _⟩ := h'
  have hpos : 0 < utf8Size name := Nat.pos_of_ne_zero fun hzero => hne (Text.utf8Size_eq_zero_iff.mp hzero)
  rcases Nat.lt_trichotomy (utf8Size before) (utf8Size before') with hlt | hsame | hlt
  · right
    exact Span.not_overlaps_of_byteRange? hrange hrange' (by omega)
      (Text.run_le_of_last (by rw [heq, List.append_assoc]) hname hbefore' hlt)
  · left
    rw [← hsame] at hrange'
    obtain ⟨hstart, hstop, _⟩ := Span.byteRange?_eq_some_iff.mp hrange
    obtain ⟨hstart', hstop', _⟩ := Span.byteRange?_eq_some_iff.mp hrange'
    exact Span.ext_of_ends (Position.eq_of_byteOffset? hstart hstart') (Position.eq_of_byteOffset? hstop hstop')
  · right
    rw [Span.overlaps_comm]
    exact Span.not_overlaps_of_byteRange? hrange' hrange (by omega)
      (Text.run_le_of_last (by rw [← heq, List.append_assoc]) hname hbefore hlt)

end Refactor
