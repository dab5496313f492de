import Refactor.Word
import Refactor.Proofs.Text.Hits

/-!
# Positions and offsets, there and back

A position that fits a text leads to an offset and back. An offset between two characters leads to a position, and back from
there unless it stands behind a carriage return that ends its line: the return counts as a unit of the line, but the line is
read without it.

* `Position.atEnd_injective` — beginnings of a text that end at one position are the same
* `Text.IsBoundary`, `Text.BehindReturn` — offsets between characters, and behind the carriage return of a line
* `Position.not_behindReturn`, `Position.byteOffset?_atEnd_iff` — where no position stands
* `Position.isWord_atEnd` — positions of a text with fewer than 2 ^ 32 bytes are pairs of words
* `Position.byteOffset?_inverse` — positions to offsets and offsets to positions
-/

namespace Refactor

open Text (utf8Size utf16Size)

namespace Text

/-! ## Offsets of a text -/

def IsBoundary (content : List Char) (o : Nat) : Prop := ∃ before after, content = before ++ after ∧ utf8Size before = o

/-- An offset right behind a carriage return that ends its line: a newline follows, or the text ends. -/
def BehindReturn (content : List Char) (o : Nat) : Prop :=
  ∃ before after, content = before ++ ['\r'] ++ after ∧ utf8Size (before ++ ['\r']) = o ∧ ∀ c ∈ after.head?, c = '\n'

theorem behindReturn_append_iff {before after : List Char} : BehindReturn (before ++ after) (utf8Size before) ↔
    before.getLast? = some '\r' ∧ ∀ c ∈ after.head?, c = '\n' := by
  constructor
  · rintro ⟨front, rest, heq, hsize, hrest⟩
    obtain ⟨rfl, rfl⟩ := append_inj_of_utf8Size heq hsize.symm
    exact ⟨by simp, hrest⟩
  · rintro ⟨hlast, hafter⟩
    obtain ⟨front, rfl⟩ := List.getLast?_eq_some_iff.mp hlast
    exact ⟨front, after, rfl, rfl, hafter⟩

theorem unitSize_le (c : Char) : unitSize c ≤ c.utf8Size := by
  unfold unitSize Char.utf8Size
  have hval : c.val ≤ 0x7f ∨ c.val ≤ 0x7ff → c.val ≤ 0xffff := by
    simp only [UInt32.le_iff_toNat_le]
    have h₁ : (0x7f : UInt32).toNat = 0x7f := rfl
    have h₂ : (0x7ff : UInt32).toNat = 0x7ff := rfl
    have h₃ : (0xffff : UInt32).toNat = 0xffff := rfl
    omega
  grind

theorem utf16Size_le (cs : List Char) : utf16Size cs ≤ utf8Size cs := by
  induction cs with
  | nil => exact Nat.le_refl _
  | cons c cs ih => exact Nat.add_le_add (unitSize_le c) ih

theorem count_le_utf8Size (d : Char) (cs : List Char) : cs.count d ≤ utf8Size cs := by
  induction cs with
  | nil => exact Nat.le_refl _
  | cons c cs ih =>
    have hpos := c.utf8Size_pos
    rw [List.count_cons, utf8Size_cons]
    split <;> omega

end Text

namespace Position

/-! ## Ends of beginnings -/

theorem atEnd_injective {before after before' after' : List Char} (h : before ++ after = before' ++ after')
    (hend : atEnd before = atEnd before') : before = before' := by
  -- the longer one goes on without a newline and without units
  have hshorter : ∀ {as bs : List Char}, atEnd as = atEnd (as ++ bs) → bs = [] := by
    intro as bs hend
    rw [atEnd_eq, atEnd_eq, mk.injEq, List.count_append] at hend
    obtain ⟨hline, hcolumn⟩ := hend
    have hnone : '\n' ∉ bs := List.count_eq_zero.mp (by omega)
    rw [lastLine_append_of_no_newline hnone, Text.utf16Size_append] at hcolumn
    cases bs with
    | nil => rfl
    | cons c bs =>
      have hunit := Text.unitSize_pos c
      rw [utf16Size] at hcolumn
      omega
  rcases Nat.le_total (utf8Size before) (utf8Size before') with hle | hle
  · obtain ⟨bs, rfl⟩ := Text.prefix_of_utf8Size_le h hle
    rw [hshorter hend, List.append_nil]
  · obtain ⟨bs, rfl⟩ := Text.prefix_of_utf8Size_le h.symm hle
    rw [hshorter hend.symm, List.append_nil]

def IsWord (p : Position) : Prop := p.line < Word.count 32 ∧ p.character < Word.count 32

theorem isWord_atEnd {before after : List Char} (h : utf8Size (before ++ after) < Word.count 32) : (atEnd before).IsWord := by
  rw [Text.utf8Size_append] at h
  have hline := Text.count_le_utf8Size '\n' before
  have hcolumn := Text.utf16Size_le (lastLine before)
  have hlast : utf8Size (lastLine before) ≤ utf8Size before := by
    obtain ⟨front, hfront, -⟩ := exists_lastLine before
    have hsize := congrArg utf8Size hfront
    rw [Text.utf8Size_append] at hsize
    omega
  rw [atEnd_eq]
  exact ⟨by dsimp only; omega, by dsimp only; omega⟩

/-! ## Behind a carriage return -/

/-- A line is read without one carriage return at its end, so what is left of it ends with one only where another one
follows. -/
theorem head?_of_firstLine_return {cs tail : List Char} (h : cs = firstLine cs ++ tail)
    (hlast : (firstLine cs).getLast? = some '\r') : tail.head? = some '\r' := by
  by_cases hline : (cs.takeWhile (· != '\n')).getLast? = some '\r'
  · obtain ⟨init, hinit⟩ := List.getLast?_eq_some_iff.mp hline
    have hfirst : firstLine cs = init := by
      rw [firstLine, hinit, Text.dropReturn, Text.dropTail?_concat]
      rfl
    have hcs : init ++ ('\r' :: cs.dropWhile (· != '\n')) = init ++ tail := by
      rw [← hfirst, ← h]
      conv => rhs; rw [← List.takeWhile_append_dropWhile (p := (· != '\n')) (l := cs), hinit]
      rw [hfirst, List.append_assoc]
      rfl
    rw [← List.append_cancel_left hcs]
    rfl
  · rw [firstLine, Text.dropReturn_of_last hline] at hlast
    exact absurd hlast hline

theorem not_behindReturn {content : List Char} {p : Position} {o : Nat} (h : p.byteOffset? content = some o) :
    ¬ Text.BehindReturn content o := by
  obtain ⟨front, line, back, tail, rfl, hfirst, hfront, -, -, rfl⟩ := byteOffset?_parts h
  rw [← List.append_assoc, ← Text.utf8Size_append, Text.behindReturn_append_iff]
  rintro ⟨hlast, hnext⟩
  obtain ⟨tail', hcut, hnone⟩ := firstLine_spec (line ++ (back ++ tail))
  rw [hfirst] at hcut hnone
  cases hline : line.getLast? with
  | none =>
    -- before the line stands a newline, or nothing
    obtain rfl := List.getLast?_eq_none_iff.mp hline
    rcases hfront with rfl | ⟨init, rfl⟩ <;> simp at hlast
  | some c =>
    rw [List.getLast?_append, hline, Option.some_or] at hlast
    cases back with
    | cons d back =>
      exact hnone (by simp [hnext d rfl])
    | nil =>
      rw [List.append_nil] at hfirst
      have hreturn : tail.head? = some '\r' := head?_of_firstLine_return (by rw [hfirst]; rfl) (by rw [hfirst, hline, hlast])
      have hnewline := hnext '\r' hreturn
      cases hnewline

/-- The place where a beginning of a text ends is a position of the text, and that of the offset, unless the beginning ends
behind the carriage return of a line. -/
theorem byteOffset?_atEnd_iff {before after : List Char} {o : Nat} :
    (atEnd before).byteOffset? (before ++ after) = some o ↔
      o = utf8Size before ∧ ¬ Text.BehindReturn (before ++ after) (utf8Size before) := by
  constructor
  · intro h
    obtain ⟨before', after', heq, rfl, hend⟩ := byteOffset?_spec h
    obtain rfl := atEnd_injective heq hend.symm
    exact ⟨rfl, not_behindReturn h⟩
  · rintro ⟨rfl, hnot⟩
    rw [Text.behindReturn_append_iff] at hnot
    refine byteOffset?_atEnd ?_
    by_cases hlast : before.getLast? = some '\r'
    · refine Or.inr ?_
      by_contra hnone
      exact hnot ⟨hlast, fun c hc => by_contra fun hne => hnone ⟨c, hc, hne⟩⟩
    · exact Or.inl hlast

/-! ## There and back -/

/-- In a text of fewer than 2 ^ 32 bytes, a position leads to an offset between two characters and from there back to itself,
and positions are ordered as their offsets. An offset between two characters leads to a position, and from there back to
itself just when it does not stand behind the carriage return that ends its line. -/
theorem byteOffset?_inverse {content : List Char} (hsize : utf8Size content < Word.count 32) :
    (∀ {p : Position} {o : Nat}, p.byteOffset? content = some o → Text.IsBoundary content o ∧ ofOffset content o = p) ∧
    (∀ {p q : Position} {o o' : Nat}, p.byteOffset? content = some o → q.byteOffset? content = some o' →
      (p.before q = true ↔ o < o')) ∧
    ∀ {o : Nat}, Text.IsBoundary content o → ofOffset? content o = some (ofOffset content o) ∧ (ofOffset content o).IsWord ∧
      ((ofOffset content o).byteOffset? content = some o ↔ ¬ Text.BehindReturn content o) := by
  refine ⟨fun h => ?_, before_iff_of_byteOffset?, ?_⟩
  · obtain ⟨before, after, rfl, rfl, rfl⟩ := byteOffset?_spec h
    exact ⟨⟨before, after, rfl, rfl⟩, ofOffset_append before after⟩
  · rintro o ⟨before, after, rfl, rfl⟩
    have hplace := ofOffset_append before after
    rw [hplace, byteOffset?_atEnd_iff]
    refine ⟨?_, isWord_atEnd hsize, by simp⟩
    rw [ofOffset?, Nat.min_eq_left (by rw [Text.utf8Size_append]; omega), Text.splitAtByte?_utf8Size]
    rfl

/-- Behind a character of two units, before a line end of two characters, and between these two. -/
theorem byteOffset?_inverse_wide : utf8Size "é😀\r\nx".toList < Word.count 32 ∧
    (⟨0, 3⟩ : Position).byteOffset? "é😀\r\nx".toList = some 6 ∧ ofOffset "é😀\r\nx".toList 6 = ⟨0, 3⟩ ∧
    ofOffset? "é😀\r\nx".toList 7 = some (ofOffset "é😀\r\nx".toList 7) ∧
    (ofOffset "é😀\r\nx".toList 7).byteOffset? "é😀\r\nx".toList ≠ some 7 := by
  have hsize : utf8Size "é😀\r\nx".toList < Word.count 32 := by decide
  obtain ⟨hback, -, hthere⟩ := byteOffset?_inverse hsize
  have hoffset : (⟨0, 3⟩ : Position).byteOffset? "é😀\r\nx".toList = some 6 := by decide +kernel
  obtain ⟨hplace, -, hexcept⟩ := hthere ⟨['é', '😀', '\r'], ['\n', 'x'], rfl, rfl⟩
  refine ⟨hsize, hoffset, (hback hoffset).2, hplace, fun hsome => hexcept.mp hsome ?_⟩
  exact ⟨['é', '😀'], ['\n', 'x'], rfl, rfl, by simp⟩

end Position

end Refactor
