import Mathlib.Data.List.TakeWhile
import Refactor.Text.Position
import Refactor.Proofs.Text.Cuts
import Refactor.Proofs.Text.Searches

/-!
# Positions and byte offsets

A position fits a text just where some beginning of the text ends at it, so positions are ordered as their byte offsets
are, and no two positions have one offset.

* `Position.before_iff` — the order of positions
* `Position.atEnd_append` — a text ends no earlier than its beginnings do
* `Position.byteOffset?_parts`, `Position.byteOffset?_spec` — the line of a position, and the beginning of a text that ends at it
* `Position.before_iff_of_byteOffset?`, `Position.eq_of_byteOffset?` — positions and their offsets
* `Span.byteRange?_eq_some_iff` — the offsets of a span that fits
-/

namespace Refactor

open Text (utf8Size utf16Size)

namespace Text

theorem dropReturn_prefix (line : List Char) : dropReturn line <+: line := by
  unfold dropReturn
  cases hdrop : dropTail? ['\r'] line with
  | none => exact List.prefix_rfl
  | some front =>
    obtain ⟨tail, htail, rfl⟩ := Option.map_eq_some_iff.mp hdrop
    have hline := congrArg List.reverse (dropLead?_eq_some htail)
    rw [List.reverse_reverse, List.reverse_append] at hline
    rw [hline]
    exact List.prefix_append _ _

end Text

namespace Position

/-! ## The order of positions -/

theorem before_iff {p q : Position} :
    p.before q = true ↔ p.line < q.line ∨ (p.line = q.line ∧ p.character < q.character) := by
  simp [before]

theorem eq_iff {p q : Position} : p = q ↔ p.line = q.line ∧ p.character = q.character := by
  cases p
  cases q
  simp

/-! ## Where beginnings of a text end -/

def lastLine (cs : List Char) : List Char := (cs.reverse.takeWhile (· != '\n')).reverse

theorem atEnd_eq (cs : List Char) : atEnd cs = ⟨cs.count '\n', utf16Size (lastLine cs)⟩ := rfl

theorem lastLine_append_of_no_newline {cs : List Char} (hcs : '\n' ∉ cs) (as : List Char) :
    lastLine (as ++ cs) = lastLine as ++ cs := by
  have hall : ∀ c ∈ cs.reverse, (c != '\n') = true := by
    intro c hc
    simp only [bne_iff_ne, ne_eq]
    rintro rfl
    exact hcs (List.mem_reverse.mp hc)
  unfold lastLine
  rw [List.reverse_append, List.takeWhile_append_of_pos hall, List.reverse_append, List.reverse_reverse]

theorem lastLine_concat_newline (as : List Char) : lastLine (as ++ ['\n']) = [] := by
  simp [lastLine]

theorem atEnd_append (as bs : List Char) : (atEnd (as ++ bs)).before (atEnd as) = false := by
  rw [← Bool.not_eq_true, before_iff, atEnd_eq, atEnd_eq, List.count_append]
  dsimp only
  by_cases hbs : '\n' ∈ bs
  · have hcount : 0 < bs.count '\n' := List.count_pos_iff.mpr hbs
    omega
  · rw [lastLine_append_of_no_newline hbs, Text.utf16Size_append]
    omega

/-! ## Offsets of positions -/

/-- What is skipped for some newlines holds just these, and ends with the last of them. -/
theorem skipLines_eq_some {n off off' : Nat} {cs rest : List Char} (h : skipLines n off cs = some (off', rest)) :
    ∃ front, cs = front ++ rest ∧ off' = off + utf8Size front ∧ front.count '\n' = n ∧
      (front = [] ∨ ∃ init, front = init ++ ['\n']) := by
  fun_induction skipLines n off cs with
  | case1 off cs =>
    cases h
    exact ⟨[], rfl, rfl, rfl, Or.inl rfl⟩
  | case2 => cases h
  | case3 n off cs ih =>
    obtain ⟨front, rfl, rfl, rfl, hlast⟩ := ih h
    have hsize : ('\n' : Char).utf8Size = 1 := by decide
    refine ⟨'\n' :: front, rfl, ?_, by simp, ?_⟩
    · simp only [Text.utf8Size_cons, hsize]
      omega
    · rcases hlast with rfl | ⟨init, rfl⟩
      · exact Or.inr ⟨[], rfl⟩
      · exact Or.inr ⟨'\n' :: init, rfl⟩
  | case4 n off c cs hc ih =>
    obtain ⟨front, rfl, rfl, hcount, hlast⟩ := ih h
    refine ⟨c :: front, rfl, ?_, ?_, ?_⟩
    · rw [Text.utf8Size_cons]
      omega
    · rw [List.count_cons_of_ne hc, hcount]
    · rcases hlast with rfl | ⟨init, rfl⟩
      · cases hcount
      · exact Or.inr ⟨c :: init, rfl⟩

theorem columnOffset?_eq_some {n m : Nat} {line : List Char} (h : columnOffset? n line = some m) :
    ∃ front back, line = front ++ back ∧ utf8Size front = m ∧ utf16Size front = n := by
  fun_induction columnOffset? n line generalizing m with
  | case1 line =>
    cases h
    exact ⟨[], line, rfl, rfl, rfl⟩
  | case2 => cases h
  | case3 n c cs hunits ih =>
    obtain ⟨k, hk, rfl⟩ := Option.map_eq_some_iff.mp h
    obtain ⟨front, back, rfl, rfl, hsize⟩ := ih hk
    refine ⟨c :: front, back, rfl, rfl, ?_⟩
    rw [utf16Size, hsize]
    omega
  | case4 => cases h

theorem firstLine_spec (cs : List Char) : ∃ tail, cs = firstLine cs ++ tail ∧ '\n' ∉ firstLine cs := by
  have hprefix : firstLine cs <+: cs := (Text.dropReturn_prefix _).trans (List.takeWhile_prefix _)
  obtain ⟨tail, htail⟩ := hprefix
  refine ⟨tail, htail.symm, fun hmem => ?_⟩
  have hline := List.mem_takeWhile_imp ((Text.dropReturn_prefix _).subset hmem)
  simp at hline

/-- A position that fits a text stands on a line of it, behind the characters that have its number of units. -/
theorem byteOffset?_parts {content : List Char} {p : Position} {o : Nat} (h : p.byteOffset? content = some o) :
    ∃ front line back tail, content = front ++ (line ++ (back ++ tail)) ∧
      firstLine (line ++ (back ++ tail)) = line ++ back ∧ (front = [] ∨ ∃ init, front = init ++ ['\n']) ∧
      front.count '\n' = p.line ∧ utf16Size line = p.character ∧ utf8Size front + utf8Size line = o := by
  obtain ⟨⟨start, rest⟩, hskip, h⟩ := Option.bind_eq_some_iff.mp h
  obtain ⟨column, hcolumn, h⟩ := Option.bind_eq_some_iff.mp h
  cases h
  obtain ⟨front, rfl, hstart, hcount, hlast⟩ := skipLines_eq_some hskip
  obtain ⟨line, back, hline, hsize, hunits⟩ := columnOffset?_eq_some hcolumn
  obtain ⟨tail, hrest, -⟩ := firstLine_spec rest
  have hparts : rest = line ++ (back ++ tail) := by
    rw [hrest, hline, List.append_assoc]
  refine ⟨front, line, back, tail, by rw [hparts], by rw [← hparts, hline], hlast, hcount, hunits, ?_⟩
  rw [hsize, hstart, Nat.zero_add]

/-- The offset of a position is the size of a beginning of the text that ends at the position. -/
theorem byteOffset?_spec {content : List Char} {p : Position} {o : Nat} (h : p.byteOffset? content = some o) :
    ∃ before after, content = before ++ after ∧ utf8Size before = o ∧ atEnd before = p := by
  obtain ⟨front, line, back, tail, rfl, hfirst, hlast, hcount, hunits, rfl⟩ := byteOffset?_parts h
  obtain ⟨_, _, hnone⟩ := firstLine_spec (line ++ (back ++ tail))
  rw [hfirst] at hnone
  have hnewline : '\n' ∉ line := fun hmem => hnone (List.mem_append_left _ hmem)
  have hempty : lastLine front = [] := by
    rcases hlast with rfl | ⟨init, rfl⟩
    · rfl
    · exact lastLine_concat_newline init
  refine ⟨front ++ line, back ++ tail, by rw [List.append_assoc], Text.utf8Size_append _ _, ?_⟩
  rw [atEnd_eq, List.count_append, List.count_eq_zero_of_not_mem hnewline, hcount,
    lastLine_append_of_no_newline hnewline, hempty, List.nil_append, hunits]
  rfl

/-! ## Positions and offsets in one text -/

variable {content : List Char} {p q : Position} {o o' : Nat}

theorem not_before_of_byteOffset?_le (hp : p.byteOffset? content = some o) (hq : q.byteOffset? content = some o')
    (hle : o ≤ o') : q.before p = false := by
  obtain ⟨front, back, rfl, rfl, rfl⟩ := byteOffset?_spec hp
  obtain ⟨front', back', heq, rfl, rfl⟩ := byteOffset?_spec hq
  obtain ⟨between, rfl⟩ := Text.prefix_of_utf8Size_le heq hle
  exact atEnd_append front between

theorem eq_of_byteOffset? (hp : p.byteOffset? content = some o) (hq : q.byteOffset? content = some o) : p = q := by
  obtain ⟨front, back, rfl, rfl, rfl⟩ := byteOffset?_spec hp
  obtain ⟨front', back', heq, hsize, rfl⟩ := byteOffset?_spec hq
  rw [(Text.append_inj_of_utf8Size heq hsize.symm).1]

theorem before_iff_of_byteOffset? (hp : p.byteOffset? content = some o) (hq : q.byteOffset? content = some o') :
    p.before q = true ↔ o < o' := by
  constructor
  · intro hbefore
    rcases Nat.lt_or_ge o o' with hlt | hle
    · exact hlt
    · rw [not_before_of_byteOffset?_le hq hp hle] at hbefore
      cases hbefore
  · intro hlt
    have hnot := not_before_of_byteOffset?_le hp hq (by omega)
    rw [← Bool.not_eq_true, before_iff] at hnot
    rw [before_iff]
    have hne : p ≠ q := by
      rintro rfl
      have heq := Option.some.inj (hp.symm.trans hq)
      omega
    rw [ne_eq, eq_iff] at hne
    omega

theorem eq_iff_of_byteOffset? (hp : p.byteOffset? content = some o) (hq : q.byteOffset? content = some o') :
    p = q ↔ o = o' := by
  constructor
  · rintro rfl
    exact Option.some.inj (hp.symm.trans hq)
  · rintro rfl
    exact eq_of_byteOffset? hp hq

end Position

namespace Span

theorem byteRange?_eq_some_iff {content : List Char} {s : Span} {a b : Nat} :
    s.byteRange? content = some (a, b) ↔
      s.start.byteOffset? content = some a ∧ s.stop.byteOffset? content = some b ∧ a ≤ b := by
  unfold byteRange?
  constructor
  · intro h
    obtain ⟨a', ha, h⟩ := Option.bind_eq_some_iff.mp h
    obtain ⟨b', hb, h⟩ := Option.bind_eq_some_iff.mp h
    split at h
    · rename_i hle
      cases h
      exact ⟨ha, hb, hle⟩
    · cases h
  · rintro ⟨ha, hb, hle⟩
    rw [ha, hb]
    exact if_pos hle

/-- A span that fits stands between two cuts of the text. -/
theorem exists_cut_of_byteRange? {content : List Char} {s : Span} {a b : Nat} (h : s.byteRange? content = some (a, b)) :
    ∃ front mid back, content = front ++ mid ++ back ∧ utf8Size front = a ∧ a + utf8Size mid = b := by
  obtain ⟨ha, hb, hle⟩ := byteRange?_eq_some_iff.mp h
  obtain ⟨front, rest, rfl, rfl, _⟩ := Position.byteOffset?_spec ha
  obtain ⟨whole, back, heq, rfl, _⟩ := Position.byteOffset?_spec hb
  obtain ⟨mid, rfl⟩ := Text.prefix_of_utf8Size_le heq hle
  exact ⟨front, mid, back, heq, rfl, (Text.utf8Size_append front mid).symm⟩

end Span

end Refactor
