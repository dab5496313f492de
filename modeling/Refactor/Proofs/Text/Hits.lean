import Mathlib.Data.List.Basic
import Refactor.Reference.Located
import Refactor.Proofs.Text.Positions

/-!
# Texts found at byte offsets

A search reports a text with the offsets it found it at. The span of these offsets leads back to them, except where it would
end between a carriage return and the end of its line, which is no place of a line.

* `Position.byteOffset?_atEnd` — the offset of the place where a beginning of a text ends
* `Hit`, `Hit.Exact` — a text between two offsets, and one that stands there on one line
* `Hit.Exact.byteRange?` — its span leads back to its offsets
* `Hit.AllExact` — hits in order, none reaching into the next
-/

namespace Refactor

open Text (utf8Size utf16Size)

namespace Text

theorem unitSize_pos (c : Char) : 0 < unitSize c := by
  unfold unitSize
  split <;> decide

theorem dropTail?_concat (c : Char) (cs : List Char) : dropTail? [c] (cs ++ [c]) = some cs := by
  unfold dropTail?
  rw [List.reverse_append]
  simp [dropLead?]

theorem dropReturn_of_last {line : List Char} (h : line.getLast? ≠ some '\r') : dropReturn line = line := by
  unfold dropReturn
  cases hdrop : dropTail? ['\r'] line with
  | none => rfl
  | some front =>
    obtain ⟨tail, htail, _⟩ := Option.map_eq_some_iff.mp hdrop
    rw [List.getLast?_eq_head?_reverse, dropLead?_eq_some htail] at h
    exact absurd rfl h

theorem dropReturn_append (as : List Char) {bs : List Char} (h : bs ≠ []) : dropReturn (as ++ bs) = as ++ dropReturn bs := by
  obtain ⟨init, c, rfl⟩ := List.eq_nil_or_concat bs |>.resolve_left h
  rw [List.concat_eq_append]
  by_cases hc : c = '\r'
  · subst hc
    rw [← List.append_assoc, dropReturn, dropReturn, dropTail?_concat, dropTail?_concat]
    rfl
  · rw [dropReturn_of_last (by simpa using hc), dropReturn_of_last (by simpa using hc)]

end Text

namespace Position

/-! ## The offset of an end -/

theorem exists_lastLine (cs : List Char) :
    ∃ front, cs = front ++ lastLine cs ∧ (front = [] ∨ ∃ init, front = init ++ ['\n']) := by
  refine ⟨(cs.reverse.dropWhile (· != '\n')).reverse, ?_, ?_⟩
  · rw [lastLine, ← List.reverse_append, List.takeWhile_append_dropWhile, List.reverse_reverse]
  · cases hdrop : cs.reverse.dropWhile (· != '\n') with
    | nil => exact Or.inl rfl
    | cons c rest =>
      have hhead := List.head?_dropWhile_not (· != '\n') cs.reverse
      rw [hdrop] at hhead
      exact Or.inr ⟨rest.reverse, by rw [List.reverse_cons, show c = '\n' by simpa using hhead]⟩

theorem newline_not_mem_lastLine (cs : List Char) : '\n' ∉ lastLine cs := by
  intro hmem
  have hline := List.mem_takeWhile_imp (List.mem_reverse.mp hmem)
  simp at hline

/-- The lines of a text that ends with a newline are skipped. -/
theorem skipLines_append (rest : List Char) : ∀ (off : Nat) {front : List Char},
    (front = [] ∨ ∃ init, front = init ++ ['\n']) →
      skipLines (front.count '\n') off (front ++ rest) = some (off + utf8Size front, rest)
  | off, [], _ => by rw [List.count_nil, skipLines, List.nil_append, Text.utf8Size_nil, Nat.add_zero]
  | off, c :: front, hlast => by
    have hlast' : front = [] ∧ c = '\n' ∨ ∃ init, front = init ++ ['\n'] := by
      rcases hlast with hnil | ⟨init, hinit⟩
      · cases hnil
      · cases init with
        | nil => exact Or.inl (by simpa [and_comm] using hinit)
        | cons d init => exact Or.inr ⟨init, (List.cons.inj hinit).2⟩
    have ih := fun off => @skipLines_append rest off front (hlast'.imp_left And.left)
    by_cases hc : c = '\n'
    · subst hc
      have hsize : ('\n' : Char).utf8Size = 1 := by decide
      rw [List.count_cons_self, List.cons_append, skipLines, if_pos rfl, ih, Text.utf8Size_cons, hsize, Nat.add_assoc]
    · obtain ⟨init, rfl⟩ := hlast'.resolve_left fun h => hc h.2
      obtain ⟨n, hn⟩ : ∃ n, (init ++ ['\n']).count '\n' = n + 1 := ⟨init.count '\n', by simp⟩
      rw [hn] at ih
      rw [List.count_cons_of_ne hc, hn, List.cons_append, skipLines, if_neg hc, ih, Text.utf8Size_cons, Nat.add_assoc]

theorem columnOffset?_append (back : List Char) : ∀ line : List Char,
    columnOffset? (utf16Size line) (line ++ back) = some (utf8Size line)
  | [] => by
    rw [utf16Size]
    unfold columnOffset?
    rfl
  | c :: line => by
    have hpos := Text.unitSize_pos c
    obtain ⟨n, hn⟩ : ∃ n, utf16Size (c :: line) = n + 1 := ⟨utf16Size (c :: line) - 1, by rw [utf16Size]; omega⟩
    have hrest : n + 1 - Text.unitSize c = utf16Size line := by
      rw [utf16Size] at hn
      omega
    rw [hn, List.cons_append, columnOffset?, if_pos (by rw [utf16Size] at hn; omega), hrest, columnOffset?_append back line]
    rfl

/-- A beginning of a text ends on its line, unless it ends between a carriage return and the end of the line. -/
theorem byteOffset?_atEnd {before after : List Char}
    (h : before.getLast? ≠ some '\r' ∨ ∃ c ∈ after.head?, c ≠ '\n') :
    (atEnd before).byteOffset? (before ++ after) = some (utf8Size before) := by
  obtain ⟨front, hfront, hend⟩ := exists_lastLine before
  have hnone := newline_not_mem_lastLine before
  have hatEnd := atEnd_eq before
  generalize lastLine before = line at hfront hnone hatEnd
  subst hfront
  have hcount : (front ++ line).count '\n' = front.count '\n' := by
    rw [List.count_append, List.count_eq_zero_of_not_mem hnone, Nat.add_zero]
  have hfirst : ∃ tail, firstLine (line ++ after) = line ++ tail := by
    have htake : (line ++ after).takeWhile (· != '\n') = line ++ after.takeWhile (· != '\n') :=
      List.takeWhile_append_of_pos fun c hc => by
        rw [bne_iff_ne]
        rintro rfl
        exact hnone hc
    rw [firstLine, htake]
    by_cases hrest : after.takeWhile (· != '\n') = []
    · refine ⟨[], ?_⟩
      rw [hrest, List.append_nil]
      refine Text.dropReturn_of_last fun hreturn => ?_
      rcases h with hlast | ⟨c, hc, hne⟩
      · rw [List.getLast?_append, hreturn] at hlast
        exact hlast rfl
      · obtain ⟨tail, rfl⟩ := List.head?_eq_some_iff.mp hc
        rw [List.takeWhile_cons_of_pos (by simpa using hne)] at hrest
        cases hrest
    · exact ⟨_, Text.dropReturn_append line hrest⟩
  obtain ⟨tail, hfirst⟩ := hfirst
  rw [hatEnd, byteOffset?]
  dsimp only
  rw [hcount, List.append_assoc, skipLines_append _ 0 hend, Nat.zero_add]
  simp only [Option.bind_eq_bind, Option.bind_some]
  rw [hfirst, columnOffset?_append, Option.bind_some, Text.utf8Size_append]
  rfl

theorem ofOffset_append (before after : List Char) : ofOffset (before ++ after) (utf8Size before) = atEnd before := by
  rw [ofOffset, ofOffset?, Nat.min_eq_left (by rw [Text.utf8Size_append]; omega), Text.splitAtByte?_utf8Size]
  rfl

end Position

/-! ## Hits -/

/-- A text between two byte offsets. -/
structure Hit where
  text : List Char
  lo : Nat
  hi : Nat

namespace Hit

/-- A text that stands between its offsets, on one line, and does not end right before the end of the line with a carriage
return. -/
structure Exact (content : List Char) (hit : Hit) : Prop where
  some : hit.text ≠ []
  line : '\n' ∉ hit.text
  place : ∃ front back, content = front ++ hit.text ++ back ∧ utf8Size front = hit.lo ∧
    hit.lo + utf8Size hit.text = hit.hi ∧ (hit.text.getLast? ≠ .some '\r' ∨ ∃ c ∈ back.head?, c ≠ '\n')

variable {content : List Char} {hit : Hit}

theorem Exact.lt (h : hit.Exact content) : hit.lo < hit.hi := by
  obtain ⟨front, back, _, _, hsize, _⟩ := h.place
  have hpos : utf8Size hit.text ≠ 0 := fun hzero => h.some (Text.utf8Size_eq_zero_iff.mp hzero)
  omega

theorem Exact.slice? (h : hit.Exact content) : Text.slice? content hit.lo hit.hi = .some hit.text := by
  obtain ⟨front, back, hcontent, hlo, hhi, _⟩ := h.place
  exact Text.slice?_eq_some_iff.mpr ⟨front, back, hcontent, hlo, by rw [hlo, hhi]⟩

/-- The span of an exact hit leads back to its offsets. -/
theorem Exact.byteRange? (h : hit.Exact content) :
    (Span.ofBytes content hit.lo hit.hi).byteRange? content = .some (hit.lo, hit.hi) := by
  obtain ⟨front, back, hcontent, hlo, hhi, hlast⟩ := h.place
  have hstart : Position.ofOffset content hit.lo = Position.atEnd front := by
    rw [hcontent, ← hlo, List.append_assoc, Position.ofOffset_append]
  have hstop : Position.ofOffset content hit.hi = Position.atEnd (front ++ hit.text) := by
    rw [hcontent, ← hhi, ← hlo, ← Text.utf8Size_append, Position.ofOffset_append]
  rw [Span.byteRange?_eq_some_iff]
  refine ⟨?_, ?_, Nat.le_of_lt h.lt⟩
  · show (Position.ofOffset content hit.lo).byteOffset? content = .some hit.lo
    rw [hstart, hcontent, List.append_assoc, Position.byteOffset?_atEnd, hlo]
    -- the hit starts with a character of its line
    obtain ⟨c, rest, htext⟩ := List.exists_cons_of_ne_nil h.some
    refine Or.inr ⟨c, by rw [htext]; rfl, ?_⟩
    rintro rfl
    exact h.line (by rw [htext]; exact List.mem_cons_self)
  · show (Position.ofOffset content hit.hi).byteOffset? content = .some hit.hi
    rw [hstop, hcontent, Position.byteOffset?_atEnd, Text.utf8Size_append, hlo, hhi]
    refine hlast.imp_left fun hnot => ?_
    rwa [List.getLast?_append_of_ne_nil _ h.some]

/-- Exact hits in order, none reaching into the next. -/
structure AllExact (content : List Char) (hits : List Hit) : Prop where
  exact : ∀ hit ∈ hits, hit.Exact content
  ordered : hits.Pairwise fun a b => a.hi ≤ b.lo

end Hit

def LocatedRef.hit (r : LocatedRef) : Hit := ⟨r.specifier.toList, r.lo, r.hi⟩

end Refactor
