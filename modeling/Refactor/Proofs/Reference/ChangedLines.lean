import Refactor.Proofs.Edit.Splices
import Refactor.Proofs.Text.Offsets
import Refactor.Reference.LineEdits

/-!
# Edits of changed lines

Between two texts with equally many lines every edit replaces what stands before the end of a line. The carriage return of
the line is no part of it, so every line keeps the one that it had. Between other texts one edit replaces everything up to
the last character; when this is a carriage return, no position stands behind it and the edit does not fit.

* `Text.lineReturn`, `Text.relined` — the carriage return of a line, and a line with the carriage return of another one
* `TextEdit.byteRange?_changedLine` — the bytes that the edit of a line replaces
* `TextEdit.areSplices_lines` — the edits of changed lines as splices of the text
* `TextEdit.substitute_lineSplices` — the lines after these splices
* `TextEdit.applyAll_changedLines`, `TextEdit.applyAll_wholeEdit` — the text after the edits of both kinds
* `TextEdit.applyAll_lineEdits` — the text after the edits between two texts, and where it is the second text
-/

namespace Refactor

open Text (utf8Size utf16Size dropReturn)

/-! ## Lines -/

namespace Text

def linesOf (s : String) : List (List Char) := s.toList.splitOn '\n'

theorem intercalate_linesOf (s : String) : ['\n'].intercalate (linesOf s) = s.toList := List.intercalate_splitOn '\n'

def lineReturn (line : List Char) : List Char := if line.getLast? = some '\r' then ['\r'] else []

def relined (old new : List Char) : List Char := dropReturn new ++ lineReturn old

theorem dropReturn_append_lineReturn (line : List Char) : dropReturn line ++ lineReturn line = line := by
  unfold lineReturn
  split
  · rename_i hlast
    obtain ⟨front, rfl⟩ := List.getLast?_eq_some_iff.mp hlast
    rw [dropReturn, dropTail?_concat]
    rfl
  · rename_i hlast
    rw [List.append_nil, dropReturn_of_last hlast]

theorem relined_eq_iff {old new : List Char} : relined old new = new ↔ lineReturn old = lineReturn new := by
  have hnew := dropReturn_append_lineReturn new
  constructor
  · intro heq
    exact List.append_cancel_left (heq.trans hnew.symm)
  · intro heq
    rw [relined, heq, hnew]

theorem relined_of_dropReturn_eq {old new : List Char} (h : dropReturn old = dropReturn new) : relined old new = old := by
  rw [relined, ← h, dropReturn_append_lineReturn]

theorem newline_not_mem_relined {old new : List Char} (h : '\n' ∉ new) : '\n' ∉ relined old new := by
  intro hmem
  rcases List.mem_append.mp hmem with hmem | hmem
  · exact h ((Text.dropReturn_prefix new).subset hmem)
  · unfold lineReturn at hmem
    split at hmem
    · exact absurd (List.mem_singleton.mp hmem) (by decide)
    · cases hmem

theorem intercalate_lines (line : List Char) (lines : List (List Char)) :
    ['\n'].intercalate (line :: lines) = line ++ lines.flatMap ('\n' :: ·) := by
  induction lines generalizing line with
  | nil => simp [List.intercalate]
  | cons next lines ih =>
    rw [List.flatMap_cons, List.cons_append, ← ih next]
    simp [List.intercalate]

end Text

namespace TextEdit

open Text (linesOf intercalate_linesOf lineReturn relined)

/-! ## Edits of lines as splices -/

/-- The splices of the lines that differ, the first line starting at an offset. -/
def lineSplices (o : Nat) : List (List Char) → List (List Char) → List Splice
  | old :: olds, new :: news =>
    let rest := lineSplices (o + utf8Size old + 1) olds news
    if dropReturn old = dropReturn new then rest
    else ⟨o, o + utf8Size (dropReturn old), dropReturn new⟩ :: rest
  | _, _ => []

/-- The edit of one line. -/
def changedLine (description : String) (line : Nat) (old new : List Char) : TextEdit :=
  { editType := .updateImport, location := ⟨line, 0, line, utf16Size (dropReturn old)⟩,
    oldText := String.ofList (dropReturn old), newText := String.ofList (dropReturn new), description }

variable (d : String)

theorem changedLines_cons (line : Nat) (old new : List Char) (olds news : List (List Char)) :
    changedLines d line (old :: olds) (new :: news) =
      if dropReturn old = dropReturn new then changedLines d (line + 1) olds news
      else changedLine d line old new :: changedLines d (line + 1) olds news := rfl

/-- The span of an edited line is that of the line without its carriage return. -/
theorem byteRange?_changedLine {front old : List Char} (hfront : front = [] ∨ ∃ init, front = init ++ ['\n'])
    (hold : '\n' ∉ old) (new behind : List Char) :
    (changedLine d (front.count '\n') old new).location.byteRange? (front ++ (old ++ behind)) =
      some (utf8Size front, utf8Size front + utf8Size (dropReturn old)) := by
  have hempty : Position.lastLine front = [] := by
    rcases hfront with rfl | ⟨init, rfl⟩
    · rfl
    · exact Position.lastLine_concat_newline init
  have hdropped : '\n' ∉ dropReturn old := fun hmem => hold ((Text.dropReturn_prefix old).subset hmem)
  have hline := Text.dropReturn_append_lineReturn old
  have hstart : Position.atEnd front = ⟨front.count '\n', 0⟩ := by
    rw [Position.atEnd_eq, hempty]
    rfl
  have hstop : Position.atEnd (front ++ dropReturn old) = ⟨front.count '\n', utf16Size (dropReturn old)⟩ := by
    rw [Position.atEnd_eq, List.count_append, List.count_eq_zero_of_not_mem hdropped,
      Position.lastLine_append_of_no_newline hdropped, hempty]
    rfl
  rw [Span.byteRange?_eq_some_iff]
  refine ⟨?_, ?_, Nat.le_add_right _ _⟩
  · show Position.byteOffset? _ ⟨front.count '\n', 0⟩ = _
    rw [← hstart]
    refine Position.byteOffset?_atEnd (Or.inl ?_)
    rcases hfront with rfl | ⟨init, rfl⟩ <;> simp
  · show Position.byteOffset? _ ⟨front.count '\n', utf16Size (dropReturn old)⟩ = _
    have hcontent : front ++ (old ++ behind) = (front ++ dropReturn old) ++ (lineReturn old ++ behind) := by
      rw [List.append_assoc, ← List.append_assoc (dropReturn old), hline]
    rw [← hstop, hcontent, ← Text.utf8Size_append]
    refine Position.byteOffset?_atEnd ?_
    unfold lineReturn
    split
    · exact Or.inr ⟨'\r', rfl, by decide⟩
    · rename_i hlast
      rw [Text.dropReturn_of_last hlast]
      refine Or.inl ?_
      rw [List.getLast?_append]
      cases hold' : old.getLast? with
      | none => rcases hfront with rfl | ⟨init, rfl⟩ <;> simp
      | some c => simpa [hold'] using hlast

/-- The edit of a line fits the text, as a splice of what stands before the end of the line. -/
theorem fits_changedLine {front old : List Char} (hfront : front = [] ∨ ∃ init, front = init ++ ['\n'])
    (hold : '\n' ∉ old) (new behind : List Char) :
    (changedLine d (front.count '\n') old new).Fits (front ++ (old ++ behind)) ∧
      (changedLine d (front.count '\n') old new).spliceIn (front ++ (old ++ behind)) =
        ⟨utf8Size front, utf8Size front + utf8Size (dropReturn old), dropReturn new⟩ := by
  have hrange := byteRange?_changedLine d hfront hold new behind
  refine ⟨⟨_, _, hrange, Or.inr ?_⟩, ?_⟩
  · refine Text.slice?_eq_some_iff.mpr ⟨front, lineReturn old ++ behind, ?_, rfl, ?_⟩
    · rw [changedLine, String.toList_ofList, List.append_assoc, ← List.append_assoc (dropReturn old),
        Text.dropReturn_append_lineReturn]
    · rw [changedLine, String.toList_ofList]
  · rw [spliceIn_eq hrange, changedLine, String.toList_ofList]

/-- Edits that fit a text, being these splices of it. -/
def AreSplices (content : List Char) (es : List TextEdit) (ss : List Splice) : Prop :=
  (∀ e ∈ es, e.Fits content) ∧ es.map (spliceIn content) = ss

/-- With the edits of the further lines, the edits from a line on are the splices from this line on. -/
theorem areSplices_line {front old behind : List Char} (hfront : front = [] ∨ ∃ init, front = init ++ ['\n'])
    (hold : '\n' ∉ old) (new : List Char) {olds news : List (List Char)}
    (h : AreSplices (front ++ (old ++ behind)) (changedLines d (front.count '\n' + 1) olds news)
      (lineSplices (utf8Size front + utf8Size old + 1) olds news)) :
    AreSplices (front ++ (old ++ behind)) (changedLines d (front.count '\n') (old :: olds) (new :: news))
      (lineSplices (utf8Size front) (old :: olds) (new :: news)) := by
  rw [changedLines_cons, lineSplices]
  by_cases hsame : dropReturn old = dropReturn new
  · rw [if_pos hsame, if_pos hsame]
    exact h
  · obtain ⟨hfit, hsplice⟩ := fits_changedLine d hfront hold new behind
    rw [if_neg hsame, if_neg hsame]
    exact ⟨List.forall_mem_cons.mpr ⟨hfit, h.1⟩, by rw [List.map_cons, hsplice, h.2]⟩

/-- The edits of the lines behind a text are the splices of these lines. -/
theorem areSplices_furtherLines : ∀ (front : List Char) {olds : List (List Char)} (news : List (List Char)),
    (∀ line ∈ olds, '\n' ∉ line) →
    AreSplices (front ++ olds.flatMap ('\n' :: ·)) (changedLines d (front.count '\n' + 1) olds news)
      (lineSplices (utf8Size front + 1) olds news)
  | front, [], news, _ => ⟨by simp [changedLines], rfl⟩
  | front, old :: olds, [], _ => ⟨by simp [changedLines], rfl⟩
  | front, old :: olds, new :: news, hlines => by
    have hold : '\n' ∉ old := hlines old List.mem_cons_self
    have hsize : ('\n' : Char).utf8Size = 1 := by decide
    have hcount : (front ++ '\n' :: old).count '\n' = (front ++ ['\n']).count '\n' := by
      rw [List.count_append, List.count_cons_self, List.count_eq_zero_of_not_mem hold, List.count_append]
      rfl
    have hoffset : utf8Size (front ++ '\n' :: old) = utf8Size (front ++ ['\n']) + utf8Size old := by
      simp [hsize, Nat.add_assoc]
    have hcontent : (front ++ '\n' :: old) ++ olds.flatMap ('\n' :: ·) =
        (front ++ ['\n']) ++ (old ++ olds.flatMap ('\n' :: ·)) := by simp
    have hcontent' : front ++ (old :: olds).flatMap ('\n' :: ·) =
        (front ++ ['\n']) ++ (old ++ olds.flatMap ('\n' :: ·)) := by simp
    have hlater := areSplices_furtherLines (front ++ '\n' :: old) news fun line hline =>
      hlines line (List.mem_cons_of_mem _ hline)
    rw [hcontent, hcount, hoffset] at hlater
    have hall := areSplices_line d (Or.inr ⟨front, rfl⟩) hold new hlater
    rw [← hcontent', List.count_append, Text.utf8Size_append, Text.utf8Size_cons, hsize] at hall
    exact hall

/-- The edits of the lines of a text are the splices of its lines. -/
theorem areSplices_lines {olds : List (List Char)} (hlines : ∀ line ∈ olds, '\n' ∉ line) (news : List (List Char)) :
    AreSplices (['\n'].intercalate olds) (changedLines d 0 olds news) (lineSplices 0 olds news) := by
  match olds, news, hlines with
  | [], news, _ => exact ⟨by simp [changedLines], rfl⟩
  | old :: olds, [], _ => exact ⟨by simp [changedLines], rfl⟩
  | old :: olds, new :: news, hlines =>
    have hold : '\n' ∉ old := hlines old List.mem_cons_self
    have hlater := areSplices_furtherLines d old news fun line hline => hlines line (List.mem_cons_of_mem _ hline)
    rw [List.count_eq_zero_of_not_mem hold] at hlater
    rw [Text.intercalate_lines]
    refine @areSplices_line d [] old _ (Or.inl rfl) hold new olds news ?_
    rwa [Text.utf8Size_nil, Nat.zero_add]

/-- Every edit of a line stays on it, and the lines of later edits are later. -/
theorem line_of_mem_changedLines {line : Nat} {olds news : List (List Char)} {e : TextEdit}
    (h : e ∈ changedLines d line olds news) :
    line ≤ e.location.startLine ∧ e.location.endLine = e.location.startLine := by
  induction olds generalizing line news with
  | nil => simp [changedLines] at h
  | cons old olds ih =>
    cases news with
    | nil => simp [changedLines] at h
    | cons new news =>
      have hlater := fun he : e ∈ changedLines d (line + 1) olds news => ih he
      rw [changedLines_cons] at h
      split at h
      · exact ⟨Nat.le_of_succ_le (hlater h).1, (hlater h).2⟩
      · rcases List.mem_cons.mp h with rfl | h
        · exact ⟨Nat.le_refl line, rfl⟩
        · exact ⟨Nat.le_of_succ_le (hlater h).1, (hlater h).2⟩

theorem pairwise_changedLines (line : Nat) (olds news : List (List Char)) :
    (changedLines d line olds news).Pairwise Beside := by
  induction olds generalizing line news with
  | nil => exact List.Pairwise.nil
  | cons old olds ih =>
    cases news with
    | nil => exact List.Pairwise.nil
    | cons new news =>
      rw [changedLines_cons]
      split
      · exact ih _ _
      · refine List.pairwise_cons.mpr ⟨fun e he => ?_, ih _ _⟩
        have hlater := (line_of_mem_changedLines d he).1
        refine Span.not_overlaps_of_stop_before ?_ (Position.before_iff.mpr (Or.inl hlater))
        rw [← Bool.not_eq_true, Position.before_iff]
        show ¬(e.location.startLine < line ∨ e.location.startLine = line ∧ _)
        omega

/-! ## Lines after splices -/

theorem le_start_of_mem_lineSplices {o : Nat} {olds news : List (List Char)} {s : Splice} (h : s ∈ lineSplices o olds news) :
    o ≤ s.start := by
  induction olds generalizing o news with
  | nil => simp [lineSplices] at h
  | cons old olds ih =>
    cases news with
    | nil => simp [lineSplices] at h
    | cons new news =>
      have hlater := fun hs : s ∈ lineSplices (o + utf8Size old + 1) olds news => ih hs
      rw [lineSplices] at h
      split at h
      · have hle := hlater h
        omega
      · rcases List.mem_cons.mp h with rfl | h
        · exact Nat.le_refl o
        · have hle := hlater h
          omega

/-- The splice of a line, before those of lines behind it, makes the line new but for its carriage return. -/
theorem substitute_line (o : Nat) (old new : List Char) (olds news : List (List Char)) (behind : List Char) :
    Splice.substitute (lineSplices o (old :: olds) (new :: news)) o (old ++ behind) =
      relined old new ++
        Splice.substitute (lineSplices (o + utf8Size old + 1) olds news) (o + utf8Size old) behind := by
  have hline := Text.dropReturn_append_lineReturn old
  have hlater : ∀ s ∈ lineSplices (o + utf8Size old + 1) olds news, o + utf8Size old ≤ s.start := fun s hs =>
    Nat.le_of_succ_le (le_start_of_mem_lineSplices hs)
  rw [lineSplices]
  by_cases hsame : dropReturn old = dropReturn new
  · rw [if_pos hsame, Splice.substitute_append_of_before old behind hlater, Text.relined_of_dropReturn_eq hsame]
  · have hsize : utf8Size old = utf8Size (dropReturn old) + utf8Size (lineReturn old) := by
      rw [← Text.utf8Size_append, hline]
    have hkept : ∀ s ∈ lineSplices (o + utf8Size old + 1) olds news, o + utf8Size (dropReturn old) ≤ s.start :=
      fun s hs => by
        have hle := hlater s hs
        omega
    have hreturn : ∀ s ∈ lineSplices (o + utf8Size old + 1) olds news,
        o + utf8Size (dropReturn old) + utf8Size (lineReturn old) ≤ s.start := fun s hs => by
      have hle := hlater s hs
      omega
    have hcut : old ++ behind = dropReturn old ++ (lineReturn old ++ behind) := by rw [← List.append_assoc, hline]
    have hfirst := Splice.substitute_cons_of_start (s := ⟨o, o + utf8Size (dropReturn old), dropReturn new⟩) hkept rfl
      (lineReturn old ++ behind)
    rw [if_neg hsame, hcut, hfirst, Splice.substitute_append_of_before (lineReturn old) behind hreturn, relined,
      List.append_assoc, Nat.add_assoc o (utf8Size (dropReturn old)), ← hsize]

/-- The lines behind an offset after their splices. -/
theorem substitute_furtherLines : ∀ (o : Nat) {olds news : List (List Char)}, olds.length = news.length →
    Splice.substitute (lineSplices (o + 1) olds news) o (olds.flatMap ('\n' :: ·)) =
      (List.zipWith relined olds news).flatMap ('\n' :: ·)
  | o, [], [], _ => Splice.substitute_none o []
  | o, old :: olds, new :: news, hlength => by
    have hsize : ('\n' : Char).utf8Size = 1 := by decide
    have hbefore : ∀ s ∈ lineSplices (o + 1) (old :: olds) (new :: news), o + utf8Size ['\n'] ≤ s.start := fun s hs => by
      rw [Text.utf8Size_cons, hsize]
      exact le_start_of_mem_lineSplices hs
    have hcontent : (old :: olds).flatMap ('\n' :: ·) = ['\n'] ++ (old ++ olds.flatMap ('\n' :: ·)) := by simp
    rw [hcontent, Splice.substitute_append_of_before ['\n'] _ hbefore, Text.utf8Size_cons, hsize, Text.utf8Size_nil,
      Nat.add_zero, substitute_line, substitute_furtherLines _ (Nat.succ.inj hlength)]
    simp

/-- The lines of a text after their splices. -/
theorem substitute_lineSplices {olds news : List (List Char)} (h : olds.length = news.length) :
    Splice.substitute (lineSplices 0 olds news) 0 (['\n'].intercalate olds) =
      ['\n'].intercalate (List.zipWith relined olds news) := by
  match olds, news, h with
  | [], [], _ => exact Splice.substitute_none 0 []
  | old :: olds, new :: news, h =>
    rw [Text.intercalate_lines, List.zipWith_cons_cons, Text.intercalate_lines, substitute_line,
      substitute_furtherLines _ (Nat.succ.inj h)]

/-! ## The text after edits -/

/-- The edits of changed lines make every line new but for its carriage return. -/
theorem applyAll_changedLines (path before : String) {news : List (List Char)} (h : (linesOf before).length = news.length) :
    applyAll path before (changedLines d 0 (linesOf before) news) =
      .ok (String.ofList (['\n'].intercalate (List.zipWith relined (linesOf before) news))) := by
  have hlines : ∀ line ∈ linesOf before, '\n' ∉ line := fun line => Text.not_mem_of_mem_splitOn
  obtain ⟨hfits, hsplices⟩ := areSplices_lines d hlines news
  rw [intercalate_linesOf] at hfits hsplices
  rw [applyAll_eq_substitute path before (pairwise_changedLines d 0 (linesOf before) news) hfits, hsplices,
    ← intercalate_linesOf, substitute_lineSplices h]

/-- One edit for the whole text. -/
def wholeEdit (before after description : String) : TextEdit :=
  { editType := .updateImport, location := .between ⟨0, 0⟩ (.atEnd before.toList),
    oldText := before, newText := after, description }

theorem byteOffset?_atEnd_return (front : List Char) :
    (Position.atEnd (front ++ ['\r'])).byteOffset? (front ++ ['\r']) = none := by
  rw [Option.eq_none_iff_forall_ne_some]
  intro o ho
  obtain ⟨before, after, hcut, rfl, hend⟩ := Position.byteOffset?_spec ho
  obtain rfl := Position.atEnd_injective (hcut.symm.trans (List.append_nil _).symm) hend
  exact Position.not_behindReturn ho ⟨front, [], (List.append_nil _).symm, rfl, by simp⟩

theorem toSplice_eq_error (path : String) {content : List Char} {e : TextEdit} (h : e.location.byteRange? content = none) :
    toSplice path content e = .error (.validation ("Edit at " ++ placeText e.location.start ++ " does not fit " ++ path)) := by
  unfold toSplice
  rw [h]
  rfl

/-- The edit of a whole text fits it and gives the new text, unless the text ends with a carriage return. -/
theorem applyAll_wholeEdit (path before after : String) : applyAll path before [wholeEdit before after d] =
    if before.toList.getLast? = some '\r' then .error (.validation ("Edit at 1:1 does not fit " ++ path)) else .ok after := by
  split
  · rename_i hlast
    obtain ⟨front, hfront⟩ := List.getLast?_eq_some_iff.mp hlast
    have hrange : (wholeEdit before after d).location.byteRange? before.toList = none := by
      have hstop := byteOffset?_atEnd_return front
      rw [← hfront] at hstop
      rw [Option.eq_none_iff_forall_ne_some]
      rintro ⟨a, b⟩ hsome
      obtain ⟨_, hb, _⟩ := Span.byteRange?_eq_some_iff.mp hsome
      exact absurd (hstop.symm.trans hb) (by simp)
    have hplace : placeText ⟨0, 0⟩ = "1:1" := by decide
    unfold applyAll
    dsimp only
    rw [List.mapM_cons, toSplice_eq_error path hrange]
    show Except.error (Error.validation ("Edit at " ++ placeText ⟨0, 0⟩ ++ " does not fit " ++ path)) = _
    rw [hplace]
    rfl
  · rename_i hlast
    have hrange : (wholeEdit before after d).location.byteRange? before.toList = some (0, utf8Size before.toList) := by
      have hstop := @Position.byteOffset?_atEnd before.toList [] (Or.inl hlast)
      rw [List.append_nil] at hstop
      have hstart := @Position.byteOffset?_atEnd [] before.toList (Or.inl (by simp))
      rw [Span.byteRange?_eq_some_iff]
      exact ⟨hstart, hstop, Nat.zero_le _⟩
    have hfits : (wholeEdit before after d).Fits before.toList :=
      ⟨_, _, hrange, Or.inr (Text.slice?_eq_some_iff.mpr ⟨[], [], by simp [wholeEdit], rfl, by simp [wholeEdit]⟩)⟩
    have hsubstitute := @Splice.substitute_cons_of_start ⟨0, utf8Size before.toList, after.toList⟩ [] (by simp)
      before.toList (Nat.zero_add _) []
    rw [List.append_nil, Splice.substitute_none, List.append_nil] at hsubstitute
    rw [applyAll_eq_substitute path before (List.pairwise_singleton _ _) (by simpa using hfits), List.map_singleton,
      spliceIn_eq hrange]
    show Except.ok (String.ofList (Splice.substitute [⟨0, utf8Size before.toList, after.toList⟩] 0 before.toList)) = _
    rw [hsubstitute, String.ofList_toList]

/-- The lines after their edits are the new ones just when all carriage returns agree. -/
theorem zipWith_relined_eq_iff : ∀ {olds news : List (List Char)}, olds.length = news.length →
    (List.zipWith relined olds news = news ↔ ∀ pair ∈ olds.zip news, lineReturn pair.1 = lineReturn pair.2)
  | [], [], _ => by simp
  | old :: olds, new :: news, h => by
    rw [List.zipWith_cons_cons, List.cons.injEq, List.zip_cons_cons, List.forall_mem_cons, Text.relined_eq_iff,
      zipWith_relined_eq_iff (Nat.succ.inj h)]

theorem newline_not_mem_zipWith : ∀ {olds news : List (List Char)}, (∀ line ∈ news, '\n' ∉ line) →
    ∀ line ∈ List.zipWith relined olds news, '\n' ∉ line
  | [], _, _ => by simp
  | _ :: _, [], _ => by simp
  | _ :: olds, _ :: news, h => by
    rw [List.zipWith_cons_cons, List.forall_mem_cons]
    exact ⟨Text.newline_not_mem_relined (h _ List.mem_cons_self),
      newline_not_mem_zipWith fun line hline => h line (List.mem_cons_of_mem _ hline)⟩

/-- The outcome of the edits between two texts. -/
theorem applyAll_lineEdits_eq (path before after : String) : applyAll path before (lineEdits before after d) =
    if (linesOf before).length = (linesOf after).length then
      .ok (String.ofList (['\n'].intercalate (List.zipWith relined (linesOf before) (linesOf after))))
    else if before.toList.getLast? = some '\r' then .error (.validation ("Edit at 1:1 does not fit " ++ path))
    else .ok after := by
  unfold lineEdits
  by_cases hsame : before = after
  · subst hsame
    have hlines : List.zipWith relined (linesOf before) (linesOf before) = linesOf before := by
      rw [List.zipWith_self, List.map_congr_left fun line _ => Text.relined_eq_iff.mpr rfl, List.map_id']
    rw [if_pos rfl, if_pos rfl, hlines, intercalate_linesOf, String.ofList_toList]
    exact applyAll_nil path before
  · rw [if_neg hsame]
    dsimp only
    split
    · rename_i hlength
      exact (applyAll_changedLines d path before hlength).trans (if_pos hlength).symm
    · rename_i hlength
      exact (applyAll_wholeEdit d path before after).trans (if_neg hlength).symm

/-- The edits between two texts, applied to the first one. Where the texts have equally many lines, the outcome has the
lines of the second text with the carriage returns of the first, so it is the second text just when all lines agree on
them. Otherwise it is the second text, unless the first one ends with a carriage return: then the edit is refused. -/
theorem applyAll_lineEdits (path before after d : String) :
    (applyAll path before (lineEdits before after d) =
      if (linesOf before).length = (linesOf after).length then
        .ok (String.ofList (['\n'].intercalate (List.zipWith relined (linesOf before) (linesOf after))))
      else if before.toList.getLast? = some '\r' then .error (.validation ("Edit at 1:1 does not fit " ++ path))
      else .ok after) ∧
    (applyAll path before (lineEdits before after d) = .ok after ↔
      if (linesOf before).length = (linesOf after).length then
        ∀ lines ∈ (linesOf before).zip (linesOf after), lineReturn lines.1 = lineReturn lines.2
      else before.toList.getLast? ≠ some '\r') := by
  refine ⟨applyAll_lineEdits_eq d path before after, ?_⟩
  rw [applyAll_lineEdits_eq]
  split
  · rename_i hlength
    rw [← zipWith_relined_eq_iff hlength, Except.ok.injEq]
    constructor
    · intro heq
      have hlines : ∀ line ∈ List.zipWith relined (linesOf before) (linesOf after), '\n' ∉ line :=
        newline_not_mem_zipWith fun line => Text.not_mem_of_mem_splitOn
      have hsome : List.zipWith relined (linesOf before) (linesOf after) ≠ [] := by
        simp [linesOf, List.splitOn_ne_nil]
      rw [← List.splitOn_intercalate _ hlines hsome, ← String.toList_ofList (l := ['\n'].intercalate _), heq, linesOf]
    · intro heq
      rw [heq, intercalate_linesOf, String.ofList_toList]
  · split
    · rename_i hlast
      exact iff_of_false (by simp) fun h => h hlast
    · rename_i hlast
      exact iff_of_true rfl hlast

example : applyAll "f" "a\r\nb" (lineEdits "a\r\nb" "a\nc" "") = .ok "a\r\nc" := by
  rw [applyAll_lineEdits_eq]
  decide

end TextEdit

end Refactor
