import Refactor.Markdown.CodeRegions
import Refactor.Proofs.Reference.Mentions

/-!
# Code between backticks, read twice

A document and the search for mentions look for the run of backticks that closes another one each in its own way. On a
line without a quotation mark, which only the search minds, both find the same code.

* `Markdown.exists_ticks` — a text as the backticks that it starts with, and the rest
* `Markdown.closingRun?_afterTicks` — the run that closes another one
* `Markdown.inlineCode_blanked` — the search blanks the code of a line
* `Markdown.inlineCodeFrom_bounds` — the code of a line lies in the line
-/

namespace Refactor.Markdown

open Text (utf8Size withOffsetsFrom IsLine)
open Mention (lineRanges afterTicks? tickRun Markings length_withOffsetsFrom)

/-! ## Runs of backticks -/

theorem utf8Size_tick : ('\x60' : Char).utf8Size = 1 := by decide

def ticks (n : Nat) : List Char := List.replicate n '\x60'

theorem utf8Size_ticks : ∀ n : Nat, utf8Size (ticks n) = n
  | 0 => rfl
  | n + 1 => by
    rw [ticks, List.replicate_succ, Text.utf8Size_cons, utf8Size_tick]
    show 1 + utf8Size (ticks n) = _
    rw [utf8Size_ticks n, Nat.add_comm]

theorem exists_ticks (cs : List Char) : ∃ n rest, cs = ticks n ++ rest ∧ rest.head? ≠ some '\x60' := by
  refine ⟨(cs.takeWhile (· == '\x60')).length, cs.dropWhile (· == '\x60'), ?_, ?_⟩
  · have hall : cs.takeWhile (· == '\x60') = ticks (cs.takeWhile (· == '\x60')).length :=
      List.eq_replicate_iff.mpr ⟨rfl, fun c hc => by simpa using List.mem_takeWhile_imp hc⟩
    rw [← hall, List.takeWhile_append_dropWhile]
  · intro hhead
    have hnot := List.head?_dropWhile_not (· == '\x60') cs
    rw [hhead] at hnot
    cases hnot

theorem takeWhile_ticks (n : Nat) {rest : List Char} (h : rest.head? ≠ some '\x60') :
    (ticks n ++ rest).takeWhile (· == '\x60') = ticks n := by
  have hrest : rest.takeWhile (· == '\x60') = [] := by
    cases rest with
    | nil => rfl
    | cons c rest => rw [List.takeWhile_cons_of_neg (by simpa using h)]
  rw [List.takeWhile_append_of_pos (by simp [ticks]), hrest, List.append_nil]

theorem drop_ticks (n : Nat) (rest : List Char) : (ticks n ++ rest).drop n = rest :=
  List.drop_left' (by simp [ticks])

/-! ### The closing run -/

theorem closingRun?_ticks (n : Nat) (rest : List Char) : ∀ (k run offset : Nat),
    closingRun? n run offset (ticks k ++ rest) = closingRun? n (run + k) (offset + k) rest
  | 0, run, offset => rfl
  | k + 1, run, offset => by
    have hcons : ticks (k + 1) ++ rest = '\x60' :: (ticks k ++ rest) := rfl
    rw [hcons, closingRun?, if_pos (by simp), closingRun?_ticks n rest k, Nat.add_right_comm run, Nat.add_right_comm offset]
    rfl

theorem closingRun?_self (n : Nat) {rest : List Char} (hrest : rest.head? ≠ some '\x60') (offset : Nat) :
    closingRun? n n offset rest = some offset := by
  cases rest with
  | nil => rw [closingRun?, if_pos (by simp)]
  | cons c rest => rw [closingRun?, if_neg (by simpa using hrest), if_pos (by simp)]

/-- A run of another length is not the closing one. -/
theorem closingRun?_of_ne {n run : Nat} (hn : n ≠ 0) (hrun : run ≠ n) {rest : List Char}
    (hrest : rest.head? ≠ some '\x60') (offset : Nat) : closingRun? n run offset rest = closingRun? n 0 offset rest := by
  cases rest with
  | nil => rw [closingRun?, closingRun?, if_neg (by simpa using hrun), if_neg (by simpa using Ne.symm hn)]
  | cons c rest =>
    have hc : ¬ (c == '\x60') = true := by simpa using hrest
    rw [closingRun?, closingRun?, if_neg hc, if_neg hc, if_neg (by simpa using hrun), if_neg (by simpa using Ne.symm hn)]

theorem closingRun?_le {n : Nat} : ∀ {cs : List Char} {run offset stop : Nat},
    closingRun? n run offset cs = some stop → offset ≤ stop ∧ stop ≤ offset + utf8Size cs
  | [], run, offset, stop, h => by
    rw [closingRun?] at h
    split at h
    · cases h
      exact ⟨Nat.le_refl _, Nat.le_refl _⟩
    · cases h
  | c :: cs, run, offset, stop, h => by
    rw [closingRun?] at h
    rw [Text.utf8Size_cons]
    split at h
    · rename_i hc
      have hsize : c.utf8Size = 1 := by rw [beq_iff_eq.mp hc, utf8Size_tick]
      have hle := closingRun?_le h
      omega
    · split at h
      · cases h
        omega
      · have hle := closingRun?_le h
        omega

/-! ### The closing run, with offsets -/

theorem withOffsetsFrom_append (rest : List Char) : ∀ (cs : List Char) (offset : Nat),
    withOffsetsFrom offset (cs ++ rest) = withOffsetsFrom offset cs ++ withOffsetsFrom (offset + utf8Size cs) rest
  | [], offset => rfl
  | c :: cs, offset => by
    rw [List.cons_append, withOffsetsFrom, withOffsetsFrom_append rest cs, withOffsetsFrom, Text.utf8Size_cons, Nat.add_assoc]
    rfl

theorem map_snd_withOffsetsFrom : ∀ (cs : List Char) (offset : Nat), (withOffsetsFrom offset cs).map Prod.snd = cs
  | [], _ => rfl
  | c :: cs, offset => by rw [withOffsetsFrom, List.map_cons, map_snd_withOffsetsFrom cs]

theorem drop_withOffsetsFrom_ticks (n offset : Nat) (rest : List Char) :
    (withOffsetsFrom offset (ticks n ++ rest)).drop n = withOffsetsFrom (offset + n) rest := by
  rw [withOffsetsFrom_append, utf8Size_ticks]
  exact List.drop_left' (by simp [length_withOffsetsFrom, ticks])

theorem tickRun_withOffsetsFrom (n offset : Nat) {rest : List Char} (h : rest.head? ≠ some '\x60') :
    tickRun (withOffsetsFrom offset (ticks n ++ rest)) = n := by
  have hmap : ((withOffsetsFrom offset (ticks n ++ rest)).takeWhile (·.2 == '\x60')).map Prod.snd =
      (ticks n ++ rest).takeWhile (· == '\x60') := by
    conv_rhs => rw [← map_snd_withOffsetsFrom (ticks n ++ rest) offset, List.takeWhile_map]
    rfl
  rw [tickRun, ← List.length_map (f := Prod.snd), hmap, takeWhile_ticks n h]
  simp [ticks]

/-- The run that closes another one ends at one place for both. -/
theorem closingRun?_afterTicks {n : Nat} (hn : n ≠ 0) : ∀ {fuel : Nat} {cs : List Char} {offset : Nat}, IsLine cs →
    cs.length < fuel →
    (closingRun? n 0 offset cs = none ∧ afterTicks? n fuel (withOffsetsFrom offset cs) = none) ∨
      ∃ body rest, cs = body ++ rest ∧ closingRun? n 0 offset cs = some (offset + utf8Size body) ∧
        afterTicks? n fuel (withOffsetsFrom offset cs) = some (withOffsetsFrom (offset + utf8Size body) rest)
  | 0, _, _, _, hfuel => by omega
  | fuel + 1, [], offset, _, _ => by
    refine Or.inl ⟨?_, rfl⟩
    rw [closingRun?, if_neg (by simpa using Ne.symm hn)]
  | fuel + 1, c :: cs, offset, hline, hfuel => by
    have hstep : c ≠ '\x60' → c ≠ '\n' → afterTicks? n (fuel + 1) (withOffsetsFrom offset (c :: cs)) =
        afterTicks? n fuel (withOffsetsFrom (offset + c.utf8Size) cs) := by
      intro htick hnewline
      rw [withOffsetsFrom, afterTicks?, if_neg (by simpa using hnewline), if_neg (by simpa using htick)]
    by_cases htick : c = '\x60'
    · subst htick
      obtain ⟨k, rest, hcut, hrest⟩ := exists_ticks ('\x60' :: cs)
      cases k with
      | zero => exact absurd (by rw [← List.nil_append rest, ← show _ = [] ++ rest from hcut]; rfl) hrest
      | succ k =>
        obtain rfl : cs = ticks k ++ rest := (List.cons.inj hcut).2
        have hshorter : rest.length < fuel := by
          simp only [List.length_cons, List.length_append] at hfuel
          omega
        have hrun : tickRun ((offset, '\x60') :: withOffsetsFrom (offset + ('\x60' : Char).utf8Size) (ticks k ++ rest)) = k + 1 :=
          tickRun_withOffsetsFrom (k + 1) offset hrest
        have hafter : afterTicks? n (fuel + 1) (withOffsetsFrom offset ('\x60' :: (ticks k ++ rest))) =
            if k + 1 = n then some (withOffsetsFrom (offset + (k + 1)) rest)
            else afterTicks? n fuel (withOffsetsFrom (offset + (k + 1)) rest) := by
          rw [withOffsetsFrom, afterTicks?, if_neg (by decide), if_pos (by decide)]
          dsimp only
          rw [hrun, Nat.add_sub_cancel, drop_withOffsetsFrom_ticks, utf8Size_tick, Nat.add_assoc, Nat.add_comm 1 k]
          simp only [beq_iff_eq]
        have hclosing := closingRun?_ticks n rest (k + 1) 0 offset
        rw [Nat.zero_add] at hclosing
        rw [hafter, show '\x60' :: (ticks k ++ rest) = ticks (k + 1) ++ rest from rfl, hclosing]
        by_cases hlength : k + 1 = n
        · rw [if_pos hlength, hlength, closingRun?_self n hrest]
          exact Or.inr ⟨ticks n, rest, rfl, by rw [utf8Size_ticks], by rw [utf8Size_ticks]⟩
        · rw [if_neg hlength, closingRun?_of_ne hn hlength hrest]
          refine (closingRun?_afterTicks hn (IsLine.of_append (ticks (k + 1)) hline) hshorter).imp_right ?_
          rintro ⟨body, rest', rfl, hstop, hafter⟩
          refine ⟨ticks (k + 1) ++ body, rest', by simp, ?_, ?_⟩
          · rw [hstop, Text.utf8Size_append, utf8Size_ticks, Nat.add_assoc offset]
          · rw [hafter, Text.utf8Size_append, utf8Size_ticks, Nat.add_assoc offset]
    · have hclosing : closingRun? n 0 offset (c :: cs) = closingRun? n 0 (offset + c.utf8Size) cs := by
        rw [closingRun?, if_neg (by simpa using htick), if_neg (by simpa using Ne.symm hn)]
      by_cases hnewline : c = '\n'
      · subst hnewline
        obtain rfl := hline [] cs rfl
        refine Or.inl ⟨?_, ?_⟩
        · rw [hclosing, closingRun?, if_neg (by simpa using Ne.symm hn)]
        · rw [withOffsetsFrom, afterTicks?, if_pos (by decide)]
      · rw [hclosing, hstep htick hnewline]
        refine (closingRun?_afterTicks hn (IsLine.of_append [c] hline) (by simpa using hfuel)).imp_right ?_
        rintro ⟨body, rest, rfl, hstop, hafter⟩
        exact ⟨c :: body, rest, rfl, by rw [hstop, Text.utf8Size_cons, Nat.add_assoc],
          by rw [hafter, Text.utf8Size_cons, Nat.add_assoc]⟩

/-! ## The code of a line -/

theorem inlineCodeFrom_skip (resume : Nat) (rest : List Char) : ∀ (body : List Char) (offset : Nat),
    offset + utf8Size body ≤ resume →
      inlineCodeFrom resume offset false (body ++ rest) = inlineCodeFrom resume (offset + utf8Size body) false rest
  | [], offset, _ => rfl
  | c :: body, offset, h => by
    have hpos := c.utf8Size_pos
    rw [Text.utf8Size_cons, ← Nat.add_assoc] at h ⊢
    rw [List.cons_append, inlineCodeFrom, if_pos (by omega), inlineCodeFrom_skip resume rest body _ h]

/-- A run that opens nothing is passed over. -/
theorem inlineCodeFrom_ticks {resume : Nat} {rest : List Char} (hrest : rest.head? ≠ some '\x60') :
    ∀ (k : Nat) {offset : Nat}, resume ≤ offset →
      inlineCodeFrom resume offset true (ticks k ++ rest) = inlineCodeFrom resume (offset + k) false rest
  | 0, offset, _ => by
    show inlineCodeFrom resume offset true rest = inlineCodeFrom resume offset false rest
    cases rest with
    | nil => rfl
    | cons c rest =>
      have hc : (c != '\x60') = true := by simpa using hrest
      rw [inlineCodeFrom, inlineCodeFrom, if_pos hc, if_pos hc]
  | k + 1, offset, h => by
    have hcons : ticks (k + 1) ++ rest = '\x60' :: (ticks k ++ rest) := rfl
    rw [hcons, inlineCodeFrom, if_neg (by omega), if_neg (by decide), if_pos rfl,
      inlineCodeFrom_ticks hrest k (by omega), Nat.add_assoc, Nat.add_comm 1 k]

/-- A run opens code when another one closes it. -/
theorem inlineCodeFrom_opening {resume offset : Nat} (h : resume ≤ offset) (k : Nat) {rest : List Char}
    (hrest : rest.head? ≠ some '\x60') : inlineCodeFrom resume offset false (ticks (k + 1) ++ rest) =
      match closingRun? (k + 1) 0 (offset + (k + 1)) rest with
      | some stop => (offset, stop) :: inlineCodeFrom stop (offset + 1) false (ticks k ++ rest)
      | none => inlineCodeFrom resume (offset + (k + 1)) false rest := by
  have hcons : ticks (k + 1) ++ rest = '\x60' :: (ticks k ++ rest) := rfl
  have hlength : (('\x60' :: (ticks k ++ rest)).takeWhile (· == '\x60')).length = k + 1 := by
    rw [← hcons, takeWhile_ticks (k + 1) hrest]
    simp [ticks]
  rw [hcons, inlineCodeFrom, if_neg (by omega), if_neg (by decide), if_neg (by decide)]
  dsimp only
  rw [hlength, ← hcons, drop_ticks]
  cases closingRun? (k + 1) 0 (offset + (k + 1)) rest with
  | some stop => rfl
  | none =>
    dsimp only
    rw [inlineCodeFrom_ticks hrest k (by omega), Nat.add_assoc, Nat.add_comm 1 k]

/-- The markings of a document. -/
def prose : Markings := ⟨true, true, some ("<!--", "-->"), none, true, false⟩

theorem ofExtension_md : Markings.ofExtension "md" = prose := by
  have hlower : lowered "md" = "md" := by decide +kernel
  simp [Markings.ofExtension, hlower, prose]

theorem lineRanges_other {c : Char} (htick : c ≠ '\x60') (hquote : c ≠ '"') (stop fuel : Nat) (prev : Option Char)
    (offset : Nat) (cs : List Char) : lineRanges prose stop (fuel + 1) prev none (withOffsetsFrom offset (c :: cs)) =
      lineRanges prose stop fuel (some c) none (withOffsetsFrom (offset + c.utf8Size) cs) := by
  have hc : (prose.inlineCode && c == '\x60') = false := by simpa [prose] using htick
  have hq : (c == '"' || (prose.singleQuotes && c == '\'' && Mention.opensAfter prev)) = false := by
    simpa [prose] using hquote
  rw [withOffsetsFrom, lineRanges, hc, if_neg (by simp)]
  dsimp only
  rw [hq, if_neg (by simp [prose]), if_neg (by simp [prose]), if_neg (by simp)]

theorem lineRanges_ticks (stop fuel : Nat) (prev : Option Char) (offset k : Nat) {rest : List Char}
    (hrest : rest.head? ≠ some '\x60') :
    lineRanges prose stop (fuel + 1) prev none (withOffsetsFrom offset (ticks (k + 1) ++ rest)) =
      match afterTicks? (k + 1) (rest.length + 1) (withOffsetsFrom (offset + (k + 1)) rest) with
      | some closed => (offset, (closed.head?.map (·.1)).getD stop) :: lineRanges prose stop fuel (some '\x60') none closed
      | none => lineRanges prose stop fuel (some '\x60') none (withOffsetsFrom (offset + (k + 1)) rest) := by
  have hcons : ticks (k + 1) ++ rest = '\x60' :: (ticks k ++ rest) := rfl
  have hrun := tickRun_withOffsetsFrom (k + 1) offset hrest
  have hbehind : offset + ('\x60' : Char).utf8Size + k = offset + (k + 1) := by
    rw [utf8Size_tick, Nat.add_assoc, Nat.add_comm 1 k]
  rw [hcons, withOffsetsFrom] at hrun
  rw [hcons, withOffsetsFrom, lineRanges, if_pos (by decide)]
  dsimp only
  rw [hrun, Nat.add_sub_cancel, drop_withOffsetsFrom_ticks, length_withOffsetsFrom]
  exact hbehind ▸ rfl

/-- On a line without a quotation mark the search blanks the code that a document finds there. -/
theorem inlineCodeFrom_blanked {stop : Nat} {region : Region} : ∀ {fuel : Nat} {cs : List Char} {resume offset : Nat}
    {prev : Option Char}, IsLine cs → '"' ∉ cs → cs.length < fuel → resume ≤ offset → stop = offset + utf8Size cs →
      region ∈ inlineCodeFrom resume offset false cs →
        region ∈ lineRanges prose stop fuel prev none (withOffsetsFrom offset cs)
  | 0, _, _, _, _, _, _, hfuel, _, _, _ => by omega
  | fuel + 1, cs, resume, offset, prev, hline, hquote, hfuel, hresume, hstop, h => by
    obtain ⟨k, rest, rfl, hrest⟩ := exists_ticks cs
    cases k with
    | zero =>
      cases rest with
      | nil => cases h
      | cons c rest =>
        have htick : c ≠ '\x60' := by simpa using hrest
        have hc : c ≠ '"' := fun hc => hquote (hc ▸ List.mem_cons_self)
        have hpos := c.utf8Size_pos
        replace hquote : '"' ∉ rest := fun hmem => hquote (List.mem_cons_of_mem c hmem)
        replace hstop : stop = offset + c.utf8Size + utf8Size rest := by rw [hstop, Nat.add_assoc]; rfl
        replace h : region ∈ inlineCodeFrom resume (offset + c.utf8Size) false rest := by
          change region ∈ inlineCodeFrom resume offset false (c :: rest) at h
          rwa [inlineCodeFrom, if_neg (by omega), if_pos (by simpa using htick)] at h
        show region ∈ lineRanges prose stop (fuel + 1) prev none (withOffsetsFrom offset (c :: rest))
        rw [lineRanges_other htick hc]
        exact inlineCodeFrom_blanked (IsLine.of_append [c] hline) hquote
          (by simpa [ticks] using hfuel) (by omega) hstop h
    | succ k =>
      have hline' : IsLine rest := IsLine.of_append _ hline
      have hquote' : '"' ∉ rest := fun hmem => hquote (List.mem_append_right _ hmem)
      have hstop' : stop = offset + (k + 1) + utf8Size rest := by
        rw [hstop, Text.utf8Size_append, utf8Size_ticks]
        omega
      have hlength : rest.length < fuel := by
        simp only [List.length_append, ticks, List.length_replicate] at hfuel
        omega
      rw [inlineCodeFrom_opening hresume k hrest] at h
      rw [lineRanges_ticks stop fuel prev offset k hrest]
      have hsearch := @closingRun?_afterTicks (k + 1) (by omega) _ rest (offset + (k + 1)) hline' (Nat.lt_succ_self _)
      rcases hsearch with ⟨hclosing, hafter⟩ | ⟨body, rest', rfl, hclosing, hafter⟩
      · rw [hclosing] at h
        rw [hafter]
        exact inlineCodeFrom_blanked hline' hquote' hlength (by omega) hstop' h
      · rw [hclosing] at h
        rw [hafter]
        dsimp only at h ⊢
        rw [Text.utf8Size_append, ← Nat.add_assoc] at hstop'
        rcases List.mem_cons.mp h with rfl | h
        · -- behind the closing run stands the next character, or the end of the line
          have hend : ((withOffsetsFrom (offset + (k + 1) + utf8Size body) rest').head?.map (·.1)).getD stop =
              offset + (k + 1) + utf8Size body := by
            cases rest' with
            | nil => exact hstop'
            | cons c rest' => rfl
          rw [hend]
          exact List.mem_cons_self
        · refine List.mem_cons_of_mem _ ?_
          have hfront : ticks k ++ (body ++ rest') = (ticks k ++ body) ++ rest' := (List.append_assoc _ _ _).symm
          have hsize : offset + 1 + utf8Size (ticks k ++ body) = offset + (k + 1) + utf8Size body := by
            rw [Text.utf8Size_append, utf8Size_ticks]
            omega
          rw [hfront, inlineCodeFrom_skip _ _ _ _ (Nat.le_of_eq hsize), hsize] at h
          refine inlineCodeFrom_blanked (IsLine.of_append _ hline') (fun hmem => hquote' (List.mem_append_right _ hmem)) ?_
            (Nat.le_refl _) hstop' h
          rw [List.length_append] at hlength
          omega

/-- The code of a line lies in the line. -/
theorem inlineCodeFrom_bounds {region : Region} : ∀ {cs : List Char} {resume offset : Nat} {inRun : Bool},
    region ∈ inlineCodeFrom resume offset inRun cs → offset ≤ region.1 ∧ region.2 ≤ offset + utf8Size cs
  | [], _, _, _, h => by cases h
  | c :: cs, resume, offset, inRun, h => by
    have hlater : ∀ {resume offset' : Nat} {inRun : Bool}, offset' = offset + c.utf8Size →
        region ∈ inlineCodeFrom resume offset' inRun cs → offset ≤ region.1 ∧ region.2 ≤ offset + utf8Size (c :: cs) := by
      rintro resume _ inRun rfl h
      have hbounds := inlineCodeFrom_bounds h
      rw [Text.utf8Size_cons]
      omega
    rw [inlineCodeFrom] at h
    split at h
    · exact hlater rfl h
    · split at h
      · exact hlater rfl h
      · rename_i htick
        have hsize : offset + 1 = offset + c.utf8Size := by
          rw [show c = '\x60' by simpa using htick, utf8Size_tick]
        split at h
        · exact hlater hsize h
        · dsimp only at h
          obtain ⟨k, rest, hcut, hrest⟩ := exists_ticks (c :: cs)
          have hlength : (ticks k).length = k := by simp [ticks]
          rw [hcut, takeWhile_ticks k hrest, hlength, drop_ticks] at h
          cases hclosing : closingRun? k 0 (offset + k) rest with
          | none =>
            rw [hclosing] at h
            exact hlater hsize h
          | some stop =>
            rw [hclosing] at h
            rcases List.mem_cons.mp h with rfl | h
            · have hle := closingRun?_le hclosing
              rw [hcut, Text.utf8Size_append, utf8Size_ticks]
              dsimp only
              omega
            · exact hlater hsize h

/-- The search blanks the code of a line without a quotation mark. -/
theorem inlineCode_blanked {offset : Nat} {line : List Char} (hline : IsLine line) (hquote : '"' ∉ line) {region : Region}
    (h : region ∈ inlineCode offset line) : region ∈ lineRanges prose (offset + utf8Size line) (line.length + 1) none none
      (withOffsetsFrom offset line) :=
  inlineCodeFrom_blanked hline hquote (Nat.lt_succ_self _) (Nat.le_refl _) rfl h

end Refactor.Markdown
