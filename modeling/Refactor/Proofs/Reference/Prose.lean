import Refactor.Proofs.Markdown.Comments
import Refactor.Proofs.Markdown.InlineCode

/-!
# Mentions in a document

The search for mentions and the document each tell for themselves what is code. They agree on comments. They agree on fenced
blocks as long as the search has a fence open whenever the document has, which fails where a fence is longer than another
one inside it; and they agree on the code of a line where no quotation mark hides a backtick from the search.

* `Markdown.fenceAfter`, `Mention.fenceAfter` — the open fence after a line, for the one and for the other
* `Mention.fencesHeld` — the search has every fence of the document open
* `Mention.region_blanked` — what it blanks then
* `Mention.find_in_prose` — where mentions of a document stand
-/

namespace Refactor

open Text (utf8Size withOffsetsFrom inclusiveLines IsLine)

/-! ## Open fences -/

namespace Markdown

/-- The open fence of a document after a line. -/
def fenceAfter (fence : Option Fence) (offset : Nat) (line : List Char) : Option Fence :=
  let body := line.dropWhile (· == ' ')
  let shallow : Bool := line.length - body.length ≤ 3
  match fence with
  | some f => if shallow && closes f body then none else some f
  | none => ((fenceRun? body).filter fun _ => shallow).map fun (c, length) => ⟨c, length, offset⟩

variable {fence : Option Fence} {offset : Nat} {line : List Char} {rest : List (List Char)} {region : Region}

theorem start_of_fenceAfter {f : Fence} (h : f ∈ fenceAfter fence offset line) : f ∈ fence ∨ f.start = offset := by
  unfold fenceAfter at h
  dsimp only at h
  split at h
  · split at h
    · cases h
    · exact Or.inl h
  · obtain ⟨⟨c, length⟩, _, rfl⟩ := Option.map_eq_some_iff.mp h
    exact Or.inr rfl

/-- A region of some lines is one of the lines behind the first, or it ends with the first: an open fence that the line
closes, or code of the line. -/
theorem mem_regionsOfLines_cons (h : region ∈ regionsOfLines fence offset (line :: rest)) :
    region ∈ regionsOfLines (fenceAfter fence offset line) (offset + utf8Size line) rest ∨
      (region.2 ≤ offset + utf8Size line ∧ (∀ f ∈ fence, region.1 = f.start) ∧
        (fence = none → region ∈ inlineCode offset line)) := by
  rw [regionsOfLines.eq_def] at h
  unfold fenceAfter
  cases fence with
  | some f =>
    dsimp only at h ⊢
    split at h
    · rename_i hclosed
      rw [if_pos hclosed]
      rcases List.mem_cons.mp h with rfl | h
      · refine Or.inr ⟨Nat.le_refl _, ?_, by simp⟩
        rintro g ⟨⟩
        rfl
      · exact Or.inl h
    · rename_i hopen
      rw [if_neg hopen]
      exact Or.inl h
  | none =>
    dsimp only at h ⊢
    cases hrun : (fenceRun? (line.dropWhile (· == ' '))).filter fun _ => line.length -
        (line.dropWhile (· == ' ')).length ≤ 3 with
    | some run =>
      rw [hrun] at h
      exact Or.inl h
    | none =>
      rw [hrun] at h
      rcases List.mem_append.mp h with h | h
      · exact Or.inr ⟨(inlineCodeFrom_bounds h).2, by simp, fun _ => h⟩
      · exact Or.inl h

/-- A region starts where the lines start or further on, unless a fence was open before. -/
theorem le_of_mem_regionsOfLines {low : Nat} : ∀ {lines : List (List Char)} {fence : Option Fence} {offset : Nat},
    (∀ f ∈ fence, low ≤ f.start) → low ≤ offset → region ∈ regionsOfLines fence offset lines → low ≤ region.1
  | [], fence, offset, hfence, _, h => by
    cases fence with
    | none => cases h
    | some f =>
      rw [regionsOfLines, Option.map_some, Option.toList_some, List.mem_singleton] at h
      rw [h]
      exact hfence f rfl
  | line :: rest, fence, offset, hfence, hlow, h => by
    rcases mem_regionsOfLines_cons h with h | ⟨-, hstart, hcode⟩
    · refine le_of_mem_regionsOfLines (fun f hf => ?_) (Nat.le_trans hlow (Nat.le_add_right _ _)) h
      rcases start_of_fenceAfter hf with hf | hf
      · exact hfence f hf
      · rw [hf]
        exact hlow
    · cases fence with
      | some f =>
        rw [hstart f rfl]
        exact hfence f rfl
      | none => exact Nat.le_trans hlow (inlineCodeFrom_bounds (hcode rfl)).1

end Markdown

namespace Mention

open Markdown (Fence Region regionsOfLines inlineCode prose codeRegions inCode)

/-- The open fence of the search after a line. -/
def fenceAfter (opened : Option Char) (line : List Char) : Option Char :=
  match opened, fenceMark? line with
  | none, mark => mark
  | some opened, some mark => if opened == mark then none else some opened
  | some opened, none => some opened

/-- The search has every fence open that the document has open after a line. -/
def fencesHeld (fence : Option Fence) (opened : Option Char) (offset : Nat) : List (List Char) → Bool
  | [] => true
  | line :: rest =>
    (Markdown.fenceAfter fence offset line).all (fun f => fenceAfter opened line == some f.mark) &&
      fencesHeld (Markdown.fenceAfter fence offset line) (fenceAfter opened line) (offset + utf8Size line) rest

/-- The line that holds an offset, of lines that start at another one. -/
def lineAt? (offset o : Nat) : List (List Char) → Option (List Char)
  | [] => none
  | line :: rest => if o < offset + utf8Size line then some line else lineAt? (offset + utf8Size line) o rest

/-! ## What is blanked -/

/-- A line is blanked as a whole where a fence is open or opens, and else by what stands in it. -/
theorem linesRanges_cons (offset : Nat) (opened : Option Char) (line : List Char) (rest : List (List Char)) :
    linesRanges prose offset opened (line :: rest) =
      (if opened = none ∧ fenceMark? line = none then
        lineRanges prose (offset + utf8Size line) (line.length + 1) none none (withOffsetsFrom offset line)
       else [(offset, offset + utf8Size line)]) ++
        linesRanges prose (offset + utf8Size line) (fenceAfter opened line) rest := by
  rw [linesRanges.eq_def]
  dsimp only
  rw [rangesOfLine_eq, if_neg (by decide)]
  unfold fenceAfter
  cases opened <;> cases fenceMark? line <;> rfl

/-- Where the search has every fence of the document open, it blanks all code of the lines without a quotation mark. -/
theorem region_blanked {o : Nat} {region : Region} (hlo : region.1 ≤ o) (hhi : o < region.2) :
    ∀ {lines : List (List Char)} {fence : Option Fence} {opened : Option Char} {offset : Nat},
      (∀ line ∈ lines, IsLine line) → (∀ f ∈ fence, opened = some f.mark) → fencesHeld fence opened offset lines = true →
      (∀ line ∈ lineAt? offset o lines, '"' ∉ line) → offset ≤ o → region ∈ regionsOfLines fence offset lines →
        Within (linesRanges prose offset opened lines) o
  | [], fence, opened, offset, _, _, _, _, hle, h => by
    cases fence with
    | none => cases h
    | some f =>
      rw [regionsOfLines, Option.map_some, Option.toList_some, List.mem_singleton] at h
      rw [h] at hhi
      dsimp only at hhi
      omega
  | line :: rest, fence, opened, offset, hlines, hfence, hheld, hquote, hle, h => by
    rw [fencesHeld, Bool.and_eq_true] at hheld
    obtain ⟨hhere, hrest⟩ := hheld
    have hafter : ∀ f ∈ Markdown.fenceAfter fence offset line, fenceAfter opened line = some f.mark := by
      intro f hf
      rw [hf, Option.all_some, beq_iff_eq] at hhere
      exact hhere
    rw [linesRanges_cons]
    rw [lineAt?] at hquote
    by_cases hhold : o < offset + utf8Size line
    · rw [if_pos hhold] at hquote
      refine within_append (Or.inl ?_)
      by_cases hplain : opened = none ∧ fenceMark? line = none
      · -- neither has a fence open, before the line and after it
        obtain ⟨rfl, hmark⟩ := hplain
        obtain rfl : fence = none := by
          cases fence with
          | none => rfl
          | some f => cases hfence f rfl
        have hnone : Markdown.fenceAfter none offset line = none := by
          cases hopen : Markdown.fenceAfter none offset line with
          | none => rfl
          | some f =>
            have hboth := hafter f hopen
            rw [fenceAfter, hmark] at hboth
            cases hboth
        rw [if_pos ⟨rfl, hmark⟩]
        rcases Markdown.mem_regionsOfLines_cons h with h | ⟨-, -, hcode⟩
        · rw [hnone] at h
          have hbehind := Markdown.le_of_mem_regionsOfLines (by simp) (Nat.le_refl _) h
          omega
        · exact ⟨region, Markdown.inlineCode_blanked (hlines line List.mem_cons_self) (hquote line rfl) (hcode rfl), hlo, hhi⟩
      · rw [if_neg hplain]
        exact ⟨_, List.mem_singleton_self _, hle, hhold⟩
    · rw [if_neg hhold] at hquote
      refine within_append (Or.inr ?_)
      rcases Markdown.mem_regionsOfLines_cons h with h | ⟨hend, -, -⟩
      · exact region_blanked hlo hhi (fun l hl => hlines l (List.mem_cons_of_mem _ hl)) hafter hrest hquote (by omega) h
      · omega

/-! ## Mentions -/

/-- A mention of a document starts in none of its comments. Where the search has every fence of the document open, and no
quotation mark stands on the line, it starts in no fenced block and in no code of the line either. -/
theorem find_in_prose {content : String} {m : Mention} (h : m ∈ find content "md") :
    ∃ o, m.location.start.byteOffset? content.toList = some o ∧
      (∀ comment ∈ Markdown.commentPattern.findAll content.toList, ¬ (comment.lo ≤ o ∧ o < comment.hi)) ∧
      (fencesHeld none none 0 (inclusiveLines content.toList) = true →
        (∀ line ∈ lineAt? 0 o (inclusiveLines content.toList), '"' ∉ line) →
          inCode (codeRegions content.toList) o = false) := by
  rw [find_eq] at h
  obtain ⟨hit, hhit, rfl⟩ := List.mem_map.mp h
  obtain ⟨hexact, hfree⟩ := exact_of_mem_hits hhit
  rw [Markdown.ofExtension_md] at hfree
  have hcomments : ∀ comment ∈ Markdown.commentPattern.findAll content.toList,
      ¬ (comment.lo ≤ hit.lo ∧ hit.lo < comment.hi) := by
    rintro comment hcomment ⟨hlo, hhi⟩
    obtain ⟨range, hrange, hcovered⟩ := Markdown.exists_blockComment hcomment
    exact hfree (within_append (Or.inl ⟨range, hrange, by omega⟩))
  refine ⟨hit.lo, (Span.byteRange?_eq_some_iff.mp hexact.byteRange?).1, hcomments, fun hheld hquote => ?_⟩
  rw [inCode, List.any_eq_false]
  rintro ⟨lo, hi⟩ hregion hin
  rw [Bool.and_eq_true, decide_eq_true_eq, decide_eq_true_eq] at hin
  rcases List.mem_append.mp hregion with hregion | hregion
  · exact hfree (within_append (Or.inr (region_blanked hin.1 hin.2
      (fun line hline => Text.isLine_of_mem_inclusiveLines hline) (by simp) hheld hquote (Nat.zero_le _) hregion)))
  · obtain ⟨comment, hcomment, heq⟩ := List.mem_map.mp hregion
    cases heq
    exact hcomments comment hcomment hin

/-- Behind a fenced block, a code span and a comment that hold paths, only the path in prose is found. -/
theorem find_in_prose_fenced :
    (⟨"e/f.md", ⟨3, 24, 3, 30⟩⟩ : Mention) ∈ find "```\na/b.md\n```\n`b/c.md` <!-- c/d.md -->e/f.md\n" "md" ∧
      inCode (codeRegions "```\na/b.md\n```\n`b/c.md` <!-- c/d.md -->e/f.md\n".toList) 39 = false := by
  have hfind : (⟨"e/f.md", ⟨3, 24, 3, 30⟩⟩ : Mention) ∈
      find "```\na/b.md\n```\n`b/c.md` <!-- c/d.md -->e/f.md\n" "md" := by decide +kernel
  obtain ⟨o, ho, -, hprose⟩ := find_in_prose hfind
  have hoffset : (⟨3, 24⟩ : Position).byteOffset? "```\na/b.md\n```\n`b/c.md` <!-- c/d.md -->e/f.md\n".toList =
      some 39 := by decide +kernel
  obtain rfl : 39 = o := Option.some.inj (hoffset.symm.trans ho)
  exact ⟨hfind, hprose (by decide +kernel) (by decide +kernel)⟩

end Mention

end Refactor
