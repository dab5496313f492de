import Refactor.Markdown.CodeRegions
import Refactor.Reference.Mention
import Refactor.Proofs.Text.Pattern

/-!
# Comments of a document, read twice

A document reads its comments with a pattern, the search for mentions cuts the text at the marks. Both find the same
comments one after the other; only the search takes one that is left open for a comment as well.

* `Markdown.matchAt?_commentPattern` — the comment at a place
* `Markdown.exists_blockComment` — the search cuts out every comment of a document
-/

namespace Refactor

open Text (utf8Size Match Pattern)

/-! ## Comments -/

namespace Markdown

open Text (dropLead? splitOnce?)
open Mention (blockComments)

def opening : List Char := "<!--".toList

def closing : List Char := "-->".toList

/-- A comment goes from its mark to the first closing mark. -/
theorem matchAt?_commentPattern (p : Text.Place) : commentPattern.matchAt? p =
    (dropLead? opening p.rest).bind fun inner => (splitOnce? closing inner).map fun cut =>
      ⟨p.offset, p.offset + utf8Size opening + utf8Size (cut.1 ++ closing), p.offset,
        p.offset + utf8Size opening + utf8Size (cut.1 ++ closing)⟩ := by
  have hrun : commentPattern.matchAt? p = Pattern.run (.text "<!--") { p with marked := none } fun q =>
      Pattern.runFew (fun _ => true) (fun q => Pattern.run (.text "-->") q fun q =>
        some ⟨p.offset, q.offset, (q.marked.getD (p.offset, q.offset)).1, (q.marked.getD (p.offset, q.offset)).2⟩)
          q.rest q := rfl
  rw [hrun, Pattern.text, Pattern.run_chars]
  refine Option.bind_congr fun inner _ => ?_
  simp only [Pattern.text, Pattern.run_chars]
  exact Pattern.runFew_chars (fun q => (⟨p.offset, q.offset, (q.marked.getD (p.offset, q.offset)).1,
    (q.marked.getD (p.offset, q.offset)).2⟩ : Match)) _ inner _ rfl

/-- Every comment that is found from a place on is one of those that the search cuts out. -/
theorem comment_covered {m : Match} : ∀ {fuel : Nat} {cs : List Char} {resume : Nat} {p : Text.Place}, p.rest = cs →
    cs.length < fuel → resume ≤ p.offset → m ∈ commentPattern.findFrom resume p cs →
      ∃ range ∈ blockComments opening closing fuel p.offset cs, range.1 ≤ m.lo ∧ m.hi ≤ range.2
  | 0, _, _, _, _, hfuel, _, _ => by omega
  | fuel + 1, cs, resume, p, hrest, hfuel, hresume, h => by
    have hplace : ∀ {q : Text.Place}, dropLead? opening q.rest = none → commentPattern.matchAt? q = none := by
      intro q hq
      rw [matchAt?_commentPattern, hq]
      rfl
    rw [blockComments]
    cases hopen : splitOnce? opening cs with
    | none =>
      have hnone := Text.dropLead?_of_splitOnce?_eq_none hopen
      rw [← List.append_nil cs] at hrest h
      obtain ⟨q, hq, -, hfound⟩ := Pattern.exists_of_mem_findFrom_append hrest
        (Or.inr fun c tail q hsuffix hq => hplace (by rw [hq, List.append_nil]; exact hnone _ hsuffix)) h
      rw [Pattern.findFrom, hplace (by rw [hq]; rfl)] at hfound
      split at hfound <;> cases hfound
    | some cut =>
      obtain ⟨front, inner⟩ := cut
      obtain ⟨rfl, hnone⟩ := Text.splitOnce?_eq_some hopen
      obtain ⟨q, hq, hoffset, hfound⟩ := Pattern.exists_of_mem_findFrom_append hrest
        (Or.inr fun c tail q hsuffix hq => hplace (by rw [hq]; exact hnone c tail hsuffix)) h
      have hlead : dropLead? opening q.rest = some inner := by rw [hq, Text.dropLead?_append]
      have hmatch := matchAt?_commentPattern q
      rw [hlead, Option.bind_some] at hmatch
      dsimp only
      rw [← hoffset]
      -- behind the mark the two part: what the document does not close reaches to the end
      cases hclose : splitOnce? closing inner with
      | none =>
        obtain ⟨hlo, hhi⟩ := Pattern.bounds_of_mem_findFrom hq hfound
        refine ⟨_, List.mem_singleton_self _, hlo, ?_⟩
        rw [Text.utf8Size_append, ← Nat.add_assoc] at hhi
        exact hhi
      | some cut =>
        obtain ⟨body, rest⟩ := cut
        obtain ⟨rfl, -⟩ := Text.splitOnce?_eq_some hclose
        rw [hclose, Option.map_some] at hmatch
        have hcut : opening ++ (body ++ (closing ++ rest)) = '<' :: (['!', '-', '-'] ++ body ++ closing ++ rest) := by
          simp [opening]
        have hopening : utf8Size opening = 4 ∧ opening.length = 4 := by decide
        have hmark : ('<' : Char).utf8Size = 1 ∧ utf8Size ['!', '-', '-'] = 3 := by decide
        have hstop : q.offset + utf8Size opening + utf8Size (body ++ closing) =
            q.offset + utf8Size opening + utf8Size body + utf8Size closing := by
          rw [Text.utf8Size_append, ← Nat.add_assoc]
        rw [hcut] at hq hfound
        rw [Pattern.findFrom, if_neg (by omega), hmatch, hstop] at hfound
        dsimp only at hfound ⊢
        rcases List.mem_cons.mp hfound with rfl | hfound
        · exact ⟨_, List.mem_cons_self, Nat.le_refl _, Nat.le_refl _⟩
        · have hfront : (q.next '<' (['!', '-', '-'] ++ body ++ closing ++ rest)).offset +
              utf8Size (['!', '-', '-'] ++ body ++ closing) =
                q.offset + utf8Size opening + utf8Size body + utf8Size closing := by
            rw [Text.utf8Size_append, Text.utf8Size_append, hmark.2, hopening.1]
            show q.offset + ('<' : Char).utf8Size + _ = _
            rw [hmark.1]
            omega
          obtain ⟨q', hq', hoffset', hfound'⟩ := Pattern.exists_of_mem_findFrom_append rfl
            (Or.inl (hfront.trans_le (Nat.le_max_left _ _))) hfound
          rw [hfront] at hoffset'
          have hshorter : rest.length < fuel := by
            simp only [List.length_append] at hfuel
            omega
          obtain ⟨range, hrange, hcovered⟩ := comment_covered hq' hshorter
            (by rw [hoffset']; omega) hfound'
          rw [hoffset'] at hrange
          exact ⟨range, List.mem_cons_of_mem _ hrange, hcovered⟩

/-- The search cuts out every comment of a document. -/
theorem exists_blockComment {content : List Char} {m : Match} (h : m ∈ commentPattern.findAll content) :
    ∃ range ∈ blockComments opening closing (content.length + 1) 0 content, range.1 ≤ m.lo ∧ m.hi ≤ range.2 :=
  comment_covered (p := ⟨none, content, 0, none⟩) rfl (Nat.lt_succ_self _) (Nat.le_refl _) h

end Markdown

end Refactor
