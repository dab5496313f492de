import Refactor.Script.Imports
import Refactor.Proofs.Text.Hits
import Refactor.Proofs.Text.Pattern

/-!
# Specifiers of a text that no dialect reads

Each of the patterns for a line marks what stands between two quotes, without a quote in it. Whatever pattern finds it, the
specifier at a place is the same, and two specifiers share no character.

* `Script.Quoted`, `Script.linePatterns_mark` — what the patterns mark
* `Script.specifiersOfLines_spec` — where the specifiers of the lines stand
* `Script.dropRepeats_ordered` — one reference for each place
* `Script.scanLines_exact` — the specifiers are exact and in order
-/

namespace Refactor.Script

open Text (utf8Size Pattern)
open Text.Pattern (Marks Reads Widens)

/-! ## What the patterns mark -/

/-- A text between two quotes, with neither a quote nor a newline in it. -/
structure Quoted (front part back : List Char) : Prop where
  opening : ∃ c ∈ front.getLast?, quoted.isQuote c = true
  some : part ≠ []
  plain : ∀ c ∈ part, quoted.isQuote c = false ∧ c ≠ '\n'
  closing : ∃ c ∈ back.head?, quoted.isQuote c = true

theorem quoted_widens : Widens Quoted where
  before := by
    rintro front part back s ⟨⟨c, hc, hquote⟩, hpart, hplain, hclosing⟩
    exact ⟨⟨c, List.mem_getLast?_append_of_mem_getLast? hc, hquote⟩, hpart, hplain, hclosing⟩
  behind := by
    rintro front part back s ⟨hopening, hpart, hplain, c, hc, hquote⟩
    exact ⟨hopening, hpart, hplain, c, List.mem_head?_append_of_mem_head? hc, hquote⟩

theorem quoted_marks : Marks quoted Quoted := by
  refine Marks.seq_right (Marks.seq_left (Marks.mark ?_) rfl)
  intro part m hpart s n hs t o ht
  obtain ⟨hsome, hplain⟩ := hpart.oneOrMore_spec
  cases hs with
  | one hclosing =>
    cases ht with
    | one hopening =>
      refine ⟨⟨_, rfl, hopening⟩, hsome, fun c hc => ?_, ⟨_, rfl, hclosing⟩⟩
      simpa using hplain c hc

theorem importPattern_marks : Marks importPattern Quoted :=
  .prepend quoted_widens (.prepend quoted_widens (.prepend quoted_widens (.prepend quoted_widens
    (.prepend quoted_widens quoted_marks))))

theorem reExportPattern_marks : Marks reExportPattern Quoted :=
  .prepend quoted_widens (.prepend quoted_widens (.prepend quoted_widens (.prepend quoted_widens
    (.prepend quoted_widens (.prepend quoted_widens (.prepend quoted_widens (.prepend quoted_widens quoted_marks)))))))

theorem callPattern_marks (name : String) : Marks (callPattern name) Quoted :=
  .prepend quoted_widens (.prepend quoted_widens (.prepend quoted_widens (.prepend quoted_widens
    (.prepend quoted_widens (.append quoted_widens quoted_marks rfl)))))

theorem linePatterns_mark {pattern : Pattern} {kind : ImportKind} (h : (pattern, kind) ∈ linePatterns) :
    Marks pattern Quoted := by
  simp only [linePatterns, List.mem_cons, Prod.mk.injEq, List.not_mem_nil, or_false] at h
  rcases h with ⟨rfl, -⟩ | ⟨rfl, -⟩ | ⟨rfl, -⟩ | ⟨rfl, -⟩
  · exact importPattern_marks
  · exact reExportPattern_marks
  · exact callPattern_marks "require"
  · exact callPattern_marks "import"

/-! ## Where specifiers stand -/

/-- A specifier that stands between two quotes of a text. -/
def StandsQuoted (content : List Char) (r : LocatedRef) : Prop :=
  ∃ front back, content = front ++ r.specifier.toList ++ back ∧ utf8Size front = r.lo ∧
    r.lo + utf8Size r.specifier.toList = r.hi ∧ Quoted front r.specifier.toList back

variable {content : List Char} {r r' : LocatedRef}

theorem StandsQuoted.exact (h : StandsQuoted content r) : r.hit.Exact content := by
  obtain ⟨front, back, hcontent, hlo, hhi, hquoted⟩ := h
  refine ⟨hquoted.some, fun hmem => (hquoted.plain _ hmem).2 rfl, front, back, hcontent, hlo, hhi, Or.inr ?_⟩
  obtain ⟨c, hc, hclosing⟩ := hquoted.closing
  refine ⟨c, hc, ?_⟩
  rintro rfl
  exact absurd hclosing (by decide)

/-- A specifier that starts later than another one starts behind its end, for a quote stands right before it. -/
theorem StandsQuoted.hi_le (h : StandsQuoted content r) (h' : StandsQuoted content r') (hlt : r.lo < r'.lo) :
    r.hi ≤ r'.lo := by
  obtain ⟨front, back, hcontent, hlo, hhi, hquoted⟩ := h
  obtain ⟨front', back', hcontent', hlo', _, hquoted'⟩ := h'
  have hsame : front ++ r.specifier.toList ++ back = front' ++ (r'.specifier.toList ++ back') := by
    rw [← hcontent, hcontent', List.append_assoc]
  rw [← hhi, ← hlo, ← hlo']
  refine Text.run_le_of_last (p := fun c => !quoted.isQuote c) hsame ?_ ?_ ?_
  · simpa using fun c hc => (hquoted.plain c hc).1
  · obtain ⟨d, hd, hopening⟩ := hquoted'.opening
    intro c hc
    rw [Option.mem_unique hc hd, hopening]
    rfl
  · rwa [hlo, hlo']

/-! ## Lines -/

theorem specifiersOfLine_spec {front line back : List Char} (h : r ∈ specifiersOfLine (utf8Size front) line) :
    StandsQuoted (front ++ line ++ back) r := by
  unfold specifiersOfLine at h
  split at h
  · cases h
  · obtain ⟨⟨pattern, kind⟩, hpattern, h⟩ := List.mem_flatMap.mp h
    obtain ⟨m, hm, h⟩ := List.mem_filterMap.mp h
    obtain ⟨text, htext, rfl⟩ := Option.map_eq_some_iff.mp h
    obtain ⟨before, inside, part, outside, after, hline, hquoted, hlo, hmarkLo, hmarkHi, -⟩ :=
      Pattern.exists_marked_of_mem_findAll (linePatterns_mark hpattern) hm
    have hpart : Text.slice? line m.markLo m.markHi = some part := by
      refine Text.slice?_eq_some_iff.mpr ⟨before ++ inside, outside ++ after, by rw [hline]; simp, ?_, ?_⟩
      · rw [Text.utf8Size_append]
        omega
      · rw [Text.utf8Size_append]
        omega
    obtain rfl : part = text := Option.some.inj (hpart.symm.trans htext)
    refine ⟨front ++ before ++ inside, outside ++ after ++ back, ?_, ?_, ?_, ?_⟩
    · rw [hline, String.toList_ofList]
      simp
    · simp only [Text.utf8Size_append]
      omega
    · simp only [String.toList_ofList]
      omega
    · rw [String.toList_ofList, List.append_assoc outside]
      exact quoted_widens.behind _ (quoted_widens.before _ hquoted)

theorem specifiersOfLines_spec : ∀ {front : List Char} {lines : List (List Char)},
    r ∈ specifiersOfLines (utf8Size front) lines → StandsQuoted (front ++ lines.flatten) r
  | _, [], h => by cases h
  | front, line :: rest, h => by
    rw [specifiersOfLines, List.mem_append, ← Text.utf8Size_append] at h
    rw [List.flatten_cons, ← List.append_assoc]
    rcases h with h | h
    · exact specifiersOfLine_spec h
    · exact specifiersOfLines_spec h

/-! ## The scan -/

theorem dropRepeats_sublist : ∀ rs : List LocatedRef, (dropRepeats rs).Sublist rs
  | [] => List.Sublist.refl _
  | r :: rest => by
    have ih := dropRepeats_sublist rest
    rw [dropRepeats]
    split
    · exact (List.nil_sublist rest).cons_cons r
    · rename_i q qs hrest
      rw [hrest] at ih
      split
      · exact ((List.sublist_cons_self q qs).trans ih).cons_cons r
      · exact ih.cons_cons r

/-- Of a sorted list one reference is left for each place. -/
theorem dropRepeats_ordered : ∀ {rs : List LocatedRef}, rs.Pairwise (fun a b => a.lo ≤ b.lo) →
    (dropRepeats rs).Pairwise fun a b => a.lo < b.lo
  | [], _ => List.Pairwise.nil
  | r :: rest, h => by
    obtain ⟨hfirst, hsorted⟩ := List.pairwise_cons.mp h
    have ih := dropRepeats_ordered hsorted
    have hmem := (dropRepeats_sublist rest).subset
    rw [dropRepeats]
    split
    · exact List.pairwise_singleton _ r
    · rename_i q qs hrest
      rw [hrest] at ih hmem
      obtain ⟨hq, hqs⟩ := List.pairwise_cons.mp ih
      have hle := hfirst q (hmem List.mem_cons_self)
      split
      · rename_i hsame
        rw [beq_iff_eq] at hsame
        exact List.pairwise_cons.mpr ⟨fun x hx => hsame ▸ hq x hx, hqs⟩
      · rename_i hdiffer
        rw [beq_iff_eq] at hdiffer
        refine List.pairwise_cons.mpr ⟨List.forall_mem_cons.mpr ⟨by omega, fun x hx => ?_⟩, ih⟩
        have hlt := hq x hx
        omega

/-- The specifiers that are found line by line are exact and in order. -/
theorem scanLines_exact : Hit.AllExact content ((scanLines content).map LocatedRef.hit) := by
  unfold scanLines inOrder
  have hperm := List.mergeSort_perm (specifiersOfLines 0 (Text.inclusiveLines content)) fun a b => a.lo ≤ b.lo
  have htrans : ∀ a b c : LocatedRef, decide (a.lo ≤ b.lo) = true → decide (b.lo ≤ c.lo) = true →
      decide (a.lo ≤ c.lo) = true := by
    intro a b c hab hbc
    rw [decide_eq_true_eq] at *
    omega
  have htotal : ∀ a b : LocatedRef, (decide (a.lo ≤ b.lo) || decide (b.lo ≤ a.lo)) = true := by
    intro a b
    rw [Bool.or_eq_true, decide_eq_true_eq, decide_eq_true_eq]
    omega
  have hsorted := List.pairwise_mergeSort htrans htotal (specifiersOfLines 0 (Text.inclusiveLines content))
  have hstands : ∀ r ∈ dropRepeats ((specifiersOfLines 0 (Text.inclusiveLines content)).mergeSort fun a b => a.lo ≤ b.lo),
      StandsQuoted content r := by
    intro r hr
    have hfound : StandsQuoted ([] ++ (Text.inclusiveLines content).flatten) r :=
      specifiersOfLines_spec (hperm.mem_iff.mp ((dropRepeats_sublist _).subset hr))
    rwa [List.nil_append, Text.flatten_inclusiveLines] at hfound
  refine ⟨?_, ?_⟩
  · intro hit hhit
    obtain ⟨r, hr, rfl⟩ := List.mem_map.mp hhit
    exact (hstands r hr).exact
  · rw [List.pairwise_map]
    refine List.Pairwise.imp_of_mem (fun ha hb hlt => ?_) (dropRepeats_ordered (hsorted.imp (by simp)))
    exact (hstands _ ha).hi_le (hstands _ hb) hlt

theorem scanImports_of_parse? {path : Option Path} (h : parse? content path = none) :
    scanImports content path = scanLines content := by
  unfold scanImports
  rw [h]

end Refactor.Script
