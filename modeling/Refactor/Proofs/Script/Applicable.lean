import Refactor.Proofs.Edit.Merge
import Refactor.Proofs.Script.Deletions
import Refactor.Proofs.Script.Expressions
import Refactor.Proofs.Script.Statements
import Refactor.Proofs.Script.Variables
import Refactor.Script.Refactoring

/-!
# Refactorings that can be applied

The edits of a refactoring are ranges of the source and share no character, so they can be merged and applied.

* `Applicable`, `Applicable.applies` — edits of a source that can be made together
* `extractVariable_applicable` and its like — the edits of one refactoring
* `Refactoring.edits_apply` — those of every refactoring
-/

namespace Refactor.Script

open Text (utf8Size)

/-! ## Edits that can be made together -/

/-- Edits that fit a source, no two of which overlap. -/
structure Applicable (s : Source) (es : List TextEdit) : Prop where
  fits : ∀ e ∈ es, e.Fits s
  beside : ∀ e ∈ es, ∀ e' ∈ es, e ≠ e' → TextEdit.Beside e e'

variable {s : Source} {e : TextEdit} {es : List TextEdit} {a b : Nat}

namespace Applicable

theorem nil : Applicable s [] := ⟨by simp, by simp⟩

theorem cons (hfits : e.Fits s) (hbeside : ∀ e' ∈ es, TextEdit.Beside e e') (h : Applicable s es) :
    Applicable s (e :: es) := by
  refine ⟨List.forall_mem_cons.mpr ⟨hfits, h.fits⟩, fun x hx y hy hne => ?_⟩
  rcases List.mem_cons.mp hx with rfl | hx'
  · exact hbeside y ((List.mem_cons.mp hy).resolve_left hne.symm)
  · rcases List.mem_cons.mp hy with rfl | hy'
    · exact (hbeside x hx').symm
    · exact h.beside x hx' y hy' hne

theorem singleton (h : s.At e a b) : Applicable s [e] := cons h.fits (by simp) nil

theorem brings_addEdits {path q : Path} (h : WorkspaceEdit.Brings [({} : WorkspaceEdit).addEdits path es] q e) : e ∈ es := by
  obtain ⟨file, hfile, -, he⟩ := WorkspaceEdit.brings_singleton.mp h
  obtain rfl : file = (path, [] ++ es) := List.mem_singleton.mp hfile
  exact he

/-- Edits that can be made together are merged, and what is merged is applied. -/
theorem applies (h : Applicable s es) (path : Path) (file : String) :
    ∃ m out, WorkspaceEdit.merge [({} : WorkspaceEdit).addEdits path es] = .ok m ∧
      TextEdit.applyAll file (String.ofList s) (m.editsOf path) = .ok out := by
  have hmergeable : WorkspaceEdit.Mergeable [({} : WorkspaceEdit).addEdits path es] :=
    ⟨fun q e e' he he' => h.beside e (brings_addEdits he) e' (brings_addEdits he'), List.Pairwise.nil,
      by simp [WorkspaceEdit.addEdits]⟩
  obtain ⟨m, hm⟩ := (WorkspaceEdit.exists_merge_iff _).mpr hmergeable
  have hunion := WorkspaceEdit.merge_isUnion hm
  have hmem : ∀ e ∈ m.editsOf path, e ∈ es := fun e he => brings_addEdits (hunion.mem_editsOf.mp he)
  refine ⟨m, _, hm, TextEdit.applyAll_eq_substitute file (String.ofList s) ?_ fun e he => ?_⟩
  · exact (hunion.editsOf_nodup path).imp_of_mem fun he he' hne => h.beside _ (hmem _ he) _ (hmem _ he') hne
  · rw [String.toList_ofList]
    exact h.fits e (hmem e he)

end Applicable

/-! ## Values -/

variable {p : Parsed} {range : Span} {name : String} {position : Position}

/-- A declaration goes to the start of a line, and the expression is behind it. -/
theorem extractVariable_applicable (hp : p.WellNested s) (h : extractVariable s (.ok p) range name = .ok es) :
    Applicable s es := by
  obtain ⟨lo, hi, found, stmt, first, declaration, e, e', hselection, hfound, hstmt, hfirst, he, he', rfl⟩ :=
    extractVariable_eq_ok h
  have hvisible := Source.selection_visible hselection
  have hline := Source.lineStart_spec hfirst
  have hdeclare := (Source.at_of_inserting he hline.isPlace).describedAs ("Declare '" ++ name ++ "'")
  have huse := (Source.at_of_replacing he' hvisible.isPlace.1 hvisible.isPlace.2).describedAs ("Use '" ++ name ++ "'")
  refine .cons hdeclare.fits ?_ (.singleton huse)
  rw [List.forall_mem_singleton]
  exact Source.beside_of_le hdeclare huse (hline.le.trans (found_start_le hp hfound hstmt)) (Or.inr hvisible.lt)

/-- A use of a constant stands where a literal does. -/
theorem usingConstant_at (hp : p.WellNested s) {text : List Char} {o : Nat} (ho : o ∈ literalSites s p text)
    (h : usingConstant s name (utf8Size text) o = .ok e) :
    ∃ n ∈ p.module.all, n.isWord = true ∧ n.lo = o ∧ s.Visible n.lo n.hi ∧ s.At e n.lo n.hi := by
  obtain ⟨n, hn, hexpr, hliteral, hslice, rfl⟩ := mem_literalSites.mp ho
  obtain ⟨e', he', h⟩ := bind_eq_ok h
  cases h
  have hvisible : s.Visible n.lo n.hi := hp.visible_of_mem hn (fun hform => by simp [Node.isPlainLiteral, hform] at hliteral)
    (fun hform => by simp [Node.isPlainLiteral, hform] at hliteral)
  obtain ⟨front, back, -, hlo, hhi⟩ := Text.slice?_eq_some_iff.mp hslice
  have hend : n.lo + utf8Size text = n.hi := by omega
  rw [hend] at he'
  refine ⟨n, hn, by simp [Node.isWord, hexpr, hliteral], rfl, hvisible, ?_⟩
  exact (Source.at_of_replacing he' hvisible.isPlace.1 hvisible.isPlace.2).describedAs _

/-- A constant goes behind the imports, and the literals that it replaces are words behind it. -/
theorem extractConstant_applicable (hs : s.getLast? ≠ some '\r') (hp : p.WellNested s)
    (h : extractConstant s (.ok p) range name = .ok es) : Applicable s es := by
  obtain ⟨lo, hi, first, text, declaration, e, uses, -, hfirst, -, he, huses, rfl⟩ := extractConstant_eq_ok h
  have hplace : s.IsPlace first := by
    rcases importBlockEnd_spec hfirst with rfl | ⟨n, -, hline⟩
    · exact Source.IsPlace.zero s
    · exact hline.isPlace hs
  have hdeclare := (Source.at_of_inserting he hplace).describedAs ("Declare constant '" ++ name ++ "'")
  refine .cons hdeclare.fits (fun e' he' => ?_) ⟨fun e' he' => ?_, fun x hx y hy hne => ?_⟩
  · obtain ⟨o, ho, hlate, huse⟩ := huses e' he'
    obtain ⟨n, -, -, rfl, hvisible, hat⟩ := usingConstant_at hp ho huse
    exact Source.beside_of_le hdeclare hat hlate (Or.inr hvisible.lt)
  · obtain ⟨o, ho, -, huse⟩ := huses e' he'
    obtain ⟨n, -, -, -, -, hat⟩ := usingConstant_at hp ho huse
    exact hat.fits
  · obtain ⟨o, ho, -, huse⟩ := huses x hx
    obtain ⟨o', ho', -, huse'⟩ := huses y hy
    obtain ⟨n, hn, hword, rfl, hvisible, hat⟩ := usingConstant_at hp ho huse
    obtain ⟨n', hn', hword', rfl, hvisible', hat'⟩ := usingConstant_at hp ho' huse'
    rcases hp.words_apart hn hn' hword hword' with rfl | hle | hle
    · rw [huse] at huse'
      exact absurd (Except.ok.inj huse') hne
    · exact Source.beside_of_le hat hat' hle (Or.inl hvisible.lt)
    · exact (Source.beside_of_le hat' hat hle (Or.inl hvisible'.lt)).symm

/-! ## Functions -/

/-- A call takes the lines of the selection, and the function goes behind them. -/
theorem extractFunction_applicable (hs : s.getLast? ≠ some '\r') (h : extractFunction s (.ok p) range name = .ok es) :
    Applicable s es := by
  obtain ⟨lo, hi, first, last, inside, e, body, newline, place, gap, call, define, hselection, hlines, -, -, -, hplace, -, -,
    hcall, hdefine, rfl⟩ := extractFunction_eq_ok h
  obtain ⟨hfirst, hlast, -⟩ := Source.linesAround_spec hlines
  have hbehind : s.IsPlace place ∧ last ≤ place := by
    unfold functionPlace at hplace
    split at hplace
    · rename_i start stop haround
      obtain ⟨n, -, -, rfl, -, hstop⟩ := Extraction.enclosing?_spec haround
      have hline := Source.lineEnd_spec hplace
      exact ⟨hline.isPlace hs, hlast.mono hline hstop⟩
    · cases hplace
      exact ⟨hlast.isPlace hs, Nat.le_refl _⟩
  have hsome : first < last :=
    Nat.lt_of_le_of_lt hfirst.le (Nat.lt_of_lt_of_le (Source.selection_visible hselection).lt hlast.le)
  have hcall := (Source.at_of_replacing hcall hfirst.isPlace (hlast.isPlace hs)).describedAs ("Call '" ++ name ++ "'")
  have hdefine := (Source.at_of_inserting hdefine hbehind.1).describedAs ("Define '" ++ name ++ "'")
  refine .cons hcall.fits ?_ (.singleton hdefine)
  rw [List.forall_mem_singleton]
  exact Source.beside_of_le hcall hdefine hbehind.2 (Or.inl hsome)

/-! ## Variables -/

/-- The removal takes the declaration from or before its start, and ends before every token behind it. -/
theorem removal_at (hs : s.getLast? ≠ some '\r') (hp : p.WellNested s) {t : Inlining} (ht : t.IsSound s p)
    (h : t.removal s = .ok e) :
    ∃ first last, s.At e first last ∧ first < last ∧
      ∀ a b, s.Visible a b → t.decl.hi ≤ a → last ≤ a := by
  obtain ⟨n, declarator, henclosed, hof⟩ := ht.declared
  have hvisible : s.Visible n.lo n.hi := hp.visible_of_mem henclosed.mem_all (by simp [hof.form]) (by simp [hof.form])
  obtain ⟨first, last, before, after, e', he', rfl, hfirst, hlast, hbefore, hafter, -, hblank⟩ := removal_eq_ok h
  have hstart : s.IsPlace first := by
    rcases hfirst with rfl | hline
    · rw [hof.lo]
      exact hvisible.isPlace.1
    · exact hline.isPlace
  have hstop : s.IsPlace last := by
    rcases hlast with rfl | hline
    · exact Source.afterSemicolon_isPlace hof.hi hvisible.isPlace.2
    · exact hline.isPlace hs
  refine ⟨first, last, ?_, ?_, fun a b hab hle => hab.le_of_blank hafter hblank hle⟩
  · exact ((Source.at_of_replacing he' hstart hstop).withType _).describedAs _
  · have hsemicolon := (Source.afterSemicolon_isCut hof.hi hvisible.isCut.2).2
    have hlt := hvisible.lt
    obtain ⟨-, -, hlo⟩ := Source.slice_spec hbefore
    obtain ⟨-, -, hhi⟩ := Source.slice_spec hafter
    rw [hof.lo] at hlo
    omega

/-- The uses of a variable are words behind its declaration. -/
theorem inlineVariable_applicable (hs : s.getLast? ≠ some '\r') (hp : p.WellNested s)
    (h : inlineVariable s (.ok p) position = .ok es) : Applicable s es := by
  obtain ⟨offset, t, text, removal, uses, -, ht, -, hremoval, huses, rfl⟩ := inlineVariable_eq_ok h
  obtain ⟨first, last, hat, hsome, hbehind⟩ := removal_at hs hp (inliningAt_spec ht).1 hremoval
  have huse : ∀ e ∈ uses, ∃ n ∈ p.module.all, ∃ u, Scope.readBy n = some u ∧ t.replacement s text u = .ok e ∧
      t.decl.hi ≤ n.lo ∧ s.Visible n.lo n.hi ∧ s.At e n.lo n.hi := by
    intro e he
    obtain ⟨u, hu, hspec⟩ := (mapM_eq_ok huses).1 e he
    obtain ⟨⟨n, hn, hread⟩, -, hlo, -⟩ := Parsed.mem_readsBetween.mp hu
    obtain ⟨hulo, huhi, -⟩ := Parsed.readBy_spec hread
    have hvisible : s.Visible n.lo n.hi := hp.visible_of_mem hn (fun hform => by simp [Scope.readBy, hform] at hread)
      (fun hform => by simp [Scope.readBy, hform] at hread)
    obtain ⟨e', he', rfl⟩ := replacement_eq_ok hspec
    rw [hulo, huhi] at he'
    exact ⟨n, hn, u, hread, hspec, hulo ▸ hlo, hvisible,
      (Source.at_of_replacing he' hvisible.isPlace.1 hvisible.isPlace.2).describedAs _⟩
  refine .cons hat.fits (fun e he => ?_) ⟨fun e he => ?_, fun x hx y hy hne => ?_⟩
  · obtain ⟨n, -, u, -, -, hlo, hvisible, hat'⟩ := huse e he
    exact Source.beside_of_le hat hat' (hbehind _ _ hvisible hlo) (Or.inl hsome)
  · obtain ⟨n, -, u, -, -, -, -, hat'⟩ := huse e he
    exact hat'.fits
  · obtain ⟨n, hn, u, hread, hspec, -, hvisible, hat⟩ := huse x hx
    obtain ⟨n', hn', u', hread', hspec', -, hvisible', hat'⟩ := huse y hy
    rcases hp.words_apart hn hn' (Parsed.readBy_spec hread).2.2 (Parsed.readBy_spec hread').2.2 with rfl | hle | hle
    · rw [hread] at hread'
      cases hread'
      rw [hspec] at hspec'
      exact absurd (Except.ok.inj hspec') hne
    · exact Source.beside_of_le hat hat' hle (Or.inl hvisible.lt)
    · exact (Source.beside_of_le hat' hat hle (Or.inl hvisible'.lt)).symm

/-! ## Declarations -/

/-- A removal reaches from the start of a declaration or of a line to the end of a declaration or of a line. -/
theorem deleteSymbol_applicable (hs : s.getLast? ≠ some '\r') (hp : p.WellNested s)
    (h : deleteSymbol s (.ok p) position = .ok es) : Applicable s es := by
  obtain ⟨f, start, stop, e, hfound, -, hremoval, he, rfl⟩ := deleteSymbol_eq_ok h
  obtain ⟨hlo, hhi⟩ := declaration_ends (fun n hn hsome hinner => (hp.visible_of_mem hn hsome hinner).isPlace) hfound
  obtain ⟨hstart, hstop⟩ := removal_ends Source.LineStart.isPlace (fun hline => hline.isPlace hs)
    Source.afterSemicolon_isPlace hlo hhi hremoval
  exact .singleton (((Source.at_of_replacing he hstart hstop).withType _).describedAs _)

/-! ## All refactorings -/

namespace Refactoring

theorem edits_applicable (hs : s.getLast? ≠ some '\r') (hp : p.WellNested s) (r : Refactoring)
    (h : r.edits s (.ok p) = .ok es) : Applicable s es := by
  cases r with
  | extractVariable range name => exact extractVariable_applicable hp h
  | extractConstant range name => exact extractConstant_applicable hs hp h
  | extractFunction range name => exact extractFunction_applicable hs h
  | inlineVariable position => exact inlineVariable_applicable hs hp h
  | deleteSymbol position => exact deleteSymbol_applicable hs hp h

/-- The edits that a refactoring of a module gives can be merged, and what is merged can be applied to the source. -/
theorem edits_apply (hs : s.getLast? ≠ some '\r') (hp : p.WellNested s) (r : Refactoring) (path : Path) (file : String)
    (h : r.edits s (.ok p) = .ok es) :
    ∃ m out, WorkspaceEdit.merge [({} : WorkspaceEdit).addEdits path es] = .ok m ∧
      TextEdit.applyAll file (String.ofList s) (m.editsOf path) = .ok out :=
  (r.edits_applicable hs hp h).applies path file

/-- The variable of a function in place of its use. -/
theorem edits_apply_sample : ∃ es m out, (inlineVariable ⟨1, 8⟩).edits sampleText (.ok sample) = .ok es ∧
    WorkspaceEdit.merge [({} : WorkspaceEdit).addEdits ⟨"a.ts"⟩ es] = .ok m ∧
      TextEdit.applyAll "a.ts" (String.ofList sampleText) (m.editsOf ⟨"a.ts"⟩) = .ok out := by
  have hsome : ((inlineVariable ⟨1, 8⟩).edits sampleText (.ok sample)).toOption.isSome = true := by decide +kernel
  cases hedits : (inlineVariable ⟨1, 8⟩).edits sampleText (.ok sample) with
  | error fault =>
    rw [hedits] at hsome
    cases hsome
  | ok es =>
    obtain ⟨m, out, hmerge, happly⟩ := edits_apply (by decide) sample_wellNested _ ⟨"a.ts"⟩ "a.ts" hedits
    exact ⟨es, m, out, rfl, hmerge, happly⟩

end Refactoring

end Refactor.Script
