import Refactor.Proofs.Script.Deletions
import Refactor.Proofs.Script.Expressions
import Refactor.Proofs.Script.Statements
import Refactor.Proofs.Script.Variables
import Refactor.Script.Refactoring

/-!
# Cuts that refactorings make

A refactoring cuts its source at ends of nodes, of comments and of lines, all of which lie between characters, and a
deletion cuts it once more, one byte before what it removes.

* `aligned_extractVariable` and its like — refactorings that meet no offset inside a character
* `Source.BehindWide`, `deleteSymbol_misaligned_iff` — when a deletion meets one
* `Refactoring.edits_misaligned_iff` — when a refactoring does
-/

namespace Refactor.Script

open Text (utf8Size)

variable {s : Source} {p : Parsed} {a b lo hi : Nat}

/-! ## Places -/

namespace Source

theorem aligned_selection (range : Span) : Aligned (s.selection range) := by
  unfold selection
  split
  · rename_i a b hrange
    obtain ⟨front, mid, back, hs, ha, hb⟩ := Span.exists_cut_of_byteRange? hrange
    refine (Aligned.of_eq_ok ⟨mid, slice_eq_ok_iff.mpr ⟨front, back, hs, ha, by omega⟩⟩).bind fun selected _ => ?_
    exact .unlessRefuse fun _ => .ok _
  · exact .refuse _

theorem aligned_linesAround (ha : s.IsCut a) (hb : s.IsCut b) : Aligned (s.linesAround a b) :=
  .of_eq_ok (exists_linesAround ha hb)

theorem Visible.exists_slice (h : s.Visible a b) : ∃ t, s.slice a b = .ok t := by
  obtain ⟨t, ht, -⟩ := h
  exact ⟨t, ht⟩

end Source

/-! ## Parts of refactorings -/

theorem aligned_findExpression : Aligned (findExpression p lo hi) := by
  unfold findExpression
  split
  · exact .ok _
  · exact .refuse _

theorem Frame.aligned_start (frame : Frame) : Aligned frame.start := by
  cases frame with
  | statement lo => exact .ok lo
  | arrowBody => exact .refuse _
  | closed => exact .refuse _

theorem aligned_neededNames (scope : Scope) (lo hi : Nat) (inside : List (String × Bool)) (bs : List Binding)
    (acc : List String) : Aligned (Extraction.neededNames scope lo hi inside bs acc) := by
  fun_induction Extraction.neededNames scope lo hi inside bs acc with
  | case1 acc => exact .ok acc
  | case2 b bs acc hskip ih => exact ih
  | case3 => exact .refuse _
  | case4 b bs acc hskip hwrite hread ih => exact ih
  | case5 b bs acc hskip hwrite hread ih => exact ih

theorem aligned_analyze (inside : List (String × Bool)) : Aligned (Extraction.analyze s p lo hi inside) := by
  unfold Extraction.analyze
  dsimp only
  split
  · exact (Aligned.refuse _).bind fun _ h => by cases h
  · split
    · exact (aligned_neededNames _ _ _ _ _ _).bind fun params _ => .ok _
    · exact (Aligned.ok _).bind fun params _ => .ok _

/-- The new function goes to the end of a line. -/
theorem exists_functionPlace (h : p.Placed s) (lo hi : Nat) {last : Nat} (hlast : s.IsCut last) :
    ∃ place, functionPlace s p lo hi last = .ok place ∧ s.IsCut place := by
  unfold functionPlace
  split
  · rename_i start stop haround
    obtain ⟨n, hn, -, rfl, -⟩ := Extraction.enclosing?_spec haround
    obtain ⟨place, hplace⟩ := Source.exists_lineEnd (h.nodes n (Node.mem_all_of_mem_kids hn)).2.1
    exact ⟨place, hplace, (Source.lineEnd_spec hplace).isCut⟩
  · exact ⟨last, rfl, hlast⟩

theorem aligned_declarationsIn {name : String} {exported : Bool} {stop : Nat} : ∀ {ns : List Node},
    (∀ n ∈ ns, Aligned (declarationsOf s name exported stop n)) → Aligned (declarationsIn s name exported stop ns)
  | [], _ => by
    rw [declarationsIn]
    exact .ok []
  | n :: ns, h => by
    rw [declarationsIn]
    refine (h n List.mem_cons_self).bind fun first _ => ?_
    exact (aligned_declarationsIn fun n' hn' => h n' (List.mem_cons_of_mem n hn')).bind fun rest _ => .ok _

/-- Declarations are looked for where nodes end. -/
theorem aligned_declarationsOf {name : String} {n : Node} (h : ∀ m ∈ n.all, s.IsCut m.hi) (exported : Bool) (stop : Nat) :
    Aligned (declarationsOf s name exported stop n) := by
  induction n using Node.inductOn generalizing exported stop with
  | h n ih =>
    cases n with
    | mk role form lo hi kids =>
    have hown : Aligned (declarationsBy s name exported stop (.mk role form lo hi kids)) := by
      unfold declarationsBy
      split
      · exact (Aligned.of_eq_ok (Source.exists_afterSemicolon (h _ (Node.mem_all_self _)))).bind fun hi _ => .ok _
      · exact .ok []
    rw [declarationsOf]
    refine hown.bind fun own _ => (aligned_declarationsIn fun k hk => ?_).bind fun below _ => .ok _
    exact ih k hk (fun m hm => h m (Node.mem_all_iff.mpr (Or.inr ⟨k, hk, hm⟩))) _ _

theorem aligned_inliningAt (h : p.Placed s) (offset : Nat) : Aligned (inliningAt s p offset) := by
  unfold inliningAt
  split
  · refine (aligned_declarationsOf (fun m hm => (h.nodes m hm).2.1) _ _).bind fun ds _ => ?_
    split
    · refine .unlessRefuse fun _ => .unlessRefuse fun _ => ?_
      dsimp only
      split
      · exact .unlessRefuse fun _ => .unlessRefuse fun _ => .ok _
      · exact .refuse _
    · exact .refuse _
  · exact .refuse _

/-- A variable that can be inlined has a declaration and a value in the source. -/
theorem inlining_isCut (h : p.Placed s) {t : Inlining} (ht : t.IsSound s p) :
    (s.IsCut t.decl.lo ∧ s.IsCut t.decl.hi ∧ t.decl.lo ≤ t.decl.hi) ∧ s.IsCut t.lo ∧ s.IsCut t.hi ∧ t.lo ≤ t.hi := by
  obtain ⟨n, declarator, henclosed, hof⟩ := ht.declared
  obtain ⟨hlo, hhi, hle⟩ := h.nodes n henclosed.mem_all
  obtain ⟨hsemicolon, hbehind⟩ := Source.afterSemicolon_isCut hof.hi hhi
  refine ⟨⟨hof.lo ▸ hlo, hsemicolon, by rw [hof.lo]; exact hle.trans hbehind⟩, ?_⟩
  have hvalue := hof.value.symm.trans ht.value
  split at hvalue
  · cases hvalue
  · rename_i hsome
    simp only [Option.some.injEq, Prod.mk.injEq] at hvalue
    obtain ⟨hstart, hstop, -⟩ := hvalue
    have hmem : declarator.kid 1 ∈ declarator.kids := Node.kid_mem declarator (by simpa [Node.isAbsent] using hsome)
    have hbelow := Node.mem_all_trans (Node.mem_all_of_mem_kids hmem)
      (Node.mem_all_trans (Node.mem_all_of_mem_kids hof.among) henclosed.mem_all)
    rw [← hstart, ← hstop]
    exact h.nodes _ hbelow

theorem aligned_removal {t : Inlining} (hlo : s.IsCut t.decl.lo) (hhi : s.IsCut t.decl.hi) (hle : t.decl.lo ≤ t.decl.hi) :
    Aligned (t.removal s) := by
  refine (Source.aligned_linesAround hlo hhi).bind fun ⟨first, last, alone⟩ hlines => ?_
  obtain ⟨hfirst, hlast, -⟩ := Source.linesAround_spec hlines
  have hlines : first ≤ last := hfirst.le.trans (hle.trans hlast.le)
  dsimp only
  split
  · exact (Aligned.of_eq_ok (Source.exists_replacing hfirst.isCut hlast.isCut hlines _)).bind fun e _ => .ok _
  · exact (Aligned.of_eq_ok (Source.exists_replacing hlo hhi hle _)).bind fun e _ => .ok _

/-! ## Deletions -/

theorem nameLo_isCut (h : p.Placed s) {n : Node} (hn : n ∈ p.module.all) {d : Described} (hd : d.IsOf n) :
    s.IsCut d.nameLo := by
  rcases hd.name with hzero | ⟨m, hm, hlo⟩
  · rw [hzero]
    exact Source.IsCut.zero s
  · rw [← hlo]
    exact (h.nodes m (Node.mem_all_trans hm hn)).1

theorem aligned_firstOn {line : Nat} : ∀ {fs : List FoundDeclaration},
    (∀ f ∈ fs, s.IsCut f.lo ∧ s.IsCut f.described.nameLo) → Aligned (firstOn s line fs)
  | [], _ => .ok none
  | f :: fs, h => by
    obtain ⟨hlo, hname⟩ := h f List.mem_cons_self
    have hstarts : Aligned (f.startsOn s line) := by
      refine (Aligned.of_eq_ok (Source.exists_positionOf hlo)).bind fun q _ => ?_
      split
      · exact .ok true
      · exact (Aligned.of_eq_ok (Source.exists_positionOf hname)).bind fun q' _ => .ok _
    rw [firstOn]
    refine hstarts.bind fun starts _ => ?_
    split
    · exact .ok _
    · exact aligned_firstOn fun g hg => h g (List.mem_cons_of_mem f hg)

theorem aligned_declarationAt? (h : p.Placed s) (line : Nat) : Aligned (declarationAt? s p line) := by
  refine aligned_firstOn fun f hf => ?_
  obtain ⟨n, hn, hfound⟩ := List.mem_filterMap.mp hf
  obtain ⟨hlo, -, hof⟩ := declarationOf?_spec hfound
  exact ⟨hlo ▸ (h.nodes n hn).1, nameLo_isCut h hn hof⟩

theorem aligned_overComments : ∀ {cs : List Comment} {start : Nat}, (∀ c ∈ cs, s.IsCut c.lo ∧ s.IsCut c.hi) →
    s.IsCut start → Aligned (overComments s cs start)
  | [], start, _, _ => .ok start
  | c :: cs, start, h, hstart => by
    obtain ⟨hlo, hhi⟩ := h c List.mem_cons_self
    have hrest : ∀ {o}, s.IsCut o → Aligned (overComments s cs o) :=
      aligned_overComments fun c' hc' => h c' (List.mem_cons_of_mem c hc')
    rw [overComments]
    split
    · exact hrest hstart
    · rename_i hle
      refine (Aligned.of_eq_ok (Source.exists_slice hhi hstart (Nat.le_of_not_lt hle))).bind fun gap _ => ?_
      split
      · exact .ok start
      · refine (Aligned.of_eq_ok (Source.exists_lineStart hlo)).bind fun line hline => ?_
        have hline := Source.lineStart_spec hline
        refine (Aligned.of_eq_ok (Source.exists_slice hline.isCut hlo hline.le)).bind fun before _ => ?_
        split
        · exact .ok start
        · exact hrest hline.isCut

theorem aligned_removalStart (h : p.Placed s) (hlo : s.IsCut lo) : Aligned (removalStart s p lo) := by
  refine (Aligned.of_eq_ok (Source.exists_lineStart hlo)).bind fun line hline => ?_
  have hline := Source.lineStart_spec hline
  refine (Aligned.of_eq_ok (Source.exists_slice hline.isCut hlo hline.le)).bind fun before _ => ?_
  split
  · refine aligned_overComments (fun c hc => ?_) hline.isCut
    obtain ⟨hclo, hchi, -⟩ := h.comments c (List.mem_filter.mp (List.mem_reverse.mp hc)).1
    exact ⟨hclo, hchi⟩
  · exact .ok lo

theorem aligned_blankLineAt (h : s.IsCut a) : Aligned (blankLineAt s a) := by
  unfold blankLineAt
  split
  · exact .ok false
  · refine (Aligned.of_eq_ok (Source.exists_lineEnd h)).bind fun stop hstop => ?_
    have hstop := Source.lineEnd_spec hstop
    exact (Aligned.of_eq_ok (Source.exists_slice h hstop.isCut hstop.le)).bind fun line _ => .ok _

theorem declaration_isCut (h : p.Placed s) {line : Nat} {f : FoundDeclaration}
    (hfound : declarationAt? s p line = .ok (some f)) : s.IsCut f.start ∧ s.IsCut f.hi ∧ f.start ≤ f.hi := by
  obtain ⟨hlo, hhi⟩ := declaration_ends (fun n hn _ _ => ⟨(h.nodes n hn).1, (h.nodes n hn).2.1⟩) hfound
  obtain ⟨n, hn, hof⟩ := declarationAt?_spec hfound
  obtain ⟨hstart, hstop, -⟩ := declarationOf?_spec hof
  have hle := (h.nodes n hn).2.2
  have hdecorated : f.start ≤ f.lo := Nat.min_le_right _ _
  exact ⟨hlo, hhi, by omega⟩

/-- A removal lies between characters. -/
theorem removal_isCut (h : p.Placed s) {f : FoundDeclaration} (hlo : s.IsCut f.start) (hhi : s.IsCut f.hi)
    (hle : f.start ≤ f.hi) (hremoval : removal s p f = .ok (a, b)) : s.IsCut a ∧ s.IsCut b ∧ a ≤ b := by
  obtain ⟨ha, hb⟩ := removal_ends Source.LineStart.isCut Source.LineEnd.isCut
    (fun hsemicolon ho => (Source.afterSemicolon_isCut hsemicolon ho).1) hlo hhi hremoval
  obtain ⟨hstart, semicolon, hsemicolon, hstop⟩ := removal_spec hremoval
  have hbefore := removalStart_le h hstart
  have hbehind := (Source.afterSemicolon_isCut hsemicolon hhi).2
  have hend : semicolon ≤ b := by
    rcases hstop with rfl | ⟨o, ho, hline⟩
    · exact Nat.le_refl _
    · exact ho.trans hline.le
  exact ⟨ha, hb, by omega⟩

/-- What stands before a removal is looked at from one byte before it. -/
theorem blankBefore_misaligned_iff : blankBefore s a = .error .misaligned ↔ a ≠ 0 ∧ ¬s.IsCut (a - 1) := by
  unfold blankBefore
  split
  · rename_i hzero
    simp [eq_of_beq hzero]
  · rename_i hsome
    have hsome : a ≠ 0 := by simpa using hsome
    by_cases hcut : s.IsCut (a - 1)
    · have haligned : Aligned (do blankLineAt s (← s.lineStart (a - 1))) := by
        refine (Aligned.of_eq_ok (Source.exists_lineStart hcut)).bind fun line hline => ?_
        exact aligned_blankLineAt (Source.lineStart_spec hline).isCut
      exact iff_of_false haligned fun h => h.2 hcut
    · refine iff_of_true ?_ ⟨hsome, hcut⟩
      rw [Source.lineStart, Source.cut_of_not_isCut hcut]
      rfl

/-- Something that is not all white space stands before an offset on its line, and ends with a character of several bytes. -/
def Source.BehindWide (s : Source) (o : Nat) : Prop :=
  ∃ line before, s.lineStart o = .ok line ∧ s.slice line o = .ok before ∧ Source.isBlank before = false ∧
    ∃ c ∈ before.getLast?, 1 < c.utf8Size

theorem isCut_pred_iff {before : List Char} {c : Char} (h : s.slice a b = .ok before) (hc : c ∈ before.getLast?) :
    s.IsCut (b - 1) ↔ c.utf8Size = 1 := by
  obtain ⟨front, back, rfl, -, rfl⟩ := Source.slice_eq_ok_iff.mp h
  obtain ⟨init, rfl⟩ := List.getLast?_eq_some_iff.mp hc
  have hpos := c.utf8Size_pos
  simp only [Text.utf8Size_append, Text.utf8Size_cons, Text.utf8Size_nil]
  constructor
  · rintro ⟨front', back', heq, hsize⟩
    have heq' : front' ++ back' = front ++ init ++ [c] ++ back := by rw [← heq, List.append_assoc front init]
    obtain ⟨mid, hmid⟩ := Text.prefix_of_utf8Size_le heq' (by
      simp only [Text.utf8Size_append, Text.utf8Size_cons, Text.utf8Size_nil]
      omega)
    rcases List.prefix_concat_iff.mp ⟨mid, hmid⟩ with hall | ⟨rest, hrest⟩
    · have hlength := congrArg utf8Size hall
      simp only [Text.utf8Size_append, Text.utf8Size_cons, Text.utf8Size_nil] at hlength
      omega
    · have hlength := congrArg utf8Size hrest
      simp only [Text.utf8Size_append] at hlength
      omega
  · intro hone
    refine ⟨front ++ init, c :: back, by simp, ?_⟩
    rw [Text.utf8Size_append]
    omega

theorem Source.BehindWide.start_spec (h : s.BehindWide lo) :
    removalStart s p lo = .ok lo ∧ blankBefore s lo = .error .misaligned := by
  obtain ⟨line, before, hline, hbefore, hblank, c, hc, hwide⟩ := h
  constructor
  · rw [removalStart, hline]
    dsimp only [bind, Except.bind]
    rw [hbefore]
    dsimp only
    rw [hblank]
    rfl
  · refine blankBefore_misaligned_iff.mpr ⟨?_, fun hcut => ?_⟩
    · obtain ⟨-, -, hsize⟩ := Source.slice_spec hbefore
      obtain ⟨init, rfl⟩ := List.getLast?_eq_some_iff.mp hc
      simp only [Text.utf8Size_append, Text.utf8Size_cons] at hsize
      omega
    · have hone := (isCut_pred_iff hbefore hc).mp hcut
      omega

/-- A removal cuts a character in two when it starts, not at the start of a line, behind one of several bytes. -/
theorem removal_misaligned_iff (h : p.Placed s) {f : FoundDeclaration} (hlo : s.IsCut f.start) (hhi : s.IsCut f.hi) :
    removal s p f = .error .misaligned ↔ s.BehindWide f.start := by
  constructor
  · intro hmeets
    rcases bind_eq_misaligned_iff.mp hmeets with hmeets | ⟨start, hstart, hmeets⟩
    · exact absurd hmeets (aligned_removalStart h hlo)
    rcases bind_eq_misaligned_iff.mp hmeets with hmeets | ⟨preceded, -, hmeets⟩
    · obtain ⟨hsome, hcut⟩ := blankBefore_misaligned_iff.mp hmeets
      obtain ⟨line, before, hline, hbefore, ⟨hblank, rfl⟩ | ⟨-, o, hlines⟩⟩ := removalStart_spec hstart
      · obtain ⟨c, hc⟩ : ∃ c, before.getLast? = some c := by
          refine Option.ne_none_iff_exists'.mp fun hnone => ?_
          rw [List.getLast?_eq_none_iff.mp hnone] at hblank
          cases hblank
        have hwide : c.utf8Size ≠ 1 := mt (isCut_pred_iff hbefore hc).mpr hcut
        have hpos := c.utf8Size_pos
        exact ⟨line, before, hline, hbefore, hblank, c, hc, by omega⟩
      · exact absurd (hlines.isCut_pred.resolve_left hsome) hcut
    · -- what follows cuts at ends of lines only
      refine absurd hmeets (show Aligned _ from ?_)
      refine (Aligned.of_eq_ok (Source.exists_afterSemicolon hhi)).bind fun stop hstop => ?_
      have hstop := (Source.afterSemicolon_isCut hstop hhi).1
      refine (Aligned.of_eq_ok (Source.exists_lineEnd hstop)).bind fun eol heol => ?_
      have heol := Source.lineEnd_spec heol
      refine (Aligned.of_eq_ok (Source.exists_slice hstop heol.isCut heol.le)).bind fun tail _ => ?_
      refine (aligned_blankLineAt heol.isCut).bind fun followed _ => ?_
      split
      · exact .ok _
      · split
        · exact (Aligned.of_eq_ok (Source.exists_lineEnd heol.isCut)).bind fun stop' _ => .ok _
        · exact .ok _
  · intro hwide
    obtain ⟨hstart, hblank⟩ := hwide.start_spec (p := p)
    exact bind_eq_misaligned_iff.mpr (Or.inr ⟨f.start, hstart, bind_eq_misaligned_iff.mpr (Or.inl hblank)⟩)

/-! ## Refactorings -/

section Refactorings

variable {reading : Service Parsed} (hreading : Aligned reading) (hplaced : ∀ p, reading = .ok p → p.Placed s)
include hreading hplaced

theorem aligned_extractVariable (range : Span) (name : String) : Aligned (extractVariable s reading range name) := by
  refine (Source.aligned_selection range).bind fun ⟨lo, hi⟩ hselection => ?_
  have hvisible := Source.selection_visible hselection
  refine hreading.bind fun p hp => aligned_findExpression.bind fun found hfound => ?_
  refine found.frame.aligned_start.bind fun stmt hstmt => .unlessRefuse fun _ => ?_
  have hstmt := found_start_isCut (hplaced p hp) hfound hstmt
  refine (Aligned.of_eq_ok (Source.exists_lineStart hstmt)).bind fun first hfirst => ?_
  have hfirst := Source.lineStart_spec hfirst
  refine (Aligned.of_eq_ok (Source.exists_slice hfirst.isCut hstmt hfirst.le)).bind fun before _ => .unlessRefuse fun _ => ?_
  refine (Aligned.of_eq_ok hvisible.exists_slice).bind fun text _ => ?_
  refine (Aligned.of_eq_ok (Source.exists_cut hfirst.isCut)).bind fun parts _ => ?_
  refine (Aligned.of_eq_ok (Source.exists_inserting hfirst.isCut _)).bind fun e _ => ?_
  refine (Aligned.of_eq_ok (Source.exists_replacing hvisible.isCut.1 hvisible.isCut.2 hvisible.lt.le _)).bind fun e' _ => ?_
  exact .ok _

theorem aligned_extractConstant (range : Span) (name : String) : Aligned (extractConstant s reading range name) := by
  refine (Source.aligned_selection range).bind fun ⟨lo, hi⟩ hselection => ?_
  have hvisible := Source.selection_visible hselection
  refine hreading.bind fun p hp => .unlessRefuse fun _ => .unlessRefuse fun _ => ?_
  refine (aligned_importBlockEnd (hplaced p hp)).bind fun first hfirst => .unlessRefuse fun _ => ?_
  have hfirst : s.IsCut first := by
    rcases importBlockEnd_spec hfirst with rfl | ⟨n, -, hline⟩
    · exact Source.IsCut.zero s
    · exact hline.isCut
  refine (Aligned.of_eq_ok hvisible.exists_slice).bind fun text _ => ?_
  refine (Aligned.of_eq_ok (Source.exists_inserting hfirst _)).bind fun e _ => ?_
  refine (Aligned.mapM fun o ho => ?_).bind fun uses _ => .ok _
  -- a literal ends where its text does
  obtain ⟨n, -, -, -, hslice, rfl⟩ := mem_literalSites.mp (List.mem_filter.mp (List.mem_mergeSort.mp ho)).1
  obtain ⟨hlo, hhi, hend⟩ := Source.slice_spec (s := s) (by rw [Source.slice, hslice] : s.slice n.lo n.hi = .ok text)
  rw [← hend] at hhi
  exact (Aligned.of_eq_ok (Source.exists_replacing hlo hhi (Nat.le_add_right _ _) _)).bind fun e _ => .ok _

theorem aligned_extractFunction (range : Span) (name : String) : Aligned (extractFunction s reading range name) := by
  refine (Source.aligned_selection range).bind fun ⟨lo, hi⟩ hselection => ?_
  have hvisible := Source.selection_visible hselection
  refine (Source.aligned_linesAround hvisible.isCut.1 hvisible.isCut.2).bind fun ⟨first, last, alone⟩ hlines => ?_
  obtain ⟨hfirst, hlast, -⟩ := Source.linesAround_spec hlines
  have hle : first ≤ last := hfirst.le.trans (hvisible.lt.le.trans hlast.le)
  refine .unlessRefuse fun _ => hreading.bind fun p hp => ?_
  dsimp only
  split
  · refine (aligned_analyze _).bind fun e _ => ?_
    refine (Aligned.of_eq_ok (Source.exists_slice hfirst.isCut hlast.isCut hle)).bind fun body _ => ?_
    obtain ⟨place, hplace, hcut⟩ := exists_functionPlace (hplaced p hp) lo hi hlast.isCut
    rw [hplace]
    refine (Aligned.ok place).bind fun place' h => ?_
    obtain rfl : place = place' := Except.ok.inj h
    refine (Aligned.of_eq_ok (Source.exists_replacing hfirst.isCut hlast.isCut hle _)).bind fun call _ => ?_
    exact (Aligned.of_eq_ok (Source.exists_inserting hcut _)).bind fun define _ => .ok _
  · exact .refuse _

theorem aligned_inlineVariable (position : Position) : Aligned (inlineVariable s reading position) := by
  unfold inlineVariable
  split
  · rename_i offset hoffset
    refine hreading.bind fun p hp => (aligned_inliningAt (hplaced p hp) offset).bind fun t ht => ?_
    obtain ⟨⟨hlo, hhi, hle⟩, hvalue, hvalue', hle'⟩ := inlining_isCut (hplaced p hp) (inliningAt_spec ht).1
    refine (Aligned.of_eq_ok (Source.exists_slice hvalue hvalue' hle')).bind fun text _ => ?_
    refine (aligned_removal hlo hhi hle).bind fun removal _ => (Aligned.mapM fun u hu => ?_).bind fun uses _ => .ok _
    obtain ⟨⟨n, hn, hread⟩, -⟩ := Parsed.mem_readsBetween.mp hu
    obtain ⟨hulo, huhi, -⟩ := Parsed.readBy_spec hread
    obtain ⟨hnlo, hnhi, hnle⟩ := (hplaced p hp).nodes n hn
    rw [← hulo] at hnlo hnle
    rw [← huhi] at hnhi hnle
    exact (Aligned.of_eq_ok (Source.exists_replacing hnlo hnhi hnle _)).bind fun e _ => .ok _
  · exact .refuse _

/-- A deletion meets an offset inside a character when the declaration that it finds comes behind a wide one. -/
theorem deleteSymbol_misaligned_iff (position : Position) : deleteSymbol s reading position = .error .misaligned ↔
    ∃ p f, reading = .ok p ∧ declarationAt? s p position.line = .ok (some f) ∧ f.described.several = false ∧
      s.BehindWide f.start := by
  constructor
  · intro hmeets
    rcases bind_eq_misaligned_iff.mp hmeets with hmeets | ⟨p, hp, hmeets⟩
    · exact absurd hmeets hreading
    rcases bind_eq_misaligned_iff.mp hmeets with hmeets | ⟨found, hfound, hmeets⟩
    · exact absurd hmeets (aligned_declarationAt? (hplaced p hp) _)
    split at hmeets
    · rename_i f
      obtain ⟨hlo, hhi, hle⟩ := declaration_isCut (hplaced p hp) hfound
      split at hmeets
      · cases hmeets
      · rename_i hseveral
        refine ⟨p, f, hp, hfound, Bool.not_eq_true _ ▸ hseveral, ?_⟩
        rcases bind_eq_misaligned_iff.mp hmeets with hmeets | ⟨⟨start, stop⟩, hremoval, hmeets⟩
        · exact (removal_misaligned_iff (hplaced p hp) hlo hhi).mp hmeets
        · obtain ⟨hstart, hstop, hle⟩ := removal_isCut (hplaced p hp) hlo hhi hle hremoval
          refine absurd hmeets (show Aligned _ from ?_)
          exact (Aligned.of_eq_ok (Source.exists_replacing hstart hstop hle _)).bind fun e _ => .ok _
    · cases hmeets
  · rintro ⟨p, f, hp, hfound, hseveral, hwide⟩
    obtain ⟨hlo, hhi, -⟩ := declaration_isCut (hplaced p hp) hfound
    refine bind_eq_misaligned_iff.mpr (Or.inr ⟨p, hp, bind_eq_misaligned_iff.mpr (Or.inr ⟨some f, hfound, ?_⟩)⟩)
    dsimp only
    rw [if_neg (by rw [hseveral]; exact Bool.false_ne_true)]
    exact bind_eq_misaligned_iff.mpr (Or.inl ((removal_misaligned_iff (hplaced p hp) hlo hhi).mpr hwide))

end Refactorings

/-- A refactoring cuts a character in two only when it deletes a declaration that stands behind a character of several
bytes, on a line that holds more than white space before it. -/
theorem Refactoring.edits_misaligned_iff {reading : Service Parsed} (hreading : Aligned reading)
    (hplaced : ∀ p, reading = .ok p → p.Placed s) (r : Refactoring) : r.edits s reading = .error .misaligned ↔
      ∃ position p f, r = .deleteSymbol position ∧ reading = .ok p ∧
        declarationAt? s p position.line = .ok (some f) ∧ f.described.several = false ∧ s.BehindWide f.start := by
  cases r with
  | extractVariable range name =>
    exact iff_of_false (aligned_extractVariable hreading hplaced range name) (by simp)
  | extractConstant range name =>
    exact iff_of_false (aligned_extractConstant hreading hplaced range name) (by simp)
  | extractFunction range name =>
    exact iff_of_false (aligned_extractFunction hreading hplaced range name) (by simp)
  | inlineVariable position => exact iff_of_false (aligned_inlineVariable hreading hplaced position) (by simp)
  | deleteSymbol position =>
    rw [edits, deleteSymbol_misaligned_iff hreading hplaced]
    simp

/-- A function behind a statement and a space of two bytes. -/
def spacedText : Source := "a();\u00a0function f() \x7b\x7d\n".toList

/-- The tree of the function and the statement. -/
def spaced : Parsed where
  module := .mk .plain .moduleRoot 0 22
    [.mk .stmt .exprStmt 0 4 [.mk .expr .call 0 3 [.mk .expr (.ident "a") 0 1 []]],
      .mk .stmt (.functionDecl "f") 6 21
        [.mk .plain (.ident "f") 15 16 [],
          .mk .plain .functionBody 6 21 [.mk .plain .block 19 21 [], .absent, .absent]]]
  comments := []

theorem edits_misaligned_iff_spaced : spaced.Placed spacedText ∧
    (Refactoring.deleteSymbol ⟨0, 0⟩).edits spacedText (.ok spaced) = .error .misaligned := by
  have hplaced : spaced.Placed spacedText := ⟨by decide +kernel, by decide +kernel⟩
  refine ⟨hplaced, (Refactoring.edits_misaligned_iff (.ok spaced) (fun p hp => ?_) _).mpr ?_⟩
  · cases hp
    exact hplaced
  · refine ⟨⟨0, 0⟩, spaced, ⟨⟨"function", "f", 15, none, false⟩, 6, 21⟩, rfl, rfl, eq_ok_of_toOption (by decide +kernel),
      rfl, ?_⟩
    exact ⟨0, "a();\u00a0".toList, eq_ok_of_toOption (by decide +kernel), eq_ok_of_toOption (by decide +kernel),
      by decide, '\u00a0', by decide +kernel, by decide⟩

end Refactor.Script
