import Refactor.Proofs.Edit.Overlaps
import Refactor.Proofs.Edit.Validate

/-!
# Edits of a text

Edits of one text are spliced in from the last to the first. When they fit the text and do not overlap, the outcome is
that of all of them at once: a walk over the text that puts in what is new at every offset and leaves out what is
replaced.

* `Splice.substitute` — a text with all splices at once
* `spliceAll?_append` — sorted splices, one after the other
* `Splice.substitute_perm` — the order of the splices does not matter
* `Fits`, `spliceIn` — an edit as a splice of a text that it fits
* `applyAll_eq_substitute` — the text after edits that do not overlap
* `applyAll_substitutes` — the text after the edits of a checked file, in every order
-/

namespace Refactor.TextEdit

open Text (utf8Size)

namespace Splice

/-! ## All splices at once -/

def covers (s : Splice) (o : Nat) : Bool := s.start ≤ o && o < s.stop

/-- What is new at an offset: the texts inserted there, and behind them those of the ranges that start there. -/
def newAt (ss : List Splice) (o : Nat) : List Char :=
  (ss.filter fun s => s.start == o && s.stop == o).flatMap (·.text) ++
    (ss.filter fun s => s.start == o && o < s.stop).flatMap (·.text)

/-- A text that starts at an offset, with the splices all at once: everywhere what is new, and every character that no
splice replaces. -/
def substitute (ss : List Splice) : Nat → List Char → List Char
  | o, [] => newAt ss o
  | o, c :: cs => newAt ss o ++ ((if ss.any (·.covers o) then [] else [c]) ++ substitute ss (o + c.utf8Size) cs)

theorem newAt_eq_nil {ss : List Splice} {o : Nat} (h : ∀ s ∈ ss, s.start ≠ o) : newAt ss o = [] := by
  have hnone : ∀ (p : Splice → Bool), (ss.filter fun s => s.start == o && p s) = [] := by
    intro p
    rw [List.filter_eq_nil_iff]
    intro s hs
    simp [h s hs]
  rw [newAt, hnone fun s => s.stop == o, hnone fun s => o < s.stop]
  rfl

theorem newAt_cons_of_ne {s : Splice} {o : Nat} (h : s.start ≠ o) (ss : List Splice) : newAt (s :: ss) o = newAt ss o := by
  simp [newAt, h]

theorem newAt_cons_insertion {s : Splice} {o : Nat} (hstart : s.start = o) (hstop : s.stop = o) (ss : List Splice) :
    newAt (s :: ss) o = s.text ++ newAt ss o := by
  simp [newAt, hstart, hstop]

theorem newAt_cons_replacement {s : Splice} {o : Nat} (hstart : s.start = o) (hstop : o < s.stop) {ss : List Splice}
    (hlater : ∀ r ∈ ss, r.start ≠ o) : newAt (s :: ss) o = s.text := by
  have hnone : ∀ (p : Splice → Bool), (ss.filter fun s => s.start == o && p s) = [] := by
    intro p
    rw [List.filter_eq_nil_iff]
    intro r hr
    simp [hlater r hr]
  have hne : (s.stop == o) = false := by
    rw [beq_eq_false_iff_ne]
    omega
  rw [newAt, List.filter_cons_of_neg (by simp [hne]), List.filter_cons_of_pos (by simp [hstart, hstop]),
    hnone fun s => s.stop == o, hnone fun s => o < s.stop]
  simp

theorem substitute_none : ∀ (o : Nat) (cs : List Char), substitute [] o cs = cs
  | o, [] => rfl
  | o, c :: cs => by
    rw [substitute, substitute_none (o + c.utf8Size) cs]
    simp [newAt]

/-- What stands before all splices is kept. -/
theorem substitute_append_of_before {ss : List Splice} : ∀ (kept : List Char) {o : Nat} (cs : List Char),
    (∀ s ∈ ss, o + utf8Size kept ≤ s.start) → substitute ss o (kept ++ cs) = kept ++ substitute ss (o + utf8Size kept) cs
  | [], o, cs, _ => rfl
  | c :: kept, o, cs, h => by
    have hpos := c.utf8Size_pos
    have hbehind : ∀ s ∈ ss, o < s.start := fun s hs => by
      have hstart := h s hs
      rw [Text.utf8Size_cons] at hstart
      omega
    have hfree : ss.any (·.covers o) = false := by
      rw [List.any_eq_false]
      intro s hs
      have hstart := hbehind s hs
      simp only [covers, Bool.and_eq_true, decide_eq_true_eq]
      omega
    have ih := substitute_append_of_before kept (o := o + c.utf8Size) cs fun s hs => by
      have hstart := h s hs
      rw [Text.utf8Size_cons] at hstart
      omega
    rw [List.cons_append, substitute, newAt_eq_nil fun s hs => (hbehind s hs).ne', hfree, ih, Text.utf8Size_cons,
      Nat.add_assoc]
    simp

theorem substitute_cons_of_past {s : Splice} (ss : List Splice) : ∀ {o : Nat} (cs : List Char), s.start < o → s.stop ≤ o →
    substitute (s :: ss) o cs = substitute ss o cs
  | o, [], hstart, _ => newAt_cons_of_ne (by omega) ss
  | o, c :: cs, hstart, hstop => by
    have huncovered : s.covers o = false := by
      simp only [covers, Bool.and_eq_false_iff, decide_eq_false_iff_not]
      omega
    rw [substitute, substitute, newAt_cons_of_ne (by omega), List.any_cons, huncovered, Bool.false_or,
      substitute_cons_of_past ss cs (by omega) (by omega)]

/-- What is left of the range of a splice is left out. -/
theorem substitute_cons_of_inside {s : Splice} {ss : List Splice} (hlater : ∀ r ∈ ss, s.stop ≤ r.start) :
    ∀ {old : List Char} {o : Nat} (cs : List Char), s.start < o → o + utf8Size old = s.stop →
    substitute (s :: ss) o (old ++ cs) = substitute ss s.stop cs
  | [], o, cs, hstart, hstop => by
    obtain rfl : o = s.stop := by simpa using hstop
    exact substitute_cons_of_past ss cs hstart le_rfl
  | c :: old, o, cs, hstart, hstop => by
    have hpos := c.utf8Size_pos
    rw [Text.utf8Size_cons] at hstop
    have hcovered : s.covers o = true := by
      simp only [covers, Bool.and_eq_true, decide_eq_true_eq]
      omega
    have hnone : ∀ r ∈ s :: ss, r.start ≠ o := by
      rw [List.forall_mem_cons]
      refine ⟨by omega, fun r hr => ?_⟩
      have hstart' := hlater r hr
      omega
    rw [List.cons_append, substitute, newAt_eq_nil hnone, List.any_cons, hcovered, Bool.true_or,
      substitute_cons_of_inside hlater cs (by omega) (by omega)]
    rfl

/-- Where the first splice stands, its text takes the place of its range. -/
theorem substitute_cons_of_start {s : Splice} {ss : List Splice} (hlater : ∀ r ∈ ss, s.stop ≤ r.start)
    {old : List Char} (hstop : s.start + utf8Size old = s.stop) (cs : List Char) :
    substitute (s :: ss) s.start (old ++ cs) = s.text ++ substitute ss s.stop cs := by
  cases old with
  | nil =>
    obtain hsame : s.start = s.stop := by simpa using hstop
    have hnew := newAt_cons_insertion (s := s) rfl hsame.symm ss
    rw [List.nil_append]
    cases cs with
    | nil => rw [substitute, substitute, hnew, hsame]
    | cons c cs =>
      have hpos := c.utf8Size_pos
      have huncovered : s.covers s.start = false := by
        simp only [covers, Bool.and_eq_false_iff, decide_eq_false_iff_not]
        omega
      rw [substitute, substitute, hnew, List.any_cons, huncovered, Bool.false_or,
        substitute_cons_of_past ss cs (by omega) (by omega), ← hsame, List.append_assoc]
  | cons c old =>
    have hpos := c.utf8Size_pos
    rw [Text.utf8Size_cons] at hstop
    have hcovered : s.covers s.start = true := by
      simp only [covers, Bool.and_eq_true, decide_eq_true_eq]
      omega
    have hbehind : ∀ r ∈ ss, r.start ≠ s.start := fun r hr => by
      have hstart := hlater r hr
      omega
    rw [List.cons_append, substitute, newAt_cons_replacement rfl (by omega) hbehind, List.any_cons, hcovered,
      Bool.true_or, substitute_cons_of_inside hlater cs (by omega) (by omega)]
    rfl

/-! ## One splice after the other -/

/-- A splice whose range lies between cuts of a text. -/
def Fits (content : List Char) (s : Splice) : Prop :=
  ∃ front old back, content = front ++ old ++ back ∧ utf8Size front = s.start ∧ s.start + utf8Size old = s.stop

theorem apply_of_fits {s : Splice} {front old back : List Char} (hstart : utf8Size front = s.start)
    (hstop : s.start + utf8Size old = s.stop) : s.apply? (front ++ old ++ back) = some (front ++ s.text ++ back) := by
  unfold Splice.apply?
  have hsize : s.stop - s.start = utf8Size old := by omega
  rw [← hstart, List.append_assoc, Text.splitAtByte?_utf8Size]
  simp only [Option.bind_eq_bind, Option.bind_some]
  rw [hstart, hsize, Text.splitAtByte?_utf8Size]
  rfl

end Splice

/-- Sorted splices have, one after the other from the last to the first, the effect of all at once. What stands before
all of them is kept, so the offsets of those to come stay valid. -/
theorem spliceAll?_append : ∀ {ss : List Splice} (front back : List Char), (∀ s ∈ ss, s.Fits (front ++ back)) →
    ss.Pairwise (fun a b => a.stop ≤ b.start) → (∀ s ∈ ss, utf8Size front ≤ s.start) →
    spliceAll? (front ++ back) ss = some (front ++ Splice.substitute ss (utf8Size front) back)
  | [], front, back, _, _, _ => by rw [Splice.substitute_none]; rfl
  | s :: ss, front, back, hfits, hsorted, hbehind => by
    obtain ⟨hlater, hrest⟩ := List.pairwise_cons.mp hsorted
    obtain ⟨before, old, after, hcontent, hstart, hstop⟩ := hfits s (by simp)
    have hcut : utf8Size (before ++ old) = s.stop := by rw [Text.utf8Size_append, hstart, hstop]
    obtain ⟨kept, rfl⟩ := Text.prefix_of_utf8Size_le (hcontent.trans (List.append_assoc _ _ _))
      (hstart ▸ hbehind s (by simp))
    have hback : back = kept ++ (old ++ after) := by
      rw [List.append_assoc, List.append_assoc] at hcontent
      exact List.append_cancel_left hcontent
    have ih := spliceAll?_append (front ++ kept ++ old) after
      (fun r hr => hcontent ▸ hfits r (List.mem_cons_of_mem _ hr)) hrest fun r hr => hcut ▸ hlater r hr
    have hkept : utf8Size front + utf8Size kept = s.start := by rw [← Text.utf8Size_append, hstart]
    have hbefore : ∀ r ∈ s :: ss, utf8Size front + utf8Size kept ≤ r.start := by
      rw [List.forall_mem_cons]
      refine ⟨by omega, fun r hr => ?_⟩
      have hstart' := hlater r hr
      omega
    rw [spliceAll?, hcontent, ih, Option.bind_some, hcut, Splice.apply_of_fits hstart hstop, hback,
      Splice.substitute_append_of_before kept _ hbefore, hkept, Splice.substitute_cons_of_start hlater hstop]
    simp

/-! ## The order of splices -/

namespace Splice

/-- Two splices of different ranges, one of which ends before the other one starts. -/
structure Apart (a b : Splice) : Prop where
  differ : ¬(a.start = b.start ∧ a.stop = b.stop)
  beside : a.stop ≤ b.start ∨ b.stop ≤ a.start

theorem Apart.symm {a b : Splice} (h : Apart a b) : Apart b a :=
  ⟨fun heq => h.differ ⟨heq.1.symm, heq.2.symm⟩, h.beside.symm⟩

theorem filter_perm_eq {ss ss' : List Splice} (h : ss.Perm ss') {p : Splice → Bool}
    (hone : ss.Pairwise fun a b => p a = true → p b = true → False) : ss.filter p = ss'.filter p := by
  have hnone : (ss.filter p).Pairwise fun _ _ => False := by
    refine (hone.filter p).imp_of_mem fun ha hb hab => hab ?_ ?_
    · exact (List.mem_filter.mp ha).2
    · exact (List.mem_filter.mp hb).2
  have hperm := h.filter p
  match hfilter : ss.filter p, hnone with
  | [], _ =>
    rw [hfilter] at hperm
    exact hperm.nil_eq
  | [s], _ =>
    rw [hfilter] at hperm
    exact hperm.singleton_eq
  | a :: b :: rest, hnone => exact ((List.pairwise_cons.mp hnone).1 b (by simp)).elim

/-- At every offset there is at most one insertion and one range that starts there, so their order does not matter. -/
theorem newAt_perm {ss ss' : List Splice} (h : ss.Perm ss') (hapart : ss.Pairwise Apart) (o : Nat) :
    newAt ss o = newAt ss' o := by
  have hinserted : ss.filter (fun s => s.start == o && s.stop == o) = ss'.filter fun s => s.start == o && s.stop == o := by
    refine filter_perm_eq h (hapart.imp fun {a b} hab ha hb => hab.differ ?_)
    simp only [Bool.and_eq_true, beq_iff_eq] at ha hb
    omega
  have hreplaced : ss.filter (fun s => s.start == o && o < s.stop) = ss'.filter fun s => s.start == o && o < s.stop := by
    refine filter_perm_eq h (hapart.imp fun {a b} hab ha hb => ?_)
    have hbeside := hab.beside
    simp only [Bool.and_eq_true, beq_iff_eq, decide_eq_true_eq] at ha hb
    omega
  rw [newAt, newAt, hinserted, hreplaced]

theorem substitute_perm {ss ss' : List Splice} (h : ss.Perm ss') (hapart : ss.Pairwise Apart) :
    ∀ (o : Nat) (cs : List Char), substitute ss o cs = substitute ss' o cs
  | o, [] => newAt_perm h hapart o
  | o, c :: cs => by
    have hany : ss.any (·.covers o) = ss'.any (·.covers o) := by
      rw [Bool.eq_iff_iff, List.any_eq_true, List.any_eq_true]
      simp only [h.mem_iff]
    rw [substitute, substitute, newAt_perm h hapart o, hany, substitute_perm h hapart (o + c.utf8Size) cs]

/-! ## Sorted splices -/

theorem sortsBefore_iff {a b : Splice} :
    a.sortsBefore b = true ↔ a.start < b.start ∨ (a.start = b.start ∧ a.stop ≤ b.stop) := by
  simp [sortsBefore]

theorem pairwise_mergeSort_sortsBefore (ss : List Splice) :
    (ss.mergeSort sortsBefore).Pairwise fun a b => a.sortsBefore b = true := by
  refine List.pairwise_mergeSort (fun a b c hab hbc => ?_) (fun a b => ?_) ss
  · rw [sortsBefore_iff] at *
    omega
  · rw [Bool.or_eq_true, sortsBefore_iff, sortsBefore_iff]
    omega

/-- Sorted splices that are apart follow each other. -/
theorem pairwise_stop_le_start {ss : List Splice} (hfits : ∀ s ∈ ss, s.start ≤ s.stop) (hapart : ss.Pairwise Apart) :
    (ss.mergeSort sortsBefore).Pairwise fun a b => a.stop ≤ b.start := by
  have hperm := List.mergeSort_perm ss sortsBefore
  have hsorted := pairwise_mergeSort_sortsBefore ss
  have hapart' := (hperm.symm.pairwise_iff fun h => Apart.symm h).mp hapart
  refine (hsorted.and hapart').imp_of_mem fun {a b} ha hb hab => ?_
  have hle := hfits b (hperm.subset hb)
  obtain ⟨hbefore, hdiffer, hbeside⟩ := hab
  rw [sortsBefore_iff] at hbefore
  omega

end Splice

/-! ## Edits as splices -/

/-- An edit whose span is one of the text and holds what the edit expects, when it expects anything. -/
def Fits (content : List Char) (e : TextEdit) : Prop :=
  ∃ a b, e.location.byteRange? content = some (a, b) ∧
    (e.oldText = "" ∨ Text.slice? content a b = some e.oldText.toList)

/-- The range that an edit replaces in a text that it fits. -/
def spliceIn (content : List Char) (e : TextEdit) : Splice :=
  let range := (e.location.byteRange? content).getD (0, 0)
  ⟨range.1, range.2, e.newText.toList⟩

variable {content : List Char} {e : TextEdit} {es : List TextEdit}

theorem spliceIn_eq {a b : Nat} (h : e.location.byteRange? content = some (a, b)) :
    e.spliceIn content = ⟨a, b, e.newText.toList⟩ := by
  unfold spliceIn
  rw [h]
  rfl

theorem Fits.splice (h : e.Fits content) : (e.spliceIn content).Fits content := by
  obtain ⟨a, b, hrange, _⟩ := h
  rw [spliceIn_eq hrange]
  exact Span.exists_cut_of_byteRange? hrange

theorem toSplice_eq_ok (path : String) (h : e.Fits content) : toSplice path content e = .ok (e.spliceIn content) := by
  obtain ⟨a, b, hrange, hexpected⟩ := h
  have hfound : (e.oldText != "" && (Text.slice? content a b).getD [] != e.oldText.toList) = false := by
    rcases hexpected with hnone | hslice
    · simp [hnone]
    · simp [hslice]
  unfold toSplice
  rw [spliceIn_eq hrange, hrange]
  dsimp only
  rw [hfound]
  rfl

/-- Edits that do not overlap are splices that are apart: positions are ordered as their offsets are. -/
theorem apart_of_beside {e' : TextEdit} (h : e.Fits content) (h' : e'.Fits content) (hbeside : Beside e e') :
    Splice.Apart (e.spliceIn content) (e'.spliceIn content) := by
  obtain ⟨a, b, hrange, _⟩ := h
  obtain ⟨a', b', hrange', _⟩ := h'
  rw [spliceIn_eq hrange, spliceIn_eq hrange']
  obtain ⟨hstart, hstop, hle⟩ := Span.byteRange?_eq_some_iff.mp hrange
  obtain ⟨hstart', hstop', hle'⟩ := Span.byteRange?_eq_some_iff.mp hrange'
  unfold Beside at hbeside
  rw [← Bool.not_eq_true, Span.overlaps_iff] at hbeside
  simp only [Position.before_iff_of_byteOffset? hstart hstop', Position.before_iff_of_byteOffset? hstart' hstop,
    Position.before_iff_of_byteOffset? hstart' hstart, Position.before_iff_of_byteOffset? hstart hstart',
    Position.eq_iff_of_byteOffset? hstart hstop, Position.eq_iff_of_byteOffset? hstart' hstop',
    Position.eq_iff_of_byteOffset? hstart hstart'] at hbeside
  constructor
  · dsimp only
    split_ifs at hbeside <;> omega
  · dsimp only
    split_ifs at hbeside <;> omega

theorem pairwise_apart (hbeside : es.Pairwise Beside) (hfits : ∀ e ∈ es, e.Fits content) :
    (es.map (spliceIn content)).Pairwise Splice.Apart :=
  List.pairwise_map.mpr (hbeside.imp_of_mem fun ha hb hab => apart_of_beside (hfits _ ha) (hfits _ hb) hab)

theorem mapM_toSplice (path : String) (hfits : ∀ e ∈ es, e.Fits content) :
    es.mapM (toSplice path content) = .ok (es.map (spliceIn content)) := by
  induction es with
  | nil => rfl
  | cons e es ih =>
    rw [List.mapM_cons, toSplice_eq_ok path (hfits e (by simp)), ih fun e' he' => hfits e' (List.mem_cons_of_mem _ he')]
    rfl

/-- The text after edits that fit it and do not overlap is the text with all of them at once. -/
theorem applyAll_eq_substitute (path content : String) (hbeside : es.Pairwise Beside)
    (hfits : ∀ e ∈ es, e.Fits content.toList) : applyAll path content es =
      .ok (String.ofList (Splice.substitute (es.map (spliceIn content.toList)) 0 content.toList)) := by
  have hapart := pairwise_apart hbeside hfits
  have hperm := List.mergeSort_perm (es.map (spliceIn content.toList)) Splice.sortsBefore
  have hcuts : ∀ s ∈ es.map (spliceIn content.toList), s.Fits content.toList := by
    intro s hs
    obtain ⟨e, he, rfl⟩ := List.mem_map.mp hs
    exact (hfits e he).splice
  have hspliced := spliceAll?_append [] content.toList
    (fun s hs => hcuts s (hperm.subset hs))
    (Splice.pairwise_stop_le_start (fun s hs => by
      obtain ⟨_, _, _, _, _, hstop⟩ := hcuts s hs
      omega) hapart) fun s _ => Nat.zero_le _
  rw [List.nil_append] at hspliced
  unfold applyAll
  dsimp only
  rw [mapM_toSplice path hfits]
  dsimp only [bind, Except.bind]
  rw [hspliced, Splice.substitute_perm hperm.symm hapart]
  rfl

theorem applyAll_nil (path content : String) : applyAll path content [] = .ok content := by
  rw [applyAll_eq_substitute path content List.Pairwise.nil (by simp), List.map_nil, Splice.substitute_none,
    String.ofList_toList]

/-- The edits that a check lets pass for one file, when all of them fit a text, give the text with all of them at once,
whatever their order: new texts stand in place of the spans, an insertion before what replaces a span that starts there,
and all other characters stay in order. -/
theorem applyAll_substitutes {w : WorkspaceEdit} (hvalid : w.validate = .ok ()) {p : Path} (hfile : (p, es) ∈ w.changes)
    {content : String} (hfits : ∀ e ∈ es, e.Fits content.toList) (path : String) :
    applyAll path content es =
        .ok (String.ofList (Splice.substitute (es.map (spliceIn content.toList)) 0 content.toList)) ∧
      ∀ es', es.Perm es' → applyAll path content es' = applyAll path content es := by
  have hbeside : es.Pairwise Beside :=
    (WorkspaceEdit.forM_checkOverlaps_eq_ok_iff _).mp ((WorkspaceEdit.validate_eq_ok_iff w).mp hvalid).1 _ hfile
  have hall := applyAll_eq_substitute path content hbeside hfits
  refine ⟨hall, fun es' hperm => ?_⟩
  have hbeside' : es'.Pairwise Beside := (hperm.pairwise_iff fun h => Beside.symm h).mp hbeside
  rw [applyAll_eq_substitute path content hbeside' fun e he => hfits e (hperm.mem_iff.mpr he), hall,
    Splice.substitute_perm (hperm.map _) (pairwise_apart hbeside hfits)]

/-- An insertion at the start of a replaced character that takes two units and four bytes. -/
theorem applyAll_substitutes_insertion :
    applyAll "f" "a😀b" [.replacing ⟨0, 1, 0, 3⟩ "😀" "x", .inserting ⟨0, 1⟩ "y"] = .ok "ayxb" ∧
      applyAll "f" "a😀b" [.inserting ⟨0, 1⟩ "y", .replacing ⟨0, 1, 0, 3⟩ "😀" "x"] = .ok "ayxb" := by
  have hfits : ∀ e ∈ [TextEdit.replacing ⟨0, 1, 0, 3⟩ "😀" "x", .inserting ⟨0, 1⟩ "y"], e.Fits "a😀b".toList := by
    intro e he
    simp only [List.mem_cons, List.not_mem_nil, or_false] at he
    rcases he with rfl | rfl
    · exact ⟨1, 5, by decide +kernel, Or.inr (by decide +kernel)⟩
    · exact ⟨1, 1, by decide +kernel, Or.inl rfl⟩
  have hvalid : WorkspaceEdit.validate
      ⟨[(⟨"f"⟩, [.replacing ⟨0, 1, 0, 3⟩ "😀" "x", .inserting ⟨0, 1⟩ "y"])], []⟩ = .ok () := by
    rw [WorkspaceEdit.validate_eq_ok_iff, WorkspaceEdit.forM_checkOverlaps_eq_ok_iff]
    refine ⟨?_, List.Pairwise.nil, by simp⟩
    rw [List.forall_mem_singleton, List.pairwise_pair]
    show Span.overlaps ⟨0, 1, 0, 3⟩ ⟨0, 1, 0, 1⟩ = false
    decide +kernel
  obtain ⟨hresult, hperm⟩ := applyAll_substitutes hvalid (List.mem_singleton_self _) hfits "f"
  have htext : applyAll "f" "a😀b" [.replacing ⟨0, 1, 0, 3⟩ "😀" "x", .inserting ⟨0, 1⟩ "y"] = .ok "ayxb" := by
    rw [hresult]
    exact congrArg Except.ok (by decide +kernel)
  exact ⟨htext, (hperm _ (List.Perm.swap _ _ _)).trans htext⟩

end Refactor.TextEdit
