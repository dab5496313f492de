import Mathlib.Data.List.Perm.Basic
import Refactor.Edit.Merge
import Refactor.Proofs.Text.Positions

/-!
# Overlapping edits

The check for overlaps looks at the neighbours of an edit in a sorted list and stops at the first one that starts after
the end of the edit. Nothing behind it can overlap the edit, so the check finds an overlap whenever there is one.

* `Span.overlaps_iff`, `Span.overlaps_comm` — overlapping spans
* `Span.sortsBefore_trans`, `Span.sortsBefore_total` — the order of spans
* `TextEdit.collision?_eq_none_iff` — a sorted list without a collision
* `WorkspaceEdit.checkOverlaps_eq_ok_iff` — what the check lets pass
-/

namespace Refactor

namespace Span

theorem isEmpty_iff {s : Span} : s.isEmpty = true ↔ s.start = s.stop := beq_iff_eq

/-- Overlapping spans, as the order of positions has it. -/
theorem overlaps_iff {a b : Span} : a.overlaps b = true ↔
    if a.start = a.stop ∧ b.start = b.stop then a.start = b.start
    else (a.start.before b.stop = true ∧ b.start.before a.stop = true) ∨
      (a.start = a.stop ∧ b.start.before a.start = true ∧ a.start.before b.stop = true) ∨
      (b.start = b.stop ∧ a.start.before b.start = true ∧ b.start.before a.stop = true) := by
  unfold overlaps
  simp only [← isEmpty_iff]
  split_ifs with hboth hboth'
  · exact beq_iff_eq
  · simp_all
  · simp_all
  · simp [and_assoc, or_assoc]

theorem overlaps_comm (a b : Span) : a.overlaps b = b.overlaps a := by
  rw [Bool.eq_iff_iff, overlaps_iff, overlaps_iff]
  by_cases hboth : a.start = a.stop ∧ b.start = b.stop
  · rw [if_pos hboth, if_pos hboth.symm]
    exact eq_comm
  · rw [if_neg hboth, if_neg fun h => hboth h.symm]
    exact or_congr and_comm or_comm

theorem not_overlaps_of_stop_before {a b : Span} (hstart : b.start.before a.start = false)
    (hstop : a.stop.before b.start = true) : a.overlaps b = false := by
  rw [← Bool.not_eq_true, Position.before_iff] at hstart
  rw [Position.before_iff] at hstop
  rw [← Bool.not_eq_true, overlaps_iff]
  simp only [Position.before_iff, Position.eq_iff]
  split_ifs <;> omega

/-- A span does not overlap one that starts where it ends or later, unless both are empty. -/
theorem not_overlaps_of_byteRange? {content : List Char} {r r' : Span} {a b a' b' : Nat}
    (h : r.byteRange? content = some (a, b)) (h' : r'.byteRange? content = some (a', b')) (hsome : a < b ∨ a' < b')
    (hle : b ≤ a') : r.overlaps r' = false := by
  obtain ⟨hstart, hstop, _⟩ := byteRange?_eq_some_iff.mp h
  obtain ⟨hstart', hstop', hle'⟩ := byteRange?_eq_some_iff.mp h'
  rw [← Bool.not_eq_true, overlaps_iff]
  simp only [Position.before_iff_of_byteOffset? hstart hstop', Position.before_iff_of_byteOffset? hstart' hstop,
    Position.before_iff_of_byteOffset? hstart' hstart, Position.before_iff_of_byteOffset? hstart hstart',
    Position.eq_iff_of_byteOffset? hstart hstop, Position.eq_iff_of_byteOffset? hstart' hstop',
    Position.eq_iff_of_byteOffset? hstart hstart']
  split_ifs <;> omega

/-! ## The order of spans -/

theorem sortsBefore_iff {a b : Span} : a.sortsBefore b = true ↔
    a.start.before b.start = true ∨ (a.start = b.start ∧ b.stop.before a.stop = false) := by
  simp [sortsBefore, Position.atMost]

theorem sortsBefore_trans {a b c : Span} (hab : a.sortsBefore b = true) (hbc : b.sortsBefore c = true) :
    a.sortsBefore c = true := by
  rw [sortsBefore_iff] at *
  simp only [← Bool.not_eq_true, Position.before_iff, Position.eq_iff] at *
  omega

theorem sortsBefore_total (a b : Span) : (a.sortsBefore b || b.sortsBefore a) = true := by
  rw [Bool.or_eq_true, sortsBefore_iff, sortsBefore_iff]
  simp only [← Bool.not_eq_true, Position.before_iff, Position.eq_iff]
  omega

theorem start_not_before_of_sortsBefore {a b : Span} (h : a.sortsBefore b = true) : b.start.before a.start = false := by
  rw [sortsBefore_iff] at h
  simp only [← Bool.not_eq_true, Position.before_iff, Position.eq_iff] at *
  omega

end Span

/-! ## Collisions -/

namespace TextEdit

def Beside (a b : TextEdit) : Prop := a.location.overlaps b.location = false

theorem Beside.symm {a b : TextEdit} (h : Beside a b) : Beside b a := (Span.overlaps_comm _ _).trans h

def Sorted (es : List TextEdit) : Prop := es.Pairwise fun a b => a.sortsBefore b = true

theorem sorted_sorted (es : List TextEdit) : Sorted (sorted es) := by
  unfold Sorted sorted
  refine List.pairwise_mergeSort (fun a b c => ?_) (fun a b => ?_) es
  · exact Span.sortsBefore_trans
  · exact Span.sortsBefore_total a.location b.location

theorem sorted_perm (es : List TextEdit) : (sorted es).Perm es := List.mergeSort_perm es _

theorem firstCollision?_eq_none_iff {a : TextEdit} : ∀ {rest : List TextEdit}, Sorted (a :: rest) →
    (firstCollision? a rest = none ↔ ∀ b ∈ rest, Beside a b)
  | [], _ => by simp [firstCollision?]
  | b :: rest, hsorted => by
    obtain ⟨hfirst, hrest⟩ := List.pairwise_cons.mp hsorted
    have ih := firstCollision?_eq_none_iff (hsorted.sublist ((List.sublist_cons_self b rest).cons_cons a))
    unfold firstCollision?
    split
    · -- whatever follows starts no earlier, so it is out of reach as well
      rename_i hstop
      refine iff_of_true rfl fun c hc => Span.not_overlaps_of_stop_before ?_ ?_
      · exact Span.start_not_before_of_sortsBefore (hfirst c hc)
      · rcases List.mem_cons.mp hc with rfl | hc
        · exact hstop
        · have hbc := Span.start_not_before_of_sortsBefore ((List.pairwise_cons.mp hrest).1 c hc)
          rw [← Bool.not_eq_true] at hbc
          rw [Position.before_iff] at *
          omega
    · split
      · rename_i hoverlaps
        refine iff_of_false (by simp) fun hall => ?_
        rw [hall b (by simp)] at hoverlaps
        cases hoverlaps
      · rename_i hbeside
        rw [ih, List.forall_mem_cons]
        exact (and_iff_right (by simpa [Beside] using hbeside)).symm

/-- A sorted list without a collision has no two edits that overlap, neighbours or not. -/
theorem collision?_eq_none_iff : ∀ {es : List TextEdit}, Sorted es → (collision? es = none ↔ es.Pairwise Beside)
  | [], _ => by simp [collision?]
  | a :: rest, hsorted => by
    have hfirst := firstCollision?_eq_none_iff hsorted
    have ih := collision?_eq_none_iff (List.pairwise_cons.mp hsorted).2
    rw [List.pairwise_cons, ← hfirst, ← ih, collision?]
    cases firstCollision? a rest <;> simp

end TextEdit

/-! ## The check -/

namespace WorkspaceEdit

theorem checkOverlaps_eq_ok_iff (p : Path) (es : List TextEdit) :
    checkOverlaps p es = .ok () ↔ es.Pairwise TextEdit.Beside := by
  rw [← (TextEdit.sorted_perm es).pairwise_iff fun h => h.symm,
    ← TextEdit.collision?_eq_none_iff (TextEdit.sorted_sorted es)]
  unfold checkOverlaps
  cases TextEdit.collision? (TextEdit.sorted es) with
  | none => simp
  | some found => simp

theorem forM_checkOverlaps_eq_ok_iff (changes : PathMap (List TextEdit)) :
    (changes.forM fun file => checkOverlaps file.1 file.2) = .ok () ↔
      ∀ file ∈ changes, file.2.Pairwise TextEdit.Beside := by
  induction changes with
  | nil => exact iff_of_true rfl (by simp)
  | cons file rest ih =>
    rw [List.forall_mem_cons, ← ih, ← checkOverlaps_eq_ok_iff file.1 file.2]
    show (checkOverlaps file.1 file.2 >>= fun _ => rest.forM fun file => checkOverlaps file.1 file.2) = _ ↔ _
    cases checkOverlaps file.1 file.2 with
    | error e => exact iff_of_false (by simp [bind, Except.bind]) (by simp)
    | ok u => exact (and_iff_right rfl).symm

end WorkspaceEdit

end Refactor
