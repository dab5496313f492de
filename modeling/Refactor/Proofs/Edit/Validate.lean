import Refactor.Edit.Merge
import Refactor.Proofs.Path.Order

/-!
# What checked edits hold to

Edits that pass the check have operations with different sources and different destinations, no operation takes what
another one produces, and no deleted file is edited.

* `WorkspaceEdit.Checked` — such edits
* `WorkspaceEdit.validate_checked` — the check lets nothing else pass
* `WorkspaceEdit.validate_eq_ok_iff` — the check lets all of them pass whose text edits do not overlap
* `WorkspaceEdit.Checked.perm` — the order of the operations does not matter
-/

namespace Refactor

namespace FileOperation

/-- Two operations have no source and no destination in common, and neither takes what the other one produces. -/
structure Apart (a b : FileOperation) : Prop where
  sources : ∀ s ∈ a.source?, ∀ s' ∈ b.source?, (s == s') = false
  destinations : ∀ d ∈ a.destination?, ∀ d' ∈ b.destination?, (d == d') = false
  before : ∀ s ∈ a.source?, ∀ d ∈ b.destination?, (s == d) = false
  after : ∀ s ∈ b.source?, ∀ d ∈ a.destination?, (s == d) = false

theorem Apart.symm {a b : FileOperation} (h : Apart a b) : Apart b a where
  sources s hs s' hs' := by rw [Path.beq_comm]; exact h.sources s' hs' s hs
  destinations d hd d' hd' := by rw [Path.beq_comm]; exact h.destinations d' hd' d hd
  before := h.after
  after := h.before

end FileOperation

namespace WorkspaceEdit

/-- What the check lets pass. -/
structure Checked (w : WorkspaceEdit) : Prop where
  apart : w.operations.Pairwise FileOperation.Apart
  deleted : ∀ p, .delete p ∈ w.operations → w.editsOf p = []

/-! ## Endpoints -/

theorem checkEndpoints_cons {op : FileOperation} {rest : List FileOperation} {destinations sources : List Path}
    (h : checkEndpoints (op :: rest) destinations sources = .ok ()) :
    (∀ d ∈ op.destination?, destinations.contains d = false) ∧ (∀ s ∈ op.source?, sources.contains s = false) ∧
      checkEndpoints rest (destinations ++ op.destination?.toList) (sources ++ op.source?.toList) = .ok () := by
  unfold checkEndpoints at h
  rcases hd : op.destination? with _ | d <;> rcases hs : op.source? with _ | s <;> rw [hd, hs] at h <;> dsimp only at h
  · exact ⟨by simp, by simp, h⟩
  · split at h
    · cases h
    · rename_i hfree
      exact ⟨by simp, by simpa using hfree, h⟩
  · split at h
    · cases h
    · rename_i hfree
      exact ⟨by simpa using hfree, by simp, h⟩
  · split at h
    · cases h
    · rename_i hfree
      split at h
      · cases h
      · rename_i hfree'
        exact ⟨by simpa using hfree, by simpa using hfree', h⟩

theorem not_beq_of_contains {p : Path} {ps : List Path} (h : ps.contains p = false) {q : Path} (hq : q ∈ ps) :
    (q == p) = false := by
  rw [← Bool.not_eq_true] at h ⊢
  refine fun heq => h ?_
  rw [List.contains_iff_exists_mem_beq]
  exact ⟨q, hq, by rw [Path.beq_comm]; exact heq⟩

/-- No two operations have a source or a destination in common, nor one with those before them. -/
theorem checkEndpoints_ok : ∀ {ops : List FileOperation} {destinations sources : List Path},
    checkEndpoints ops destinations sources = .ok () →
    (∀ op ∈ ops, (∀ d ∈ op.destination?, destinations.contains d = false) ∧
      ∀ s ∈ op.source?, sources.contains s = false) ∧
    ops.Pairwise fun a b => (∀ s ∈ a.source?, ∀ s' ∈ b.source?, (s == s') = false) ∧
      ∀ d ∈ a.destination?, ∀ d' ∈ b.destination?, (d == d') = false
  | [], _, _, _ => ⟨by simp, List.Pairwise.nil⟩
  | op :: rest, destinations, sources, h => by
    obtain ⟨hd, hs, hrest⟩ := checkEndpoints_cons h
    obtain ⟨hall, hpairwise⟩ := checkEndpoints_ok hrest
    refine ⟨fun op' hop' => ?_, List.pairwise_cons.mpr ⟨fun op' hop' => ⟨fun s hmem s' hmem' => ?_,
      fun d hmem d' hmem' => ?_⟩, hpairwise⟩⟩
    · rcases List.mem_cons.mp hop' with rfl | hop'
      · exact ⟨hd, hs⟩
      · obtain ⟨hd', hs'⟩ := hall op' hop'
        refine ⟨fun d hmem => ?_, fun s hmem => ?_⟩
        · have := hd' d hmem
          rw [List.contains_append, Bool.or_eq_false_iff] at this
          exact this.1
        · have := hs' s hmem
          rw [List.contains_append, Bool.or_eq_false_iff] at this
          exact this.1
    · refine not_beq_of_contains ((hall op' hop').2 s' hmem') (List.mem_append_right _ ?_)
      simpa using hmem
    · refine not_beq_of_contains ((hall op' hop').1 d' hmem') (List.mem_append_right _ ?_)
      simpa using hmem

/-! ## Paths that are passed on -/

theorem checkPassing_ok {ops : List FileOperation} (h : checkPassing ops = .ok ()) {i j : Nat} (hij : i ≠ j)
    {a b : FileOperation} (ha : ops[i]? = some a) (hb : ops[j]? = some b) :
    ∀ s ∈ a.source?, ∀ d ∈ b.destination?, (s == d) = false := by
  intro s hs d hd
  rw [← Bool.not_eq_true]
  intro heq
  have hmem : s ∈ ops.filterMap FileOperation.source? :=
    List.mem_filterMap.mpr ⟨a, List.mem_of_getElem? ha, hs⟩
  have hpasses : passesThrough ops s = true := by
    unfold passesThrough
    refine List.any_eq_true.mpr ⟨(a, i), List.mem_zipIdx_iff_getElem?.mpr ha, ?_⟩
    refine List.any_eq_true.mpr ⟨(b, j), List.mem_zipIdx_iff_getElem?.mpr hb, ?_⟩
    rw [Option.mem_def] at hs hd
    have hne : (i != j) = true := by simpa using hij
    simp only [hne, hs, hd, Option.any_some, Bool.true_and, Bool.and_eq_true]
    exact ⟨BEq.rfl, by rw [Path.beq_comm]; exact heq⟩
  unfold checkPassing at h
  split at h
  · cases h
  · rename_i hnone
    exact absurd hpasses (List.find?_eq_none.mp hnone s hmem)

/-! ## Deletions -/

theorem checkDeleted_ok {w : WorkspaceEdit} : ∀ {ops : List FileOperation}, checkDeleted w ops = .ok () →
    ∀ p, .delete p ∈ ops → w.editsOf p = []
  | [], _, _, hp => absurd hp (by simp)
  | op :: rest, h, p, hp => by
    cases op with
    | delete q =>
      unfold checkDeleted at h
      split at h
      · rename_i hempty
        rcases List.mem_cons.mp hp with heq | hp
        · cases heq
          exact List.isEmpty_iff.mp hempty
        · exact checkDeleted_ok h p hp
      · cases h
    | move a b o => exact @checkDeleted_ok w rest h p ((List.mem_cons.mp hp).resolve_left (by simp))
    | create q c o => exact @checkDeleted_ok w rest h p ((List.mem_cons.mp hp).resolve_left (by simp))

/-! ## The whole check -/

theorem validate_checked {w : WorkspaceEdit} (h : w.validate = .ok ()) : w.Checked := by
  unfold validate at h
  simp only [bind, Except.bind] at h
  split at h
  · cases h
  split at h
  · cases h
  rename_i hendpoints
  split at h
  · cases h
  rename_i hpassing
  obtain ⟨_, hpairwise⟩ := checkEndpoints_ok hendpoints
  refine ⟨?_, checkDeleted_ok h⟩
  rw [List.pairwise_iff_getElem] at hpairwise ⊢
  intro i j hi hj hij
  obtain ⟨hsources, hdestinations⟩ := hpairwise i j hi hj hij
  exact ⟨hsources, hdestinations,
    checkPassing_ok hpassing hij.ne (List.getElem?_eq_getElem hi) (List.getElem?_eq_getElem hj),
    checkPassing_ok hpassing hij.ne' (List.getElem?_eq_getElem hj) (List.getElem?_eq_getElem hi)⟩

/-! ## What passes the check -/

theorem checkEndpoints_of_apart : ∀ {ops : List FileOperation} {destinations sources : List Path},
    (∀ op ∈ ops, (∀ d ∈ op.destination?, destinations.contains d = false) ∧
      ∀ s ∈ op.source?, sources.contains s = false) →
    ops.Pairwise FileOperation.Apart → checkEndpoints ops destinations sources = .ok ()
  | [], _, _, _, _ => rfl
  | op :: rest, destinations, sources, hfresh, hapart => by
    obtain ⟨hfirst, hrest⟩ := List.pairwise_cons.mp hapart
    obtain ⟨hd, hs⟩ := hfresh op (by simp)
    have ih : checkEndpoints rest (destinations ++ op.destination?.toList) (sources ++ op.source?.toList) = .ok () := by
      refine checkEndpoints_of_apart (fun op' hop' => ⟨fun d' hd' => ?_, fun s' hs' => ?_⟩) hrest
      · have hold := (hfresh op' (List.mem_cons_of_mem _ hop')).1 d' hd'
        have hnew := (hfirst op' hop').destinations
        cases hdest : op.destination? with
        | none => simpa [hdest] using hold
        | some d =>
          rw [List.contains_append, hold, Option.toList_some, List.contains_cons, Path.beq_comm]
          simpa using hnew d (by rw [hdest]; rfl) d' hd'
      · have hold := (hfresh op' (List.mem_cons_of_mem _ hop')).2 s' hs'
        have hnew := (hfirst op' hop').sources
        cases hsource : op.source? with
        | none => simpa [hsource] using hold
        | some s =>
          rw [List.contains_append, hold, Option.toList_some, List.contains_cons, Path.beq_comm]
          simpa using hnew s (by rw [hsource]; rfl) s' hs'
    unfold checkEndpoints
    cases hdest : op.destination? with
    | none =>
      cases hsource : op.source? with
      | none => simpa [hdest, hsource] using ih
      | some s =>
        have hfree := hs s (by rw [hsource]; rfl)
        simp only [hdest, hsource] at ih
        simp only [hfree, Bool.false_eq_true, if_false]
        exact ih
    | some d =>
      have hfree := hd d (by rw [hdest]; rfl)
      cases hsource : op.source? with
      | none =>
        simp only [hdest, hsource] at ih
        simp only [hfree, Bool.false_eq_true, if_false]
        exact ih
      | some s =>
        have hfree' := hs s (by rw [hsource]; rfl)
        simp only [hdest, hsource] at ih
        simp only [hfree, hfree', Bool.false_eq_true, if_false]
        exact ih

theorem passesThrough_of_apart {ops : List FileOperation} (h : ops.Pairwise FileOperation.Apart) (p : Path) :
    passesThrough ops p = false := by
  rw [← Bool.not_eq_true]
  intro hpasses
  obtain ⟨⟨a, i⟩, ha, hinner⟩ := List.any_eq_true.mp hpasses
  obtain ⟨⟨b, j⟩, hb, hboth⟩ := List.any_eq_true.mp hinner
  simp only [Bool.and_eq_true, bne_iff_ne, ne_eq] at hboth
  obtain ⟨⟨hij, hsource⟩, hdestination⟩ := hboth
  obtain ⟨s, hs, hsp⟩ := (Option.any_eq_true _ _).mp hsource
  obtain ⟨d, hd, hdp⟩ := (Option.any_eq_true _ _).mp hdestination
  have ha' : ops[i]? = some a := List.mem_zipIdx_iff_getElem?.mp ha
  have hb' : ops[j]? = some b := List.mem_zipIdx_iff_getElem?.mp hb
  obtain ⟨hi, hai⟩ := List.getElem?_eq_some_iff.mp ha'
  obtain ⟨hj, hbj⟩ := List.getElem?_eq_some_iff.mp hb'
  have hapart : FileOperation.Apart a b := by
    rw [← hai, ← hbj]
    rcases Nat.lt_or_gt_of_ne hij with hlt | hlt
    · exact List.pairwise_iff_getElem.mp h i j hi hj hlt
    · exact (List.pairwise_iff_getElem.mp h j i hj hi hlt).symm
  have hsame : (s == d) = true := by
    rw [Path.beq_iff] at hsp hdp ⊢
    exact hsp.trans hdp.symm
  rw [hapart.before s hs d hd] at hsame
  cases hsame

theorem checkDeleted_of {w : WorkspaceEdit} : ∀ {ops : List FileOperation},
    (∀ p, .delete p ∈ ops → w.editsOf p = []) → checkDeleted w ops = .ok ()
  | [], _ => rfl
  | op :: rest, h => by
    have ih := checkDeleted_of fun p hp => h p (List.mem_cons_of_mem op hp)
    cases op with
    | delete p => rw [checkDeleted, h p (by simp), List.isEmpty_nil, if_pos rfl, ih]
    | move a b o => exact ih
    | create p c o => exact ih

theorem validate_eq_ok_iff (w : WorkspaceEdit) :
    w.validate = .ok () ↔ (w.changes.forM fun file => checkOverlaps file.1 file.2) = .ok () ∧ w.Checked := by
  constructor
  · intro h
    refine ⟨?_, validate_checked h⟩
    unfold validate at h
    simp only [bind, Except.bind] at h
    split at h
    · cases h
    · assumption
  · rintro ⟨hoverlaps, hchecked⟩
    have hendpoints : checkEndpoints w.operations [] [] = .ok () :=
      checkEndpoints_of_apart (by simp) hchecked.apart
    have hpassing : checkPassing w.operations = .ok () := by
      have hnone : (w.operations.filterMap FileOperation.source?).find? (passesThrough w.operations) = none :=
        List.find?_eq_none.mpr fun p _ => by simp [passesThrough_of_apart hchecked.apart p]
      simp only [checkPassing, hnone]
    have hdeleted := checkDeleted_of hchecked.deleted
    have hvalidate : w.validate = (do
      w.changes.forM fun file => checkOverlaps file.1 file.2
      checkEndpoints w.operations [] []
      checkPassing w.operations
      checkDeleted w w.operations) := rfl
    rw [hvalidate, hoverlaps, hendpoints, hpassing, hdeleted]
    rfl

/-- The order of the operations does not matter. -/
theorem Checked.perm {w w' : WorkspaceEdit} (h : w.Checked) (hchanges : w'.changes = w.changes)
    (hoperations : w.operations.Perm w'.operations) : w'.Checked where
  apart := hoperations.pairwise h.apart FileOperation.Apart.symm
  deleted p hp := by
    have hedits := h.deleted p (hoperations.mem_iff.mpr hp)
    simpa only [editsOf, hchanges] using hedits

theorem validate_perm {w w' : WorkspaceEdit} (h : w.validate = .ok ()) (hchanges : w'.changes = w.changes)
    (hoperations : w.operations.Perm w'.operations) : w'.validate = .ok () := by
  obtain ⟨hoverlaps, hchecked⟩ := (validate_eq_ok_iff w).mp h
  refine (validate_eq_ok_iff w').mpr ⟨?_, hchecked.perm hchanges hoperations⟩
  rw [hchanges]
  exact hoverlaps

end WorkspaceEdit

end Refactor
