import Refactor.Proofs.Apply.Begin
import Refactor.Proofs.Path.Order

/-!
# The course of an apply

Whatever the file system, the cancellations and the check answer, an apply goes through its states in one
order, and its flags, its locks and its cache agree with the states it went through.

* `ApplyState.course` — the states of an apply that got to the writing
* `Transaction.SameStanding` — steps that leave the states and flags alone
* `Workspace.apply_course` — every apply is an error without a change, or goes through such a course
-/

set_option linter.unusedSectionVars false

namespace Refactor

open FileSystem

variable {σ : Type} [FileSystem σ]

/-! ## Snapshots of all paths -/

namespace Snapshots

theorem find?_append_isSome {s : Snapshots} {p : Path} (q : Path) (state : SnapshotState)
    (h : (s.find? p).isSome) : (find? ⟨s.entries ++ [(q, state)]⟩ p).isSome := by
  unfold find? at h ⊢
  rw [List.lookup_append]
  simp [Option.isSome_or, h]

theorem captureAll_covers : ∀ {ps : List Path} {s s' : Snapshots} {d d' : σ},
    (s.captureAll ps).run d = ((s', .ok ()), d') → ∀ p, (s.find? p).isSome ∨ p ∈ ps → (s'.find? p).isSome
  | [], s, s', d, d', h, p, hp => by
    cases h
    simpa using hp
  | q :: ps, s, s', d, d', h, p, hp => by
    unfold captureAll at h
    split at h
    · rename_i hq
      refine captureAll_covers h p ?_
      rcases hp with hp | hp
      · exact Or.inl hp
      · rcases List.mem_cons.mp hp with rfl | hp
        · exact Or.inl hq
        · exact Or.inr hp
    · rw [StateT.run_bind] at h
      rcases hstate : (stateOf q).run d with ⟨e | state, d₁⟩ <;> rw [hstate] at h
      · cases h
      · refine captureAll_covers h p ?_
        rcases hp with hp | hp
        · exact Or.inl (find?_append_isSome q state hp)
        · rcases List.mem_cons.mp hp with rfl | hp
          · refine Or.inl ?_
            unfold find?
            rw [List.lookup_append]
            simp
          · exact Or.inr hp

/-- Every record is one of before, or it is right about one of the paths, when single records are. -/
theorem captureAll_all {I : σ → Prop} {R : Path → SnapshotState → Prop}
    (hstate : ∀ p s s' state, I s → (stateOf p).run s = (.ok state, s') → R p state ∧ I s') : ∀ {ps : List Path}
    {s s' : Snapshots} {d d' : σ}, I d → (s.captureAll ps).run d = ((s', .ok ()), d') → ∀ entry ∈ s'.entries,
    entry ∈ s.entries ∨ entry.1 ∈ ps ∧ R entry.1 entry.2
  | [], s, s', d, d', _, h, entry, hentry => by
    cases h
    exact Or.inl hentry
  | p :: ps, s, s', d, d', hd, h, entry, hentry => by
    unfold captureAll at h
    split at h
    · exact (captureAll_all hstate hd h entry hentry).imp_right fun hnew => ⟨List.mem_cons_of_mem _ hnew.1, hnew.2⟩
    · rw [StateT.run_bind] at h
      rcases hrun : (stateOf p).run d with ⟨e | state, d₁⟩ <;> rw [hrun] at h
      · cases h
      · obtain ⟨hright, hd₁⟩ := hstate p d d₁ state hd hrun
        rcases captureAll_all hstate hd₁ h entry hentry with hmem | ⟨hmem, hright'⟩
        · rcases List.mem_append.mp hmem with hmem | hmem
          · exact Or.inl hmem
          · rw [List.mem_singleton.mp hmem]
            exact Or.inr ⟨by simp, hright⟩
        · exact Or.inr ⟨List.mem_cons_of_mem _ hmem, hright'⟩

theorem exists_path_of_find? {s : Snapshots} {p : Path} (h : (s.find? p).isSome) :
    ∃ q ∈ s.paths, p.components = q.components := by
  obtain ⟨entries⟩ := s
  unfold find? at h
  unfold paths
  dsimp only at h ⊢
  induction entries with
  | nil => cases h
  | cons entry rest ih =>
    rw [List.lookup_cons] at h
    split at h
    · rename_i hp
      exact ⟨entry.1, by simp, (Path.beq_iff _ _).mp hp⟩
    · obtain ⟨q, hq, hpq⟩ := ih h
      exact ⟨q, List.mem_cons_of_mem _ hq, hpq⟩

end Snapshots

/-! ## Forgotten files -/

namespace ImportCache

def Forgets (c : ImportCache) (p : Path) : Prop := c.forward.find? p = none ∧ c.reverse.find? p = none

theorem Forgets.congr {c : ImportCache} {p q : Path} (h : c.Forgets q) (hpq : p.components = q.components) :
    c.Forgets p :=
  ⟨by rw [PathMap.find?_congr hpq, h.1], by rw [PathMap.find?_congr hpq, h.2]⟩

theorem find?_unlink {reverse : PathMap PathSet} {p : Path} (file target : Path) (h : reverse.find? p = none) :
    (unlink reverse file target).find? p = none := by
  unfold unlink
  split
  · exact h
  · rename_i importers htarget
    dsimp only
    split
    · rw [PathMap.find?_erase, h]
      simp
    · rw [PathMap.find?_insert, if_neg, h]
      intro hp
      rw [PathMap.find?_congr ((Path.beq_iff _ _).mp hp), htarget] at h
      cases h

theorem find?_foldl_unlink {p : Path} (file : Path) : ∀ (targets : List Path) (reverse : PathMap PathSet),
    reverse.find? p = none → (targets.foldl (fun r t => unlink r file t) reverse).find? p = none
  | [], _, h => h
  | t :: targets, _, h => find?_foldl_unlink file targets _ (find?_unlink file t h)

theorem Forgets.removeReverse {c : ImportCache} {p : Path} (h : c.Forgets p) (file : Path) :
    (c.removeReverse file).Forgets p := by
  unfold ImportCache.removeReverse
  split
  · exact h
  · exact ⟨h.1, find?_foldl_unlink file _ _ h.2⟩

theorem Forgets.forget {c : ImportCache} {p : Path} (h : c.Forgets p) (q : Path) : (c.forget q).Forgets p := by
  obtain ⟨hforward, hreverse⟩ := h.removeReverse q
  refine ⟨?_, ?_⟩
  · show ((c.removeReverse q).forward.erase q).find? p = none
    rw [PathMap.find?_erase, hforward, ite_self]
  · show ((c.removeReverse q).reverse.erase q).find? p = none
    rw [PathMap.find?_erase, hreverse, ite_self]

theorem forget_forgets (c : ImportCache) (p : Path) : (c.forget p).Forgets p := by
  refine ⟨?_, ?_⟩
  · show ((c.removeReverse p).forward.erase p).find? p = none
    rw [PathMap.find?_erase, if_pos BEq.rfl]
  · show ((c.removeReverse p).reverse.erase p).find? p = none
    rw [PathMap.find?_erase, if_pos BEq.rfl]

theorem Forgets.invalidate {p : Path} : ∀ (ps : List Path) {c : ImportCache}, c.Forgets p → (c.invalidate ps).Forgets p
  | [], _, h => h
  | q :: ps, _, h => Forgets.invalidate ps (h.forget q)

theorem invalidate_forgets {p : Path} : ∀ {ps : List Path} (c : ImportCache), p ∈ ps → (c.invalidate ps).Forgets p
  | q :: ps, c, h => by
    rcases List.mem_cons.mp h with rfl | h
    · exact Forgets.invalidate ps (c.forget_forgets p)
    · exact invalidate_forgets (c.forget q) h

end ImportCache

/-! ## Steps that leave the standing alone -/

/-- What the states of an apply decide. -/
def ApplyResult.standing (r : ApplyResult) : List ApplyState × ApplyState × Bool × Bool × Option ErrorResponse :=
  (r.history, r.finalState, r.success, r.rolledBack, r.error)

namespace Transaction

def SameStanding (tx tx' : Transaction σ) : Prop := tx'.result.standing = tx.result.standing

instance : Std.Refl (SameStanding (σ := σ)) := ⟨fun _ => rfl⟩

instance : IsTrans (Transaction σ) SameStanding := ⟨fun _ _ _ h h' => h'.trans h⟩

theorem ask_standing {α : Type} (f : StateM σ α) : Relates SameStanding (ask f) := fun _ => rfl

theorem call_standing {α : Type} (f : StateM σ α) : Relates SameStanding (call f).run := (ask_standing f).lift

theorem perform_standing (p : Path) (f : StateM σ (Except DiskError Unit)) :
    Relates SameStanding (perform p f).run := by
  refine (call_standing f).bindExcept fun r => ?_
  cases r with
  | ok _ => exact Relates.pureExcept _
  | error e => exact Relates.throwExcept _

theorem record_standing (w : Written) : Relates (SameStanding (σ := σ)) (record w).run := fun _ => rfl

theorem note_standing {f : ApplyResult → ApplyResult} (h : ∀ r, (f r).standing = r.standing) :
    Relates (SameStanding (σ := σ)) (note f).run := fun tx => h tx.result

theorem heedCancel_standing : Relates (SameStanding (σ := σ)) heedCancel.run := by
  refine Relates.bindExcept (fun _ => rfl) fun tx => ?_
  cases tx.heeds
  · exact Relates.pureExcept _
  · refine (call_standing _).bindExcept fun b => ?_
    cases b
    · exact Relates.pureExcept _
    · exact Relates.throwExcept _

theorem missingDirs_standing : ∀ l : List Path, Relates (SameStanding (σ := σ)) (missingDirs l)
  | [] => Relates.pure _
  | p :: above => by
    refine (ask_standing _).bind fun b => ?_
    cases b
    · exact (missingDirs_standing above).bind fun _ => Relates.pure _
    · exact Relates.pure _

theorem ensureDir_standing (dir : Path) : Relates (SameStanding (σ := σ)) (ensureDir dir).run := by
  refine (missingDirs_standing _).lift.bindExcept fun missing => ?_
  cases missing.isEmpty
  · exact (perform_standing _ _).bindExcept fun _ _ => rfl
  · exact Relates.pureExcept _

theorem ensureParent_standing (p : Path) : Relates (SameStanding (σ := σ)) (ensureParent p).run := by
  unfold ensureParent
  split
  · exact ensureDir_standing _
  · exact Relates.pureExcept _

theorem removeEmptied_standing (source : SourceDir) (dir : Path) :
    Relates (SameStanding (σ := σ)) (removeEmptied source dir).run := by
  refine (call_standing _).bindExcept fun r => ?_
  cases r with
  | error e => exact Relates.pureExcept _
  | ok _ =>
    refine Relates.bindExcept (fun _ => rfl) fun _ => ?_
    split
    · exact ensureDir_standing _
    · exact Relates.pureExcept _

theorem removeAllEmptied_standing (sources : List SourceDir) :
    Relates (SameStanding (σ := σ)) (removeAllEmptied sources).run := by
  refine Relates.forMExcept _ fun source _ => ?_
  refine (call_standing _).bindExcept fun dirs => ?_
  exact Relates.forMExcept _ fun dir _ => removeEmptied_standing source dir

/-! ## Writing and putting back -/

theorem writeEdits_standing (plan : Plan) (snapshots : Snapshots) (path : Path) (edits : List TextEdit) :
    Relates (SameStanding (σ := σ)) (writeEdits plan snapshots path edits).run := by
  unfold writeEdits
  split
  · exact Relates.pureExcept _
  · have hwrite : ∀ before : String, Relates (SameStanding (σ := σ))
        (do let rendered ← ExceptT.mk (pure (TextEdit.applyAll path.raw before edits))
            record (.path path)
            perform path (FileSystem.write path (Bytes.ofText rendered))
            note fun r => { r with filesModified := r.filesModified ++ [(plan.destination? path).getD path] } :
          Writing σ Unit).run := by
      intro before
      refine Relates.bindExcept (Relates.pure _) fun rendered => ?_
      refine (record_standing _).bindExcept fun _ => ?_
      exact (perform_standing _ _).bindExcept fun _ => note_standing fun _ => rfl
    refine heedCancel_standing.bindExcept fun _ => ?_
    split
    · split
      · exact hwrite _
      · exact Relates.throwExcept _
    · exact Relates.throwExcept _

theorem writeMove_standing (source target : Path) : Relates (SameStanding (σ := σ)) (writeMove source target).run := by
  refine heedCancel_standing.bindExcept fun _ => ?_
  refine (ensureParent_standing _).bindExcept fun _ => ?_
  refine (record_standing _).bindExcept fun _ => ?_
  exact (perform_standing _ _).bindExcept fun _ => note_standing fun _ => rfl

theorem writeCreate_standing (path : Path) (content : String) :
    Relates (SameStanding (σ := σ)) (writeCreate path content).run := by
  refine heedCancel_standing.bindExcept fun _ => ?_
  refine (ensureParent_standing _).bindExcept fun _ => ?_
  refine (record_standing _).bindExcept fun _ => ?_
  exact (perform_standing _ _).bindExcept fun _ => note_standing fun _ => rfl

theorem writeDelete_standing (path : Path) : Relates (SameStanding (σ := σ)) (writeDelete path).run := by
  refine heedCancel_standing.bindExcept fun _ => ?_
  refine (record_standing _).bindExcept fun _ => ?_
  exact (perform_standing _ _).bindExcept fun _ => note_standing fun _ => rfl

theorem writeAll_standing (plan : Plan) (snapshots : Snapshots) (sources : List SourceDir) :
    Relates (SameStanding (σ := σ)) (writeAll plan snapshots sources).run := by
  refine Relates.bindExcept (Relates.forMExcept _ fun change _ => writeEdits_standing plan snapshots _ _) fun _ => ?_
  refine Relates.bindExcept (Relates.forMExcept _ fun op _ => ?_) fun _ => ?_
  · cases op with
    | move a b o => exact writeMove_standing a b
    | create p c o => exact Relates.pureExcept _
    | delete p => exact Relates.pureExcept _
  refine Relates.bindExcept (Relates.forMExcept _ fun op _ => ?_) fun _ => ?_
  · cases op with
    | move a b o => exact Relates.pureExcept _
    | create p c o => exact writeCreate_standing p c
    | delete p => exact Relates.pureExcept _
  refine Relates.bindExcept (Relates.forMExcept _ fun op _ => ?_) fun _ => ?_
  · cases op with
    | move a b o => exact Relates.pureExcept _
    | create p c o => exact Relates.pureExcept _
    | delete p => exact writeDelete_standing p
  exact (removeAllEmptied_standing sources).bindExcept fun _ => heedCancel_standing

theorem restore_standing (p : Path) (state : SnapshotState) : Relates (SameStanding (σ := σ)) (restore p state) := by
  cases state with
  | content b =>
    unfold restore
    dsimp only
    split
    · refine (ask_standing _).bind fun made => ?_
      cases made with
      | ok _ => exact ask_standing _
      | error e => exact Relates.pure _
    · exact ask_standing _
  | absent =>
    refine (ask_standing _).bind fun r => ?_
    cases r <;> exact Relates.pure _

theorem notRestored_standing (p : Path) (state : SnapshotState) (e : DiskError) (preservedAt : Option Path) :
    Relates (SameStanding (σ := σ)) (notRestored p state e preservedAt) :=
  (ask_standing _).bind fun _ _ => rfl

theorem restorePath_standing (snapshots : Snapshots) (p : Path) :
    Relates (SameStanding (σ := σ)) (restorePath snapshots p) := by
  unfold restorePath
  split
  · exact Relates.pure _
  · refine (restore_standing _ _).bind fun r => ?_
    cases r with
    | ok _ => exact fun _ => rfl
    | error e => exact notRestored_standing _ _ _ _

theorem restoreSource_standing (snapshots : Snapshots) (source target : Path) :
    Relates (SameStanding (σ := σ)) (restoreSource snapshots source target) := by
  unfold restoreSource
  split
  · exact Relates.pure _
  · refine (restore_standing _ _).bind fun r => ?_
    cases r with
    | ok _ => exact fun _ => rfl
    | error e =>
      refine (ask_standing _).bind fun there => ?_
      exact (notRestored_standing _ _ _ _).bind fun _ => Relates.pure _

/-- Undoing the change of one path: an attempt, unless there was one, and then the rest. -/
theorem undo_path (snapshots : Snapshots) (p : Path) (rest : List Written) (seen : List Path) :
    undo (σ := σ) snapshots (.path p :: rest) seen = (do
      (if seen.contains p then pure () else restorePath snapshots p)
      undo snapshots rest (p :: seen)) := by
  rw [undo]
  cases seen.contains p <;> rfl

/-- Undoing a move: the source, then the target unless it has to stay, and then the rest. -/
theorem undo_move (snapshots : Snapshots) (a b : Path) (rest : List Written) (seen : List Path) :
    undo (σ := σ) snapshots (.move a b :: rest) seen = (do
      let kept ← (if seen.contains a then pure true else restoreSource snapshots a b)
      (if kept && !(a :: seen).contains b then restorePath snapshots b else pure ())) >>=
        fun _ => undo snapshots rest (b :: a :: seen) := by
  rw [undo, bind_assoc]
  cases seen.contains a with
  | true => cases (a :: seen).contains b <;> rfl
  | false =>
    show restoreSource snapshots a b >>= _ = restoreSource snapshots a b >>= _
    refine bind_congr fun kept => ?_
    cases kept <;> cases (a :: seen).contains b <;> rfl

/-- What undoing one path keeps, and undoing one move, undoing a log keeps. -/
theorem undo_keeps {snapshots : Snapshots} {I : List Written → List Path → Transaction σ → Prop}
    (hpath : ∀ p rest seen, Ends (I (.path p :: rest) seen)
      (if seen.contains p then pure () else restorePath snapshots p) fun _ => I rest (p :: seen))
    (hmove : ∀ a b rest seen, Ends (I (.move a b :: rest) seen) (do
      let kept ← (if seen.contains a then pure true else restoreSource snapshots a b)
      (if kept && !(a :: seen).contains b then restorePath snapshots b else pure ())) fun _ => I rest (b :: a :: seen)) :
    ∀ (l : List Written) (seen : List Path), Ends (I l seen) (undo snapshots l seen) fun _ tx => ∃ seen, I [] seen tx
  | [], seen => Ends.pure _ fun _ h => ⟨seen, h⟩
  | .path p :: rest, seen => by
    rw [undo_path]
    exact (hpath p rest seen).bind fun _ => undo_keeps hpath hmove rest _
  | .move a b :: rest, seen => by
    rw [undo_move]
    exact (hmove a b rest seen).bind fun _ => undo_keeps hpath hmove rest _

theorem undo_standing (snapshots : Snapshots) : ∀ (l : List Written) (seen : List Path),
    Relates (SameStanding (σ := σ)) (undo snapshots l seen)
  | [], _ => Relates.pure _
  | .path p :: rest, seen => by
    rw [undo_path]
    refine Relates.bind ?_ fun _ => undo_standing snapshots rest _
    split
    · exact Relates.pure _
    · exact restorePath_standing snapshots p
  | .move a b :: rest, seen => by
    rw [undo_move]
    refine Relates.bind (Relates.bind ?_ fun kept => ?_) fun _ => undo_standing snapshots rest _
    · split
      · exact Relates.pure _
      · exact restoreSource_standing snapshots a b
    · split
      · exact restorePath_standing snapshots b
      · exact Relates.pure _

theorem putBack_standing (snapshots : Snapshots) : Relates (SameStanding (σ := σ)) (putBack snapshots) := by
  refine Relates.getBind fun _ => ?_
  refine Relates.bind (Relates.forM (fun dir => ?_) _) fun _ => ?_
  · exact (ask_standing _).bind fun _ => Relates.pure _
  refine Relates.getBind fun _ => ?_
  refine (undo_standing snapshots _ _).bind fun _ => ?_
  refine Relates.getBind fun _ => Relates.forM (fun dir => ?_) _
  exact (ask_standing _).bind fun _ => Relates.pure _

theorem rollback_run (snapshots : Snapshots) (tx : Transaction σ) :
    (rollback snapshots).run tx = ((), ((putBack snapshots).run tx.rollingBack).2.rolledBack) := rfl

/-- Putting back adds its two states and says so in the flags. -/
theorem rollback_standing (snapshots : Snapshots) (tx : Transaction σ) :
    ((rollback snapshots).run tx).2.result.standing = (tx.result.history ++ [.rollingBack, .rolledBack], .rolledBack,
      tx.result.success, true, tx.result.error) := by
  have h := putBack_standing snapshots tx.rollingBack
  rw [rollback_run]
  simp only [SameStanding, ApplyResult.standing, rollingBack, rolledBack, ApplyResult.enter, Prod.mk.injEq] at h ⊢
  obtain ⟨hhistory, _, hsuccess, hrolled, herror⟩ := h
  rw [hhistory, List.append_assoc]
  exact ⟨rfl, trivial, hsuccess, hrolled, herror⟩

end Transaction

/-! ## The course -/

/-- The states of an apply that got to the writing. -/
def ApplyState.course (verified committed : Bool) : List ApplyState :=
  [.validating, .locking, .snapshotting, .writing] ++ (if verified then [.verifying] else []) ++
    (if committed then [.committed] else [.rollingBack, .rolledBack]) ++ [.released]

/-- A result whose states make up a course and whose flags agree with them. -/
structure ApplyResult.Completed (verified : Bool) (r : ApplyResult) : Prop where
  history : r.history = ApplyState.course verified r.success
  finalState : r.finalState = .released
  committed : r.success = true ↔ .committed ∈ r.history
  rolledBack : r.success = true ↔ r.rolledBack = false
  error : r.success = true ↔ r.error = none

namespace Workspace

/-- The states of an apply when the check is over. -/
def written (verified : Bool) : List ApplyState :=
  [.validating, .locking, .snapshotting, .writing] ++ if verified then [.verifying] else []

/-- What an apply that got to the writing leaves: a completed result, no lock, and a cache without the paths. -/
structure Ended (verified : Bool) (invalidated : List Path) (w : Workspace σ) (r : ApplyResult) (w' : Workspace σ) :
    Prop where
  completed : r.Completed verified
  locks : w'.locks = w.locks.release holder
  cache : w'.cache = w.cache.invalidate invalidated

theorem rolledBack_completed {r : ApplyResult} {verified : Bool} {state : ApplyState} {e : ErrorResponse}
    (h : r.standing = (written verified ++ [.rollingBack, .rolledBack], state, false, true, some e)) :
    (r.enter .released).Completed verified := by
  simp only [ApplyResult.standing, Prod.mk.injEq] at h
  obtain ⟨hhistory, _, hsuccess, hrolled, herror⟩ := h
  constructor
  · simp [ApplyResult.enter, ApplyState.course, hhistory, hsuccess, written]
  · rfl
  · cases verified <;> simp [ApplyResult.enter, hhistory, hsuccess, written]
  · simp [ApplyResult.enter, hrolled, hsuccess]
  · simp [ApplyResult.enter, herror, hsuccess]

theorem committed_completed {r : ApplyResult} {verified : Bool} {state : ApplyState}
    (h : r.standing = (written verified, state, false, false, none)) :
    (ApplyResult.enter { r.enter .committed with success := true } .released).Completed verified := by
  simp only [ApplyResult.standing, Prod.mk.injEq] at h
  obtain ⟨hhistory, _, _, hrolled, herror⟩ := h
  constructor
  · simp [ApplyResult.enter, ApplyState.course, hhistory, written]
  · rfl
  · simp [ApplyResult.enter]
  · simp [ApplyResult.enter, hrolled]
  · simp [ApplyResult.enter, herror]

theorem abort_ended {tx : Transaction σ} {verified : Bool} {state : ApplyState}
    (h : tx.result.standing = (written verified, state, false, false, none)) (snapshots : Snapshots) (e : Error)
    (w : Workspace σ) :
    Ended verified snapshots.paths w ((abort tx snapshots e).run w).1 ((abort tx snapshots e).run w).2 := by
  simp only [ApplyResult.standing, Prod.mk.injEq] at h
  have hhistory : (tx.failed e).result.history = written verified := h.1
  have hsuccess : (tx.failed e).result.success = false := h.2.2.1
  have hstanding := Transaction.rollback_standing snapshots (tx.failed e)
  rw [hhistory, hsuccess] at hstanding
  exact ⟨rolledBack_completed hstanding, rfl, rfl⟩

theorem writing_standing {plan : Plan} {heeds : Bool} {w w₁ : Workspace σ} {snapshots : Snapshots} {started : ApplyResult}
    (hbegin : (begin plan heeds).run.run w = (.ok (snapshots, started), w₁)) :
    (w₁.writing plan snapshots started heeds).2.result.standing = (written false, .writing, false, false, none) := by
  obtain rfl := begin_started hbegin
  exact Transaction.writeAll_standing plan snapshots _ _

theorem verify_standing {w : Workspace σ} {tx : Transaction σ}
    (h : tx.result.standing = (written false, .writing, false, false, none)) :
    ∃ state, (w.verify tx).1.result.standing = (written w.hook.isSome, state, false, false, none) := by
  simp only [ApplyResult.standing, Prod.mk.injEq] at h
  obtain ⟨hhistory, hstate, hsuccess, hrolled, herror⟩ := h
  unfold verify
  split
  · rename_i hhook
    refine ⟨.writing, ?_⟩
    simp [ApplyResult.standing, hhook, hhistory, hstate, hsuccess, hrolled, herror]
  · rename_i hook hhook
    refine ⟨.verifying, ?_⟩
    have hstart : (tx.result.enter .verifying).standing = (written true, .verifying, false, false, none) := by
      simp [ApplyResult.standing, ApplyResult.enter, hhistory, hsuccess, hrolled, herror, written]
    have hask := Transaction.ask_standing (hook w.root) { tx with result := tx.result.enter .verifying }
    rw [hhook]
    dsimp only
    rcases hanswer : (Transaction.ask (hook w.root)).run { tx with result := tx.result.enter .verifying } with
      ⟨e | v, tx'⟩ <;> rw [hanswer] at hask
    · exact hask.trans hstart
    · dsimp only
      split
      · exact hask.trans hstart
      · exact hask.trans hstart

theorem attempt_standing {plan : Plan} {heeds : Bool} {w w₁ : Workspace σ} {snapshots : Snapshots} {started : ApplyResult}
    (hbegin : (begin plan heeds).run.run w = (.ok (snapshots, started), w₁)) :
    ∃ state, (w₁.attempt plan snapshots started heeds).1.result.standing =
      (written (w₁.hook.isSome && (w₁.writing plan snapshots started heeds).1.toBool), state, false, false, none) := by
  have hwritten := writing_standing hbegin
  unfold attempt
  rcases hw : w₁.writing plan snapshots started heeds with ⟨e | _, tx⟩ <;> rw [hw] at hwritten
  · rw [Except.toBool, Bool.and_false]
    exact ⟨_, hwritten⟩
  · rw [Except.toBool, Bool.and_true]
    exact verify_standing hwritten

/-- Whatever happens from the writing on, the apply completes its course. -/
theorem conclude_ended (plan : Plan) (snapshots : Snapshots) (w : Workspace σ) {verified : Bool} {state : ApplyState}
    {attempted : Transaction σ × Option Error}
    (h : attempted.1.result.standing = (written verified, state, false, false, none)) :
    ∃ invalidated, (invalidated = snapshots.paths ∨ invalidated = plan.edit.touchedPaths) ∧
      Ended verified invalidated w
        ((conclude plan snapshots attempted).run w).1 ((conclude plan snapshots attempted).run w).2 := by
  obtain ⟨tx, _ | e⟩ := attempted
  · exact ⟨plan.edit.touchedPaths, Or.inr rfl, committed_completed h, rfl, rfl⟩
  · exact ⟨snapshots.paths, Or.inl rfl, abort_ended h snapshots e w⟩

/-- An apply is an error that only looked at the file system and left no lock, or a completed result: the states
come in the order of a course, the check is among them exactly when there is one and the writing went through, and
neither locks nor cached references of the touched paths are left. -/
theorem apply_course (plan : Plan) (heeds : Bool) (w : Workspace σ) :
    match (apply plan heeds).run.run w with
    | (.error _, w') => Looks w.disk w'.disk ∧ w'.cache = w.cache ∧ w.locks.GivenBack holder w'.locks
    | (.ok r, w') => ∃ snapshots started w₁, (begin plan heeds).run.run w = (.ok (snapshots, started), w₁) ∧
        r.Completed (w.hook.isSome && (w₁.writing plan snapshots started heeds).1.toBool) ∧
        w.locks.GivenBack holder w'.locks ∧ ∀ p ∈ plan.edit.touchedPaths, w'.cache.Forgets p := by
  unfold apply
  rw [run_bindExcept]
  rcases hbegin : (begin plan heeds).run.run w with ⟨e | ⟨snapshots, started⟩, w₁⟩
  · obtain ⟨⟨⟨_, hcache, _⟩, hlooks⟩, hlocks⟩ := begin_error hbegin
    exact ⟨hlooks, hcache, hlocks⟩
  · have hbegun := begin_ok hbegin
    obtain ⟨⟨_, _, hhook⟩, _⟩ := hbegun.unharmed
    obtain ⟨keys, hheld⟩ := hbegun.locks
    obtain ⟨s₁, s₂, _, hcapture, _⟩ := hbegun.captured
    obtain ⟨state, hstanding⟩ := attempt_standing hbegin
    obtain ⟨invalidated, hpaths, hended⟩ := conclude_ended plan snapshots w₁ hstanding
    refine ⟨snapshots, started, w₁, rfl, ?_, ?_, fun p hp => ?_⟩
    · rw [← hhook]
      exact hended.completed
    · have hlocks := LockTable.release_givenBack hheld
      rw [← hended.locks] at hlocks
      exact hlocks
    · show ImportCache.Forgets ((conclude plan snapshots _).run w₁).2.cache p
      rw [hended.cache]
      rcases hpaths with rfl | rfl
      · have hfound := Snapshots.captureAll_covers hcapture p (Or.inr hp)
        obtain ⟨q, hq, hpq⟩ := Snapshots.exists_path_of_find? hfound
        exact (ImportCache.invalidate_forgets w₁.cache hq).congr hpq
      · exact ImportCache.invalidate_forgets w₁.cache hp

end Workspace

end Refactor
