import Refactor.Proofs.Apply.Settled

/-!
# What a rolled back apply tells

However many calls fail while an apply writes and puts back: when it answers that it was rolled back, it tells of every
file that is not as it was. A failure has the bytes that the file had. The only file without a failure of its own is one
at the target of a move whose source could not be put back; the failure of the source has the bytes, and names the target
when a file is there.

* `Workspace.Told` — how a result tells of a path
* `Workspace.apply_tells` — every path of the plan whose file changed is told of
-/

set_option linter.unusedSectionVars false

namespace Refactor

open Tree (placeOf)
open FileSystem (Looks)

variable {σ : Type} [Fallible σ] {t : Tree}

/-! ## Before the writing -/

namespace Plan

theorem sourceDirs_looks (plan : Plan) (root : Path) : Relates (Looks (σ := σ)) (plan.sourceDirs root) := by
  have hdir : ∀ c : SourceDir, Relates (Looks (σ := σ)) (do
      return (← FileSystem.isDir c.path) && !(c.path == root)) :=
    fun c => (FileSystem.isDir_looks c.path).bind fun _ => Relates.pure _
  exact Relates.filterM hdir _

theorem looks_runs {m : Checking σ Unit} (h : Relates Looks m.run) :
    Runs (fun s : σ => Fallible.tree s = t) m (fun _ s => Fallible.tree s = t) (fun _ => True) :=
  (Runs.of_relates h fun _ _ hs hlooks => (Fallible.looks hlooks).trans hs).conseq (fun _ h => h) (fun _ _ h => h)
    fun _ _ => trivial

theorem present_runs (p : Path) : Runs (fun s : σ => Fallible.tree s = t) (checkPresent p)
    (fun _ s => Fallible.tree s = t ∧ t.exists? p = true) (fun _ => True) := by
  unfold checkPresent
  refine Runs.bind (Q := fun there s => Fallible.tree s = t ∧ (there = true → t.exists? p = true)) ?_ fun there => ?_
  · rintro s rfl
    exact ⟨Fallible.looks (FileSystem.exists?_looks p s), Fallible.exists?_sound p s⟩
  · cases there
    · exact Runs.throw _ fun _ _ => trivial
    · exact Runs.pure _ fun _ h => ⟨h.1, h.2 rfl⟩

/-- When the check of the targets passes, the sources of all moves are there. -/
theorem sources_runs (p : Plan) : Runs (fun s : σ => Fallible.tree s = t) p.checkTargets
    (fun _ s => Fallible.tree s = t ∧ ∀ op ∈ p.edit.operations, ∀ a b o, op = .move a b o → t.exists? a = true)
    (fun _ => True) := by
  refine (looks_runs (Relates.forMExcept _ fun q _ => checkPresent_looks q)).bind fun _ => ?_
  refine Runs.forM_all _ fun op _ => ?_
  cases op with
  | move a b o =>
    refine (present_runs a).bind fun _ => ?_
    by_cases ha : t.exists? a = true
    · refine (looks_runs (checkFree_looks b o)).conseq (fun _ h => h.1) (fun _ _ h => ⟨h, ?_⟩) fun _ h => h
      rintro _ _ _ ⟨⟩
      exact ha
    · exact fun _ h => absurd h.2 ha
  | create p c o =>
    exact (looks_runs (checkFree_looks p o)).conseq (fun _ h => h) (fun _ _ h => ⟨h, by simp⟩) fun _ h => h
  | delete p =>
    exact (looks_runs (checkPresent_looks p)).conseq (fun _ h => h) (fun _ _ h => ⟨h, by simp⟩) fun _ h => h

end Plan

theorem Snapshots.stateOf_right {p : Path} {s s' : σ} {state : SnapshotState}
    (h : (stateOf p).run s = (.ok state, s')) : state.Of (Fallible.tree s) p ∧ Fallible.tree s' = Fallible.tree s := by
  have hlook := Fallible.looks (stateOf_looks p s)
  rw [h] at hlook
  refine ⟨?_, hlook⟩
  unfold stateOf at h
  rw [StateT.run_bind] at h
  have hread := Fallible.read_sound p s
  have hmissing := Fallible.read_missing p s
  generalize (FileSystem.read p).run s = out at h hread hmissing
  obtain ⟨e | b, s₁⟩ := out
  · change (if e.isNotFound then Except.ok SnapshotState.absent else .error (e.at_ p), s₁) = (.ok state, s') at h
    split at h
    · rename_i hnotFound
      cases h
      exact hmissing e rfl hnotFound
    · cases h
  · cases h
    exact hread b rfl

namespace Workspace

variable {plan : Plan} {w w₁ w' : Workspace σ} {snapshots : Snapshots}

theorem Begun.same_tree (h : Begun plan w snapshots w₁) : Fallible.tree w₁.disk = Fallible.tree w.disk :=
  Fallible.looks h.unharmed.2

/-- The record of a path tells what the tree held there. -/
theorem Begun.record (h : Begun plan w snapshots w₁) (hstraight : plan.edit.Straight) {p : Path}
    (hp : plan.edit.Touches p) : p.Straight ∧ ∃ state, snapshots.find? p = some state ∧
      state.Of (Fallible.tree w.disk) p := by
  have hpaths : ∀ q, q ∈ plan.edit.touchedPaths → q.Straight := fun q hq => by
    obtain ⟨c, hc, hmem⟩ := WorkspaceEdit.exists_mem_writes.mpr (WorkspaceEdit.mem_touchedPaths hq)
    exact hstraight.paths hc hmem
  obtain ⟨c, hc, hmem⟩ := hp
  have hps := hstraight.paths hc hmem
  obtain ⟨s₁, s₂, hs₁, hcapture, _⟩ := h.captured
  obtain ⟨q, hq, hqp⟩ := WorkspaceEdit.exists_touched (WorkspaceEdit.exists_mem_writes.mp ⟨c, hc, hmem⟩)
  obtain rfl : q = p := ((hpaths q hq).beq_iff hps).mp ((Path.beq_iff q p).mpr hqp)
  obtain ⟨state, hstate⟩ := Option.isSome_iff_exists.mp (Snapshots.captureAll_covers hcapture q (Or.inr hq))
  obtain ⟨q', hq', hpq'⟩ := Snapshots.exists_entry_of_find? hstate
  have hright := Snapshots.captureAll_all (I := fun s => Fallible.tree s = Fallible.tree w.disk)
    (fun _ _ _ _ hs hrun => ⟨hs ▸ (Snapshots.stateOf_right hrun).1, (Snapshots.stateOf_right hrun).2.trans hs⟩)
    (Fallible.looks hs₁) hcapture _ hq'
  rcases hright with hmem | ⟨hmem, hof⟩
  · simp at hmem
  · obtain rfl : q = q' := (hps.beq_iff (hpaths q' hmem)).mp ((Path.beq_iff q q').mpr hpq')
    exact ⟨hps, state, hstate, hof⟩

theorem Begun.know (h : Begun plan w snapshots w₁) (hstraight : plan.edit.Straight)
    (ht : (Fallible.tree w.disk).WellFormed) {p : Path} (hp : plan.edit.Touches p) :
    snapshots.Know (Fallible.tree w.disk) p := by
  obtain ⟨hps, state, hfind, hof⟩ := h.record hstraight hp
  exact ⟨state, hfind, hof.bytes_eq.trans (hps.content? ht)⟩

/-- The source of a move is a file. -/
theorem Begun.source (h : Begun plan w snapshots w₁) (hstraight : plan.edit.Straight)
    (ht : (Fallible.tree w.disk).WellFormed) {a b : Path} {o : Bool} (hmove : .move a b o ∈ plan.edit.operations) :
    ∃ c, (Fallible.tree w.disk).content? a = some c := by
  have htouches : plan.edit.Touches a :=
    WorkspaceEdit.exists_mem_writes.mpr (Or.inr ⟨_, hmove, by simp [FileOperation.paths]⟩)
  obtain ⟨hps, state, _, hof⟩ := h.record hstraight htouches
  cases state with
  | content c => exact ⟨c, hof.bytes_eq.symm⟩
  | absent =>
    obtain ⟨s, hs, htargets⟩ := h.targets
    have hrun := Plan.sources_runs plan s (Fallible.looks hs)
    change After _ _ (plan.checkTargets.run s) at hrun
    generalize plan.checkTargets.run s = out at htargets hrun
    obtain ⟨r, s'⟩ := out
    dsimp only at htargets
    subst htargets
    have hthere := hrun.2 _ hmove a b o rfl
    obtain ⟨place, hplace, _, rfl⟩ := hps
    rw [Tree.exists?_names_iff ht hplace] at hthere
    exact absurd ((Tree.read_notFound_iff ht hplace).mp hof).1 hthere

/-! ## Writing and check -/

/-- The check leaves a tree of files and directories. -/
def TidyHook (w : Workspace σ) : Prop := ∀ hook ∈ w.hook, ∀ s, (Fallible.tree s).WellFormed →
  (Fallible.tree ((hook w.root).run s).2).WellFormed

theorem writing_traced (h : Begun plan w snapshots w₁) (hstraight : plan.edit.Straight)
    (ht : (Fallible.tree w.disk).WellFormed) (started : ApplyResult) (heeds : Bool) :
    After (fun _ => Transaction.Traced plan.edit (Fallible.tree w.disk) [])
      (Transaction.Stopped plan.edit (Fallible.tree w.disk)) (w₁.writing plan snapshots started heeds) := by
  have htree : Fallible.tree ((plan.sourceDirs w₁.root).run w₁.disk).2 = Fallible.tree w.disk :=
    (Fallible.looks (plan.sourceDirs_looks w₁.root w₁.disk)).trans h.same_tree
  unfold writing
  refine Transaction.writeAll_traced hstraight (WorkspaceEdit.validate_checked h.checked) _ _ _ _ ⟨?_, rfl, ?_, ?_⟩
  · show (Fallible.tree ((plan.sourceDirs w₁.root).run w₁.disk).2).WellFormed
    rw [htree]
    exact ht
  · intro q _
    show (Fallible.tree ((plan.sourceDirs w₁.root).run w₁.disk).2).fileAt q = _
    rw [htree]
  · intro a b hab
    show ((Fallible.tree ((plan.sourceDirs w₁.root).run w₁.disk).2).fileAt (placeOf a)).isSome = true
    rw [htree]
    obtain ⟨o, hmove⟩ := WorkspaceEdit.move_mem_writes.mp hab
    obtain ⟨c, hc⟩ := h.source hstraight ht hmove
    rw [(hstraight.operations _ hmove a (by simp [FileOperation.paths])).content? ht] at hc
    rw [hc]
    rfl

theorem verify_keeps {w : Workspace σ} (hhook : w.TidyHook) {tx : Transaction σ} (htx : tx.tree.WellFormed) :
    (w.verify tx).1.tree.WellFormed ∧ (w.verify tx).1.log = tx.log := by
  unfold verify
  split
  · exact ⟨htx, rfl⟩
  · rename_i hook heq
    have hkeeps : ∀ tx' : Transaction σ, tx'.tree.WellFormed →
        ((Transaction.ask (hook w.root)).run tx').2.tree.WellFormed ∧
          ((Transaction.ask (hook w.root)).run tx').2.log = tx'.log :=
      fun tx' htx' => ⟨hhook hook heq tx'.disk htx', rfl⟩
    have hverified := hkeeps { tx with result := tx.result.enter .verifying } htx
    dsimp only
    generalize (Transaction.ask (hook w.root)).run _ = out at hverified ⊢
    obtain ⟨e | v, tx'⟩ := out
    · exact hverified
    · dsimp only
      split <;> exact hverified

/-- Whatever is put back can be put back. -/
theorem attempt_abortable (h : Begun plan w snapshots w₁) (hstraight : plan.edit.Straight)
    (ht : (Fallible.tree w.disk).WellFormed) (hhook : w.TidyHook) (started : ApplyResult) (heeds : Bool) :
    Transaction.Abortable plan.edit (Fallible.tree w.disk) (w₁.attempt plan snapshots started heeds).1 := by
  have hwriting := writing_traced h hstraight ht started heeds
  have hhook₁ : w₁.TidyHook := by
    obtain ⟨hroot, _, hsame⟩ := h.unharmed.1
    unfold TidyHook
    rw [hsame, hroot]
    exact hhook
  unfold attempt
  generalize w₁.writing plan snapshots started heeds = out at hwriting ⊢
  obtain ⟨e | _, tx⟩ := out
  · exact Transaction.Stopped.abortable hstraight hwriting
  · obtain ⟨hwf, hlog⟩ := verify_keeps hhook₁ hwriting.wellFormed
    refine Transaction.abortable_of_log hwf (hlog.trans ?_)
    simpa using hwriting.log

/-! ## Results -/

/-- How a result tells of a path: a failure has the path and the bytes that were there before; or a file was moved to the
path from a source that could not be put back, and the failure of the source has the bytes of the source, and the path
when a file is there, unless the file system does not say so. -/
inductive Told (σ : Type) [Fallible σ] (edit : WorkspaceEdit) (t t' : Tree) (failures : List RestoreFailure) (p : Path) :
    Prop where
  | reported (f : RestoreFailure) (mem : f ∈ failures) (path : f.path = p) (prior : f.priorContent = t.content? p)
  | kept (source : Path) (overwrite : Bool) (f : RestoreFailure) (bytes : ByteArray)
    (move : .move source p overwrite ∈ edit.operations) (mem : f ∈ failures) (path : f.path = source)
    (content : t.content? source = some bytes) (prior : f.priorContent = some bytes)
    (preserved : Fallible.Candid σ p → (t'.content? p).isSome = true → f.preservedAt = some p)

/-- What is put back stands on the disk, and its failures are those of the result. -/
theorem abort_run (tx : Transaction σ) (snapshots : Snapshots) (e : Error) (w : Workspace σ) :
    ((abort tx snapshots e).run w).1.restoreFailures =
        ((Transaction.putBack snapshots).run (tx.failed e).rollingBack).2.result.restoreFailures ∧
      Fallible.tree ((abort tx snapshots e).run w).2.disk =
        ((Transaction.putBack snapshots).run (tx.failed e).rollingBack).2.tree := by
  unfold abort
  rw [Transaction.rollback_run]
  generalize ((Transaction.putBack snapshots).run (tx.failed e).rollingBack).2 = tx'
  exact ⟨rfl, rfl⟩

/-- After an apply that answers that it was rolled back, whatever calls have failed, every path of the plan at which the
file differs from before is told of. -/
theorem apply_tells {heeds : Bool} {r : ApplyResult} (hstraight : plan.edit.Straight) (ht : (Fallible.tree w.disk).WellFormed)
    (hhook : w.TidyHook) (hrun : (apply plan heeds).run.run w = (.ok r, w')) (hrolled : r.rolledBack = true) :
    ∀ p ∈ plan.edit.touchedPaths, (Fallible.tree w'.disk).content? p ≠ (Fallible.tree w.disk).content? p →
      Told σ plan.edit (Fallible.tree w.disk) (Fallible.tree w'.disk) r.restoreFailures p := by
  unfold apply at hrun
  obtain ⟨⟨snapshots, started⟩, w₁, hbegin, hrun⟩ := run_bind_ok hrun
  have hbegun := begin_ok hbegin
  have habortable := attempt_abortable hbegun hstraight ht hhook started heeds
  obtain ⟨state, hstanding⟩ := attempt_standing hbegin
  have hconclude : (conclude plan snapshots (w₁.attempt plan snapshots started heeds)).run w₁ = (r, w') := by
    cases hrun
    rfl
  generalize w₁.attempt plan snapshots started heeds = attempted at habortable hstanding hconclude
  obtain ⟨tx, _ | e⟩ := attempted
  · -- a committed apply does not say that it was rolled back
    simp only [ApplyResult.standing, Prod.mk.injEq] at hstanding
    cases hconclude
    cases hstanding.2.2.2.1.symm.trans hrolled
  obtain ⟨hfailures, htree⟩ := abort_run tx snapshots e w₁
  have hconclude : (abort tx snapshots e).run w₁ = (r, w') := hconclude
  obtain ⟨hwf, hsettled⟩ := Transaction.putBack_settles hstraight (fun p hp => hbegun.know hstraight ht hp)
    (tx.failed e).rollingBack ⟨habortable.wellFormed, habortable.log, habortable.files⟩
  rw [hconclude] at hfailures htree
  generalize ((Transaction.putBack snapshots).run (tx.failed e).rollingBack).2 = tx' at hfailures htree hwf hsettled
  rw [hfailures, htree]
  intro p hp hdiffers
  have htouches := WorkspaceEdit.exists_mem_writes.mpr (WorkspaceEdit.mem_touchedPaths hp)
  obtain ⟨hps, _⟩ := hbegun.record hstraight htouches
  obtain hback | ⟨f, hf, hpath, hprior⟩ | ⟨source, o, hmove, f, hf, hpath, hprior, hpreserved⟩ := hsettled p htouches
  · refine absurd ?_ hdiffers
    rw [hps.content? hwf, hps.content? ht, hback]
  · exact .reported f hf hpath (hprior.trans (hps.content? ht).symm)
  · obtain ⟨c, hc⟩ := hbegun.source hstraight ht hmove
    have hsource : source.Straight := hstraight.operations _ hmove source (by simp [FileOperation.paths])
    refine .kept source o f c hmove hf hpath hc ?_ fun hcandid hfile => hpreserved hcandid ?_
    · rw [hprior, ← hsource.content? ht, hc]
    · rwa [← hps.content? hwf]

end Workspace

/-! ## Paths without a failure of their own -/

namespace Workspace

/-- A workspace of what stands in a directory, on a disk with a mishap. -/
def ofEntries (entries : List (Place × Entry)) (mishap : Mishap) (hook : Option (Hook Disk)) : Workspace Disk where
  root := ⟨"/w"⟩
  disk := { tree := ⟨(["w"], .dir) :: entries⟩, mishap }
  hook

def failingHook : Hook Disk := fun _ => pure (.error (.cancelled "check"))

/-- The plan of moves that may overwrite. -/
def moving (moves : List (Path × Path)) : Plan :=
  .ofEdit ⟨1⟩ (.batchMove (moves.map fun m => ⟨m.1, m.2⟩) true) { operations := moves.map fun m => .move m.1 m.2 true }

/-- An apply that says that it was rolled back, with a result and a tree that pass a test. -/
def rollsBack (w : Workspace Disk) (plan : Plan) (test : ApplyResult → Tree → Bool) : Bool :=
  match (apply plan false).run.run w with
  | (.ok r, w') => r.rolledBack && test r w'.disk.tree
  | _ => false

theorem exists_of_rollsBack {w : Workspace Disk} {plan : Plan} {test : ApplyResult → Tree → Bool}
    (h : rollsBack w plan test = true) : ∃ r w', (apply plan false).run.run w = (.ok r, w') ∧ r.rolledBack = true ∧
      test r w'.disk.tree = true := by
  unfold rollsBack at h
  split at h
  · rename_i r w' hrun
    rw [Bool.and_eq_true] at h
    exact ⟨r, w', hrun, h⟩
  · cases h

/-- An apply says that it was rolled back, and a path of the plan is not as it was, but no failure has it. -/
def Hides (w : Workspace Disk) (plan : Plan) : Prop :=
  ∃ r w', (apply plan false).run.run w = (.ok r, w') ∧ r.rolledBack = true ∧
    ∃ p ∈ plan.edit.touchedPaths, w'.disk.tree.read p ≠ w.disk.tree.read p ∧
      ∀ f ∈ r.restoreFailures, (f.path == p) = false

theorem hides_of_rollsBack {w : Workspace Disk} {plan : Plan} (h : rollsBack w plan (fun r t =>
    plan.edit.touchedPaths.any fun p => decide (t.read p ≠ w.disk.tree.read p) &&
      r.restoreFailures.all fun f => !(f.path == p)) = true) : Hides w plan := by
  obtain ⟨r, w', hrun, hrolled, htest⟩ := exists_of_rollsBack h
  refine ⟨r, w', hrun, hrolled, ?_⟩
  obtain ⟨p, hp, hhidden⟩ := List.any_eq_true.mp htest
  rw [Bool.and_eq_true, decide_eq_true_eq, List.all_eq_true] at hhidden
  exact ⟨p, hp, hhidden.1, fun f hf => by simpa using hhidden.2 f hf⟩

/-- A workspace of one file, which cannot be written at its path, and a check that fails. -/
def unmovable : Workspace Disk :=
  ofEntries [(["w", "a"], .file (Bytes.ofText "1"))] (.refuse ⟨"/w/a"⟩) failingHook

def movingAway : Plan := moving [(⟨"/w/a"⟩, ⟨"/w/b"⟩)]

def twoFiles : List (Place × Entry) := [(["w", "a"], .file (Bytes.ofText "1")), (["w", "b"], .file (Bytes.ofText "2"))]

/-- A path may change without a failure of its own in four ways. The target of a move stays when its source cannot be
put back. A path where nothing was stays a directory that was made for another target. With two ways to write one path,
what is put back under one is removed under the other. And a link leads nowhere when what it led to cannot be put
back. -/
theorem apply_hides :
    Hides unmovable movingAway ∧
    Hides (ofEntries (twoFiles ++ [(["w", "e"], .file (Bytes.ofText "3"))]) (.refuse ⟨"a"⟩) none)
      (moving [(⟨"/w/a"⟩, ⟨"/w/d/x"⟩), (⟨"/w/b"⟩, ⟨"/w/c/a"⟩), (⟨"/w/e"⟩, ⟨"/w/d"⟩)]) ∧
    Hides (ofEntries twoFiles .none failingHook)
      (moving [(⟨"/w/b"⟩, ⟨"/w/x/../a"⟩), (⟨"/w/a"⟩, ⟨"/w/c"⟩)]) ∧
    Hides (ofEntries (twoFiles ++ [(["w", "l"], .link "a")]) (.refuse ⟨"a"⟩) none)
      (moving [(⟨"/w/a"⟩, ⟨"/w/c"⟩), (⟨"/w/b"⟩, ⟨"/w/c/g"⟩), (⟨"/w/l"⟩, ⟨"/w/m"⟩)]) :=
  ⟨hides_of_rollsBack (by decide +kernel), hides_of_rollsBack (by decide +kernel),
    hides_of_rollsBack (by decide +kernel), hides_of_rollsBack (by decide +kernel)⟩

theorem movingAway_straight : movingAway.edit.Straight := by
  have ha : Path.Straight ⟨"/w/a"⟩ := ⟨["w", "a"], by decide, by decide, congrArg Path.mk (by decide +kernel)⟩
  have hb : Path.Straight ⟨"/w/b"⟩ := ⟨["w", "b"], by decide, by decide, congrArg Path.mk (by decide +kernel)⟩
  refine ⟨fun q hq => (by cases hq), fun op hop q hq => ?_⟩
  obtain rfl : op = .move ⟨"/w/a"⟩ ⟨"/w/b"⟩ true := List.mem_singleton.mp hop
  rcases List.mem_cons.mp hq with rfl | hq
  · exact ha
  · rw [List.mem_singleton.mp hq]
    exact hb

/-- The file stays where it was moved to, and the failure tells of this path. -/
theorem apply_tells_target : ∃ r w', (apply movingAway false).run.run unmovable = (.ok r, w') ∧ r.rolledBack = true ∧
    ∃ p ∈ movingAway.edit.touchedPaths, w'.disk.tree.content? p ≠ unmovable.disk.tree.content? p ∧
      Told Disk movingAway.edit unmovable.disk.tree w'.disk.tree r.restoreFailures p := by
  have htest : rollsBack unmovable movingAway (fun _ t => movingAway.edit.touchedPaths.any fun p =>
      decide (t.content? p ≠ unmovable.disk.tree.content? p)) = true := by decide +kernel
  obtain ⟨r, w', hrun, hrolled, hdiffers⟩ := exists_of_rollsBack htest
  obtain ⟨p, hp, hdiffers⟩ := List.any_eq_true.mp hdiffers
  rw [decide_eq_true_eq] at hdiffers
  refine ⟨r, w', hrun, hrolled, p, hp, hdiffers, ?_⟩
  refine apply_tells movingAway_straight (.ofEntries (by decide +kernel) (by decide +kernel)) ?_ hrun hrolled p hp
    hdiffers
  rintro _ ⟨⟩ _ h
  exact h

end Workspace

end Refactor
