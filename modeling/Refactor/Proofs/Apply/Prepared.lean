import Refactor.Proofs.Apply.Stale

/-!
# Preparations that succeed

An apply that heeds no cancellation gets to the writing when every checksum of its plan is that of the file, its edit has
been checked, its targets are met, every path it touches can be recorded, and nobody holds a lock.

* `Tree.Recordable` — a path whose state a snapshot can hold
* `Plan.Prepared` — a plan that a tree is prepared for
* `Workspace.begin_succeeds` — an apply of such a plan gets to the writing
-/

set_option linter.unusedSectionVars false

namespace Refactor

open FileSystem (Looks)

variable {σ : Type} [TreeBacked σ] {t : Tree}

/-- A path whose state a snapshot can hold: there is a file, or nothing with nothing in the way. -/
def Tree.Recordable (t : Tree) (p : Path) : Prop := (∃ b, t.read p = .ok b) ∨ t.read p = .error .notFound

/-- What an apply looks for in a tree before it writes. -/
structure Plan.Prepared (t : Tree) (plan : Plan) : Prop where
  fresh : t.HasChecksums plan.checksums
  valid : plan.edit.validate = .ok ()
  met : plan.TargetsMet t
  recordable : ∀ p ∈ plan.edit.touchedPaths, t.Recordable p

/-! ## Snapshots -/

namespace Snapshots

theorem stateOf_succeeds {p : Path} (h : t.Recordable p) : Ends (fun s : σ => TreeBacked.tree s = t) (stateOf p)
    (fun r s => (∃ state, r = .ok state) ∧ TreeBacked.tree s = t) := by
  rintro s rfl
  refine ⟨?_, (TreeBacked.looks (stateOf_looks p s)).1⟩
  have hanswer := TreeBacked.read_answer p s
  unfold stateOf
  rw [StateT.run_bind]
  generalize (FileSystem.read p).run s = out at hanswer ⊢
  obtain ⟨r, s'⟩ := out
  dsimp only at hanswer
  subst hanswer
  rcases h with ⟨b, hb⟩ | hnone
  · rw [hb]
    exact ⟨_, rfl⟩
  · rw [hnone]
    exact ⟨_, rfl⟩

theorem captureAll_succeeds : ∀ (ps : List Path) (s : Snapshots), (∀ p ∈ ps, t.Recordable p) →
    Ends (fun d : σ => TreeBacked.tree d = t) (s.captureAll ps) (fun out _ => out.2 = .ok ())
  | [], _, _ => Ends.pure _ fun _ _ => rfl
  | p :: ps, s, h => by
    have hrest : ∀ q ∈ ps, t.Recordable q := fun q hq => h q (List.mem_cons_of_mem p hq)
    unfold captureAll
    split
    · exact captureAll_succeeds ps s hrest
    · refine (stateOf_succeeds (h p List.mem_cons_self)).bind fun r => ?_
      cases r with
      | ok state => exact (captureAll_succeeds ps _ hrest).conseq (fun _ hd => hd.2) fun _ _ hout => hout
      | error e => rintro _ ⟨⟨_, hok⟩, _⟩; cases hok

end Snapshots

namespace Workspace

variable {plan : Plan}

/-! ## Steps of the preparation -/

/-- A workspace over a tree. -/
def Over (t : Tree) (w : Workspace σ) : Prop := TreeBacked.tree w.disk = t

theorem Looked.over {w w' : Workspace σ} (h : Looked w w') (hw : w.Over t) : w'.Over t :=
  (TreeBacked.looks h.2).1.trans hw

/-- A check that the tree passes. -/
theorem require_succeeds {c : Checking σ Unit} {Q : Unit → σ → Prop} {E : σ → Prop} (hlooks : Relates Looks c.run)
    (hc : Runs (fun s : σ => TreeBacked.tree s = t) c Q E) (hE : ∀ s, ¬E s) {P : Workspace σ → Prop}
    (hP : ∀ w w', Looked w w' → P w → P w') (hover : ∀ w, P w → w.Over t) :
    Runs P (require c) (fun _ => P) (fun _ => False) := by
  intro w hw
  have hrun := hc w.disk (hover w hw)
  have hkept := hP w _ (require_looked hlooks w) hw
  change P { w with disk := (c.run.run w.disk).2 } at hkept
  show After _ _ ((c.run.run w.disk).1, { w with disk := (c.run.run w.disk).2 })
  generalize c.run.run w.disk = out at hrun hkept
  obtain ⟨_ | _, s⟩ := out
  · exact hE s hrun
  · exact hkept

theorem heedCancel_succeeds {P : Workspace σ → Prop} : Runs P (heedCancel false) (fun _ => P) (fun _ => False) :=
  fun _ hw => hw

theorem validate_succeeds (h : plan.Prepared t) {P : Workspace σ → Prop} (hP : ∀ w w', Looked w w' → P w → P w')
    (hover : ∀ w, P w → w.Over t) : Runs P (validate plan false) (fun _ => P) (fun _ => False) := by
  unfold validate
  refine heedCancel_succeeds.bind fun _ => ?_
  refine (require_succeeds (checkChecksums_looks _) plan.checkFresh_runs (fun _ hnot => hnot h.fresh) hP hover).bind
    fun _ => ?_
  rw [h.valid]
  refine Runs.bind (Q := fun _ => P) (fun _ hw => hw) fun _ => ?_
  exact require_succeeds plan.checkTargets_looks plan.checkTargets_runs (fun _ hnot => hnot h.met) hP hover

theorem prepare_succeeds (h : plan.Prepared t) (result : ApplyResult) :
    Runs (Over (σ := σ) t) (prepare plan false result) (fun _ _ => True) (fun _ => False) := by
  have hP : ∀ w w' : Workspace σ, Looked w w' → w.Over t → w'.Over t := fun _ _ hlooked hw => hlooked.over hw
  unfold prepare
  refine heedCancel_succeeds.bind fun _ => ?_
  refine (require_succeeds (checkChecksums_looks _) plan.checkFresh_runs (fun _ hnot => hnot h.fresh) hP
    fun _ hw => hw).bind fun _ => ?_
  refine (require_succeeds plan.checkTargets_looks plan.checkTargets_runs (fun _ hnot => hnot h.met) hP
    fun _ hw => hw).bind fun _ => ?_
  refine Runs.bind (Q := fun out _ => out.2 = .ok ()) (fun w hw => ?_) fun out => ?_
  · exact Snapshots.captureAll_succeeds plan.edit.touchedPaths {} h.recordable w.disk hw
  · obtain ⟨snapshots, e | _⟩ := out
    · intro _ hok
      cases hok
    · exact fun _ _ => trivial

theorem takeAll_succeeds (timeoutMs : Nat) : ∀ (keys : List Path) (l : LockTable), l.held = [] →
    (l.takeAll timeoutMs keys).2 = .ok ()
  | [], _, _ => rfl
  | k :: keys, l, h => by
    unfold LockTable.takeAll LockTable.isHeld
    dsimp only
    rw [h]
    exact takeAll_succeeds timeoutMs keys _ rfl

theorem lock_succeeds : Runs (fun w : Workspace σ => w.Over t ∧ w.locks.held = []) (lock plan) (fun _ => Over t)
    (fun _ => False) := by
  rintro w ⟨hover, hheld⟩
  have htaken := takeAll_succeeds w.lockTimeoutMs (PathSet.ofList (plan.edit.touchedPaths.map
    (LockTable.keyOf (FileSystem.canonical? w.disk)))) w.locks hheld
  unfold lock LockTable.acquireKeys
  rw [ExceptT.run_mk]
  show After _ _ (_, _)
  generalize w.locks.takeAll _ _ = out at htaken ⊢
  obtain ⟨l, r⟩ := out
  dsimp only at htaken
  subst htaken
  exact hover

/-! ## The preparation -/

/-- An apply gets to the writing when its plan is one that the tree is prepared for and nobody holds a lock. -/
theorem begin_succeeds {w : Workspace σ} (h : plan.Prepared (TreeBacked.tree w.disk)) (hlocks : w.locks.held = []) :
    ∃ snapshots started w', (begin plan false).run.run w = (.ok (snapshots, started), w') := by
  have hP : ∀ w' w'' : Workspace σ, Looked w' w'' →
      w'.Over (TreeBacked.tree w.disk) ∧ w'.locks.held = [] → w''.Over (TreeBacked.tree w.disk) ∧ w''.locks.held = [] :=
    fun _ _ hlooked hw => ⟨hlooked.over hw.1, by rw [hlooked.locks_eq, hw.2]⟩
  have hruns : Runs (fun w' : Workspace σ => w'.Over (TreeBacked.tree w.disk) ∧ w'.locks.held = []) (begin plan false)
      (fun _ _ => True) (fun _ => False) := by
    unfold begin
    refine (validate_succeeds h hP fun _ hw => hw.1).bind fun _ => lock_succeeds.bind fun _ => ?_
    refine Runs.bind (Q := fun out _ => ∃ begun, out = .ok begun) (fun w' hw' => ?_) fun out => ?_
    · have hprepared := prepare_succeeds h (locking plan) w' hw'
      show ∃ begun, ((prepare plan false (locking plan)).run.run w').1 = .ok begun
      generalize (prepare plan false (locking plan)).run.run w' = out at hprepared
      obtain ⟨e | begun, _⟩ := out
      · exact hprepared.elim
      · exact ⟨begun, rfl⟩
    · cases out with
      | ok begun => exact fun _ _ => trivial
      | error e => rintro _ ⟨_, hok⟩; cases hok
  have hrun := hruns w ⟨rfl, hlocks⟩
  generalize (begin plan false).run.run w = out at hrun
  obtain ⟨e | ⟨snapshots, started⟩, w'⟩ := out
  · exact hrun.elim
  · exact ⟨snapshots, started, w', rfl⟩

end Workspace

end Refactor
