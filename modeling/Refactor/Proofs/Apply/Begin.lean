import Refactor.Proofs.Apply.Looking

/-!
# Before the writing

An apply validates, locks and takes snapshots before it writes. Whether this succeeds or not, the file system
was only looked at.

* `LockTable.GivenBack` — no lock is left that was not there before
* `Workspace.begin_error` — a failed preparation leaves nothing behind
* `Workspace.begin_ok` — a finished one leaves the locks and snapshots of all touched paths
* `Workspace.begin_started` — and the states that it has entered
-/

namespace Refactor

open FileSystem

variable {σ : Type} [FileSystem σ]

/-! ## Locks -/

namespace LockTable

theorem takeAll_held (timeoutMs : Nat) : ∀ (keys : List Path) (l : LockTable), (l.takeAll timeoutMs keys).1.held = l.held
  | [], _ => rfl
  | k :: keys, l => by
    unfold takeAll
    dsimp only
    split
    · rfl
    · exact takeAll_held timeoutMs keys _

theorem acquireKeys_ok {l l' : LockTable} {holder : String} {keys locked : List Path} {timeoutMs : Nat}
    (h : l.acquireKeys holder keys timeoutMs = (l', .ok locked)) :
    l'.held = l.held.filter (·.1 != holder) ++ [(holder, keys)] := by
  have hheld := takeAll_held timeoutMs keys l
  unfold acquireKeys at h
  split at h
  · rename_i l₁ htake
    rw [htake] at hheld
    cases h
    dsimp only at hheld ⊢
    rw [hheld]
  · cases h

theorem acquireKeys_error {l l' : LockTable} {holder : String} {keys : List Path} {timeoutMs : Nat} {e : Error}
    (h : l.acquireKeys holder keys timeoutMs = (l', .error e)) : l'.held = l.held := by
  have hheld := takeAll_held timeoutMs keys l
  unfold acquireKeys at h
  split at h
  · cases h
  · rename_i l₁ e₁ htake
    rw [htake] at hheld
    cases h
    exact hheld

/-- Every lock held after was held before, and the other holders lost none. -/
def GivenBack (holder : String) (l l' : LockTable) : Prop :=
  l'.held = l.held ∨ l'.held = l.held.filter (·.1 != holder)

/-- Giving back after taking. -/
theorem release_givenBack {l l' : LockTable} {holder : String} {keys : List Path}
    (h : l'.held = l.held.filter (·.1 != holder) ++ [(holder, keys)]) : l.GivenBack holder (l'.release holder) :=
  Or.inr (by simp [release, h])

end LockTable

/-! ## Before the writing -/

namespace Workspace

/-- Everything but the locks is as it was, and the file system was only looked at. -/
def Unharmed (w w' : Workspace σ) : Prop :=
  (w'.root = w.root ∧ w'.cache = w.cache ∧ w'.hook = w.hook) ∧ Looks w.disk w'.disk

instance : IsTrans (Workspace σ) Unharmed :=
  ⟨fun _ _ _ h h' => ⟨⟨h'.1.1.trans h.1.1, h'.1.2.1.trans h.1.2.1, h'.1.2.2.trans h.1.2.2⟩, h.2.trans h'.2⟩⟩

theorem Looked.unharmed {w w' : Workspace σ} (h : Looked w w') : Unharmed w w' :=
  ⟨by rw [h.1]; exact ⟨rfl, rfl, rfl⟩, h.2⟩

theorem Looked.locks_eq {w w' : Workspace σ} (h : Looked w w') : w'.locks = w.locks := by rw [h.1]

theorem lock_unharmed (plan : Plan) : Relates (Unharmed (σ := σ)) (lock plan).run := fun _ =>
  ⟨⟨rfl, rfl, rfl⟩, .refl⟩

theorem lock_ok {plan : Plan} {w w' : Workspace σ} (h : (lock plan).run.run w = (.ok (), w')) :
    ∃ keys, w'.locks.held = w.locks.held.filter (·.1 != holder) ++ [(holder, keys)] := by
  unfold lock at h
  simp only [ExceptT.run_mk] at h
  rcases ha : w.locks.acquireKeys holder (PathSet.ofList (plan.edit.touchedPaths.map
    (LockTable.keyOf (FileSystem.canonical? w.disk)))) w.lockTimeoutMs with ⟨locks, e | keys⟩
  · rw [StateT.run, ha] at h
    cases h
  · rw [StateT.run, ha] at h
    cases h
    exact ⟨_, LockTable.acquireKeys_ok ha⟩

theorem lock_error {plan : Plan} {w w' : Workspace σ} {e : Error} (h : (lock plan).run.run w = (.error e, w')) :
    w'.locks.held = w.locks.held := by
  unfold lock at h
  simp only [ExceptT.run_mk] at h
  rcases ha : w.locks.acquireKeys holder (PathSet.ofList (plan.edit.touchedPaths.map
    (LockTable.keyOf (FileSystem.canonical? w.disk)))) w.lockTimeoutMs with ⟨locks, e | keys⟩
  · rw [StateT.run, ha] at h
    cases h
    exact LockTable.acquireKeys_error ha
  · rw [StateT.run, ha] at h
    cases h

theorem prepare_ok {plan : Plan} {heeds : Bool} {result result' : ApplyResult} {w w' : Workspace σ} {snapshots : Snapshots}
    (h : (prepare plan heeds result).run.run w = (.ok (snapshots, result'), w')) :
    result' = result.enter .snapshotting ∧ (∃ s : σ, Looks w.disk s ∧ (plan.checkTargets.run s).1 = .ok ()) ∧
    ∃ s₁ s₂ : σ, Looks w.disk s₁ ∧ (Snapshots.captureAll {} plan.edit.touchedPaths).run s₁ = ((snapshots, .ok ()), s₂) ∧
      Looks s₂ w'.disk := by
  obtain ⟨_, w₁, h₁, h⟩ := run_bind_ok h
  obtain ⟨_, w₂, h₂, h⟩ := run_bind_ok h
  obtain ⟨_, w₃, h₃, h⟩ := run_bind_ok h
  obtain ⟨⟨snaps, r⟩, w₄, h₄, h⟩ := run_bind_ok h
  have hlook₁ := (heedCancel_looked heeds w).2
  have hlook₂ := (require_looked (checkChecksums_looks plan.checksums) w₁).2
  have hlook₃ := (require_looked plan.checkTargets_looks w₂).2
  unfold Plan.checkFresh at h₂
  rw [h₁] at hlook₁
  rw [h₂] at hlook₂
  rw [h₃] at hlook₃
  cases r with
  | error e => cases h
  | ok _ =>
    obtain ⟨_, w₅, h₅, h⟩ := run_bind_ok h
    have hlook₅ := (heedCancel_looked heeds w₄).2
    rw [h₅] at hlook₅
    cases h
    refine ⟨rfl, ⟨w₂.disk, hlook₁.trans hlook₂, congrArg Prod.fst h₃⟩, w₃.disk, w₄.disk,
      hlook₁.trans (hlook₂.trans hlook₃), ?_, hlook₅⟩
    obtain ⟨hanswer, hdisk⟩ := Prod.ext_iff.mp h₄
    exact Prod.ext (Except.ok.inj hanswer) (congrArg Workspace.disk hdisk)

/-- What a finished preparation leaves: checked edits, targets as they have to be, the locks taken, and snapshots of all
touched paths. -/
structure Begun (plan : Plan) (w : Workspace σ) (snapshots : Snapshots) (w' : Workspace σ) : Prop where
  checked : plan.edit.validate = .ok ()
  targets : ∃ s : σ, Looks w.disk s ∧ (plan.checkTargets.run s).1 = .ok ()
  unharmed : Unharmed w w'
  locks : ∃ keys, w'.locks.held = w.locks.held.filter (·.1 != holder) ++ [(holder, keys)]
  captured : ∃ s₁ s₂ : σ, Looks w.disk s₁ ∧
    (Snapshots.captureAll {} plan.edit.touchedPaths).run s₁ = ((snapshots, .ok ()), s₂) ∧ Looks s₂ w'.disk

def locking (plan : Plan) : ApplyResult := (ApplyResult.enter { planId := plan.id } .validating).enter .locking

section

variable {plan : Plan} {heeds : Bool} {w w' : Workspace σ} {snapshots : Snapshots} {started : ApplyResult}

theorem begin_steps (h : (begin plan heeds).run.run w = (.ok (snapshots, started), w')) :
    ∃ w₁ w₂, (validate plan heeds).run.run w = (.ok (), w₁) ∧ (lock plan).run.run w₁ = (.ok (), w₂) ∧
      (prepare plan heeds (locking plan)).run.run w₂ = (.ok (snapshots, started), w') := by
  obtain ⟨_, w₁, hvalidate, h⟩ := run_bind_ok h
  obtain ⟨_, w₂, hlock, h⟩ := run_bind_ok h
  obtain ⟨r, w₃, hprepare, h⟩ := run_bind_ok h
  have hrun : (prepare plan heeds (locking plan)).run.run w₂ = (r, w₃) := by
    rw [ExceptT.run_lift] at hprepare
    cases hprepare
    rfl
  cases r with
  | error e => cases h
  | ok _ =>
    cases h
    exact ⟨w₁, w₂, hvalidate, hlock, hrun⟩

theorem begin_ok (h : (begin plan heeds).run.run w = (.ok (snapshots, started), w')) : Begun plan w snapshots w' := by
  obtain ⟨w₁, w₂, hvalidate, hlock, hprepare⟩ := begin_steps h
  have hlooked₁ := validate_looked plan heeds w
  have hunharmed₂ := lock_unharmed plan w₁
  have hlooked₃ := prepare_looked plan heeds (locking plan) w₂
  rw [hvalidate] at hlooked₁
  rw [hlock] at hunharmed₂
  rw [hprepare] at hlooked₃
  obtain ⟨_, ⟨s, hs, htargets⟩, s₁, s₂, hs₁, hcapture, hs₂⟩ := prepare_ok hprepare
  obtain ⟨keys, hkeys⟩ := lock_ok hlock
  have hlook₂ := hlooked₁.2.trans hunharmed₂.2
  refine ⟨?_, ⟨s, hlook₂.trans hs, htargets⟩, ?_, ⟨keys, ?_⟩, s₁, s₂, hlook₂.trans hs₁, hcapture, hs₂⟩
  · obtain ⟨_, _, _, h⟩ := run_bind_ok hvalidate
    obtain ⟨_, _, _, h⟩ := run_bind_ok h
    obtain ⟨_, _, hedit, _⟩ := run_bind_ok h
    exact congrArg Prod.fst hedit
  · exact trans_of Unharmed (trans_of Unharmed hlooked₁.unharmed hunharmed₂) hlooked₃.unharmed
  · rw [hlooked₃.locks_eq, hkeys, hlooked₁.locks_eq]

/-- The states before the writing, in the order in which they are entered. -/
theorem begin_started (h : (begin plan heeds).run.run w = (.ok (snapshots, started), w')) :
    started = (locking plan).enter .snapshotting := by
  obtain ⟨_, _, _, _, hprepare⟩ := begin_steps h
  exact (prepare_ok hprepare).1

end

/-- A failed preparation gives back the locks it took. -/
theorem begin_error {plan : Plan} {heeds : Bool} {w w' : Workspace σ} {e : Error}
    (h : (begin plan heeds).run.run w = (.error e, w')) :
    Unharmed w w' ∧ w.locks.GivenBack holder w'.locks := by
  have hlooked₁ := validate_looked plan heeds w
  unfold begin at h
  rw [run_bindExcept] at h
  rcases hvalidate : (validate plan heeds).run.run w with ⟨e₁ | _, w₁⟩ <;> rw [hvalidate] at h hlooked₁
  · cases h
    exact ⟨hlooked₁.unharmed, Or.inl (congrArg LockTable.held hlooked₁.locks_eq)⟩
  have hunharmed₂ := lock_unharmed plan w₁
  dsimp only at h
  rw [run_bindExcept] at h
  rcases hlock : (lock plan).run.run w₁ with ⟨e₂ | _, w₂⟩ <;> rw [hlock] at h hunharmed₂
  · cases h
    refine ⟨trans_of Unharmed hlooked₁.unharmed hunharmed₂, Or.inl ?_⟩
    rw [lock_error hlock, hlooked₁.locks_eq]
  have hlooked₃ := prepare_looked plan heeds (locking plan) w₂
  dsimp only at h
  rw [run_bindExcept, ExceptT.run_lift] at h
  obtain ⟨keys, hkeys⟩ := lock_ok hlock
  rcases hprepare : (prepare plan heeds (locking plan)).run.run w₂ with ⟨e₃ | _, w₃⟩ <;> unfold locking at hprepare hlooked₃
  · simp only [StateT.run_map, hprepare] at h
    rw [hprepare] at hlooked₃
    cases h
    refine ⟨trans_of Unharmed (trans_of Unharmed hlooked₁.unharmed hunharmed₂) hlooked₃.unharmed, ?_⟩
    exact LockTable.release_givenBack (by rw [hlooked₃.locks_eq, hkeys, hlooked₁.locks_eq])
  · simp only [StateT.run_map, hprepare] at h
    cases h

end Workspace

end Refactor
