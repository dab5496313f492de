import Refactor.Disk.System

/-!
# Snapshots

What paths held before an apply touched them.

* `Snapshots.captureAll` — records paths; the first record of a path stays
* `Snapshots.find?` — the record of a path
-/

namespace Refactor

/-- What a path held. -/
inductive SnapshotState where
  | content (b : ByteArray)
  | absent
deriving DecidableEq

/-- Records in the order of their making. -/
structure Snapshots where
  entries : List (Path × SnapshotState) := []

namespace Snapshots

def find? (s : Snapshots) (p : Path) : Option SnapshotState := s.entries.lookup p

def paths (s : Snapshots) : List Path := s.entries.map (·.1)

section Capture

variable {σ : Type} [FileSystem σ]

/-- The state of a path now. -/
def stateOf (p : Path) : StateM σ (Except Error SnapshotState) := do
  match ← FileSystem.read p with
  | .ok b => return .ok (.content b)
  | .error e => return if e.isNotFound then .ok .absent else .error (e.at_ p)

/-- Records the state of paths; what is recorded before a failure stays. -/
def captureAll (s : Snapshots) : List Path → StateM σ (Snapshots × Except Error Unit)
  | [] => return (s, .ok ())
  | p :: ps => do
    if (s.find? p).isSome then s.captureAll ps
    else match ← stateOf p with
      | .ok state => captureAll ⟨s.entries ++ [(p, state)]⟩ ps
      | .error e => return (s, .error e)

end Capture

/-- Records the state of paths on a disk. -/
def capture (s : Snapshots) (d : Disk) (ps : List Path) : Snapshots × Except Error Unit := ((s.captureAll ps).run d).1

end Snapshots

end Refactor
