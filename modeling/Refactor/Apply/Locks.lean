import Refactor.Disk.Basic
import Refactor.Path.Map

/-!
# Locks

An apply locks every path it touches, in sorted order. A path is locked under its canonical form, so
that two ways to write it, or two links to it, are one lock.

* `LockTable.keyOf` — the canonical form of a path that may be free
* `LockTable.acquireKeys`, `LockTable.release` — taking and giving back
-/

namespace Refactor

/-- The known locks, and those held by each holder. -/
structure LockTable where
  known : PathSet := []
  held : List (String × List Path) := []

namespace LockTable

/-- The nearest ancestor that is there with its links resolved, and the names below it again. -/
def keyFrom (canonical? : Path → Except SystemFault Path) (whole : Path) : Nat → Path → List String → Path
  | 0, _, _ => whole
  | n + 1, p, tail =>
    match canonical? p with
    | .ok c => tail.foldl (fun q name => q.join ⟨name⟩) c
    | .error _ =>
      match p.parent?, p.fileName? with
      | some dir, some name => keyFrom canonical? whole n dir (name :: tail)
      | _, _ => whole

/-- The canonical form of a path, given that of the paths that are there. -/
def keyOf (canonical? : Path → Except SystemFault Path) (p : Path) : Path :=
  keyFrom canonical? p (p.components.length + 1) p []

/-- Whether someone holds a key. -/
def isHeld (l : LockTable) (key : Path) : Bool := l.held.any fun (_, ks) => ks.contains key

/-- Whether the lock of a path is held. -/
def isLocked (l : LockTable) (t : Tree) (p : Path) : Bool := l.isHeld (keyOf t.canonical? p)

/-- Makes the lock of a path known. -/
def touch (l : LockTable) (t : Tree) (p : Path) : LockTable :=
  { l with known := PathSet.insert (keyOf t.canonical? p) l.known }

/-- Takes keys one after the other; the first one that is held ends it. -/
def takeAll (l : LockTable) (timeoutMs : Nat) : List Path → LockTable × Except Error Unit
  | [] => (l, .ok ())
  | k :: ks =>
    let l := { l with known := PathSet.insert k l.known }
    if l.isHeld k then (l, .error (.busy k.raw timeoutMs)) else takeAll l timeoutMs ks

/-- Locks keys for a holder, all or none. -/
def acquireKeys (l : LockTable) (holder : String) (keys : List Path) (timeoutMs : Nat) :
    LockTable × Except Error (List Path) :=
  match l.takeAll timeoutMs keys with
  | (l, .ok ()) => ({ l with held := l.held.filter (·.1 != holder) ++ [(holder, keys)] }, .ok keys)
  | (l, .error e) => (l, .error e)

/-- Locks paths for a holder, all or none. The locked keys are answered in the order of locking. -/
def acquire (l : LockTable) (t : Tree) (holder : String) (paths : List Path) (timeoutMs : Nat) :
    LockTable × Except Error (List Path) :=
  l.acquireKeys holder (PathSet.ofList (paths.map (keyOf t.canonical?))) timeoutMs

/-- Gives back the locks of a holder. -/
def release (l : LockTable) (holder : String) : LockTable := { l with held := l.held.filter (·.1 != holder) }

def holds (l : LockTable) (holder : String) : Bool := l.held.any (·.1 == holder)

/-- Forgets the locks that nobody holds. -/
def cleanup (l : LockTable) : LockTable := { l with known := l.known.filter l.isHeld }

def count (l : LockTable) : Nat := l.known.length

end LockTable

end Refactor
