import Refactor.Path.Map

/-!
# Calls that contend for locks

Calls that lock paths run side by side, a step of one after a step of another. Each works out the keys of its paths,
takes the lock of one key after the other in the order of the keys, and waits for a lock that someone else holds. Locks
are made when they are asked for first, and a cleanup forgets those that no call refers to. A lock that was forgotten
and is made again is another lock, so locks have numbers of their own.

* `LockTask` — a call with the locks that it holds
* `Contention` — the known locks and all calls
* `Contention.step` — one step of a call, or a cleanup
-/

namespace Refactor

/-- A lock that a call holds or waits for, with the key that it was made for. -/
structure Guard where
  key : Path
  lock : Nat
deriving Repr

/-- How far a call is. -/
inductive LockPhase where
  | idle
  /-- keys are worked out, one path after the other -/
  | keying (paths : List Path) (keys : PathSet)
  /-- the lock of the next key is asked for -/
  | taking (keys : List Path)
  /-- someone may hold the lock that is wanted -/
  | waiting (wanted : Guard) (keys : List Path)
  /-- the call has answered with its locks -/
  | holding
  /-- locks are given back one after the other -/
  | dropping (timedOut : Bool)
  /-- the call has answered that a lock is busy -/
  | timedOut
deriving Repr

/-- A call with the locks that it holds. -/
structure LockTask where
  phase : LockPhase := .idle
  guards : List Guard := []
deriving Repr

namespace LockTask

/-- The lock that a call waits for. -/
def wanted? (t : LockTask) : Option Guard :=
  match t.phase with
  | .waiting wanted _ => some wanted
  | _ => none

/-- The locks that a call refers to: the one that it waits for and those that it holds. -/
def refs (t : LockTask) : List Guard := t.wanted?.toList ++ t.guards

/-- Whether a call has answered that a lock is busy. -/
def hasTimedOut (t : LockTask) : Bool :=
  match t.phase with
  | .timedOut => true
  | _ => false

end LockTask

/-- A step of a call. -/
inductive LockMove where
  | start (paths : List Path)
  /-- the key of the next path is there -/
  | key
  /-- the lock of the next key is looked up or made -/
  | fetch
  /-- the lock that is waited for is free and taken -/
  | grant
  /-- the time to wait is over -/
  | expire
  /-- the locks are not needed any more -/
  | drop
  /-- one lock is given back -/
  | release
deriving Repr

/-- A step of one of the calls, or a cleanup. -/
inductive LockEvent where
  | move (task : Nat) (m : LockMove)
  | cleanup
deriving Repr

/-- The known locks, the number of the next lock, and the calls. -/
structure Contention where
  locks : PathMap Nat := []
  fresh : Nat := 0
  tasks : List LockTask
deriving Repr

namespace Contention

/-- So many calls that have not started yet. -/
def start (n : Nat) : Contention := { tasks := List.replicate n {} }

/-- How often calls refer to a lock. -/
def references (s : Contention) (lock : Nat) : Nat := (s.tasks.flatMap LockTask.refs).countP (·.lock == lock)

/-- Whether no call holds a lock. -/
def isFree (s : Contention) (lock : Nat) : Bool := s.tasks.all fun t => t.guards.all (·.lock != lock)

def put (s : Contention) (i : Nat) (t : LockTask) : Contention := { s with tasks := s.tasks.set i t }

/-- The lock of a key, made when there is none. -/
def lockFor (s : Contention) (key : Path) : Guard × Contention :=
  match s.locks.find? key with
  | some lock => (⟨key, lock⟩, s)
  | none => (⟨key, s.fresh⟩, { s with locks := s.locks.insert key s.fresh, fresh := s.fresh + 1 })

/-- Forgets the locks that only the map refers to. -/
def cleanup (s : Contention) : Contention :=
  { s with locks := s.locks.filter fun entry => 1 + s.references entry.2 > 1 }

/-- A step of the call with a number, when it can take it. -/
def advance (keyOf : Path → Path) (s : Contention) (i : Nat) (t : LockTask) : LockMove → Option Contention
  | .start paths =>
    match t.phase with
    | .idle | .timedOut => some (s.put i { t with phase := .keying paths [] })
    | _ => none
  | .key =>
    match t.phase with
    | .keying [] keys => some (s.put i { t with phase := .taking keys })
    | .keying (p :: rest) keys => some (s.put i { t with phase := .keying rest (PathSet.insert (keyOf p) keys) })
    | _ => none
  | .fetch =>
    match t.phase with
    | .taking [] => some (s.put i { t with phase := .holding })
    | .taking (key :: rest) =>
      let (wanted, s) := s.lockFor key
      some (s.put i { t with phase := .waiting wanted rest })
    | _ => none
  | .grant =>
    match t.phase with
    | .waiting wanted rest =>
      if s.isFree wanted.lock then some (s.put i { phase := .taking rest, guards := t.guards ++ [wanted] }) else none
    | _ => none
  | .expire =>
    match t.phase with
    | .waiting _ _ => some (s.put i { t with phase := .dropping true })
    | _ => none
  | .drop =>
    match t.phase with
    | .holding => some (s.put i { t with phase := .dropping false })
    | _ => none
  | .release =>
    match t.phase, t.guards with
    | .dropping timedOut, [] => some (s.put i { t with phase := if timedOut then .timedOut else .idle })
    | .dropping _, _ :: rest => some (s.put i { t with guards := rest })
    | _, _ => none

/-- One step, when it can be taken. -/
def step (keyOf : Path → Path) (s : Contention) : LockEvent → Option Contention
  | .move i m => (s.tasks[i]?).bind fun t => s.advance keyOf i t m
  | .cleanup => some s.cleanup

/-- Steps one after the other. -/
def run (keyOf : Path → Path) (s : Contention) (events : List LockEvent) : Option Contention :=
  events.foldlM (step keyOf) s

/-- A call waits for a lock that another one holds. -/
def WaitsFor (s : Contention) (i j : Nat) : Prop :=
  ∃ t ∈ s.tasks[i]?, ∃ t' ∈ s.tasks[j]?, ∃ wanted ∈ t.wanted?, ∃ g ∈ t'.guards, g.lock = wanted.lock

instance (s : Contention) (i j : Nat) : Decidable (s.WaitsFor i j) :=
  inferInstanceAs (Decidable (∃ t ∈ s.tasks[i]?, ∃ t' ∈ s.tasks[j]?, ∃ wanted ∈ t.wanted?, ∃ g ∈ t'.guards,
    g.lock = wanted.lock))

end Contention

end Refactor
