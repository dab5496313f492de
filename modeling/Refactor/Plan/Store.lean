import Refactor.Plan.Basic

/-!
# Stored plans

Plans wait in a store to be applied, each at most once: a plan that was taken leaves a mark, so that a
second attempt is told apart from an unknown plan. Plans and marks expire, and the oldest ones give way
when there are too many.

* `PlanStore` — plans and marks, oldest first
* `PlanStore.insert`, `PlanStore.take`, `PlanStore.markConsumed` — the operations
-/

namespace Refactor

/-- What the store knows of a plan: the plan itself, or that it was applied. -/
inductive StoredPlan (α : Type) where
  | pending (plan : α)
  | consumed

/-- An entry with the moment of its storing. -/
structure StoreEntry (α : Type) where
  id : PlanId
  state : StoredPlan α
  storedAt : Nat

/-- Entries in the order of their storing. Moments and the time to live are in milliseconds. -/
structure PlanStore (α : Type) where
  timeToLive : Nat := 3600000
  capacity : Nat := 256
  entries : List (StoreEntry α) := []

namespace PlanStore

variable {α : Type}

/-- An empty store; it holds at least one plan. -/
def withLimits (ttlSeconds capacity : Nat) : PlanStore α :=
  { timeToLive := 1000 * ttlSeconds, capacity := max capacity 1 }

def isExpired (s : PlanStore α) (now : Nat) (e : StoreEntry α) : Bool := s.timeToLive ≤ now - e.storedAt

def dropExpired (s : PlanStore α) (now : Nat) : PlanStore α :=
  { s with entries := s.entries.filter fun e => !s.isExpired now e }

/-- Stores a state under an id as the newest entry; the oldest ones give way. -/
def put (s : PlanStore α) (now : Nat) (id : PlanId) (state : StoredPlan α) : PlanStore α :=
  let s := s.dropExpired now
  let entries := s.entries.filter (·.id != id) ++ [⟨id, state, now⟩]
  { s with entries := entries.drop (entries.length - s.capacity) }

def insert (s : PlanStore α) (now : Nat) (id : PlanId) (plan : α) : PlanStore α := s.put now id (.pending plan)

/-- Notes that a plan was applied without being stored. -/
def markConsumed (s : PlanStore α) (now : Nat) (id : PlanId) : PlanStore α := s.put now id .consumed

def find? (s : PlanStore α) (id : PlanId) : Option (StoreEntry α) := s.entries.find? (·.id == id)

/-- The error of a second apply. -/
def alreadyApplied (id : PlanId) : Error := .invalidRequest ("Plan " ++ id.text ++ " has already been applied")

/-- Takes a pending plan out, leaving a mark in its place. -/
def take (s : PlanStore α) (now : Nat) (id : PlanId) : PlanStore α × Except Error α :=
  let s := s.dropExpired now
  match s.find? id with
  | none => (s, .error (.notFound ("plan " ++ id.text) none))
  | some e =>
    let marked := { s with entries := s.entries.map fun e => if e.id == id then { e with state := .consumed } else e }
    match e.state with
    | .pending plan => (marked, .ok plan)
    | .consumed => (marked, .error (alreadyApplied id))

def isConsumed (s : PlanStore α) (now : Nat) (id : PlanId) : Bool :=
  match s.find? id with
  | some e =>
    match e.state with
    | .consumed => !s.isExpired now e
    | .pending _ => false
  | none => false

/-- The number of plans that wait. -/
def pendingCount (s : PlanStore α) (now : Nat) : Nat :=
  (s.entries.filter fun e => match e.state with
    | .pending _ => !s.isExpired now e
    | .consumed => false).length

end PlanStore

end Refactor
