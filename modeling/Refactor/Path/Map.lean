import Refactor.Path.Basic

/-!
# Maps and sets of paths

Lists sorted by the order of paths, each path once.

* `PathMap` — values by path
* `PathSet` — paths alone
-/

namespace Refactor

/-- Values by path, sorted by path. -/
abbrev PathMap (α : Type) := List (Path × α)

namespace PathMap

variable {α : Type}

/-- Sets the value of a path. A path already present keeps its writing. -/
def insert (p : Path) (a : α) : PathMap α → PathMap α
  | [] => [(p, a)]
  | (q, b) :: rest =>
    match p.cmp q with
    | .lt => (p, a) :: (q, b) :: rest
    | .eq => (q, a) :: rest
    | .gt => (q, b) :: insert p a rest

def find? (m : PathMap α) (p : Path) : Option α := (m.lookup p)

def contains (m : PathMap α) (p : Path) : Bool := m.any (·.1 == p)

def erase (m : PathMap α) (p : Path) : PathMap α := m.filter fun (q, _) => !(q == p)

/-- Changes the value of a path, starting from `d` when there is none. -/
def alter (m : PathMap α) (p : Path) (d : α) (f : α → α) : PathMap α :=
  insert p (f ((find? m p).getD d)) m

def keys (m : PathMap α) : List Path := m.map (·.1)

/-- The map with these entries, the last value of a path winning. -/
def ofList (entries : List (Path × α)) : PathMap α := entries.foldl (fun m (p, a) => insert p a m) []

end PathMap

/-- Paths, sorted, each once. -/
abbrev PathSet := List Path

namespace PathSet

def insert (p : Path) : PathSet → PathSet
  | [] => [p]
  | q :: rest =>
    match p.cmp q with
    | .lt => p :: q :: rest
    | .eq => q :: rest
    | .gt => q :: insert p rest

def ofList (ps : List Path) : PathSet := ps.foldl (fun s p => insert p s) []

/-- Adds a path, whose writing replaces that of the same path. -/
def replace (p : Path) : PathSet → PathSet
  | [] => [p]
  | q :: rest =>
    match p.cmp q with
    | .lt => p :: q :: rest
    | .eq => p :: rest
    | .gt => q :: replace p rest

/-- The set of these paths, each as it is written last. -/
def collect (ps : List Path) : PathSet := ps.foldl (fun s p => replace p s) []

/-- The members of both. -/
def union (s : PathSet) (ps : List Path) : PathSet := ps.foldl (fun s p => insert p s) s

end PathSet

end Refactor
