import Refactor.Script.Tree

/-!
# Names of a module

The places where names are bound, read and written.

* `Scope.ofModule` — all of them, in visiting order
* `Scope.readsBetween`, `Scope.isWrittenBetween` — those of one name in a range
-/

namespace Refactor.Script

/-- A place where a name is bound. -/
structure Binding where
  name : String
  offset : Nat
deriving DecidableEq, Repr

/-- A place where a name is read. -/
structure NameUse where
  name : String
  lo : Nat
  hi : Nat
  /-- the name is a property and its value at once -/
  shorthand : Bool
deriving DecidableEq, Repr

/-- Bindings, reads and writes of names. -/
structure Scope where
  bindings : List Binding
  reads : List NameUse
  writes : List (String × Nat)
deriving Repr

namespace Scope

/-- The names that a node itself binds. -/
def boundBy (n : Node) : List (String × Nat) :=
  match n.form with
  | .declarator | .catchClause => (n.kid 0).boundNames
  | .param => (n.kids.getLastD .absent).boundNames
  | .arrow => Node.boundNamesOf (n.kid 0).kids
  | .functionDecl name | .classDecl name => [(name, (n.kid 0).lo)]
  | _ => []

/-- The read of a name that a node itself is. -/
def readBy (n : Node) : Option NameUse :=
  match n.form with
  | .ident name => if n.isExpr then some ⟨name, n.lo, n.hi, false⟩ else none
  | .shorthand name => some ⟨name, n.lo, n.hi, true⟩
  | _ => none

/-- The names that a node itself writes. -/
def writtenBy (n : Node) : List (String × Nat) :=
  match n.form with
  | .assign _ => (n.kid 0).boundNames
  | .update =>
    match (n.kid 0).form with
    | .ident name => [(name, (n.kid 0).lo)]
    | _ => []
  | _ => []

/-- The names of a module. -/
def ofModule (p : Parsed) : Scope :=
  let nodes := p.module.all
  { bindings := (nodes.flatMap boundBy).map fun (name, offset) => ⟨name, offset⟩
    reads := nodes.filterMap readBy
    writes := nodes.flatMap writtenBy }

/-- The reads of a name that start in a range. -/
def readsBetween (s : Scope) (name : String) (lo hi : Nat) : List NameUse :=
  s.reads.filter fun u => u.name == name && lo ≤ u.lo && u.lo < hi

/-- Whether a name is written in a range. -/
def isWrittenBetween (s : Scope) (name : String) (lo hi : Nat) : Bool :=
  s.writes.any fun (n, at_) => n == name && lo ≤ at_ && at_ < hi

end Scope

end Refactor.Script
