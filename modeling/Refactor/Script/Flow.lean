import Refactor.Script.Tree

/-!
# Control flow that leaves a selection

A run of statements can move into a function of its own only when nothing in it returns, yields, jumps
out or uses the `this` of its surroundings.

* `Flow` — what a walk over a selection finds
* `Flow.ofSelection` — the flow of the statements in a byte range
-/

namespace Refactor.Script

/-- What a walk finds: whether it waits, and the first reason against moving the statements. -/
structure Flow where
  isAsync : Bool := false
  blocked : Option String := none
deriving DecidableEq, Repr

namespace Flow

/-- Two walks one after the other. -/
def andThen (a b : Flow) : Flow := ⟨a.isAsync || b.isAsync, a.blocked.or b.blocked⟩

def blocking (reason : String) : Flow := { blocked := some reason }

/-- What encloses a node inside the selection. -/
structure Context where
  functions : Nat := 0
  /-- functions and classes with a `this` of their own -/
  receivers : Nat := 0
  loops : Nat := 0
  switches : Nat := 0
  labels : List String := []
deriving DecidableEq, Repr

/-- The context inside a node. -/
def Context.inside (c : Context) : Form → Context
  | .forStmt | .forIn | .forOf _ | .whileStmt | .doWhile => { c with loops := c.loops + 1 }
  | .switchStmt => { c with switches := c.switches + 1 }
  | .functionBody | .constructorMember | .getter | .setter =>
    { c with functions := c.functions + 1, receivers := c.receivers + 1, loops := 0, switches := 0 }
  | .arrow => { c with functions := c.functions + 1, loops := 0, switches := 0 }
  | .classBody => { c with receivers := c.receivers + 1 }
  | .labeled name => { c with labels := name :: c.labels }
  | _ => c

/-- What a node itself contributes. -/
def ofForm (c : Context) : Form → Flow
  | .returnStmt =>
    if c.functions == 0 then
      blocking "Selection contains 'return'; control flow cannot leave an extracted function"
    else {}
  | .breakStmt label =>
    let escapes := match label with
      | some l => !c.labels.contains l
      | none => c.loops == 0 && c.switches == 0
    if escapes then blocking "Selection contains 'break' that leaves the selection" else {}
  | .continueStmt label =>
    let escapes := match label with
      | some l => !c.labels.contains l
      | none => c.loops == 0
    if escapes then blocking "Selection contains 'continue' that leaves the selection" else {}
  | .yieldExpr =>
    if c.functions == 0 then blocking "Selection contains 'yield' and cannot leave its generator" else {}
  | .thisRef =>
    if c.receivers == 0 then blocking "Selection uses 'this' and cannot move out of its method" else {}
  | .awaitExpr => { isAsync := c.functions == 0 }
  | .forOf isAwait => { isAsync := isAwait && c.functions == 0 }
  | _ => {}

mutual

/-- The flow of a node. -/
def ofNode (c : Context) : Node → Flow
  | .mk _ form _ _ kids => (ofForm c form).andThen (ofNodes (c.inside form) kids)

/-- The flow of nodes one after the other. -/
def ofNodes (c : Context) : List Node → Flow
  | [] => {}
  | n :: ns => (ofNode c n).andThen (ofNodes c ns)

end

mutual

/-- The flow of the statements that lie in a byte range, below a node. -/
def selectedIn (lo hi : Nat) : Node → Flow
  | .mk role form l h kids =>
    if role == .stmt then
      if lo ≤ l && h ≤ hi then ofNode {} (.mk role form l h kids)
      else if l < hi && lo < h then selectedInAll lo hi kids
      else {}
    else selectedInAll lo hi kids

/-- The same for a list of nodes. -/
def selectedInAll (lo hi : Nat) : List Node → Flow
  | [] => {}
  | n :: ns => (selectedIn lo hi n).andThen (selectedInAll lo hi ns)

end

/-- The flow of the statements of a module that lie in a byte range. -/
def ofSelection (p : Parsed) (lo hi : Nat) : Flow := selectedIn lo hi p.module

end Flow

end Refactor.Script
