import Refactor.Script.Source
import Refactor.Script.Imports

/-!
# Extracting variables and constants

An expression becomes a declaration before its statement, or, when it is a literal, a constant after the
imports that all equal literals then use.

* `findExpression` — the expression that a selection covers, and what encloses it
* `extractVariable`, `extractConstant` — the edits, given how the source reads
-/

namespace Refactor.Script

/-! ## The selected expression -/

/-- What encloses an expression. -/
inductive Frame where
  /-- a statement, or an import or export, that starts here -/
  | statement (lo : Nat)
  /-- the expression that an arrow function returns -/
  | arrowBody
  /-- a place that a declaration before the statement cannot serve -/
  | closed
deriving DecidableEq, Repr

/-- Start of the statement that a declaration can precede. -/
def Frame.start : Frame → Service Nat
  | .statement lo => .ok lo
  | .arrowBody => refuse "Selection is inside an arrow function body"
  | .closed => refuse "Selection is not inside a statement a declaration can precede"

/-- The frame of a child; `none` when the child holds no expressions to select. -/
def Frame.ofChild (n : Node) (frame : Frame) (i : Nat) (child : Node) : Option Frame :=
  match n.form with
  | .arrow =>
    match i with
    | 0 => some .closed
    | 1 => some (if child.isExpr then .arrowBody else frame)
    | _ => none
  | .forStmt => some (if i == 1 || i == 2 then .closed else .statement n.lo)
  | .whileStmt | .doWhile => some (if i == 0 then .closed else .statement n.lo)
  | .param | .classField | .privateField | .decorator | .typeDecl .enumeration _ => some .closed
  | _ =>
    match n.role with
    | .pat => some .closed
    | .stmt | .item => some (.statement n.lo)
    | _ => some frame

/-- The expression found by a selection. -/
structure FoundExpression where
  frame : Frame
  literal : Bool
deriving DecidableEq, Repr

mutual

/-- The outermost expression that covers exactly a byte range. -/
def findExpr (lo hi : Nat) (frame : Frame) : Node → Option FoundExpression
  | .mk role form l h kids =>
    let n := Node.mk role form l h kids
    if n.isExpr && l == lo && h == hi then some ⟨frame, n.isPlainLiteral⟩
    else findExprIn lo hi (Frame.ofChild n frame) 0 kids

/-- The same in a list of children, each with the frame of its place. -/
def findExprIn (lo hi : Nat) (frames : Nat → Node → Option Frame) (i : Nat) :
    List Node → Option FoundExpression
  | [] => none
  | n :: ns =>
    match (match frames i n with | some frame => findExpr lo hi frame n | none => none) with
    | some found => some found
    | none => findExprIn lo hi frames (i + 1) ns

end

/-- The expression that a selection covers. -/
def findExpression (p : Parsed) (lo hi : Nat) : Service FoundExpression :=
  match findExpr lo hi .closed p.module with
  | some found => .ok found
  | none => refuse "Selection is not a complete expression"

/-! ## Variables -/

/-- The edits that bind the selected expression to a name before its statement. -/
def extractVariable (s : Source) (reading : Service Parsed) (range : Span) (name : String) :
    Service (List TextEdit) := do
  let (lo, hi) ← s.selection range
  let p ← reading
  let found ← findExpression p lo hi
  let stmt ← found.frame.start
  if stmt == lo then refuse "Selection is a whole statement; select an expression within it"
  let at_ ← s.lineStart stmt
  let before ← s.slice at_ stmt
  if !Source.isBlank before then refuse "Enclosing statement does not start its own line"
  let text ← s.slice lo hi
  let (_, rest) ← s.cut at_
  let declaration := Source.indentation rest ++ "const ".toList ++ name.toList ++ " = ".toList ++ text ++ [';', '\n']
  return [(← s.inserting at_ declaration).describedAs ("Declare '" ++ name ++ "'"),
    (← s.replacing lo hi name.toList).describedAs ("Use '" ++ name ++ "'")]

/-! ## Constants -/

/-- Names of capital letters, digits and underscores that start with a letter. -/
def isConstantName (name : String) : Bool :=
  name.toList.head?.any Char.isUpper && name.toList.all fun c => c.isUpper || c.isDigit || c == '_'

/-- The places of the literals with a given text. -/
def literalSites (s : Source) (p : Parsed) (text : List Char) : List Nat :=
  (p.module.all.filter fun n => n.isExpr && n.isPlainLiteral && Text.slice? s n.lo n.hi == some text).map Node.lo

/-- The edit that puts the name of a constant in place of a text at an offset. -/
def usingConstant (s : Source) (name : String) (size : Nat) (at_ : Nat) : Service TextEdit := do
  return (← s.replacing at_ (at_ + size) name.toList).describedAs ("Use constant '" ++ name ++ "'")

/-- The edits that declare the selected literal as a constant and use it for every equal literal. -/
def extractConstant (s : Source) (reading : Service Parsed) (range : Span) (name : String) :
    Service (List TextEdit) := do
  let (lo, hi) ← s.selection range
  let p ← reading
  let literal := match findExpression p lo hi with
    | .ok found => found.literal
    | .error _ => false
  if !literal then refuse "Only literal values can be extracted to a constant"
  if !isConstantName name then refuse ("Constant name '" ++ name ++ "' must be SCREAMING_SNAKE_CASE")
  let at_ ← importBlockEnd s p
  if lo < at_ then refuse "Selection is inside the import block"
  let text ← s.slice lo hi
  let sites := ((literalSites s p text).filter (at_ ≤ ·)).mergeSort fun a b => a ≤ b
  let core := "const ".toList ++ name.toList ++ " = ".toList ++ text ++ [';', '\n']
  let declaration := if at_ == 0 then core ++ ['\n'] else '\n' :: core
  let first := (← s.inserting at_ declaration).describedAs ("Declare constant '" ++ name ++ "'")
  return first :: (← sites.mapM (usingConstant s name (Text.utf8Size text)))

end Refactor.Script
