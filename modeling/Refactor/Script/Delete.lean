import Refactor.Script.Source

/-!
# Deleting declarations

A declaration goes away with its decorators, the comments attached to it and, between two blank lines,
one of them.

* `describe?` — what a declaration declares
* `declarationAt?` — the declaration on a line
* `removal` — the bytes to remove for it
* `deleteSymbol` — the edit, given how the source reads
-/

namespace Refactor.Script

/-- What a declaration declares. -/
structure Described where
  kind : String
  name : String
  nameLo : Nat
  /-- start of the decorators before it -/
  decorated : Option Nat := none
  /-- it declares several variables -/
  several : Bool := false
deriving DecidableEq, Repr

/-- What a node declares, when it is a declaration. -/
def describe? (n : Node) : Option Described :=
  match n.form with
  | .functionDecl name => some { kind := "function", name, nameLo := (n.kid 0).lo }
  | .classDecl name =>
    let first := (n.kid 1).kid 0
    some { kind := "class", name, nameLo := (n.kid 0).lo
           decorated := if first.form == .decorator then some first.lo else none }
  | .varDecl kind =>
    match ((n.kid 0).kid 0).boundNames with
    | (name, lo) :: _ => some { kind := kind.keyword, name, nameLo := lo, several := n.kids.length > 1 }
    | [] => none
  | .typeDecl .interface name => some { kind := "interface", name, nameLo := (n.kid 0).lo }
  | .typeDecl .alias name => some { kind := "type", name, nameLo := (n.kid 0).lo }
  | .typeDecl .enumeration name => some { kind := "enum", name, nameLo := (n.kid 0).lo }
  | _ => none

/-- A declaration with its range. -/
structure FoundDeclaration where
  described : Described
  lo : Nat
  hi : Nat
deriving DecidableEq, Repr

/-- The declaration that a node is or exports, with the node's range. -/
def declarationOf? (n : Node) : Option FoundDeclaration :=
  let inner := if n.form == .exportDecl then some (n.kid 0) else if n.isStmt then some n else none
  (inner.bind describe?).map fun d => ⟨d, n.lo, n.hi⟩

/-- Whether a declaration or its name starts on a line. -/
def FoundDeclaration.startsOn (f : FoundDeclaration) (s : Source) (line : Nat) : Service Bool := do
  if (← s.positionOf f.lo).line == line then return true
  return (← s.positionOf f.described.nameLo).line == line

/-- The first declaration of a list that starts, or whose name starts, on a line. -/
def firstOn (s : Source) (line : Nat) : List FoundDeclaration → Service (Option FoundDeclaration)
  | [] => .ok none
  | f :: fs => do
    if ← f.startsOn s line then return some f
    firstOn s line fs

/-- The first declaration whose start or name lies on a line. -/
def declarationAt? (s : Source) (p : Parsed) (line : Nat) : Service (Option FoundDeclaration) :=
  firstOn s line (p.module.all.filterMap declarationOf?)

/-- Whether an offset starts a line of white space only. -/
def blankLineAt (s : Source) (offset : Nat) : Service Bool := do
  if Text.utf8Size s ≤ offset then return false
  return Source.isBlank (← s.slice offset (← s.lineEnd offset))

/-- Moves a start upwards over the comments attached to it, nearest first; a blank line or other text
ends the walk. -/
def overComments (s : Source) : List Comment → Nat → Service Nat
  | [], start => .ok start
  | c :: cs, start => do
    if start < c.hi then overComments s cs start
    else
      let gap ← s.slice c.hi start
      if !Source.isBlank gap || gap.count '\n' > 1 then return start
      let line ← s.lineStart c.lo
      let before ← s.slice line c.lo
      if !Source.isBlank before then return start
      overComments s cs line

/-- Where a removal starts: with the lines of the comments attached to it, when it starts its line. -/
def removalStart (s : Source) (p : Parsed) (lo : Nat) : Service Nat := do
  let line ← s.lineStart lo
  let before ← s.slice line lo
  if Source.isBlank before then overComments s (p.leadingComments lo).reverse line
  else return lo

/-- Whether a removal starts the source, or a line of white space ends right before it. -/
def blankBefore (s : Source) (start : Nat) : Service Bool :=
  if start == 0 then .ok true
  else do blankLineAt s (← s.lineStart (start - 1))

/-- Start of a declaration, its decorators included. -/
def FoundDeclaration.start (f : FoundDeclaration) : Nat := min (f.described.decorated.getD f.lo) f.lo

/-- The bytes to remove for a declaration: with its semicolon, the rest of its line when that is white space, and, between
two lines of white space, the second one. -/
def removal (s : Source) (p : Parsed) (f : FoundDeclaration) : Service (Nat × Nat) := do
  let start ← removalStart s p f.start
  let preceded ← blankBefore s start
  let stop ← s.afterSemicolon f.hi
  let eol ← s.lineEnd stop
  let tail ← s.slice stop eol
  let followed ← blankLineAt s eol
  if !Source.isBlank tail then return (start, stop)
  else if preceded && followed then return (start, ← s.lineEnd eol)
  else return (start, eol)

/-- The edit that deletes the declaration on the line of a position. -/
def deleteSymbol (s : Source) (reading : Service Parsed) (position : Position) : Service (List TextEdit) := do
  let p ← reading
  let some f ← declarationAt? s p position.line
    | refuse ("No declaration found at line " ++ toString (Word.next 32 position.line))
  if f.described.several then refuse "Declarations of several variables are not supported"
  let (start, stop) ← removal s p f
  return [((← s.replacing start stop []).withType .delete).describedAs
    ("Delete " ++ f.described.kind ++ " '" ++ f.described.name ++ "'")]

end Refactor.Script
