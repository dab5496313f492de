import Refactor.Script.Scope
import Refactor.Script.Source

/-!
# Inlining variables

A variable is replaced by its initializer wherever its block reads it, and its declaration goes away.

* `VariableDecl` — a declaration of one name
* `declarationsOf` — all declarations of a name
* `inliningAt` — the variable at an offset, when it can be inlined
* `inlineVariable` — the edits, given how the source reads
-/

namespace Refactor.Script

/-- A declaration of a name by itself. -/
structure VariableDecl where
  kind : VarKind
  lo : Nat
  hi : Nat
  nameLo : Nat
  declarators : Nat
  /-- the initializer, and whether it needs parentheses elsewhere -/
  value : Option (Nat × Nat × Bool)
  exported : Bool
  /-- end of the block that holds the declaration -/
  scopeEnd : Nat
deriving DecidableEq, Repr

/-- Whether an expression needs parentheses when it replaces a name. -/
def needsParens (n : Node) : Bool :=
  match n.form with
  | .ident _ | .call | .construct | .literal _ | .paren | .thisRef | .array | .template | .optionalChain => false
  | .member => (n.kid 0).form == .superRef
  | _ => true

/-- The declarations of a name by one node. -/
def declarationsBy (s : Source) (name : String) (exported : Bool) (scopeEnd : Nat) (n : Node) :
    Service (List VariableDecl) :=
  match n.form with
  | .varDecl kind => do
    let hi ← s.afterSemicolon n.hi
    return n.kids.filterMap fun d =>
      if (d.kid 0).form == .ident name then
        let init := d.kid 1
        some { kind, lo := n.lo, hi, nameLo := (d.kid 0).lo, declarators := n.kids.length
               value := if init.isAbsent then none else some (init.lo, init.hi, needsParens init)
               exported, scopeEnd }
      else none
  | _ => .ok []

mutual

/-- The declarations of a name at and below a node, in order. -/
def declarationsOf (s : Source) (name : String) (exported : Bool) (scopeEnd : Nat) :
    Node → Service (List VariableDecl)
  | .mk role form lo hi kids => do
    let own ← declarationsBy s name exported scopeEnd (.mk role form lo hi kids)
    let below ← declarationsIn s name (form == .exportDecl) (if form == .block then hi else scopeEnd) kids
    return own ++ below

/-- The declarations of a name in a list of nodes. -/
def declarationsIn (s : Source) (name : String) (exported : Bool) (scopeEnd : Nat) :
    List Node → Service (List VariableDecl)
  | [] => .ok []
  | n :: ns => do
    let first ← declarationsOf s name exported scopeEnd n
    let rest ← declarationsIn s name exported scopeEnd ns
    return first ++ rest

end

/-- The name that a node spells as an identifier. -/
def identText? (n : Node) : Option String :=
  match n.form with
  | .ident name | .shorthand name => some name
  | _ => none

/-- The identifier at an offset, with its place; one that ends there counts too. -/
def identifierAt? (p : Parsed) (offset : Nat) : Option (String × Nat) :=
  let idents := p.module.all.filterMap fun n => (identText? n).map fun name => (name, n.lo, n.hi)
  let at_ := idents.find? fun (_, lo, hi) => lo ≤ offset && offset < hi
  let touching := idents.find? fun (_, _, hi) => offset == hi
  (at_.or touching).map fun (name, lo, _) => (name, lo)

/-- The declaration that an occurrence of a name refers to: the one it stands in, or the last one
before it whose block holds it. -/
def declarationFor? (ds : List VariableDecl) (at_ : Nat) : Option VariableDecl :=
  (ds.find? fun d => d.nameLo == at_).or (ds.reverse.find? fun d => d.nameLo < at_ && at_ < d.scopeEnd)

/-- A variable that can be replaced by its initializer. -/
structure Inlining where
  name : String
  decl : VariableDecl
  /-- range of the initializer -/
  lo : Nat
  hi : Nat
  parens : Bool
deriving DecidableEq, Repr

/-- The variable at an offset, unless it is exported, declared with others or again, without a value or reassigned. -/
def inliningAt (s : Source) (p : Parsed) (offset : Nat) : Service Inlining := do
  let some (name, at_) := identifierAt? p offset | refuse "No identifier at position"
  let ds ← declarationsOf s name false (Text.utf8Size s) p.module
  let some d := declarationFor? ds at_ | refuse ("No variable declaration found for '" ++ name ++ "'")
  if d.exported then refuse ("'" ++ name ++ "' is exported and cannot be inlined")
  if d.declarators > 1 then refuse "Declarations of several variables are not supported"
  let some (lo, hi, parens) := d.value | refuse ("'" ++ name ++ "' has no initializer")
  let scope := Scope.ofModule p
  if scope.bindings.any fun b => b.name == name && d.hi < b.offset && b.offset < d.scopeEnd then
    refuse ("'" ++ name ++ "' is redeclared in its scope")
  if d.kind != .fixed && scope.isWrittenBetween name d.hi d.scopeEnd then
    refuse ("'" ++ name ++ "' is reassigned; only variables assigned once can be inlined")
  return ⟨name, d, lo, hi, parens⟩

namespace Inlining

/-- The edit that removes the declaration, with its lines when nothing else stands on them. -/
def removal (t : Inlining) (s : Source) : Service TextEdit := do
  let (first, last, alone) ← s.linesAround t.decl.lo t.decl.hi
  let e ← if alone then s.replacing first last [] else s.replacing t.decl.lo t.decl.hi []
  return (e.withType .delete).describedAs ("Remove declaration of '" ++ t.name ++ "'")

/-- What stands for a use: the text of the initializer, in parentheses when it needs them, behind the property's name where
the name was both. -/
def valueAt (t : Inlining) (text : List Char) (u : NameUse) : List Char :=
  let value := if t.parens then '(' :: text ++ [')'] else text
  if u.shorthand then t.name.toList ++ ": ".toList ++ value else value

/-- The edit that replaces a use. -/
def replacement (t : Inlining) (s : Source) (text : List Char) (u : NameUse) : Service TextEdit := do
  return (← s.replacing u.lo u.hi (t.valueAt text u)).describedAs ("Inline '" ++ t.name ++ "'")

end Inlining

/-- The edits that replace a variable by its initializer. -/
def inlineVariable (s : Source) (reading : Service Parsed) (position : Position) : Service (List TextEdit) := do
  let some offset := position.byteOffset? s | refuse "Position is outside the file"
  let p ← reading
  let t ← inliningAt s p offset
  let text ← s.slice t.lo t.hi
  let removal ← t.removal s
  let uses ← ((Scope.ofModule p).readsBetween t.name t.decl.hi t.decl.scopeEnd).mapM (t.replacement s text)
  return removal :: uses

end Refactor.Script
