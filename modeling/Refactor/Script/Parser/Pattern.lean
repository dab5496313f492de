import Refactor.Script.Parser.Type

/-!
# Parsing patterns

Patterns are read in binding positions, and made from expressions that turn out to be assigned to.

* `P.binding` — a binding pattern without its annotation and default
* `P.element` — a binding pattern with its default
* `Node.toPat`, `Node.toTarget` — an expression read as a pattern or as an assignment target
-/

namespace Refactor.Script

/-! ## Patterns from expressions -/

namespace Node

mutual

/-- The pattern that an expression stands for. -/
def toPat : Node → Node
  | .mk _ (.ident name) lo hi ks => .mk .pat (.ident name) lo hi ks
  | .mk _ .array lo hi ks => .mk .pat .arrayPat lo hi (toPats ks)
  | .mk _ .object lo hi ks => .mk .pat .objectPat lo hi (toPatProps ks)
  | .mk _ .arrayPat lo hi ks => .mk .pat .arrayPat lo hi ks
  | .mk _ .objectPat lo hi ks => .mk .pat .objectPat lo hi ks
  | .mk _ (.assign false) lo hi [target, value] => .mk .pat .assignPat lo hi [toPat target, value]
  | .mk _ form lo hi ks => .mk .pat .exprPat lo hi [.mk .expr form lo hi ks]

/-- The elements of an array pattern. -/
def toPats : List Node → List Node
  | [] => []
  | .mk r .absent lo hi ks :: rest => .mk r .absent lo hi ks :: toPats rest
  | .mk _ .spread lo hi [e] :: rest => .mk .pat .restPat lo hi [toPat e] :: toPats rest
  | n :: rest => toPat n :: toPats rest

/-- The properties of an object pattern. -/
def toPatProps : List Node → List Node
  | [] => []
  | .mk _ .keyValue lo hi [key, value] :: rest =>
    .mk .plain .keyValuePat lo hi [key, toPat value] :: toPatProps rest
  | .mk _ (.shorthand name) lo hi _ :: rest =>
    .mk .plain .shorthandPat lo hi [.mk .plain (.ident name) lo hi []] :: toPatProps rest
  | .mk _ (.shorthandDefault name) lo hi [key, value] :: rest =>
    .mk .plain .shorthandPat lo hi [.mk .plain (.ident name) key.lo key.hi [], value] :: toPatProps rest
  | .mk _ .spread lo hi [e] :: rest => .mk .plain .restPat lo hi [toPat e] :: toPatProps rest
  | n :: rest => n :: toPatProps rest

end

/-- The target of an assignment. -/
def toTarget (n : Node) : Node :=
  match n.form with
  | .array | .object => n.toPat.inRole .plain
  | _ => n.inRole .plain

end Node

namespace P

variable (r : Goal → P Node)

/-! ## Names of properties -/

/-- The name of a property. -/
def propName : P Node := do
  let lo ← start
  match ← token with
  | .word _ | .text | .number | .bigint => advance; node .plain .label lo []
  | .mark "[" =>
    advance
    let e ← bracketed (r .assign)
    expectMark "]"
    node .plain .computedKey lo [e]
  | _ => failure

/-! ## Binding patterns -/

/-- A pattern with the default that may follow it. -/
def withDefault (lo : Nat) (p : Node) : P Node := do
  if ← eatMark "=" then
    let value ← bracketed (r .assign)
    node .pat .assignPat lo [p, value]
  else return p

/-- A binding pattern with its default. -/
def element : P Node := do
  let lo ← start
  withDefault r lo (← r .binding)

/-- The elements of an array pattern after its opening bracket. -/
def arrayElements : P (List Node) := do
  let es ← many do
    if ← isMark "]" then return none
    if ← eatMark "," then return some Node.absent
    let lo ← start
    let e ← if ← eatMark "..." then do
        let arg ← r .binding
        node .pat .restPat lo [arg]
      else element r
    unless ← isMark "]" do expectMark ","
    return some e
  expectMark "]"
  return es

/-- A property of an object pattern. -/
def patternProp : P Node := do
  let lo ← start
  if ← eatMark "..." then
    let arg ← r .binding
    node .plain .restPat lo [arg]
  else if (← atIdent) && !(← nextIs (isMark ":")) then
    let name ← ident .plain
    if ← eatMark "=" then
      let value ← bracketed (r .assign)
      node .plain .shorthandPat lo [name, value]
    else node .plain .shorthandPat lo [name]
  else
    let key ← propName r
    expectMark ":"
    let value ← element r
    node .plain .keyValuePat lo [key, value]

/-- A binding pattern. -/
def binding : P Node := do
  let lo ← start
  match ← token with
  | .mark "[" =>
    advance
    let es ← arrayElements r
    node .pat .arrayPat lo es
  | .mark "\x7b" =>
    advance
    let ps ← commaList "\x7d" (patternProp r)
    node .pat .objectPat lo ps
  | _ => ident .pat

end P

end Refactor.Script
