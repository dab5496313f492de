import Refactor.Script.Flow
import Refactor.Script.Scope
import Refactor.Script.Source

/-!
# Extracting functions

A run of statements on whole lines becomes a function after the top-level statement around it. The names
it reads from its surroundings become parameters, and the names it declares that are read later are
returned.

* `statementRun?` — the names that a selected run of statements declares
* `Extraction.analyze` — parameters and results
* `extractFunction` — the edits, given how the source reads
-/

namespace Refactor.Script

/-! ## The selected statements -/

/-- The names a statement declares at its own level, and whether they can be assigned again. -/
def declaredNames (n : Node) : List (String × Bool) :=
  match n.form with
  | .varDecl kind =>
    (n.kids.flatMap fun d => (d.kid 0).boundNames).map fun (name, _) => (name, kind != .fixed)
  | .functionDecl name | .classDecl name => [(name, false)]
  | _ => []

/-- Walks along siblings; `run` holds what the run declares once it has begun. -/
def runFrom (lo hi : Nat) (run : Option (List (String × Bool))) : List Node → Option (List (String × Bool))
  | [] => none
  | n :: ns =>
    let run := if run.isNone && n.lo == lo then some [] else run
    match run with
    | none => runFrom lo hi none ns
    | some declared =>
      let declared := declared ++ declaredNames n
      if n.hi == hi then some declared
      else if n.hi > hi then none
      else runFrom lo hi (some declared) ns

/-- The statements that stand side by side directly below a node. A selection that covers an import or
export of the module is no run of statements there. -/
def siblings (lo hi : Nat) (n : Node) : List Node :=
  match n.form with
  | .moduleRoot =>
    if n.kids.any fun k => k.role == .item && lo ≤ k.lo && k.hi ≤ hi then []
    else n.kids.filter Node.isStmt
  | .block => n.kids
  | .switchCase => n.kids.drop 1
  | _ => []

/-- What the run of sibling statements that covers exactly a byte range declares. -/
def statementRun? (p : Parsed) (lo hi : Nat) : Option (List (String × Bool)) :=
  p.module.all.findSome? fun n => runFrom lo hi none (siblings lo hi n)

/-! ## Parameters and results -/

/-- What the new function takes and gives back. -/
structure Extraction where
  params : List String
  results : List String
  /-- a result was declared so that it can be assigned again -/
  mutableResult : Bool
  isAsync : Bool
deriving DecidableEq, Repr

namespace Extraction

/-- The range of the top-level item around a selection. -/
def enclosing? (p : Parsed) (lo hi : Nat) : Option (Nat × Nat) :=
  (p.body.map fun n => (n.lo, n.hi)).find? fun (a, b) => a < lo && hi ≤ b

/-- The names bound before the selection that it reads, in the order of their bindings. -/
def neededNames (scope : Scope) (lo hi : Nat) (inside : List (String × Bool)) :
    List Binding → List String → Service (List String)
  | [], acc => .ok acc
  | b :: bs, acc =>
    if acc.contains b.name || inside.any (·.1 == b.name) then neededNames scope lo hi inside bs acc
    else if scope.isWrittenBetween b.name lo hi then
      refuse ("Selection reassigns '" ++ b.name ++ "', which is declared outside it")
    else if (scope.readsBetween b.name lo hi).isEmpty then neededNames scope lo hi inside bs acc
    else neededNames scope lo hi inside bs (acc ++ [b.name])

/-- The declared names that are read after the selection, each once. -/
def resultNames (scope : Scope) (hi stop : Nat) :
    List (String × Bool) → List String × Bool → List String × Bool
  | [], acc => acc
  | (name, isMutable) :: rest, (names, anyMutable) =>
    if names.contains name || (scope.readsBetween name hi stop).isEmpty then
      resultNames scope hi stop rest (names, anyMutable)
    else resultNames scope hi stop rest (names ++ [name], anyMutable || isMutable)

/-- What the function of a selection takes and gives back. -/
def analyze (s : Source) (p : Parsed) (lo hi : Nat) (inside : List (String × Bool)) : Service Extraction := do
  let flow := Flow.ofSelection p lo hi
  if let some reason := flow.blocked then refuse reason
  let scope := Scope.ofModule p
  let around := enclosing? p lo hi
  let params ← match around with
    | some (start, _) =>
      neededNames scope lo hi inside (scope.bindings.filter fun b => start ≤ b.offset && b.offset < lo) []
    | none => .ok []
  let stop := (around.map (·.2)).getD (Text.utf8Size s)
  let (results, mutableResult) := resultNames scope hi stop inside ([], false)
  return ⟨params, results, mutableResult, flow.isAsync⟩

/-! ## Texts -/

/-- The text of the new function around the lines of the selection. -/
def functionText (e : Extraction) (body : List Char) (name : String) : String :=
  let lines := Text.splitLines body
  let indents := (lines.filter fun l => !Source.isBlank l).map fun l => (Source.indentation l).length
  let base := (indents.min?).getD 0
  let rendered := lines.map fun l =>
    if Source.isBlank l then "\n"
    else "  " ++ String.ofList (l.drop (min base (Source.indentation l).length)) ++ "\n"
  let result := match e.results with
    | [] => ""
    | [x] => "  return " ++ x ++ ";\n"
    | xs => "  return \x7b " ++ joinWith ", " xs ++ " \x7d;\n"
  "\n" ++ (if e.isAsync then "async " else "") ++ "function " ++ name ++ "(" ++ joinWith ", " e.params ++ ") \x7b\n" ++
    joinWith "" rendered ++ result ++ "\x7d\n"

/-- The text of the call in place of the selection. -/
def callText (e : Extraction) (name : String) : String :=
  let call := (if e.isAsync then "await " else "") ++ name ++ "(" ++ joinWith ", " e.params ++ ");"
  let keyword := if e.mutableResult then "let" else "const"
  match e.results with
  | [] => call
  | [x] => keyword ++ " " ++ x ++ " = " ++ call
  | xs => keyword ++ " \x7b " ++ joinWith ", " xs ++ " \x7d = " ++ call

end Extraction

/-- Where the new function goes: behind the top-level item around the selection, or behind the selection. -/
def functionPlace (s : Source) (p : Parsed) (lo hi last : Nat) : Service Nat :=
  match Extraction.enclosing? p lo hi with
  | some (_, stop) => s.lineEnd stop
  | none => .ok last

/-- The edits that move the selected statements into a function. -/
def extractFunction (s : Source) (reading : Service Parsed) (range : Span) (name : String) :
    Service (List TextEdit) := do
  let (lo, hi) ← s.selection range
  let (first, last, alone) ← s.linesAround lo hi
  if !alone then refuse "Selection must cover whole statements"
  let p ← reading
  let some inside := statementRun? p lo hi | refuse "Selection must cover whole statements"
  let e ← Extraction.analyze s p lo hi inside
  let body ← s.slice first last
  let newline := if body.getLast? == some '\n' then ['\n'] else []
  let call := Source.indentation body ++ (e.callText name).toList ++ newline
  let at_ ← functionPlace s p lo hi last
  let text := (e.functionText body name).toList
  let text := if at_ == Text.utf8Size s && s.getLast? != some '\n' then '\n' :: text else text
  return [(← s.replacing first last call).describedAs ("Call '" ++ name ++ "'"),
    (← s.inserting at_ text).describedAs ("Define '" ++ name ++ "'")]

end Refactor.Script
