import Refactor.Script.Parser.Pattern

/-!
# Parsing functions and classes

* `P.block` — statements between braces
* `P.functionRest` — parameters, result and body of a function
* `P.classRest` — heritage and members of a class
* `P.decorators` — decorators before a class, member or parameter
-/

namespace Refactor.Script.P

variable (r : Goal → P Node)

/-! ## Blocks -/

/-- Statements between braces. -/
def block (role : Role) : P Node := do
  let lo ← start
  expectMark "\x7b"
  let stmts ← many do
    if ← isMark "\x7d" then return none
    return some (← r (.stmt true))
  expectMark "\x7d"
  node role .block lo stmts

/-- The body of a function. -/
def functionBlock (generator : Bool) : P Node :=
  within (fun s => { s with noIn := false, colonAhead := false, inGenerator := generator }) (block r .plain)

/-! ## Arguments and decorators -/

/-- One argument of a call. -/
def argument : P Node := do
  let _ ← eatMark "..."
  r .assign

/-- The arguments of a call, between parentheses. -/
def arguments : P (List Node) := do
  expectMark "("
  bracketed (commaList ")" (argument r))

/-- The expression of a decorator: an expression in parentheses, or a name with its parts and the
arguments of a call. -/
def decoratorExpr : P Node := do
  let lo ← start
  let head ← if ← eatMark "(" then do
      let e ← bracketed (r .expr)
      expectMark ")"
      node .expr .paren lo [e]
    else ident .expr
  let chain ← foldMany (fun n => do
    if ← eatMark "." then
      let at_ ← start
      match ← token with
      | .word _ | .privateName => advance
      | _ => failure
      let name ← node .plain .label at_ []
      return some (← node .expr .member lo [n, name])
    else return none) head
  if ← isMark "(" then
    let args ← arguments r
    node .expr .call lo (chain :: args)
  else return chain

/-- The decorators at the current token. -/
def decorators : P (List Node) := many do
  let lo ← start
  if ← eatMark "@" then
    let e ← decoratorExpr r
    return some (← node .plain .decorator lo [e])
  else return none

/-! ## Parameters -/

/-- A pattern with its annotation and default. -/
def annotatedPattern : P Node := do
  let lo ← start
  if ← eatMark "..." then
    let arg ← r .binding
    let type ← annotation? r
    return annotated (← node .pat .restPat lo [arg]) type
  else
    let p ← if ← isWord "this" then do advance; node .pat (.ident "this") lo [] else r .binding
    let _ ← eatMark "?"
    let type ← annotation? r
    withDefault r lo (annotated p type)

/-- Words that turn a parameter into a property. -/
def propertyWords : List String := ["public", "private", "protected", "readonly", "override"]

/-- Skips the words that turn a parameter into a property, and tells whether there are any. -/
def skipPropertyWords : P Bool := do
  let ws ← many do
    match ← token with
    | .word w =>
      if !propertyWords.contains w then return none
      let more ← nextIs do return (← atIdent) || (← isMark "\x7b") || (← isMark "[")
      if more then advance; return some w else return none
    | _ => return none
  return !ws.isEmpty

/-- A parameter of a function. -/
def param : P Node := do
  let lo ← start
  let ds ← decorators r
  let isProperty ← skipPropertyWords
  let p ← annotatedPattern r
  if isProperty then node .plain .paramProperty lo (ds ++ [p.inRole .plain])
  else node .plain .param lo (ds ++ [p])

/-- The parameters of a function, between parentheses. -/
def params : P (List Node) := do
  expectMark "("
  bracketed (commaList ")" (param r))

/-- Type parameters, parameters, result and body of a function; the body may be missing where a
signature stands alone. -/
def functionRest (lo : Nat) (generator : Bool) (ds : List Node) : P Node := do
  let types ← typeParams? r
  let ps ← params r
  let result ← returnType? r
  let body ← if ← isMark "\x7b" then functionBlock r generator
    else do
      unless ← typed do failure
      endStatement
      pure .absent
  node .plain .functionBody lo (ps ++ ds ++ [body, types, result])

/-- A function from the word `function` on: its name and itself. -/
def functionWithName (lo : Nat) : P (Node × Node) := do
  expectWord "function"
  let generator ← eatMark "*"
  let name ← if (← isMark "(") || (← isMark "<") then pure .absent else ident .plain
  let f ← functionRest r lo generator []
  return (name, f)

/-- Whether an asynchronous function starts here. -/
def atAsyncFunction : P Bool := do
  if ← isWord "async" then nextIs (do return !(← newline) && (← isWord "function")) else return false

/-! ## Classes -/

/-- Words that may stand before a member. -/
def memberWords : List String :=
  ["declare", "public", "private", "protected", "static", "abstract", "override", "readonly", "accessor", "async"]

/-- The words before a member. -/
def skipMemberWords : P (List String) := many do
  match ← token with
  | .word w =>
    if !memberWords.contains w then return none
    let more ← nextIs do
      if (← newline) && w != "static" then return false
      return (← atKey) || (← isMark "*") || (w == "static" && (← isMark "\x7b"))
    if more then advance; return some w else return none
  | _ => return none

/-- The key of a member. -/
def classKey : P Node := do
  let lo ← start
  if (← token) == .privateName then advance; node .plain .label lo [] else propName r

/-- A member of a class; an empty one for a stray semicolon. -/
def classMember : P Node := do
  let lo ← start
  if ← eatMark ";" then node .plain .empty lo [] else
  let ds ← decorators r
  let words ← skipMemberWords
  if words.contains "static" && (← isMark "\x7b") then
    let body ← functionBlock r false
    node .plain .staticBlock lo [body]
  else match ← attempt (do if ← typed then indexSignature r else failure) with
    | some n => endStatement; return n
    | none =>
      let generator ← eatMark "*"
      if ((← isWord "get") || (← isWord "set")) && !generator && (← nextIs atKey) then advance
      let isConstructor := (← isWord "constructor") && !words.contains "static"
      let isPrivate := (← token) == .privateName
      let at_ ← start
      let key ← classKey r
      let _ ← eatMark "?"
      let _ ← eatMark "!"
      if (← isMark "(") || (← isMark "<") then
        if isConstructor then
          let ps ← params r
          let body ← if ← isMark "\x7b" then functionBlock r false else do endStatement; pure .absent
          node .plain .constructorMember lo (key :: ps ++ [body])
        else
          let f ← functionRest r at_ generator ds
          node .plain .classMethod lo [key, f]
      else
        let type ← annotation? r
        let value ← if ← eatMark "=" then
            within (fun s => { s with inGenerator := false, noIn := false, colonAhead := false }) (r .assign)
          else pure .absent
        endStatement
        let form : Form := if words.contains "accessor" then .accessorField
          else if isPrivate then .privateField else .classField
        node .plain form lo (key :: value :: type :: ds)

/-- What a class implements, or an interface extends. -/
def heritage : P Node := do
  let lo ← start
  let e ← r .lhs
  let args ← typeArgs? r
  node .plain .typePart lo [e, args]

/-- Names separated by commas. -/
def heritageList : P (List Node) := do
  let first ← heritage r
  let rest ← many do
    if ← eatMark "," then return some (← heritage r) else return none
  return first :: rest

/-- Heritage and members of a class, after its name. -/
def classRest (lo : Nat) (ds : List Node) : P Node := do
  let types ← typeParams? r
  let base ← if ← eatWord "extends" then r .lhs else pure .absent
  let baseArgs ← typeArgs? r
  let impls ← if ← eatWord "implements" then heritageList r else pure []
  expectMark "\x7b"
  let ms ← many do
    if ← isMark "\x7d" then return none
    return some (← classMember r)
  expectMark "\x7d"
  node .plain .classBody lo (ds ++ ms ++ [base, types, baseArgs] ++ impls)

/-- A class from the word `class` on: its name and itself. -/
def classWithName (lo : Nat) (ds : List Node) : P (Node × Node) := do
  expectWord "class"
  let named := (← atIdent) && !((← isWord "implements") && !(← nextIs (isMark "\x7b")))
  let name ← if named then ident .plain else pure .absent
  let c ← classRest r lo ds
  return (name, c)

end Refactor.Script.P
