import Refactor.Script.Parser.Expression

/-!
# Parsing statements, declarations, imports and exports

* `P.statement` — a statement or declaration
* `P.item` — an import, an export, or a statement, at the top level of a module or namespace
-/

namespace Refactor.Script.P

variable (r : Goal → P Node)

/-! ## Variables -/

/-- One declared variable. -/
def declarator : P Node := do
  let lo ← start
  let p ← r .binding
  let _ ← eatMark "!"
  let type ← annotation? r
  let value ← if ← eatMark "=" then r .assign else pure .absent
  node .plain .declarator lo [annotated p type, value]

/-- Declared variables separated by commas. -/
def declaratorList : P (List Node) := do
  let first ← declarator r
  let rest ← many do
    if ← eatMark "," then return some (← declarator r) else return none
  return first :: rest

/-- The sort of variable declaration that starts here; `let` may also be a name. -/
def varKind? : P (Option VarKind) := do
  match ← token with
  | .word "var" => return some .hoisted
  | .word "const" => return some .fixed
  | .word "let" =>
    let binds ← nextIs do
      return (← atIdent) || (← isMark "[") || (← isMark "\x7b")
    return if binds then some .lexical else none
  | _ => return none

/-- A variable declaration with its end. -/
def varStatement (kind : VarKind) : P Node := do
  let lo ← start
  advance
  let ds ← declaratorList r
  endStatement
  node .stmt (.varDecl kind) lo ds

/-- A declaration of variables that are disposed of when their block ends, when one starts here. -/
def disposal? : P (Option Node) := do
  unless ← typed do return none
  let lo ← start
  let named : P Bool := return !(← newline) && (← atIdent) && !(← isWord "of")
  let waits := (← isWord "await") && (← nextIs (do return !(← newline) && (← isWord "using") && (← nextIs named)))
  let plain := (← isWord "using") && (← nextIs named)
  if !waits && !plain then return none
  if waits then advance
  advance
  let ds ← declaratorList r
  endStatement
  return some (← node .stmt .usingDecl lo ds)

/-! ## Control flow -/

/-- An expression in parentheses that is no node of its own. -/
def inParens : P Node := do
  expectMark "("
  let e ← bracketed (r .expr)
  expectMark ")"
  return e

def ifStatement : P Node := do
  let lo ← start
  advance
  let test ← inParens r
  let yes ← r (.stmt false)
  let no ← if ← eatWord "else" then r (.stmt false) else pure .absent
  node .stmt .ifStmt lo [test, yes, no]

def whileStatement : P Node := do
  let lo ← start
  advance
  let test ← inParens r
  let body ← r (.stmt false)
  node .stmt .whileStmt lo [test, body]

def doStatement : P Node := do
  let lo ← start
  advance
  let body ← r (.stmt false)
  expectWord "while"
  let test ← inParens r
  let _ ← eatMark ";"
  node .stmt .doWhile lo [test, body]

/-- The rest of a loop over the members or keys of something, from its word on. -/
def forEachRest (lo : Nat) (isAwait : Bool) (left : Node) : P Node := do
  if ← eatWord "of" then
    let right ← bracketed (r .assign)
    expectMark ")"
    let body ← r (.stmt false)
    node .stmt (.forOf isAwait) lo [left, right, body]
  else
    expectWord "in"
    let right ← bracketed (r .expr)
    expectMark ")"
    let body ← r (.stmt false)
    node .stmt .forIn lo [left, right, body]

/-- The rest of a counting loop, from its first semicolon on. -/
def forRest (lo : Nat) (init : Node) : P Node := do
  expectMark ";"
  let test ← if ← isMark ";" then pure .absent else bracketed (r .expr)
  expectMark ";"
  let update ← if ← isMark ")" then pure .absent else bracketed (r .expr)
  expectMark ")"
  let body ← r (.stmt false)
  node .stmt .forStmt lo [init, test, update, body]

def forStatement : P Node := do
  let lo ← start
  advance
  let isAwait ← eatWord "await"
  expectMark "("
  let noIn {α : Type} (p : P α) : P α := within (fun s => { s with noIn := true, colonAhead := false }) p
  if ← isMark ";" then forRest r lo .absent
  else match ← varKind? with
    | some kind =>
      let at_ ← start
      advance
      let ds ← noIn (declaratorList r)
      let left ← node .plain (.varDecl kind) at_ ds
      if (← isWord "of") || (← isWord "in") then forEachRest r lo isAwait left else forRest r lo left
    | none =>
      let e ← noIn (r .expr)
      if (← isWord "of") || (← isWord "in") then forEachRest r lo isAwait e.toPat else forRest r lo e

/-- A case of a switch. -/
def switchCase : P Node := do
  let lo ← start
  let test ← if ← eatWord "default" then pure .absent else do
    expectWord "case"
    bracketed (r .expr)
  expectMark ":"
  let stmts ← many do
    if (← isWord "case") || (← isWord "default") || (← isMark "\x7d") then return none
    return some (← r (.stmt true))
  node .plain .switchCase lo (test :: stmts)

def switchStatement : P Node := do
  let lo ← start
  advance
  let subject ← inParens r
  expectMark "\x7b"
  let cases ← many do
    if ← isMark "\x7d" then return none
    return some (← switchCase r)
  expectMark "\x7d"
  node .stmt .switchStmt lo (subject :: cases)

def tryStatement : P Node := do
  let lo ← start
  advance
  let body ← block r .plain
  let at_ ← start
  let handler ← if ← eatWord "catch" then do
      let p ← if ← eatMark "(" then do
          let p ← r .binding
          let type ← annotation? r
          expectMark ")"
          pure (annotated p type)
        else pure .absent
      let b ← block r .plain
      node .plain .catchClause at_ [p, b]
    else pure .absent
  let final ← if ← eatWord "finally" then block r .plain else pure .absent
  node .stmt .tryStmt lo [body, handler, final]

/-- The name of an identifier node. -/
def nameOf (n : Node) : String :=
  match n.form with
  | .ident s => s
  | _ => ""

/-- A jump with an optional label on its line. -/
def jump (form : Option String → Form) : P Node := do
  let lo ← start
  advance
  let label ← if (← atIdent) && !(← newline) then ident .plain else pure .absent
  endStatement
  if label.isAbsent then node .stmt (form none) lo [] else node .stmt (form (some (nameOf label))) lo [label]

/-- A statement that ends with an optional expression. -/
def valueStatement (form : Form) : P Node := do
  let lo ← start
  advance
  let s ← get
  let ends := s.newline || s.token == .mark ";" || s.token == .mark "\x7d" || s.token == .eof
  let e ← if ends then pure .absent else r .expr
  endStatement
  node .stmt form lo [e]

/-- A statement that throws; its value stands on the same line. -/
def throwStatement : P Node := do
  let lo ← start
  advance
  if ← newline then failure
  let e ← r .expr
  endStatement
  node .stmt .throwStmt lo [e]

/-! ## Declarations -/

/-- A function declaration. -/
def functionDeclaration : P Node := do
  let lo ← start
  let _ ← eatWord "async"
  let (name, f) ← functionWithName r lo
  if name.isAbsent then failure
  node .stmt (.functionDecl (nameOf name)) lo [name, f]

/-- A class declaration that starts at a place, with the decorators before it. -/
def classDeclaration (lo : Nat) (ds : List Node) : P Node := do
  let _ ← eatWord "abstract"
  let (name, c) ← classWithName r lo ds
  if name.isAbsent then failure
  node .stmt (.classDecl (nameOf name)) lo [name, c]

def interfaceDeclaration : P Node := do
  let lo ← start
  expectWord "interface"
  let name ← ident .plain
  let types ← typeParams? r
  let bases ← if ← eatWord "extends" then heritageList r else pure []
  let ms ← typeMembers r
  node .stmt (.typeDecl .interface (nameOf name)) lo (name :: types :: bases ++ ms)

def aliasDeclaration : P Node := do
  let lo ← start
  expectWord "type"
  let name ← ident .plain
  let types ← typeParams? r
  expectMark "="
  let t ← r .type
  endStatement
  node .stmt (.typeDecl .alias (nameOf name)) lo [name, types, t]

/-- A member of an enumeration. -/
def enumMember : P Node := do
  let lo ← start
  let key ← match ← token with
    | .word w => do advance; node .plain (.ident w) lo []
    | _ => propName r
  let value ← if ← eatMark "=" then bracketed (r .assign) else pure .absent
  node .plain .enumMember lo [key, value]

def enumDeclaration : P Node := do
  let lo ← start
  let _ ← eatWord "const"
  expectWord "enum"
  let name ← ident .plain
  expectMark "\x7b"
  let ms ← commaList "\x7d" (enumMember r)
  node .stmt (.typeDecl .enumeration (nameOf name)) lo (name :: ms)

/-- The items of a namespace, between braces. -/
def namespaceBody : P (List Node) := do
  expectMark "\x7b"
  let ns ← many do
    if ← isMark "\x7d" then return none
    return some (← r .item)
  expectMark "\x7d"
  return ns

def namespaceDeclaration : P Node := do
  let lo ← start
  let isGlobal ← isWord "global"
  advance
  let name ← if isGlobal then pure .absent
    else match ← token with
      | .text => do advance; pure .absent
      | _ => ident .plain
  let more ← many do
    if ← eatMark "." then return some (← ident .plain) else return none
  let items ← if ← isMark "\x7b" then namespaceBody r else do endStatement; pure []
  node .stmt .namespaceDecl lo (name :: more ++ items)

/-- A declaration that only typed scripts have, when one starts here. -/
def typedDeclaration? : P (Option Node) := do
  unless ← typed do return none
  let sameLine (p : P Bool) : P Bool := nextIs (do return !(← newline) && (← p))
  let ifNext (p : P Bool) (d : P Node) : P (Option Node) := do
    if ← sameLine p then return some (← d) else return none
  match ← token with
  | .word "enum" => return some (← enumDeclaration r)
  | .word "const" => ifNext (isWord "enum") (enumDeclaration r)
  | .word "interface" => ifNext atIdent (interfaceDeclaration r)
  | .word "type" => ifNext atIdent (aliasDeclaration r)
  | .word "namespace" => ifNext atIdent (namespaceDeclaration r)
  | .word "module" => ifNext (do return (← atIdent) || (← token) == .text) (namespaceDeclaration r)
  | .word "global" => ifNext (isMark "\x7b") (namespaceDeclaration r)
  | .word "abstract" => ifNext (isWord "class") (do classDeclaration r (← start) [])
  | .word "declare" =>
    let lo ← start
    ifNext (do
      match ← token with
      | .word w => return ["function", "class", "const", "let", "var", "enum", "interface", "type", "namespace",
          "module", "global", "abstract", "async"].contains w
      | _ => return false) (do
        advance
        return (← r (.stmt true)).startingAt lo)
  | _ => return none

/-! ## Statements -/

/-- A labeled statement or an expression. -/
def simpleStatement : P Node := do
  let lo ← start
  if (← atIdent) && (← nextIs (isMark ":")) then
    let name ← ident .plain
    expectMark ":"
    let body ← r (.stmt false)
    node .stmt (.labeled (nameOf name)) lo [name, body]
  else
    let e ← r .expr
    endStatement
    node .stmt .exprStmt lo [e]

/-- A statement; `decl` tells whether a declaration may stand here. -/
def statement (decl : Bool) : P Node := do
  let lo ← start
  match ← token with
  | .mark "\x7b" => bracketed (block r .stmt)
  | .mark ";" => advance; node .stmt .empty lo []
  | .mark "@" =>
    let ds ← decorators r
    classDeclaration r lo ds
  | .word "if" => ifStatement r
  | .word "for" => forStatement r
  | .word "while" => whileStatement r
  | .word "do" => doStatement r
  | .word "switch" => switchStatement r
  | .word "try" => tryStatement r
  | .word "return" => valueStatement r .returnStmt
  | .word "throw" => throwStatement r
  | .word "break" => jump .breakStmt
  | .word "continue" => jump .continueStmt
  | .word "debugger" => advance; endStatement; node .stmt .debugger lo []
  | .word "with" =>
    advance
    let e ← inParens r
    let body ← r (.stmt false)
    node .stmt .withStmt lo [e, body]
  | .word "function" => functionDeclaration r
  | .word "class" => classDeclaration r lo []
  | _ =>
    if ← atAsyncFunction then functionDeclaration r
    else match ← typedDeclaration? r with
      | some n => return n
      | none =>
        match ← varKind? with
        | some .hoisted => varStatement r .hoisted
        | some kind => if decl then varStatement r kind else failure
        | none =>
          match ← (if decl then disposal? r else pure none) with
          | some n => return n
          | none => simpleStatement r

/-! ## Imports and exports -/

/-- The text that names a module. -/
def moduleText : P Node := do
  let lo ← start
  if (← token) == .text then advance; node .plain .label lo [] else failure

/-- Attributes after the name of a module. -/
def importAttributes : P Unit := do
  if ((← isWord "with") || ((← isWord "assert") && !(← newline))) && (← nextIs (isMark "\x7b")) then
    advance
    let _ ← r .unary

/-- A name in a list of imports or exports. -/
def exchangedName : P Node := do
  let lo ← start
  match ← token with
  | .word w => advance; node .plain (.ident w) lo []
  | .text => advance; node .plain .label lo []
  | _ => failure

/-- An entry of a list of imports or exports. -/
def exchange : P (List Node) := do
  if ← typed then
    let startsName ← nextIs do
      match ← token with
      | .word w => return w != "as"
      | .text => return true
      | _ => return false
    if (← isWord "type") && startsName then advance
  let first ← exchangedName
  if ← eatWord "as" then return [first, ← exchangedName] else return [first]

/-- A list of exports, between braces. -/
def exportList : P (List Node) := do
  expectMark "\x7b"
  return (← commaList "\x7d" exchange).flatten

/-- Whether an imported name can be bound. -/
def isBindable (n : Node) : Bool :=
  match n.form with
  | .ident w => !reservedWords.contains w && !unusableWords.contains w && w != "let" && w != "await"
  | _ => false

/-- A list of imports, between braces. -/
def importList : P (List Node) := do
  expectMark "\x7b"
  let entries ← commaList "\x7d" exchange
  if entries.any fun names => names.length == 1 && !names.all isBindable then failure
  return entries.flatten

/-- The module or name that an import with `=` stands for. -/
def importEqualsRest (lo : Nat) (name : Node) : P Node := do
  expectMark "="
  let source ← if (← isWord "require") && (← nextIs (isMark "(")) then do
      advance
      expectMark "("
      let t ← moduleText
      expectMark ")"
      pure t
    else do
      let _ ← entityName
      pure .absent
  endStatement
  node .item .importEquals lo [source, name]

/-- The names of an import, up to its module. -/
def importNames : P (List Node) := do
  let namespaceName : P (List Node) := do
    expectMark "*"
    expectWord "as"
    return [← ident .plain]
  if ← isMark "*" then namespaceName
  else if ← isMark "\x7b" then importList
  else
    let d ← ident .plain
    if ← eatMark "," then
      let more ← if ← isMark "*" then namespaceName else importList
      return d :: more
    else return [d]

/-- Whether `type` before the current names is a marker. -/
def typeMarker : P Bool := do
  unless ← isWord "type" do return false
  nextIs do
    if (← isMark "\x7b") || (← isMark "*") then return true
    if ← isWord "from" then nextIs (isWord "from") else atIdent

/-- An import. -/
def importItem : P Node := do
  let lo ← start
  expectWord "import"
  if (← token) == .text then
    let source ← moduleText
    importAttributes r
    endStatement
    node .item .importDecl lo [source]
  else
    if (← typed) && (← typeMarker) then advance
    if (← typed) && (← atIdent) && (← nextIs (isMark "=")) then
      let name ← ident .plain
      importEqualsRest lo name
    else
      let names ← importNames
      expectWord "from"
      let source ← moduleText
      importAttributes r
      endStatement
      node .item .importDecl lo (source :: names)

/-- The module of a re-export, and the end of the export. -/
def exportSource : P Node := do
  let source ← if ← eatWord "from" then moduleText else pure .absent
  importAttributes r
  endStatement
  return source

/-- A default export, after its words. -/
def exportDefaultRest (lo : Nat) (ds : List Node) : P Node := do
  let at_ ← start
  let startsClass := (← isWord "class") || (← isMark "@") ||
    ((← isWord "abstract") && (← nextIs (isWord "class")))
  if (← isWord "function") || (← atAsyncFunction) then
    let _ ← eatWord "async"
    let (name, f) ← functionWithName r at_
    let e ← node .plain .functionExpr at_ [name, f]
    node .item .exportDefault lo [e]
  else if startsClass then
    let more ← decorators r
    let _ ← eatWord "abstract"
    let (name, c) ← classWithName r at_ (ds ++ more)
    let e ← node .plain .classExpr at_ [name, c]
    node .item .exportDefault lo [e]
  else if (← typed) && (← isWord "interface") && (← nextIs (do return !(← newline) && (← atIdent))) then
    let i ← interfaceDeclaration r
    node .item .exportDefault lo [i.inRole .plain]
  else
    let e ← r .assign
    endStatement
    node .item .exportDefault lo [e]

/-- Whether a node is a declaration. -/
def isDeclaration (n : Node) : Bool :=
  match n.form with
  | .varDecl _ | .functionDecl _ | .classDecl _ | .typeDecl .. | .namespaceDecl => true
  | _ => false

/-- An export; `ds` are the decorators before it. -/
def exportItem (ds : List Node) : P Node := do
  let lo ← start
  expectWord "export"
  if (← typed) && (← isWord "type") && (← nextIs (do return (← isMark "\x7b") || (← isMark "*"))) then advance
  if ← eatMark "*" then
    if ← eatWord "as" then
      let name ← exchangedName
      let source ← exportSource r
      node .item .exportNamed lo [source, name]
    else
      unless ← isWord "from" do failure
      let source ← exportSource r
      node .item .exportAll lo [source]
  else if ← isMark "\x7b" then
    let names ← exportList
    let source ← exportSource r
    node .item .exportNamed lo (source :: names)
  else if ← eatWord "default" then exportDefaultRest r lo ds
  else if (← typed) && (← isMark "=") then
    advance
    let e ← r .expr
    endStatement
    node .item .exportAssign lo [e]
  else if (← typed) && (← isWord "as") && (← nextIs (isWord "namespace")) then
    advance
    advance
    let name ← ident .plain
    endStatement
    node .item .namespaceExport lo [name]
  else if (← typed) && (← isWord "import") then
    advance
    if ← typeMarker then advance
    let name ← ident .plain
    importEqualsRest lo name
  else
    let at_ ← start
    let startsClass := (← isWord "class") || (← isMark "@") ||
      ((← isWord "abstract") && (← nextIs (isWord "class")))
    let d ← if startsClass then do
        let more ← decorators r
        classDeclaration r at_ (ds ++ more)
      else r (.stmt true)
    if !isDeclaration d then failure
    node .item .exportDecl lo [d.inRole .plain]

/-- An import, an export or a statement. -/
def item : P Node := do
  let lo ← start
  if ← isMark "@" then
    let ds ← decorators r
    if ← isWord "export" then exportItem r ds else classDeclaration r lo ds
  else if (← isWord "import") && !(← nextIs (do return (← isMark "(") || (← isMark "."))) then importItem r
  else if ← isWord "export" then exportItem r []
  else r (.stmt true)

end Refactor.Script.P
