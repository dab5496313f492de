import Refactor.Script.Parser.Markup

/-!
# Parsing expressions

* `P.primary` — names, literals, brackets and functions
* `P.lhs` — calls and members
* `P.unary`, `P.binary`, `P.conditional`, `P.assign`, `P.expression` — operators by strength
* `P.arrow` — arrow functions
-/

namespace Refactor.Script.P

variable (r : Goal → P Node)

/-! ## Literals and brackets -/

/-- The end of a regular expression after its slash: what follows it and the bytes read. -/
def regexEnd : List Char → Bool → Nat → Option (List Char × Nat)
  | [], _, _ => none
  | '\\' :: c :: rest, inClass, n =>
    if isLineEnd c then none else regexEnd rest inClass (n + 1 + c.utf8Size)
  | c :: rest, inClass, n =>
    if isLineEnd c then none
    else if c == '[' then regexEnd rest true (n + 1)
    else if c == ']' then regexEnd rest false (n + 1)
    else if c == '/' && !inClass then
      let flags := rest.takeWhile Text.isIdentPart
      some (rest.drop flags.length, n + 1 + Text.utf8Size flags)
    else regexEnd rest inClass (n + c.utf8Size)

/-- A regular expression at the current slash. -/
def regex : P Node := do
  let s ← get
  match regexEnd (s.here.drop 1) false 1 with
  | some (after, n) =>
    resumeAfter after (s.lo + n)
    node .expr (.literal .regex) s.lo []
  | none => failure

/-- The elements of an array literal after its bracket. -/
def arrayItems : P (List Node) := do
  let es ← many do
    if ← isMark "]" then return none
    if ← eatMark "," then return some Node.absent
    let lo ← start
    let e ← if ← eatMark "..." then do
        let e ← r .assign
        node .plain .spread lo [e]
      else r .assign
    unless ← isMark "]" do expectMark ","
    return some e
  expectMark "]"
  return es

/-- The accessor of an object literal after its word. -/
def accessor (lo : Nat) (getter : Bool) : P Node := do
  let key ← propName r
  expectMark "("
  let ps ← bracketed (commaList ")" (annotatedPattern r))
  let type ← returnType? r
  let body ← functionBlock r false
  if getter then node .plain .getter lo [key, type, body]
  else node .plain .setter lo (key :: ps ++ [body])

/-- A property of an object literal. -/
def objectProp : P Node := do
  let lo ← start
  if ← eatMark "..." then
    let e ← r .assign
    node .plain .spread lo [e]
  else if ((← isWord "get") || (← isWord "set")) && (← nextIs atKey) then
    let getter ← isWord "get"
    advance
    accessor r lo getter
  else
    if (← isWord "async") && (← nextIs (do return !(← newline) && ((← atKey) || (← isMark "*")))) then advance
    let generator ← eatMark "*"
    let canBeShort := (← atIdent) && !generator
    let word ← token
    let key ← propName r
    if (← isMark "(") || (← isMark "<") then
      let f ← functionRest r lo generator []
      node .plain .method lo [key, f]
    else if ← eatMark ":" then
      let v ← r .assign
      node .plain .keyValue lo [key, v]
    else match word with
      | .word name =>
        if !canBeShort then failure
        if ← eatMark "=" then
          let v ← r .assign
          node .plain (.shorthandDefault name) lo [key, v]
        else node .plain (.shorthand name) lo []
      | _ => failure

/-! ## Primary expressions -/

/-- An expression in parentheses. -/
def parenthesized : P Node := do
  let lo ← start
  expectMark "("
  let e ← bracketed (r .expr)
  expectMark ")"
  node .expr .paren lo [e]

/-- A class with the decorators before it, as an expression. -/
def classExpression : P Node := do
  let lo ← start
  let ds ← decorators r
  let (name, c) ← classWithName r lo ds
  node .expr .classExpr lo [name, c]

/-- Names, literals, brackets and functions. -/
def primary : P Node := do
  let lo ← start
  match ← token with
  | .number => advance; node .expr (.literal .number) lo []
  | .bigint => advance; node .expr (.literal .bigint) lo []
  | .text => advance; node .expr (.literal .string) lo []
  | .privateName => advance; node .expr .label lo []
  | .mark "(" => parenthesized r
  | .mark "[" =>
    advance
    let es ← bracketed (arrayItems r)
    node .expr .array lo es
  | .mark "\x7b" =>
    advance
    let ps ← bracketed (commaList "\x7d" (objectProp r))
    node .expr .object lo ps
  | .mark "`" =>
    let parts ← templateParts false (r .expr)
    node .expr .template lo parts
  | .mark "/" | .mark "/=" => regex
  | .mark "@" => classExpression r
  | .mark "<" =>
    if (← get).dialect.markup then closed (← r .markup) else failure
  | .word "this" => advance; node .expr .thisRef lo []
  | .word "super" => advance; node .plain .superRef lo []
  | .word "null" => advance; node .expr (.literal .null) lo []
  | .word "true" | .word "false" => advance; node .expr (.literal .boolean) lo []
  | .word "class" => classExpression r
  | .word "function" =>
    let (name, f) ← functionWithName r lo
    node .expr .functionExpr lo [name, f]
  | .word "import" =>
    advance
    if ← eatMark "." then
      let _ ← anyWord
      node .expr .label lo []
    else if ← isMark "(" then node .plain .importRef lo []
    else failure
  | .word w =>
    if ← atAsyncFunction then
      advance
      let (name, f) ← functionWithName r lo
      node .expr .functionExpr lo [name, f]
    else if unusableWords.contains w then failure
    else ident .expr
  | _ => failure

/-! ## Calls and members -/

/-- Whether type arguments can end an expression before the current token. -/
def endsInstantiation : P Bool := do
  if ← newline then return true
  match ← token with
  | .eof => return true
  | .mark m =>
    return [")", "]", ",", ";", ":", "?", ".", "?.", "\x7d", "==", "===", "!=", "!==", "&&", "||", "??", "^", "|", "&",
      "="].contains m
  | .word w => return w == "as" || w == "satisfies"
  | _ => return false

/-- What follows type arguments on an expression. -/
def afterTypeArgs (noCall : Bool) (n : Node) : P Node := do
  let args ← typeArgs r
  if !noCall && (← isMark "(") then
    let actual ← arguments r
    node .expr .call n.lo (n :: actual ++ [args])
  else if ← isMark "`" then
    let lo ← start
    let parts ← templateParts true (r .expr)
    let t ← node .plain .template lo parts
    node .expr .taggedTemplate n.lo [n, args, t]
  else if ← endsInstantiation then node .expr .instantiation n.lo [n, args]
  else failure

/-- One member, call or template after an expression. -/
def subscript (noCall : Bool) (n : Node) : P (Option Node) := do
  match ← token with
  | .mark "?." =>
    if noCall then return none
    advance
    let base ← if ← isMark "(" then do
        let args ← arguments r
        node .plain .call n.lo (n :: args)
      else if ← eatMark "[" then do
        let e ← bracketed (r .expr)
        expectMark "]"
        node .plain .member n.lo [n, e]
      else if ← isMark "<" then do
        let types ← typeArgs r
        let args ← arguments r
        node .plain .call n.lo (n :: args ++ [types])
      else do
        let lo ← start
        match ← token with
        | .word _ | .privateName => advance
        | _ => failure
        let name ← node .plain .label lo []
        node .plain .member n.lo [n, name]
    return some (← node .expr .optionalChain n.lo [base])
  | .mark "." =>
    advance
    let lo ← start
    match ← token with
    | .word _ | .privateName => advance
    | _ => failure
    let name ← node .plain .label lo []
    return some (← node .expr .member n.lo [n, name])
  | .mark "[" =>
    advance
    let e ← bracketed (r .expr)
    expectMark "]"
    return some (← node .expr .member n.lo [n, e])
  | .mark "(" =>
    if noCall then return none
    let args ← arguments r
    return some (← node .expr .call n.lo (n :: args))
  | .mark "`" =>
    let lo ← start
    let parts ← templateParts true (r .expr)
    let t ← node .plain .template lo parts
    return some (← node .expr .taggedTemplate n.lo [n, t])
  | .mark "!" =>
    if (← typed) && !(← newline) then
      advance
      return some (← node .expr .nonNull n.lo [n])
    else return none
  | .mark "<" => if ← typed then attempt (afterTypeArgs r noCall n) else return none
  | _ => return none

/-- A `new` expression, or `new.target`. -/
def construct : P Node := do
  let lo ← start
  expectWord "new"
  if ← eatMark "." then
    let _ ← anyWord
    node .expr .label lo []
  else
    let callee ← r .callee
    let types ← if (← typed) && (← isMark "<") then attempt (typeArgs r) else pure none
    let args ← if ← isMark "(" then arguments r else pure []
    node .expr .construct lo (callee :: args ++ [types.getD .absent])

/-- The start of a chain of members and calls. -/
def chainHead : P Node := do
  if ← isWord "new" then construct r else primary r

/-- A chain of members, and of calls too unless `noCall`; `super` alone is none. -/
def chain (noCall : Bool) : P Node := do
  let n ← foldMany (subscript r noCall) (← chainHead r)
  if n.form == .superRef then failure
  return n

/-- A chain of members without calls, as `new` takes it. -/
def calleeChain : P Node := chain r true

/-- A chain of members and calls. -/
def lhs : P Node := chain r false

/-! ## Operators -/

/-- Whether `await` is used as a name before the next token. -/
def awaitIsName : P Bool := nextIs do
  match ← token with
  | .eof => return true
  | .mark m => return [")", "]", ",", ";", "=", ".", ":", "=>", "\x7d"].contains m
  | _ => return false

/-- Operators before an operand. -/
def unary : P Node := do
  let lo ← start
  match ← token with
  | .mark "+" | .mark "-" | .mark "~" | .mark "!" =>
    advance
    let e ← r .unary
    node .expr .unary lo [e]
  | .mark "++" | .mark "--" =>
    advance
    let e ← r .unary
    node .expr .update lo [e]
  | .word "typeof" | .word "void" | .word "delete" =>
    advance
    let e ← r .unary
    node .expr .unary lo [e]
  | .word "await" =>
    if ← awaitIsName then operand
    else
      advance
      let e ← r .unary
      node .expr .awaitExpr lo [e]
  | .mark "<" =>
    let s ← get
    if s.dialect.typed && !s.dialect.markup then
      advance
      let type ← if ← eatWord "const" then pure .absent else r .type
      expectMark ">"
      let e ← r .unary
      node .expr .typeAssertion lo [e, type]
    else operand
  | _ => operand
where
  /-- An operand with the operators after it. -/
  operand : P Node := do
    let e ← r .lhs
    if ((← isMark "++") || (← isMark "--")) && !(← newline) then
      advance
      node .expr .update e.lo [e]
    else return e

/-- Operators that start with `>`, longer ones first; the tokens cut them into pieces. -/
def angleOperators : List String := [">>>=", ">>=", ">=", ">>>", ">>", ">"]

/-- The operator at the current token. -/
def operator : P String := do
  let s ← get
  match s.token with
  | .mark ">" => return (angleOperators.find? fun m => m.toList.isPrefixOf s.here).getD ">"
  | .mark m => return m
  | .word w => return w
  | _ => return ""

/-- Steps over an operator. -/
def skipOperator (op : String) : P Unit := do
  let s ← get
  resumeAfter (s.here.drop op.length) (s.lo + op.length)

/-- How strongly a binary operator binds. -/
def precedence? (op : String) : Option Nat :=
  match op with
  | "??" | "||" => some 1
  | "&&" => some 2
  | "|" => some 3
  | "^" => some 4
  | "&" => some 5
  | "==" | "!=" | "===" | "!==" => some 6
  | "<" | ">" | "<=" | ">=" | "instanceof" | "in" => some 7
  | "<<" | ">>" | ">>>" => some 8
  | "+" | "-" => some 9
  | "*" | "/" | "%" => some 10
  | "**" => some 11
  | _ => none

/-- Binary operators that bind more strongly than `least`. -/
def binary (least : Nat) : P Node := do
  let first ← r .unary
  foldMany (fun left => do
    let s ← get
    if s.dialect.typed && !s.newline && least < 7 && (s.token == .word "as" || s.token == .word "satisfies") then
      advance
      let type ← if ← eatWord "const" then pure .absent else r .type
      return some (← node .expr .typeAs left.lo [left, type])
    else
      let op ← operator
      match precedence? op with
      | none => return none
      | some p =>
        if p ≤ least || (op == "in" && s.noIn) then return none
        skipOperator op
        let right ← r (.binary (if op == "**" then p - 1 else p))
        return some (← node .expr .binary left.lo [left, right])) first

/-- A conditional expression, or what binds more strongly. -/
def conditional : P Node := do
  let test ← r (.binary 0)
  if ← eatMark "?" then
    let a ← within (fun s => { s with noIn := false, colonAhead := true }) (r .assign)
    expectMark ":"
    let b ← r .assign
    node .expr .conditional test.lo [test, a, b]
  else return test

/-- Operators that assign. -/
def assignOperators : List String :=
  ["=", "+=", "-=", "*=", "/=", "%=", "**=", "<<=", ">>=", ">>>=", "&=", "|=", "^=", "&&=", "||=", "??="]

/-! ## Arrow functions -/

/-- The body of an arrow function. -/
def arrowBody : P Node := do
  if ← isMark "\x7b" then functionBlock r false
  else within (fun s => { s with inGenerator := false }) (r .assign)

/-- The arrow on the same line as what is before it. -/
def arrowMark : P Unit := do
  if ← newline then failure
  expectMark "=>"

/-- An arrow function with parameters in parentheses, from its type parameters on. -/
def arrowFrom (lo : Nat) : P Node := do
  let types ← typeParams? r
  let at_ ← start
  expectMark "("
  let ps ← bracketed (commaList ")" (annotatedPattern r))
  let group ← node .plain .group at_ ps
  let s ← get
  let result ← if s.dialect.typed && !s.colonAhead then returnType? r else pure .absent
  arrowMark
  let body ← arrowBody r
  node .expr .arrow lo [group, body, types, result]

/-- An arrow function with a single name as its parameter. -/
def arrowOfName (lo : Nat) : P Node := do
  let p ← ident .pat
  let group := Node.mk .plain .group p.lo p.hi [p]
  arrowMark
  let body ← arrowBody r
  node .expr .arrow lo [group, body, .absent, .absent]

/-- An arrow function, when one starts at the current token. -/
def arrow : P (Option Node) := do
  let s ← get
  let isArrow : P Bool := return (← isMark "=>") && !(← newline)
  match s.token with
  | .mark "(" => attempt (arrowFrom r s.lo)
  | .mark "<" => if s.dialect.typed && !s.dialect.markup then attempt (arrowFrom r s.lo) else return none
  | .word w =>
    if reservedWords.contains w || unusableWords.contains w then return none
    if ← nextIs isArrow then return some (← arrowOfName r s.lo)
    if w != "async" then return none
    let startsParams : P Bool := return !(← newline) && ((← isMark "(") || (← isMark "<"))
    if ← nextIs startsParams then attempt (do advance; arrowFrom r s.lo)
    else attempt do
      advance
      if ← newline then failure
      arrowOfName r s.lo
  | _ => return none

/-! ## Assignments -/

/-- A `yield` expression. -/
def yield : P Node := do
  let lo ← start
  expectWord "yield"
  let s ← get
  let ends := s.newline || (match s.token with
    | .eof => true
    | .mark m => [")", "]", "\x7d", ",", ";", ":"].contains m
    | _ => false)
  if ends then node .expr .yieldExpr lo []
  else
    let _ ← eatMark "*"
    let e ← r .assign
    node .expr .yieldExpr lo [e]

/-- Whether an expression can be assigned to; patterns only as a whole. -/
def isAssignable (n : Node) (whole : Bool) : Bool :=
  match n.form with
  | .ident _ | .member | .optionalChain | .paren | .typeAs | .typeAssertion | .nonNull | .instantiation => true
  | .array | .object => whole
  | _ => false

/-- An assignment, or what binds more strongly. -/
def assignPlain : P Node := do
  let left ← conditional r
  let op ← operator
  if assignOperators.contains op then
    if !isAssignable left (op == "=") then failure
    skipOperator op
    let right ← r .assign
    let target := if op == "=" then left.toTarget else left.inRole .plain
    node .expr (.assign (op != "=")) left.lo [target, right]
  else return left

/-- An expression without commas. -/
def assign : P Node := do
  let s ← get
  if s.inGenerator && s.token == .word "yield" then yield r
  else match ← arrow r with
    | some n => return n
    | none =>
      if s.dialect.typed && s.dialect.markup && s.token == .mark "<" then
        match ← attempt (assignPlain r) with
        | some n => return n
        | none => arrowFrom r s.lo
      else assignPlain r

/-- Expressions separated by commas. -/
def expression : P Node := do
  let first ← r .assign
  let rest ← many do
    if ← eatMark "," then return some (← r .assign) else return none
  if rest.isEmpty then return first else node .expr .sequence first.lo (first :: rest)

end Refactor.Script.P
