import Refactor.Script.Parser.State

/-!
# Parsing types

Types are read only for the names and expressions inside them, so most of their nodes have the form
`typePart`. Keys of type members count as expressions.

* `P.typeAt` — a type
* `P.typeParams?`, `P.typeArgs`, `P.annotation?`, `P.returnType?` — the places where types occur
* `P.templateParts` — what stands between the texts of a template
-/

namespace Refactor.Script.P

variable (r : Goal → P Node)

/-! ## Templates -/

/-- Whether an escape in a template is well formed; characters have no octal numbers there. -/
def isTemplateEscape (c : Char) (rest : List Char) : Bool :=
  if c == '0' then !rest.head?.any (isDigitOf 8) else !isDigitOf 8 c && isHexEscape c rest

/-- Reads the text of a template up to its closing tick (`true`) or to an opening `$` brace
(`false`). A template with a tag may hold malformed escapes. -/
def templateText (tagged : Bool) : List Char → Nat → Option (Bool × List Char × Nat)
  | [], _ => none
  | '\x60' :: rest, pos => some (true, rest, pos + 1)
  | '$' :: '\x7b' :: rest, pos => some (false, rest, pos + 2)
  | '\\' :: c :: rest, pos =>
    if tagged || isTemplateEscape c rest then templateText tagged rest (pos + 1 + c.utf8Size) else none
  | c :: rest, pos => templateText tagged rest (pos + c.utf8Size)

/-- The parts of a template from a place inside its text on. -/
def templateLoop (tagged : Bool) (inner : P Node) : Nat → List Char → Nat → P (List Node)
  | 0, _, _ => failure
  | n + 1, cs, pos =>
    match templateText tagged cs pos with
    | none => failure
    | some (true, rest, stop) => do resumeAfter rest stop; return []
    | some (false, rest, stop) => do
      resumeAfter rest stop
      let part ← bracketed inner
      unless ← isMark "\x7d" do failure
      let s ← get
      return part :: (← templateLoop tagged inner n s.after s.hi)

/-- The parts of the template at the current tick. -/
def templateParts (tagged : Bool) (inner : P Node) : P (List Node) := do
  let s ← get
  templateLoop tagged inner (s.after.length + 1) s.after s.hi

/-! ## Parameters and arguments -/

/-- A node with a type annotation. -/
def annotated (n : Node) (type : Node) : Node :=
  if type.isAbsent then n else .mk n.role n.form n.lo n.hi (n.kids ++ [type])

/-- An annotation after a colon. -/
def annotation? : P Node := do
  if ← eatMark ":" then r .type else return .absent

/-- The parameters of a type, between angle brackets. -/
def typeParams? : P Node := do
  let lo ← start
  if ← isMark "<" then
    advance
    let params ← commaList ">" do
      let lo ← start
      let _ ← eatWord "const"
      let _ ← eatWord "in"
      if ← isWord "out" then
        if ← nextIs atIdent then advance
      let name ← ident .plain
      let bound ← if ← eatWord "extends" then r .type else pure .absent
      let default ← if ← eatMark "=" then r .type else pure .absent
      node .plain .typePart lo [name, bound, default]
    node .plain .group lo params
  else return .absent

/-- Type arguments between angle brackets. -/
def typeArgs : P Node := do
  let lo ← start
  expectMark "<"
  let args ← commaList ">" (r .type)
  node .plain .group lo args

/-- One parameter of a function type or signature. -/
def signatureParam : P Node := do
  let lo ← start
  if ← eatMark "..." then
    let arg ← r .binding
    let type ← annotation? r
    return annotated (← node .plain .restPat lo [arg]) type
  else if ← isWord "this" then
    advance
    let type ← annotation? r
    return annotated (← node .plain (.ident "this") lo []) type
  else
    let p ← r .binding
    let _ ← eatMark "?"
    let type ← annotation? r
    return annotated (p.inRole .plain) type

/-- The parameters of a function type or signature, between parentheses. -/
def signatureParams : P (List Node) := do
  expectMark "("
  commaList ")" (signatureParam r)

/-- A type, or a statement about a parameter. -/
def typeOrPredicate : P Node := do
  let lo ← start
  let asserted ← isWord "asserts"
  let subjectNext ← nextIs (do return !(← newline) && ((← atIdent) || (← isWord "this")))
  if asserted && subjectNext then
    advance
    let subject ← if ← isWord "this" then do advance; pure .absent else ident .plain
    let type ← if ← eatWord "is" then r .type else pure .absent
    node .plain .typePart lo [subject, type]
  else
    let isNext ← nextIs (do return !(← newline) && (← isWord "is"))
    let subjectHere := (← atIdent) || (← isWord "this")
    if subjectHere && isNext then
      let subject ← if ← isWord "this" then do advance; pure .absent else ident .plain
      expectWord "is"
      let type ← r .type
      node .plain .typePart lo [subject, type]
    else r .type

/-- The type that a function returns, after a colon. -/
def returnType? : P Node := do
  if ← eatMark ":" then typeOrPredicate r else return .absent

/-! ## Members of object types -/

/-- The key of a member; it counts as an expression. -/
def memberKey : P Node := do
  let lo ← start
  match ← token with
  | .word w => advance; node .expr (.ident w) lo []
  | .text => advance; node .expr (.literal .string) lo []
  | .number => advance; node .expr (.literal .number) lo []
  | .bigint => advance; node .expr (.literal .bigint) lo []
  | .mark "[" =>
    advance
    let e ← bracketed (r .assign)
    expectMark "]"
    return e
  | _ => failure

/-- Whether a key starts at the current token. -/
def atKey : P Bool := do
  match ← token with
  | .word _ | .text | .number | .bigint | .mark "[" | .privateName => return true
  | _ => return false

/-- The end of a member. -/
def endMember : P Unit := do
  if ← eatMark ";" then return
  if ← eatMark "," then return
  if ← newline then return
  if ← isMark "\x7d" then return
  failure

/-- An index signature, from its bracket on. -/
def indexSignature : P Node := do
  let lo ← start
  expectMark "["
  let name ← ident .plain
  expectMark ":"
  let key ← r .type
  expectMark "]"
  let type ← annotation? r
  node .plain .typePart lo [annotated name key, type]

/-- The type parameters, parameters and result of a signature. -/
def signature : P (List Node) := do
  let types ← typeParams? r
  let params ← signatureParams r
  let result ← returnType? r
  return params ++ [result, types]

/-- A member of an object type. -/
def typeMember : P Node := do
  let lo ← start
  let m ← do
    let startsSignature : P Bool := return (← isMark "(") || (← isMark "<")
    if ← startsSignature then node .plain .typePart lo (← signature r)
    else if (← isWord "new") && (← nextIs startsSignature) then
      advance
      node .plain .typePart lo (← signature r)
    else
      if (← isWord "readonly") && (← nextIs atKey) then advance
      match ← attempt (indexSignature r) with
      | some n => pure n
      | none =>
        if ((← isWord "get") || (← isWord "set")) && (← nextIs atKey) then advance
        let key ← memberKey r
        let _ ← eatMark "?"
        if ← startsSignature then node .plain .typePart lo (key :: (← signature r))
        else
          let type ← annotation? r
          node .plain .typePart lo [key, type]
  endMember
  return m

/-- The members of an object type, between braces. -/
def typeMembers : P (List Node) := do
  expectMark "\x7b"
  let ms ← many do
    if ← isMark "\x7d" then return none
    return some (← typeMember r)
  expectMark "\x7d"
  return ms

/-- A mapped type. -/
def mappedType : P Node := do
  let lo ← start
  expectMark "\x7b"
  if (← isMark "+") || (← isMark "-") then advance
  let _ ← eatWord "readonly"
  expectMark "["
  let name ← ident .plain
  expectWord "in"
  let keys ← r .type
  let renamed ← if ← eatWord "as" then r .type else pure .absent
  expectMark "]"
  if (← isMark "+") || (← isMark "-") then advance
  let _ ← eatMark "?"
  let type ← annotation? r
  let _ ← eatMark ";"
  expectMark "\x7d"
  node .plain .typePart lo [name, keys, renamed, type]

/-! ## Types -/

/-- Names of types that are built in. -/
def builtinTypes : List String :=
  ["any", "unknown", "number", "object", "boolean", "bigint", "string", "symbol", "void", "undefined", "null",
   "never", "true", "false", "intrinsic"]

/-- A name with the parts after its dots. -/
def entityName : P Node := do
  let lo ← start
  let head ← if ← isWord "this" then do advance; pure .absent else ident .plain
  let _ ← many do
    if ← eatMark "." then return some (← anyWord) else return none
  node .plain .typePart lo [head]

/-- Type arguments on the same line. -/
def typeArgs? : P Node := do
  if (← isMark "<") && !(← newline) then typeArgs r else return .absent

/-- A type imported by its module. -/
def importType : P Node := do
  let lo ← start
  expectWord "import"
  expectMark "("
  let arg ← r .type
  if ← eatMark "," then let _ ← bracketed (r .assign)
  expectMark ")"
  let _ ← many do
    if ← eatMark "." then return some (← anyWord) else return none
  let args ← typeArgs? r
  node .plain .typePart lo [arg, args]

/-- An element of a tuple type. -/
def tupleElement : P Node := do
  let lo ← start
  let _ ← eatMark "..."
  let isLabel ← lookahead do
    let _ ← anyWord
    let _ ← eatMark "?"
    expectMark ":"
  let label ← if isLabel.isSome then do
      let at_ ← start
      let w ← anyWord
      let n ← node .pat (.ident w) at_ []
      let _ ← eatMark "?"
      expectMark ":"
      pure n
    else pure .absent
  let type ← r .type
  let _ ← eatMark "?"
  node .plain .typePart lo [label, type]

/-- A type without operators. -/
def typeAtom : P Node := do
  let lo ← start
  match ← token with
  | .text | .number | .bigint => advance; node .plain .typePart lo []
  | .mark "-" =>
    advance
    if (← token) == .number || (← token) == .bigint then advance else failure
    node .plain .typePart lo []
  | .mark "`" => node .plain .typePart lo (← templateParts false (r .type))
  | .mark "\x7b" =>
    match ← attempt (mappedType r) with
    | some n => return n
    | none => node .plain .typePart lo (← typeMembers r)
  | .mark "[" =>
    advance
    let es ← commaList "]" (tupleElement r)
    node .plain .typePart lo es
  | .mark "(" =>
    advance
    let t ← r .type
    expectMark ")"
    node .plain .typePart lo [t]
  | .word "this" => advance; node .plain .typePart lo []
  | .word "import" => importType r
  | .word "typeof" =>
    advance
    let name ← if ← isWord "import" then importType r else entityName
    let args ← typeArgs? r
    node .plain .typePart lo [name, args]
  | .word w =>
    if builtinTypes.contains w && !(← nextIs (isMark ".")) then
      advance
      node .plain .typePart lo []
    else
      let name ← entityName
      let args ← typeArgs? r
      node .plain .typePart lo [name, args]
  | _ => failure

/-- A type with brackets after it. -/
def arrayType : P Node := do
  let lo ← start
  let t ← typeAtom r
  foldMany (fun t => do
    if (← isMark "[") && !(← newline) then
      advance
      if ← eatMark "]" then return some (← node .plain .typePart lo [t])
      let i ← r .type
      expectMark "]"
      return some (← node .plain .typePart lo [t, i])
    else return none) t

/-- A type with operators before it. -/
def typeOperand : P Node := do
  let lo ← start
  let followed : P Bool := do
    match ← token with
    | .word w => return w != "extends" && w != "is" && w != "in"
    | .mark m => return m == "\x7b" || m == "[" || m == "(" || m == "`"
    | .text | .number => return true
    | _ => return false
  if ((← isWord "keyof") || (← isWord "unique") || (← isWord "readonly")) && (← nextIs followed) then
    advance
    let t ← r .typeOperand
    node .plain .typePart lo [t]
  else if (← isWord "infer") && (← nextIs atIdent) then
    advance
    let name ← ident .plain
    let bound ← attempt do
      expectWord "extends"
      let t ← r .typeOperand
      if (← isMark "?") && !(← get).questionAhead then failure
      return t
    node .plain .typePart lo [name, bound.getD .absent]
  else arrayType r

/-- Operands between an operator, which may also stand first. -/
def typeChain (op : String) (operand : P Node) : P Node := do
  let lo ← start
  let _ ← eatMark op
  let first ← operand
  let rest ← many do
    if ← eatMark op then return some (← operand) else return none
  if rest.isEmpty then return first else node .plain .typePart lo (first :: rest)

/-- A union of intersections. -/
def unionType : P Node := typeChain "|" (typeChain "&" (typeOperand r))

/-- A function or constructor type. -/
def functionType : P Node := do
  let lo ← start
  if ← isWord "abstract" then advance; unless ← isWord "new" do failure
  let _ ← eatWord "new"
  let types ← typeParams? r
  let params ← signatureParams r
  expectMark "=>"
  let result ← typeOrPredicate r
  node .plain .typePart lo (params ++ [result, types])

/-- A type that is not conditional. -/
def plainType : P Node := do
  let constructs :=
    ((← isWord "new") && (← nextIs (do return (← isMark "(") || (← isMark "<")))) ||
      ((← isWord "abstract") && (← nextIs (isWord "new")))
  if constructs || (← isMark "<") then functionType r
  else if ← isMark "(" then
    match ← attempt (functionType r) with
    | some n => return n
    | none => unionType r
  else unionType r

/-- A type. -/
def typeAt : P Node := within (fun s => { s with questionAhead := false }) do
  let lo ← start
  let t ← plainType r
  if (← isWord "extends") && !(← newline) then
    advance
    let bound ← within (fun s => { s with questionAhead := true }) (plainType r)
    expectMark "?"
    let a ← r .type
    expectMark ":"
    let b ← r .type
    node .plain .typePart lo [t, bound, a, b]
  else return t

end Refactor.Script.P
