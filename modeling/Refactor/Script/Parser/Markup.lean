import Refactor.Script.Parser.Function

/-!
# Parsing markup elements

Elements such as `<a href="x">text</a>` inside scripts. The text between tags is no sequence of tokens,
so it is walked character by character. A parser of an element stops at its last `>`, which the place
that uses the element steps over.

* `P.markup` — an element or fragment
-/

namespace Refactor.Script.P

variable (r : Goal → P Node)

/-- A name of markup, which may hold dashes, at the current place. -/
def markupWord : P String := do
  let s ← get
  let name := s.here.takeWhile fun c => Text.isIdentPart c || c == '-'
  if !s.here.head?.any Text.isIdentStart then failure
  resumeAfter (s.here.drop name.length) (s.lo + Text.utf8Size name)
  return String.ofList name

/-- The name of an element, in parts; only the first one is an identifier. -/
def markupName : P (List String × Node) := do
  let lo ← start
  let head ← markupWord
  let name ← node .plain (.ident head) lo []
  if ← eatMark ":" then
    let rest ← markupWord
    return ([head, ":", rest], ← node .plain .label lo [])
  else
    let rest ← many do
      if ← eatMark "." then return some (← markupWord) else return none
    if rest.isEmpty then return ([head], name)
    return (head :: rest, ← node .plain .group lo [name])

/-- The rest of a quoted attribute value after its quote, with the bytes read. -/
def quotedEnd (quote : Char) : List Char → Nat → Option (List Char × Nat)
  | [], _ => none
  | c :: rest, n => if c == quote then some (rest, n + 1) else quotedEnd quote rest (n + c.utf8Size)

/-- Steps over the `>` of an element used as a value. -/
def closed (n : Node) : P Node := do
  expectMark ">"
  return n

/-- The value of an attribute, after `=`. -/
def attributeValue : P Node := do
  let s ← get
  match s.here with
  | '{' :: _ =>
    advance
    let e ← bracketed (r .expr)
    expectMark "\x7d"
    return e
  | '<' :: _ => closed ((← r .markup).inRole .plain)
  | c :: rest =>
    if c == '"' || c == '\'' then
      match quotedEnd c rest 1 with
      | some (after, n) =>
        resumeAfter after (s.lo + n)
        return .absent
      | none => failure
    else failure
  | [] => failure

/-- An attribute. -/
def markupAttribute : P Node := do
  let lo ← start
  if ← eatMark "\x7b" then
    expectMark "..."
    let e ← bracketed (r .assign)
    expectMark "\x7d"
    node .plain .spread lo [e]
  else
    let _ ← markupWord
    if ← eatMark ":" then let _ ← markupWord
    let value ← if ← eatMark "=" then attributeValue r else pure .absent
    node .plain .group lo [value]

/-- The children of an element from a place inside its text on; the state is left at the `<` of the
closing tag. -/
def children : Nat → List Char → Nat → P (List Node)
  | 0, _, _ => failure
  | n + 1, cs, pos => do
    let text := cs.takeWhile fun c => c != '<' && c != '{'
    let cs := cs.drop text.length
    let pos := pos + Text.utf8Size text
    match cs with
    | '<' :: '/' :: _ => resumeAt cs pos; return []
    | '<' :: _ =>
      resumeAt cs pos
      let child ← r .markup
      let s ← get
      unless ← isMark ">" do failure
      return child.inRole .plain :: (← children n s.after s.hi)
    | '{' :: rest =>
      resumeAfter rest (pos + 1)
      let kids ← if ← isMark "\x7d" then pure [] else do
        let _ ← eatMark "..."
        let e ← bracketed (r .expr)
        pure [e]
      unless ← isMark "\x7d" do failure
      let s ← get
      return kids ++ (← children n s.after s.hi)
    | _ => failure

/-- What follows the `>` of an opening tag: the children and the name in the closing tag, which is the same
as in the opening one. -/
def elementRest (opened : List String) : P (List Node) := do
  let s ← get
  unless ← isMark ">" do failure
  let kids ← children r (s.after.length + 1) s.after s.hi
  expectMark "<"
  expectMark "/"
  let (name, n) ← if ← isMark ">" then pure ([], .absent) else markupName
  unless ← isMark ">" do failure
  if name != opened then failure
  return kids ++ [n]

/-- An element or fragment, up to its last `>`. -/
def markup : P Node := do
  let lo ← start
  expectMark "<"
  let kids ← if ← isMark ">" then elementRest r [] else do
    let (opened, name) ← markupName
    let args ← if ← typed then typeArgs? r else pure .absent
    let attrs ← many do
      if (← isMark ">") || (← isMark "/") then return none
      return some (← markupAttribute r)
    if ← eatMark "/" then
      unless ← isMark ">" do failure
      pure (name :: attrs ++ [args])
    else
      let rest ← elementRest r opened
      pure (name :: attrs ++ [args] ++ rest)
  let s ← get
  return .mk .expr .jsx lo s.hi kids

end Refactor.Script.P
