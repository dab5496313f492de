import Refactor.Script.Token
import Refactor.Script.Tree

/-!
# The state of parsing

A parser reads a module token by token; it may look ahead and step back by keeping an older state.

* `Dialect` — which extensions of the language are read
* `Cursor` — the current token and what follows it
* `P` — parsers
* `Goal` — the nonterminals that refer to each other
-/

namespace Refactor.Script

/-- The extensions of the language that are read: types, and markup elements. -/
structure Dialect where
  typed : Bool
  markup : Bool
deriving DecidableEq, Repr

/-- The current token with its surroundings. -/
structure Cursor where
  dialect : Dialect
  /-- the text from the current token on -/
  here : List Char
  lo : Nat
  token : Token
  /-- the text after the current token -/
  after : List Char
  hi : Nat
  /-- a line ended before the current token -/
  newline : Bool
  /-- end of the token before -/
  lastHi : Nat
  /-- comments so far, last first -/
  comments : List Comment
  /-- `in` is no operator here -/
  noIn : Bool := false
  /-- `yield` is an operator here -/
  inGenerator : Bool := false
  /-- a colon after parentheses belongs to a conditional -/
  colonAhead : Bool := false
  /-- a question mark after a type belongs to a conditional type -/
  questionAhead : Bool := false

/-- Parsers: they fail or answer with the state after what they read. -/
abbrev P := StateT Cursor Option

/-- The nonterminals that refer to each other. -/
inductive Goal where
  | item
  /-- `decl`: declarations are allowed -/
  | stmt (decl : Bool)
  | expr
  | assign
  | binary (least : Nat)
  | unary
  | callee
  | lhs
  | binding
  | type
  | typeOperand
  | markup
deriving DecidableEq, Repr

namespace P

/-! ## Tokens -/

/-- The state at the token that starts right at a place. -/
def Cursor.at (s : Cursor) (cs : List Char) (pos : Nat) (newline : Bool) : Cursor :=
  let (token, n, after) := Token.scan cs
  { s with here := cs, lo := pos, token, after, hi := pos + n, newline }

/-- The state at the next token after blanks and comments from a place on. -/
def Cursor.next (s : Cursor) (cs : List Char) (pos : Nat) : Cursor :=
  let k := skipTrivia (cs.length + 1) ⟨cs, pos, false, []⟩
  Cursor.at { s with comments := k.comments.map (fun (a, b) => ⟨k.pos, a, b⟩) ++ s.comments } k.rest k.pos k.newline

/-- Steps over the current token. -/
def advance : P Unit := modify fun s => Cursor.next { s with lastHi := s.hi } s.after s.hi

/-- Goes on at a place, after blanks and comments; what lies before it has been read. -/
def resumeAfter (cs : List Char) (pos : Nat) : P Unit :=
  modify fun s => Cursor.next { s with lastHi := pos } cs pos

/-- Goes on with the token that starts right at a place. -/
def resumeAt (cs : List Char) (pos : Nat) : P Unit := modify fun s => Cursor.at s cs pos false

/-- The current token. -/
def token : P Token := return (← get).token

/-- Start of the current token. -/
def start : P Nat := return (← get).lo

/-- End of the last token that was read. -/
def lastHi : P Nat := return (← get).lastHi

/-- Whether a line ended before the current token. -/
def newline : P Bool := return (← get).newline

def typed : P Bool := return (← get).dialect.typed

def isMark (m : String) : P Bool := return (← token) == .mark m

def isWord (w : String) : P Bool := return (← token) == .word w

/-- Steps over a mark when it is there. -/
def eatMark (m : String) : P Bool := do
  if ← isMark m then advance; return true else return false

def eatWord (w : String) : P Bool := do
  if ← isWord w then advance; return true else return false

def expectMark (m : String) : P Unit := do unless ← eatMark m do failure

def expectWord (w : String) : P Unit := do unless ← eatWord w do failure

/-- Runs a parser and keeps the old state when it fails. -/
def attempt {α : Type} (p : P α) : P (Option α) := fun s =>
  match p s with
  | some (a, s) => some (some a, s)
  | none => some (none, s)

/-- The answer of a parser, the state left as it is. -/
def lookahead {α : Type} (p : P α) : P (Option α) := fun s =>
  match p s with
  | some (a, _) => some (some a, s)
  | none => some (none, s)

/-- Whether a test holds at the token after the current one. -/
def nextIs (test : P Bool) : P Bool := return (← lookahead (do advance; test)).getD false

/-- Runs a parser in a changed context, and restores the context. -/
def within {α : Type} (change : Cursor → Cursor) (p : P α) : P α := do
  let s ← get
  set (change s)
  let a ← p
  modify fun t =>
    { t with noIn := s.noIn, inGenerator := s.inGenerator, colonAhead := s.colonAhead, questionAhead := s.questionAhead }
  return a

/-- Inside brackets every operator is allowed. -/
def bracketed {α : Type} (p : P α) : P α := within (fun s => { s with noIn := false, colonAhead := false }) p

/-! ## Repetition -/

/-- Repeats a parser as long as it answers; it must read something each time. -/
def repeatUpTo {α : Type} (p : P (Option α)) : Nat → P (List α)
  | 0 => failure
  | n + 1 => do
    match ← p with
    | some a => return a :: (← repeatUpTo p n)
    | none => return []

/-- Repeats a parser until it has no answer. -/
def many {α : Type} (p : P (Option α)) : P (List α) := do repeatUpTo p ((← get).here.length + 2)

/-- Repeats a step on a value until it has no answer. -/
def foldUpTo {α : Type} (p : α → P (Option α)) : Nat → α → P α
  | 0, _ => failure
  | n + 1, a => do
    match ← p a with
    | some b => foldUpTo p n b
    | none => return a

def foldMany {α : Type} (p : α → P (Option α)) (a : α) : P α := do foldUpTo p ((← get).here.length + 2) a

/-- Items separated by commas up to a closing mark, which is read too; a comma may end the list. -/
def commaList {α : Type} (close : String) (item : P α) : P (List α) := do
  let items ← many do
    if ← isMark close then return none
    let a ← item
    unless ← isMark close do expectMark ","
    return some a
  expectMark close
  return items

/-! ## Nodes and words -/

/-- A node from a place to the end of what was read. -/
def node (role : Role) (form : Form) (lo : Nat) (kids : List Node) : P Node :=
  return .mk role form lo (← lastHi) kids

/-- The identifier at the current token. -/
def identName : P String := do
  match ← token with
  | .word w => if reservedWords.contains w then failure else advance; return w
  | _ => failure

/-- An identifier in a role. -/
def ident (role : Role) : P Node := do
  let lo ← start
  let name ← identName
  node role (.ident name) lo []

/-- Any word, reserved or not. -/
def anyWord : P String := do
  match ← token with
  | .word w => advance; return w
  | _ => failure

/-- Whether the current token is a word that can be an identifier. -/
def atIdent : P Bool := do
  match ← token with
  | .word w => return !reservedWords.contains w
  | _ => return false

/-- The end of a statement: a semicolon, or a place where it may be left out. -/
def endStatement : P Unit := do
  if ← eatMark ";" then return
  if ← newline then return
  match ← token with
  | .eof => return
  | .mark "\x7d" => return
  | _ => failure

end P

end Refactor.Script
