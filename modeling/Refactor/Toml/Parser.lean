import Refactor.Toml.Basic
import Refactor.Toml.Scalar

/-!
# Reading TOML

* `Toml.key`, `Toml.value` — keys and values
* `Toml.line` — one line of a document
* `Toml.parse?` — a document
-/

namespace Refactor.Toml

/-- Reads from the front of a text, or refuses it. -/
abbrev Reader := StateT (List Char) Option

/-! ## Blanks and comments -/

def isSpace (c : Char) : Bool := c == ' ' || c == '\t'

def skipSpaces : Reader Unit := modify (·.dropWhile isSpace)

/-- Characters that a comment or a quoted text may hold. -/
def isPlain (c : Char) : Bool := c == '\t' || (32 ≤ c.toNat && c.toNat != 127)

def skipComment : Reader Unit := modify fun cs =>
  match cs with
  | '#' :: rest => rest.dropWhile isPlain
  | _ => cs

/-- A line break, when one is next. -/
def newline : Reader Bool := modifyGet fun cs =>
  match cs with
  | '\n' :: rest => (true, rest)
  | '\r' :: '\n' :: rest => (true, rest)
  | _ => (false, cs)

/-- What may follow at the end of a line. -/
def endOfLine : Reader Unit := do
  skipSpaces
  skipComment
  unless (← newline) || (← get).isEmpty do failure

/-- Blanks, comments and line breaks, at most `fuel` lines. -/
def skipLines : Nat → Reader Unit
  | 0 => pure ()
  | fuel + 1 => do
    skipSpaces
    skipComment
    if ← newline then skipLines fuel

def expect (c : Char) : Reader Unit := do
  match ← get with
  | d :: rest => if d == c then set rest else failure
  | [] => failure

/-- Takes a text when it is next. -/
def accept (lead : String) : Reader Bool := modifyGet fun cs =>
  match Text.dropLead? lead.toList cs with
  | some rest => (true, rest)
  | none => (false, cs)

/-! ## Quoted texts -/

/-- The character of a number in hexadecimal digits. -/
def numbered (n : Nat) : Reader Char := do
  let cs ← get
  let ds := (cs.take n).filterMap (digit? 16)
  let v := valueOf 16 ds
  if ds.length != n || !(v < 0xD800 || (0xDFFF < v && v < 0x110000)) then failure
  set (cs.drop n)
  return Char.ofNat v

/-- Escapes of one letter. -/
def escapes : List (Char × Char) :=
  [('b', '\x08'), ('t', '\t'), ('n', '\n'), ('f', '\x0c'), ('r', '\r'), ('"', '"'), ('\\', '\\')]

/-- The character of an escape, after the backslash. -/
def escaped : Reader Char := do
  match ← get with
  | 'u' :: rest => do set rest; numbered 4
  | 'U' :: rest => do set rest; numbered 8
  | c :: rest => do
    set rest
    escapes.lookup c
  | [] => failure

/-- The rest of a text on one line. -/
def basicText : Nat → List Char → Reader String
  | 0, _ => failure
  | fuel + 1, done => do
    match ← get with
    | [] => failure
    | c :: rest =>
      set rest
      if c == '"' then return String.ofList done.reverse
      else if c == '\\' then basicText fuel ((← escaped) :: done)
      else if isPlain c then basicText fuel (c :: done)
      else failure

def literalText : Reader String := do
  let cs ← get
  set (cs.dropWhile fun c => isPlain c && c != '\'')
  expect '\''
  return String.ofList (cs.takeWhile fun c => isPlain c && c != '\'')

/-- The end of a long text: three quotes, and up to two more that belong to it. -/
def longEnd (quote : Char) : Reader (Option (List Char)) := modifyGet fun cs =>
  let run := cs.takeWhile (· == quote)
  if 3 ≤ run.length then (some (List.replicate (min run.length 5 - 3) quote), cs.drop (min run.length 5))
  else (none, cs)

/-- A text without the blanks and line breaks at its start. -/
def dropBreaks : List Char → List Char
  | '\n' :: rest => dropBreaks rest
  | '\r' :: '\n' :: rest => dropBreaks rest
  | c :: rest => if isSpace c then dropBreaks rest else c :: rest
  | [] => []

/-- A backslash at the end of a line leaves out the break and all blanks after it. -/
def continued (cs : List Char) : Option (List Char) :=
  match cs.dropWhile isSpace with
  | '\n' :: rest => some (dropBreaks rest)
  | '\r' :: '\n' :: rest => some (dropBreaks rest)
  | _ => none

/-- The rest of a text of several lines. -/
def longText (quote : Char) : Nat → List Char → Reader String
  | 0, _ => failure
  | fuel + 1, done => do
    match ← longEnd quote with
    | some tail => return String.ofList (done.reverse ++ tail)
    | none =>
      if ← newline then longText quote fuel ('\n' :: done)
      else match ← get with
        | [] => failure
        | c :: rest =>
          set rest
          if c == '\\' && quote == '"' then
            match continued rest with
            | some after => do set after; longText quote fuel done
            | none => longText quote fuel ((← escaped) :: done)
          else if isPlain c then longText quote fuel (c :: done)
          else failure

/-- A text of several lines; a break right after the quotes is left out. -/
def longString (quote : Char) : Reader String := do
  let _ ← newline
  longText quote ((← get).length + 1) []

/-! ## Keys -/

def isKeyChar (c : Char) : Bool := c.isAlphanum || c == '_' || c == '-'

/-- One part of a key. -/
def keyPart : Reader String := do
  if ← accept "\"" then basicText ((← get).length + 1) []
  else if ← accept "'" then literalText
  else
    let cs ← get
    let name := cs.takeWhile isKeyChar
    if name.isEmpty then failure
    set (cs.dropWhile isKeyChar)
    return String.ofList name

/-- The parts of a key, separated by dots. -/
def keyParts : Nat → Reader (List String)
  | 0 => failure
  | fuel + 1 => do
    skipSpaces
    let part ← keyPart
    skipSpaces
    if ← accept "." then return part :: (← keyParts fuel) else return [part]

/-- A key: the path to a table, and the name in it. -/
def key : Reader (List String × String) := do
  let parts ← keyParts ((← get).length + 1)
  return (parts.dropLast, ← parts.getLast?)

/-! ## Values -/

def isWordChar (c : Char) : Bool := c.isAlphanum || c == '_' || c == '+' || c == '-' || c == '.' || c == ':'

/-- A bare word; a blank may stand between a date and a time. -/
def word : Reader Json := do
  let cs ← get
  let first := cs.takeWhile isWordChar
  let rest := cs.dropWhile isWordChar
  let (text, rest) := match rest with
    | ' ' :: c :: more =>
      if c.isDigit && ((date? first).any fun (d : String × List Char) => d.2.isEmpty) then
        (first ++ ' ' :: (c :: more).takeWhile isWordChar, (c :: more).dropWhile isWordChar)
      else (first, rest)
    | _ => (first, rest)
  set rest
  scalar? text

mutual

/-- A value. -/
def value : Nat → Reader Json
  | 0 => failure
  | fuel + 1 => do
    if ← accept "\"\"\"" then return .str (← longString '"')
    else if ← accept "\"" then return .str (← basicText ((← get).length + 1) [])
    else if ← accept "'''" then return .str (← longString '\'')
    else if ← accept "'" then return .str (← literalText)
    else if ← accept "[" then return .arr (← arrayItems fuel)
    else if ← accept "\x7b" then
      skipSpaces
      if ← accept "\x7d" then return .obj []
      else return (Item.table .header (← inlineEntries fuel [])).toJson
    else word

/-- The rest of an array; a comma may stand after the last item. -/
def arrayItems : Nat → Reader (List Json)
  | 0 => failure
  | fuel + 1 => do
    skipLines ((← get).length + 1)
    if ← accept "]" then return []
    else
      let j ← value fuel
      skipLines ((← get).length + 1)
      if ← accept "," then return j :: (← arrayItems fuel)
      else do
        expect ']'
        return [j]

/-- The rest of a table on one line. -/
def inlineEntries : Nat → Entries → Reader Entries
  | 0, _ => failure
  | fuel + 1, entries => do
    let (path, k) ← key
    expect '='
    skipSpaces
    let v ← value fuel
    skipSpaces
    let entries ← assign path k v .header entries
    if ← accept "," then inlineEntries fuel entries
    else do
      expect '\x7d'
      return entries

end

/-! ## Documents -/

/-- A document so far: its tables, and the path of the open one. -/
structure Document where
  entries : Entries := []
  here : List String := []

/-- One line. -/
def line (d : Document) : Reader Document := do
  skipSpaces
  let cs ← get
  if cs.isEmpty || cs.head?.any fun c => c == '#' || c == '\n' || c == '\r' then do
    endOfLine
    return d
  else if ← accept "[[" then
    let (path, k) ← key
    expect ']'
    expect ']'
    endOfLine
    return { entries := ← openArray path k d.entries, here := path ++ [k] }
  else if ← accept "[" then
    let (path, k) ← key
    expect ']'
    endOfLine
    return { entries := ← openTable path k d.entries, here := path ++ [k] }
  else
    let (path, k) ← key
    expect '='
    skipSpaces
    let v ← value (cs.length + 1)
    endOfLine
    return { d with entries := ← alterAt false (assign path k v) d.here .header d.entries }

/-- The remaining lines. -/
def lines : Nat → Document → Reader Document
  | 0, _ => failure
  | fuel + 1, d => do
    if (← get).isEmpty then return d
    else lines fuel (← line d)

/-- The document of a text. -/
def parse? (text : List Char) : Option Json :=
  let text := (Text.dropLead? ['\uFEFF'] text).getD text
  ((lines (text.length + 1) {}).run text).map fun (d, _) => (Item.table .header d.entries).toJson

end Refactor.Toml
