import Refactor.Json.Basic
import Refactor.Text.Basic

/-!
# Reading documents

A reader for JSON text. A failure says what was wrong and where: the line, from one, and the
number of bytes of that line read so far. Nesting is limited to 127 levels.

* `Fault` — what can be wrong with a text
* `Json.parse` — the document a text holds
* `Json.parseMessage` — the same, with the fault in words
-/

namespace Refactor.Json

/-- What can be wrong with a text. -/
inductive Fault where
  | eofInList | eofInObject | eofInString | eofInValue
  | expectedColon | expectedListCommaOrEnd | expectedObjectCommaOrEnd
  | expectedIdent | expectedValue | keyMustBeString
  | invalidEscape | invalidNumber | numberOutOfRange | controlCharacter
  | loneSurrogate | unexpectedEndOfHexEscape
  | trailingComma | trailingCharacters | tooDeep
deriving DecidableEq, Repr

/-- The wording of a fault. -/
def Fault.text : Fault → String
  | .eofInList => "EOF while parsing a list"
  | .eofInObject => "EOF while parsing an object"
  | .eofInString => "EOF while parsing a string"
  | .eofInValue => "EOF while parsing a value"
  | .expectedColon => "expected `:`"
  | .expectedListCommaOrEnd => "expected `,` or `]`"
  | .expectedObjectCommaOrEnd => "expected `,` or `\x7d`"
  | .expectedIdent => "expected ident"
  | .expectedValue => "expected value"
  | .keyMustBeString => "key must be a string"
  | .invalidEscape => "invalid escape"
  | .invalidNumber => "invalid number"
  | .numberOutOfRange => "number out of range"
  | .controlCharacter => "control character (\\u0000-\\u001F) found while parsing a string"
  | .loneSurrogate => "lone leading surrogate in hex escape"
  | .unexpectedEndOfHexEscape => "unexpected end of hex escape"
  | .trailingComma => "trailing comma"
  | .trailingCharacters => "trailing characters"
  | .tooDeep => "recursion limit exceeded"

/-- A fault with its place. -/
structure Failure where
  fault : Fault
  line : Nat
  column : Nat
deriving DecidableEq, Repr

def Failure.message (f : Failure) : String :=
  f.fault.text ++ " at line " ++ toString f.line ++ " column " ++ toString f.column

/-- What is left to read, and the place reached. -/
structure Cursor where
  rest : List Char
  line : Nat := 1
  column : Nat := 0

namespace Cursor

/-- The place after one more character. -/
def step (c : Cursor) (ch : Char) (rest : List Char) : Cursor :=
  if ch = '\n' then ⟨rest, c.line + 1, 0⟩ else ⟨rest, c.line, c.column + ch.utf8Size⟩

/-- A failure at the place reached. -/
def fail {α : Type} (c : Cursor) (f : Fault) : Except Failure α := .error ⟨f, c.line, c.column⟩

/-- A failure at the next byte. -/
def failNext {α : Type} (c : Cursor) (f : Fault) : Except Failure α :=
  match c.rest with
  | [] => .error ⟨f, c.line, c.column⟩
  | ch :: _ => if ch = '\n' then .error ⟨f, c.line + 1, 0⟩ else .error ⟨f, c.line, c.column + 1⟩

/-- The place after white space. -/
def skipBlank (c : Cursor) : Cursor :=
  go c.rest c
where
  /-- Walk over blanks, line ends and tabs. -/
  go : List Char → Cursor → Cursor
    | [], c => c
    | ch :: rest, c =>
      if ch == ' ' || ch == '\n' || ch == '\t' || ch == '\r' then go rest (c.step ch rest) else c

/-- Skip up to `n` bytes. -/
def skipBytes : Nat → Cursor → List Char → Cursor
  | 0, c, _ => c
  | _ + 1, c, [] => c
  | n + 1, c, ch :: rest =>
    if ch.utf8Size ≤ n + 1 then skipBytes (n + 1 - ch.utf8Size) (c.step ch rest) rest
    else ⟨rest, c.line, c.column + (n + 1)⟩
termination_by _ _ cs => cs.length

end Cursor

/-- The rest of a fixed word. -/
def word (value : Json) : List Char → Cursor → Except Failure (Json × Cursor)
  | [], c => .ok (value, c)
  | w :: ws, c =>
    match c.rest with
    | [] => c.fail .eofInValue
    | ch :: rest =>
      let c := c.step ch rest
      if ch = w then word value ws c else c.fail .expectedIdent

/-- Leading decimal digits: their value, their number, and what follows. -/
def digits (acc count : Nat) : List Char → Nat × Nat × List Char
  | [] => (acc, count, [])
  | ch :: rest =>
    if ch.isDigit then digits (acc * 10 + (ch.toNat - 48)) (count + 1) rest else (acc, count, ch :: rest)

/-- The exponent of a number, after its mark. -/
def exponent (negative : Bool) (mantissa : Nat) (shift : Int) (c : Cursor) :
    Except Failure (Json × Cursor) :=
  let (minus, c) := match c.rest with
    | '+' :: rest => (false, c.step '+' rest)
    | '-' :: rest => (true, c.step '-' rest)
    | _ => (false, c)
  match c.rest with
  | [] => c.fail .eofInValue
  | ch :: rest =>
    if !ch.isDigit then (c.step ch rest).fail .invalidNumber
    else
      let (e, count, rest) := digits 0 0 (ch :: rest)
      let c : Cursor := ⟨rest, c.line, c.column + count⟩
      let e : Int := if minus then -(e : Int) else e
      match Real.ofDecimal negative mantissa (shift + e) with
      | some bits => .ok (.real bits, c)
      | none => c.fail .numberOutOfRange

/-- What follows the integer part of a number. -/
def fraction (negative : Bool) (whole : Nat) (c : Cursor) : Except Failure (Json × Cursor) :=
  match c.rest with
  | '.' :: rest =>
    let c := c.step '.' rest
    let (mantissa, count, rest) := digits whole 0 c.rest
    if count = 0 then c.failNext (if c.rest.isEmpty then .eofInValue else .invalidNumber)
    else
      let c : Cursor := ⟨rest, c.line, c.column + count⟩
      match rest with
      | 'e' :: more | 'E' :: more => exponent negative mantissa (-(count : Int)) (c.step 'e' more)
      | _ =>
        match Real.ofDecimal negative mantissa (-(count : Int)) with
        | some bits => .ok (.real bits, c)
        | none => c.fail .numberOutOfRange
  | 'e' :: rest | 'E' :: rest => exponent negative whole 0 (c.step 'e' rest)
  | _ =>
    -- integers of 64 bits stay integers; minus zero and what is larger become doubles
    if (negative && 0 < whole && whole ≤ Word.count 63) || (!negative && whole < Word.count 64) then
      .ok (.int (if negative then -(whole : Int) else whole), c)
    else match Real.ofDecimal negative whole 0 with
      | some bits => .ok (.real bits, c)
      | none => c.fail .numberOutOfRange

/-- A number, after its sign. -/
def number (negative : Bool) (c : Cursor) : Except Failure (Json × Cursor) :=
  match c.rest with
  | [] => c.fail .eofInValue
  | '0' :: rest =>
    let c := c.step '0' rest
    match rest with
    | d :: _ => if d.isDigit then c.failNext .invalidNumber else fraction negative 0 c
    | [] => fraction negative 0 c
  | ch :: rest =>
    if ch.isDigit then
      let (whole, count, rest) := digits 0 0 (ch :: rest)
      fraction negative whole ⟨rest, c.line, c.column + count⟩
    else (c.step ch rest).fail .invalidNumber

/-- The value of a hexadecimal digit. -/
def hexValue? (c : Char) : Option Nat :=
  if '0' ≤ c ∧ c ≤ '9' then some (c.toNat - 48)
  else if 'a' ≤ c ∧ c ≤ 'f' then some (c.toNat - 87)
  else if 'A' ≤ c ∧ c ≤ 'F' then some (c.toNat - 55)
  else none

/-- Four hexadecimal digits. -/
def hexFour (c : Cursor) : Except Failure (Nat × Cursor) :=
  let past := Cursor.skipBytes 4 c c.rest
  if Text.utf8Size c.rest < 4 then
    (Cursor.skipBytes (Text.utf8Size c.rest) c c.rest).fail .eofInString
  else match c.rest with
    | a :: b :: d :: e :: _ =>
      match hexValue? a, hexValue? b, hexValue? d, hexValue? e with
      | some a, some b, some d, some e => .ok (((a * 16 + b) * 16 + d) * 16 + e, past)
      | _, _, _, _ => past.fail .invalidEscape
    | _ => past.fail .invalidEscape

/-- The character of a `\u` escape, after the `u`; a leading surrogate needs a second escape. -/
def unicodeEscape (c : Cursor) : Except Failure (Char × Cursor) := do
  let (n, c) ← hexFour c
  if 0xDC00 ≤ n ∧ n ≤ 0xDFFF then c.fail .loneSurrogate
  else if n < 0xD800 ∨ 0xDBFF < n then .ok (Char.ofNat n, c)
  else match c.rest with
    | [] => c.fail .eofInString
    | '\\' :: rest =>
      let c := c.step '\\' rest
      match rest with
      | [] => c.fail .eofInString
      | 'u' :: rest =>
        let (m, c) ← hexFour (c.step 'u' rest)
        if m < 0xDC00 ∨ 0xDFFF < m then c.fail .loneSurrogate
        else .ok (Char.ofNat (0x10000 + (n - 0xD800) * 0x400 + (m - 0xDC00)), c)
      | ch :: rest => (c.step ch rest).fail .unexpectedEndOfHexEscape
    | ch :: rest => (c.step ch rest).fail .unexpectedEndOfHexEscape

/-- The characters that a one-letter escape stands for. -/
def simpleEscape? (c : Char) : Option Char :=
  if c == '"' then some '"' else if c == '\\' then some '\\' else if c == '/' then some '/'
  else if c == 'b' then some '\x08' else if c == 'f' then some '\x0c' else if c == 'n' then some '\n'
  else if c == 'r' then some '\r' else if c == 't' then some '\t' else none

/-- The rest of a quoted text, after its opening quote; `fuel` is at least the number of characters
left. -/
def quoted : Nat → List Char → Cursor → Except Failure (String × Cursor)
  | 0, _, c => c.fail .eofInString
  | fuel + 1, acc, c =>
    match c.rest with
    | [] => c.fail .eofInString
    | ch :: rest =>
      let next := c.step ch rest
      if ch == '"' then .ok (String.ofList acc.reverse, next)
      else if ch == '\\' then
        match rest with
        | [] => next.fail .eofInString
        | e :: more =>
          let after := next.step e more
          if e == 'u' then
            match unicodeEscape after with
            | .ok (u, after) => quoted fuel (u :: acc) after
            | .error f => .error f
          else match simpleEscape? e with
            | some s => quoted fuel (s :: acc) after
            | none => after.fail .invalidEscape
      else if ch.toNat < 32 then (⟨rest, c.line, c.column + 1⟩ : Cursor).fail .controlCharacter
      else quoted fuel (ch :: acc) next

mutual

/-- A value; `depth` levels of nesting are left. -/
def value : Nat → Nat → Cursor → Except Failure (Json × Cursor)
  | 0, _, c => c.fail .eofInValue
  | fuel + 1, depth, c =>
    let c := c.skipBlank
    match c.rest with
    | [] => c.failNext .eofInValue
    | ch :: rest =>
      let next := c.step ch rest
      if ch == 'n' then word .null ['u', 'l', 'l'] next
      else if ch == 't' then word (.bool true) ['r', 'u', 'e'] next
      else if ch == 'f' then word (.bool false) ['a', 'l', 's', 'e'] next
      else if ch == '-' then number true next
      else if ch.isDigit then number false c
      else if ch == '"' then
        match quoted (rest.length + 1) [] next with
        | .ok (s, c) => .ok (.str s, c)
        | .error f => .error f
      else if ch == '[' then
        if depth ≤ 1 then c.failNext .tooDeep else items fuel (depth - 1) true [] next
      else if ch == '\x7b' then
        if depth ≤ 1 then c.failNext .tooDeep else fields fuel (depth - 1) true [] next
      else c.failNext .expectedValue

/-- The items of an array, after its opening bracket. -/
def items : Nat → Nat → Bool → List Json → Cursor → Except Failure (Json × Cursor)
  | 0, _, _, _, c => c.fail .eofInList
  | fuel + 1, depth, first, acc, c =>
    let c := c.skipBlank
    match c.rest with
    | [] => c.failNext .eofInList
    | ch :: rest =>
      let item (c : Cursor) : Except Failure (Json × Cursor) :=
        match value fuel depth c with
        | .ok (j, c) => items fuel depth false (j :: acc) c
        | .error f => .error f
      if ch == ']' then .ok (.arr acc.reverse, c.step ch rest)
      else if first then item c
      else if ch == ',' then
        let c := (c.step ch rest).skipBlank
        match c.rest with
        | ']' :: _ => c.failNext .trailingComma
        | [] => c.failNext .eofInValue
        | _ => item c
      else c.failNext .expectedListCommaOrEnd

/-- The fields of an object, after its opening brace. -/
def fields : Nat → Nat → Bool → List (String × Json) → Cursor → Except Failure (Json × Cursor)
  | 0, _, _, _, c => c.fail .eofInObject
  | fuel + 1, depth, first, acc, c =>
    let c := c.skipBlank
    let field (c : Cursor) : Except Failure (Json × Cursor) :=
      match c.rest with
      | '"' :: rest =>
        match quoted (rest.length + 1) [] (c.step '"' rest) with
        | .error f => .error f
        | .ok (key, c) =>
          let c := c.skipBlank
          match c.rest with
          | ':' :: rest =>
            match value fuel depth (c.step ':' rest) with
            | .ok (j, c) => fields fuel depth false ((key, j) :: acc) c
            | .error f => .error f
          | [] => c.failNext .eofInObject
          | _ => c.failNext .expectedColon
      | _ => c.failNext .keyMustBeString
    match c.rest with
    | [] => c.failNext .eofInObject
    | ch :: rest =>
      if ch == '\x7d' then .ok (ofFields acc.reverse, c.step ch rest)
      else if first then field c
      else if ch == ',' then
        let c := (c.step ch rest).skipBlank
        match c.rest with
        | '\x7d' :: _ => c.failNext .trailingComma
        | [] => c.failNext .eofInValue
        | _ => field c
      else c.failNext .expectedObjectCommaOrEnd

end

/-- The document that a text holds. -/
def parse (text : List Char) : Except Failure Json := do
  let (j, c) ← value (2 * text.length + 2) 128 ⟨text, 1, 0⟩
  let c := c.skipBlank
  if c.rest.isEmpty then .ok j else c.failNext .trailingCharacters

/-- The document that a text holds, a failure in words. -/
def parseMessage (text : String) : Except String Json :=
  match parse text.toList with
  | .ok j => .ok j
  | .error f => .error f.message

end Refactor.Json
