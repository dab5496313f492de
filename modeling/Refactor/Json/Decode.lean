import Refactor.Json.Basic
import Refactor.Path.Basic

/-!
# Decoding documents into values

Decoders read a document as a value of a known shape; a document of another shape is refused in
words. A record may be written as an object, or as the array of its fields in their order.

* `Decoder` — reads a document
* `Decoder.record`, `Decoder.required`, `Decoder.optional` — fields of a record
* `Decoder.variant`, `Decoder.tagged` — alternatives named by a text
-/

namespace Refactor

/-- Reads a document as a value. -/
abbrev Decoder (α : Type) := Json → Except String α

namespace Decoder

/-- One character of a quoted text in a message. -/
def debugChar (c : Char) : List Char :=
  if c == '"' then ['\\', '"']
  else if c == '\\' then ['\\', '\\']
  else if c == '\n' then ['\\', 'n']
  else if c == '\r' then ['\\', 'r']
  else if c == '\t' then ['\\', 't']
  else if c.toNat == 0 then ['\\', '0']
  else if c.toNat < 32 || c.toNat == 127 then
    ['\\', 'u', '\x7b'] ++ Nat.toDigits 16 c.toNat ++ ['\x7d']
  else [c]

/-- A quoted text in a message. -/
def debugText (s : String) : String := String.ofList ('"' :: s.toList.flatMap debugChar ++ ['"'])

/-- A document in words. -/
def describe : Json → String
  | .null => "null"
  | .bool b => "boolean `" ++ (if b then "true" else "false") ++ "`"
  | .int n => "integer `" ++ toString n ++ "`"
  | .real bits => "floating point `" ++ Json.Real.render bits ++ "`"
  | .str s => "string " ++ debugText s
  | .arr _ => "sequence"
  | .obj _ => "map"

/-- Refusal of a document of the wrong type. -/
def wrongType {α : Type} (j : Json) (expected : String) : Except String α :=
  .error ("invalid type: " ++ describe j ++ ", expected " ++ expected)

/-- Refusal of a document of the right type with an impossible value. -/
def wrongValue {α : Type} (j : Json) (expected : String) : Except String α :=
  .error ("invalid value: " ++ describe j ++ ", expected " ++ expected)

/-! ## Plain values -/

def string : Decoder String
  | .str s => .ok s
  | j => wrongType j "a string"

def path : Decoder Path
  | .str s => .ok ⟨s⟩
  | j => wrongType j "path string"

def boolean : Decoder Bool
  | .bool b => .ok b
  | j => wrongType j "a boolean"

/-- A natural number below `bound`. -/
def below (bound : Nat) (expected : String) : Decoder Nat
  | .int n => if 0 ≤ n ∧ n < bound then .ok n.toNat else wrongValue (.int n) expected
  | j => wrongType j expected

def word32 : Decoder Nat := below (Word.count 32) "u32"

def word64 : Decoder Nat := below (Word.count 64) "u64"

def size : Decoder Nat := below (Word.count 64) "usize"

/-- A signed number of 32 bits. -/
def int32 : Decoder Int
  | .int n => if Word.fitsSigned 32 n then .ok n else wrongValue (.int n) "i32"
  | j => wrongType j "i32"

/-- `null` stands for a missing value. -/
def nullable {α : Type} (d : Decoder α) : Decoder (Option α)
  | .null => .ok none
  | j => (d j).map some

/-- Every item of an array, in order. -/
def each {α : Type} (d : Decoder α) : List Json → Except String (List α)
  | [] => .ok []
  | j :: js => do
    let a ← d j
    let as ← each d js
    return a :: as

def list {α : Type} (d : Decoder α) : Decoder (List α)
  | .arr items => each d items
  | j => wrongType j "a sequence"

/-! ## Records -/

/-- The fields of a record, from an object or from an array of its fields. -/
def record (what : String) (names : List String) : Decoder (List (String × Json))
  | .obj fields => .ok fields
  | .arr items =>
    if items.length ≤ names.length then .ok (names.zip items)
    else .error ("invalid length " ++ toString items.length ++ ", expected fewer elements in array")
  | j => wrongType j what

/-- A field that must be there. -/
def required {α : Type} (fields : List (String × Json)) (name : String) (d : Decoder α) : Except String α :=
  match fields.lookup name with
  | some j => d j
  | none => .error ("missing field `" ++ name ++ "`")

/-- A field with a default for when it is missing. -/
def defaulted {α : Type} (fields : List (String × Json)) (name : String) (a : α) (d : Decoder α) :
    Except String α :=
  match fields.lookup name with
  | some j => d j
  | none => .ok a

/-- A field that may be missing or `null`. -/
def optional {α : Type} (fields : List (String × Json)) (name : String) (d : Decoder α) :
    Except String (Option α) :=
  defaulted fields name none (nullable d)

/-- Reads every known field in the order in which the object holds them, for the sake of the first
refusal. -/
def precheck (known : List (String × (Json → Except String Unit))) :
    List (String × Json) → Except String Unit
  | [] => .ok ()
  | (k, j) :: rest =>
    match known.lookup k with
    | some check => do check j; precheck known rest
    | none => precheck known rest

/-- A decoder used only for its refusal. -/
def checks {α : Type} (d : Decoder α) : Json → Except String Unit := fun j => (d j).map fun _ => ()

/-! ## Alternatives -/

/-- The names of the alternatives in a message. -/
def oneOf : List String → String
  | [] => "there are no variants"
  | [a] => "expected `" ++ a ++ "`"
  | [a, b] => "expected `" ++ a ++ "` or `" ++ b ++ "`"
  | as => "expected one of " ++ joinWith ", " (as.map fun a => "`" ++ a ++ "`")

/-- A text that must be one of the names. -/
def nameAmong (names : List String) (s : String) : Except String String :=
  if names.contains s then .ok s else .error ("unknown variant `" ++ s ++ "`, " ++ oneOf names)

/-- An alternative without content. -/
def variant (names : List String) : Decoder String
  | .str s => nameAmong names s
  | .obj [(s, j)] => do
    let s ← nameAmong names s
    match j with
    | .null => .ok s
    | j => wrongType j "unit"
  | .obj fields => wrongValue (.obj fields) "map with a single key"
  | j => wrongType j "string or map"

/-- The tag of an alternative: a name, or its number. -/
def tag (names : List String) : Decoder String
  | .str s => nameAmong names s
  | .int n =>
    match (if n < 0 then none else names[n.toNat]?) with
    | some s => .ok s
    | none => wrongValue (.int n) ("variant index 0 <= i < " ++ toString names.length)
  | j => wrongType j "variant identifier"

/-- An alternative whose name stands in a field of the object that holds its content, or first in
an array. -/
def tagged (what field : String) (names : List String) : Decoder (String × Json)
  | .obj fields =>
    match fields.lookup field with
    | some t => do return (← tag names t, .obj (fields.filter (·.1 != field)))
    | none => .error ("missing field `" ++ field ++ "`")
  | .arr (t :: rest) => do return (← tag names t, .arr rest)
  | .arr [] => .error ("missing field `" ++ field ++ "`")
  | j => wrongType j what

end Decoder

end Refactor
