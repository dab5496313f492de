import Refactor.Json.Decode
import Refactor.Toml.Parser

/-!
# Settings in environment variables

The name of a variable says which setting it holds: after a fixed lead, two underscores separate the
parts of a path, and single ones the words of a part. Its text is read as a truth value, a number, a list
or a table where it looks like one, and as plain text otherwise.

* `Variable.path?` — the setting that a variable names
* `Variable.read` — the value that a text writes
* `Variable.settings` — all settings of an environment
-/

namespace Refactor.Variable

/-! ## Names -/

/-- Words that underscores separate, run together with capitals. -/
def camelCase (upper : Bool) : List Char → List Char
  | [] => []
  | '_' :: cs => camelCase true cs
  | c :: cs => (if upper then c.toUpper else c) :: camelCase false cs

/-- What the names of all settings start with, in any case. -/
def lead : String := "REFIT__"

/-- The path of the setting that a variable names. -/
def path? (name : String) : Option (List String) := do
  let name := trimmed name
  let rest ← Text.dropLead? (lowered lead).toList (lowered name).toList
  let parts := (Text.replaceAll ['_', '_'] ['.'] rest).splitOn '.'
  let keys := parts.map fun part => String.ofList (camelCase false part)
  if keys.contains "" then none else some keys

/-! ## Values -/

open Toml (Reader)

/-- The value of a numeral with a fraction or an exponent. -/
def real? (cs : List Char) : Option Json := do
  let (negative, body) := Toml.signed cs
  let (mantissa, exponent) := Toml.splitAtFirst (fun c => c == 'e' || c == 'E') body
  let (before, after) := Toml.splitAtFirst (· == '.') mantissa
  let digits := before ++ after.getD []
  if digits.isEmpty || !digits.all Char.isDigit then none
  let power : Int ← match exponent with
    | none => some 0
    | some ds =>
      let (minus, ds) := Toml.signed ds
      if ds.isEmpty || !ds.all Char.isDigit then none
      else
        let n := Toml.valueOf 10 (ds.filterMap (Toml.digit? 10))
        some (if minus then -(n : Int) else (n : Int))
  let value := Json.Real.ofDecimal negative (Toml.valueOf 10 (digits.filterMap (Toml.digit? 10)))
    (power - (after.getD []).length)
  return .real (value.getD 0x7FF0000000000000)

/-- The value of a whole numeral of 64 bits. -/
def whole? (cs : List Char) : Option Json := do
  let (negative, ds) := Toml.signed cs
  if ds.isEmpty || !ds.all Char.isDigit then none
  let n := Toml.valueOf 10 (ds.filterMap (Toml.digit? 10))
  if negative then
    if n ≤ Word.count 63 then some (.int (-(n : Int))) else none
  else if n < Word.count 64 then some (.int n)
  else none

/-- The value of a bare word. -/
def bare (cs : List Char) : Json :=
  if cs == "true".toList then .bool true
  else if cs == "false".toList then .bool false
  else ((whole? cs).or (real? cs)).getD (.str (String.ofList cs))

def skipBlanks : Reader Unit := modify (·.dropWhile Text.isAsciiBlank)

def isSeparator (c : Char) : Bool := [',', '[', ']', '\x7b', '\x7d'].contains c

mutual

/-- A value. -/
def value : Nat → Reader Json
  | 0 => failure
  | fuel + 1 => do
    if (← get).isEmpty then return .str ""
    else if ← Toml.accept "\x7b" then return .ofFields (← fields fuel)
    else if ← Toml.accept "[" then return .arr (← items fuel)
    else if ← Toml.accept "\"" then return .str (← Toml.basicText ((← get).length + 1) [])
    else if ← Toml.accept "'" then
      match ← get with
      | c :: '\'' :: rest => do set rest; return .str (String.ofList [c])
      | _ => failure
    else modifyGet fun cs =>
      (bare (Text.trim (cs.takeWhile (!isSeparator ·))), cs.dropWhile (!isSeparator ·))

/-- The rest of a list. -/
def items : Nat → Reader (List Json)
  | 0 => failure
  | fuel + 1 => do
    if ← Toml.accept "]" then return []
    skipBlanks
    let j ← value fuel
    skipBlanks
    if ← Toml.accept "," then return j :: (← items fuel)
    Toml.expect ']'
    return [j]

/-- The rest of a table. -/
def fields : Nat → Reader (List (String × Json))
  | 0 => failure
  | fuel + 1 => do
    if ← Toml.accept "\x7d" then return []
    skipBlanks
    let k ← Toml.keyPart
    skipBlanks
    Toml.expect '='
    skipBlanks
    let j ← value fuel
    skipBlanks
    if ← Toml.accept "," then return (k, j) :: (← fields fuel)
    Toml.expect '\x7d'
    return [(k, j)]

end

/-- The value that a text writes; what does not read as a whole is plain text. -/
def read (text : String) : Json :=
  match (do skipBlanks; let j ← value (text.length + 1); skipBlanks; return j : Reader Json).run text.toList with
  | some (j, []) => j
  | _ => .str text

/-- The document with one value at a path. -/
def nest : List String → Json → Json
  | [], j => j
  | k :: ks, j => .ofFields [(k, nest ks j)]

/-- The settings of an environment, later variables over earlier ones. -/
def settings (env : List (String × String)) : Json :=
  env.foldl (fun acc (name, text) =>
    match path? name with
    | some path => acc.merge (nest path (read text))
    | none => acc) (.obj [])

end Refactor.Variable
