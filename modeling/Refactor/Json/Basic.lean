import Refactor.Json.Real

/-!
# Documents

JSON values. The fields of an object are kept sorted by key, each key once, so that two documents
with the same content are the same value.

* `Json` — a value
* `Json.ofFields` — the object with given fields, the last of equal keys winning
* `Json.render` — compact text
-/

namespace Refactor

/-- A JSON value; `real` holds the bits of a double. -/
inductive Json where
  | null
  | bool (b : Bool)
  | int (n : Int)
  | real (bits : UInt64)
  | str (s : String)
  | arr (items : List Json)
  | obj (fields : List (String × Json))
deriving BEq, Repr, Inhabited

namespace Json

/-! ## Building -/

/-- Sets a field, keeping the fields sorted. -/
def insertField (key : String) (value : Json) : List (String × Json) → List (String × Json)
  | [] => [(key, value)]
  | (k, v) :: rest =>
    if key = k then (key, value) :: rest
    else if key < k then (key, value) :: (k, v) :: rest
    else (k, v) :: insertField key value rest

/-- The object with these fields. -/
def ofFields (fields : List (String × Json)) : Json :=
  .obj (fields.foldl (fun acc (k, v) => insertField k v acc) [])

/-- The object with those fields that are present. -/
def ofSome (fields : List (String × Option Json)) : Json :=
  ofFields (fields.filterMap fun (k, v) => v.map (k, ·))

def nat (n : Nat) : Json := .int n

/-- `null` for a missing value. -/
def ofOption {α : Type} (f : α → Json) : Option α → Json
  | none => .null
  | some a => f a

/-- An array of encoded items. -/
def list {α : Type} (f : α → Json) (xs : List α) : Json := .arr (xs.map f)

/-! ## Looking inside -/

/-- The value of a field of an object. -/
def get? (j : Json) (key : String) : Option Json :=
  match j with
  | .obj fields => (fields.find? (·.1 == key)).map (·.2)
  | _ => none

/-- The value of a field, `null` when it is missing. -/
def getD (j : Json) (key : String) : Json := (j.get? key).getD .null

def str? : Json → Option String
  | .str s => some s
  | _ => none

def int? : Json → Option Int
  | .int n => some n
  | _ => none

def nat? : Json → Option Nat
  | .int n => if n < 0 then none else some n.toNat
  | _ => none

def bool? : Json → Option Bool
  | .bool b => some b
  | _ => none

def arr? : Json → Option (List Json)
  | .arr items => some items
  | _ => none

def obj? : Json → Option (List (String × Json))
  | .obj fields => some fields
  | _ => none

def isNull : Json → Bool
  | .null => true
  | _ => false

/-- The object with one field set. -/
def set (j : Json) (key : String) (value : Json) : Json :=
  match j with
  | .obj fields => .obj (insertField key value fields)
  | other => other

/-- The object without one field. -/
def erase (j : Json) (key : String) : Json :=
  match j with
  | .obj fields => .obj (fields.filter (·.1 != key))
  | other => other

mutual

/-- `top` laid over `base`: objects are merged field by field, anything else is replaced. -/
def merge (base top : Json) : Json :=
  match top, base with
  | .obj news, .obj olds => .obj (mergeFields olds news)
  | top, _ => top
termination_by sizeOf top

/-- The fields `news` laid over the fields `olds`. -/
def mergeFields (olds news : List (String × Json)) : List (String × Json) :=
  match news with
  | [] => olds
  | (k, v) :: rest =>
    let merged := match olds.find? (·.1 == k) with
      | some (_, old) => merge old v
      | none => v
    mergeFields (insertField k merged olds) rest
termination_by sizeOf news

end

mutual

/-- The document with every text replaced, keys included. -/
def mapText (f : String → String) : Json → Json
  | .str s => .str (f s)
  | .arr items => .arr (mapTextItems f items)
  | .obj fields => ofFields (mapTextFields f fields)
  | other => other

def mapTextItems (f : String → String) : List Json → List Json
  | [] => []
  | j :: js => mapText f j :: mapTextItems f js

def mapTextFields (f : String → String) : List (String × Json) → List (String × Json)
  | [] => []
  | (k, j) :: rest => (f k, mapText f j) :: mapTextFields f rest

end

/-! ## Text -/

/-- A hexadecimal digit in lower case. -/
def hexDigit (n : Nat) : Char := if n < 10 then Char.ofNat (48 + n) else Char.ofNat (87 + n)

/-- A character inside a quoted text: quotes, backslashes and control characters are escaped. -/
def escape (c : Char) : List Char :=
  if c == '"' then ['\\', '"']
  else if c == '\\' then ['\\', '\\']
  else if c == '\n' then ['\\', 'n']
  else if c == '\r' then ['\\', 'r']
  else if c == '\t' then ['\\', 't']
  else if c.toNat == 8 then ['\\', 'b']
  else if c.toNat == 12 then ['\\', 'f']
  else if c.toNat < 32 then ['\\', 'u', '0', '0', hexDigit (c.toNat / 16), hexDigit (c.toNat % 16)]
  else [c]

/-- A text in quotes. -/
def quote (s : String) : String := String.ofList ('"' :: s.toList.flatMap escape ++ ['"'])

mutual

/-- The compact text of a document. -/
def render : Json → String
  | .null => "null"
  | .bool b => if b then "true" else "false"
  | .int n => toString n
  | .real bits => Real.render bits
  | .str s => quote s
  | .arr items => "[" ++ renderItems items ++ "]"
  | .obj fields => "\x7b" ++ renderFields fields ++ "\x7d"

/-- The items of an array, separated by commas. -/
def renderItems : List Json → String
  | [] => ""
  | [j] => render j
  | j :: k :: rest => render j ++ "," ++ renderItems (k :: rest)

/-- The fields of an object, separated by commas. -/
def renderFields : List (String × Json) → String
  | [] => ""
  | [(k, j)] => quote k ++ ":" ++ render j
  | (k, j) :: f :: rest => quote k ++ ":" ++ render j ++ "," ++ renderFields (f :: rest)

end

end Json

end Refactor
