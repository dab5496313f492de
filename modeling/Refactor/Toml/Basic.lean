import Refactor.Json.Basic
import Refactor.Text.Basic

/-!
# TOML documents

A document grows line by line. Every table remembers how it came to be, because that decides who may
still add to it: a header opens a table once, and dotted keys add only to tables that dotted keys made.

* `Toml.Item` — a value or a table under construction
* `Toml.alterAt` — a change to the table at a path
* `Toml.assign`, `Toml.openTable`, `Toml.openArray` — the effects of lines
* `Toml.render` — a document as text
-/

namespace Refactor.Toml

/-- How a table came to be. -/
inductive Origin where
  /-- by a header of its own -/
  | header
  /-- by a header of a table inside it -/
  | implied
  /-- by a dotted key -/
  | dotted
deriving DecidableEq, Repr

/-- A value or a table under construction. -/
inductive Item where
  | value (j : Json)
  | table (origin : Origin) (entries : List (String × Item))
  /-- tables that share one header -/
  | tables (items : List (List (String × Item)))

/-- The keys of a table with what they stand for. -/
abbrev Entries := List (String × Item)

/-- Puts an item in the place of the one with the same key. -/
def replace (k : String) (i : Item) (entries : Entries) : Entries :=
  entries.map fun (l, j) => if l == k then (l, i) else (l, j)

/-- Changes the table at a path, which is created when it is missing. Dotted keys do not enter tables
with a header of their own. -/
def alterAt (dotted : Bool) (f : Origin → Entries → Option Entries) :
    List String → Origin → Entries → Option Entries
  | [], origin, entries => f origin entries
  | k :: path, _, entries =>
    match entries.lookup k with
    | none => do
      let origin := if dotted then Origin.dotted else .implied
      let inner ← alterAt dotted f path origin []
      return entries ++ [(k, .table origin inner)]
    | some (.value _) => none
    | some (.table origin inner) =>
      if dotted && origin == .header then none
      else do return replace k (.table origin (← alterAt dotted f path origin inner)) entries
    | some (.tables items) => do
      let inner ← alterAt dotted f path .header (← items.getLast?)
      return replace k (.tables (items.dropLast ++ [inner])) entries

/-- Gives a dotted key of a table its value; no key is given two. -/
def assign (path : List String) (k : String) (v : Json) : Origin → Entries → Option Entries :=
  alterAt true (fun origin entries =>
    if (origin == .dotted) == path.isEmpty || (entries.lookup k).isSome then none
    else some (entries ++ [(k, .value v)])) path

/-- Opens the table of a header. -/
def openTable (path : List String) (k : String) : Entries → Option Entries :=
  alterAt false (fun _ entries =>
    match entries.lookup k with
    | none => some (entries ++ [(k, .table .header [])])
    | some (.table .implied inner) => some (replace k (.table .header inner) entries)
    | some _ => none) path .header

/-- Opens one more table of a header that is shared. -/
def openArray (path : List String) (k : String) : Entries → Option Entries :=
  alterAt false (fun _ entries =>
    match entries.lookup k with
    | none => some (entries ++ [(k, .tables [[]])])
    | some (.tables items) => some (replace k (.tables (items ++ [[]])) entries)
    | some _ => none) path .header

mutual

/-- A finished item. -/
def Item.toJson : Item → Json
  | .value j => j
  | .table _ entries => .ofFields (entriesToFields entries)
  | .tables items => .arr (itemsToJson items)

def entriesToFields : Entries → List (String × Json)
  | [] => []
  | (k, i) :: rest => (k, i.toJson) :: entriesToFields rest

def itemsToJson : List Entries → List Json
  | [] => []
  | es :: rest => .ofFields (entriesToFields es) :: itemsToJson rest

end

/-! ## Text -/

/-- Why a document cannot be written. -/
inductive RenderFault where
  /-- there is no way to write `null` -/
  | null
  /-- numbers have 64 bits and a sign -/
  | tooLarge
deriving DecidableEq, Repr

def RenderFault.message : RenderFault → String
  | .null => "unsupported unit type"
  | .tooLarge => "out-of-range value for u64 type"

/-- A character inside a quoted text. -/
def escape (c : Char) : List Char :=
  if c.toNat == 127 then "\\u007F".toList else Json.escape c

/-- A text in quotes. -/
def quote (s : String) : String := String.ofList ('"' :: s.toList.flatMap escape ++ ['"'])

mutual

/-- A value on one line. -/
def renderValue : Json → Except RenderFault String
  | .null => .error .null
  | .bool b => .ok (if b then "true" else "false")
  | .int n => if n < (Word.count 63 : Int) then .ok (toString n) else .error .tooLarge
  | .real bits => .ok (Json.Real.render bits)
  | .str s => .ok (quote s)
  | .arr items => do return "[" ++ joinWith ", " (← renderItems items) ++ "]"
  | .obj fields => do return "\x7b" ++ joinWith ", " (← renderFields fields) ++ "\x7d"

def renderItems : List Json → Except RenderFault (List String)
  | [] => .ok []
  | j :: js => do
    let s ← renderValue j
    return s :: (← renderItems js)

def renderFields : List (String × Json) → Except RenderFault (List String)
  | [] => .ok []
  | (k, j) :: rest => do
    let s ← renderValue j
    return (quote k ++ " = " ++ s) :: (← renderFields rest)

end

/-- A document: values first, then one table after the other. -/
def render (fields : List (String × Json)) : Except RenderFault String := do
  let isTable (j : Json) : Bool := j.obj?.isSome
  let values ← renderFields (fields.filter fun (_, j) => !isTable j)
  let tables ← (fields.filter fun (_, j) => isTable j).mapM fun (k, j) => do
    let lines ← renderFields (j.obj?.getD [])
    return joinWith "\n" (("[" ++ quote k ++ "]") :: lines) ++ "\n"
  return joinWith "\n" (values ++ (if values.isEmpty then [] else [""]) ++ tables)

end Refactor.Toml
