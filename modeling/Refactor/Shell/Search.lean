import Refactor.Shell.State
import Refactor.Text.Pattern

/-!
# Searching lines

* `Shell.LinePattern` — what a line has to hold
* `Shell.search` — the lines of files that hold it
-/

namespace Refactor.Shell

open Text

/-- What a line has to hold, and whether it has to stand at the start or the end of the line. -/
structure LinePattern where
  body : Pattern
  atStart : Bool := false
  atEnd : Bool := false

namespace LinePattern

/-- Equality of characters, with case or without. -/
def same (fold : Bool) (a b : Char) : Bool := if fold then a.toLower == b.toLower else a == b

/-- The members of a class between brackets, up to the closing one. -/
def members : List Char → Bool → List (Char × Char) → Option (List (Char × Char) × List Char)
  | [], _, _ => none
  | ']' :: cs, false, acc => some (acc, cs)
  | a :: '-' :: b :: cs, _, acc =>
    if b == ']' then some (('-', '-') :: (a, a) :: acc, cs) else members cs false ((a, b) :: acc)
  | a :: cs, _, acc => members cs false ((a, a) :: acc)

/-- One character class, and the rest of the pattern. -/
def atom (fold : Bool) : List Char → Option ((Char → Bool) × List Char)
  | '.' :: cs => some (fun _ => true, cs)
  | '[' :: cs => do
    let (negated, cs) := match cs with
      | '^' :: r => (true, r)
      | r => (false, r)
    let (ms, rest) ← members cs true []
    return (fun c => (ms.any fun (a, b) => (a ≤ c && c ≤ b) || (a == b && same fold a c)) != negated, rest)
  | '\\' :: c :: cs => some (same fold c, cs)
  | c :: cs => some (same fold c, cs)
  | [] => none

/-- The parts of a regular expression without groups: classes, each with a repetition. -/
def parts (fold extended : Bool) : Nat → List Char → Option (List Pattern)
  | 0, _ => none
  | _ + 1, [] => some []
  | n + 1, cs => do
    let (cls, rest) ← atom fold cs
    match rest with
    | '*' :: rest => return .many cls :: (← parts fold extended n rest)
    | '+' :: rest =>
      if extended then return .oneOrMore cls :: (← parts fold extended n rest)
      else return .one cls :: .one (same fold '+') :: (← parts fold extended n rest)
    | '?' :: rest =>
      if extended then return .maybe (.one cls) :: (← parts fold extended n rest)
      else return .one cls :: .one (same fold '?') :: (← parts fold extended n rest)
    | rest => return .one cls :: (← parts fold extended n rest)

/-- A fixed text. -/
def fixed (fold : Bool) (cs : List Char) : LinePattern := { body := .all (cs.map fun c => .one (same fold c)) }

/-- A regular expression; one that cannot be read is taken as a fixed text. -/
def ofText (fold extended : Bool) (cs : List Char) : LinePattern :=
  let (atStart, body) := match cs with
    | '^' :: r => (true, r)
    | r => (false, r)
  let (atEnd, body) := match body.reverse with
    | '$' :: '\\' :: _ => (false, body)
    | '$' :: r => (true, r.reverse)
    | _ => (false, body)
  match parts fold extended (body.length + 1) body with
  | some ps => { body := .all ps, atStart, atEnd }
  | none => fixed fold cs

/-- Whether the pattern matches at a place of a line. -/
def matchesAt (p : LinePattern) (place : Text.Place) : Bool :=
  (Pattern.run p.body place fun q => if !p.atEnd || q.rest.isEmpty then some () else none).isSome

/-- Whether the pattern matches from some place on. -/
def matchesFrom (p : LinePattern) (place : Text.Place) : List Char → Bool
  | [] => p.matchesAt place
  | c :: cs => p.matchesAt place || (!p.atStart && matchesFrom p (place.next c cs) cs)

def holds (p : LinePattern) (line : String) : Bool := p.matchesFrom ⟨none, line.toList, 0, none⟩ line.toList

end LinePattern

/-- What is shown of one file. -/
def searchFile (flags : List Char) (p : LinePattern) (label : String) (shown : String) (content : ByteArray) :
    Output × Bool :=
  let on (c : Char) : Bool := flags.contains c
  let hits := (linesOf content).zipIdx.filter fun (l, _) => p.holds l != on 'v'
  let found := !hits.isEmpty
  let text :=
    if on 'q' then ""
    else if on 'l' then (if found then shown ++ "\n" else "")
    else if on 'L' then (if found then "" else shown ++ "\n")
    else if on 'c' then label ++ toString hits.length ++ "\n"
    else joinLines (hits.map fun (l, n) => label ++ (if on 'n' then toString (n + 1) ++ ":" else "") ++ l)
  (.say text, if on 'L' then !found else found)

/-- Searches files for lines. -/
def search (s : State) (input : ByteArray) (args : List String) : Output :=
  let (flags, operands) := splitFlags args
  match operands with
  | [] => .fail 2 "Usage: grep [OPTION]... PATTERNS [FILE]...\nTry 'grep --help' for more information."
  | text :: files =>
    let fold := flags.contains 'i'
    let p := if flags.contains 'F' then LinePattern.fixed fold text.toList
      else LinePattern.ofText fold (flags.contains 'E') text.toList
    let answers := (readFiles "grep" s input files).map fun (f, content) =>
      match content with
      | .error o => ((if flags.contains 's' then {} else o : Output), false, true)
      | .ok b =>
        let shown := if f == "-" then "(standard input)" else f
        let label := if files.length > 1 && !flags.contains 'h' then f ++ ":" else ""
        let (o, found) := searchFile flags p label shown b
        (o, found, false)
    let all : Output := (answers.map (·.1)).foldl Output.andThen {}
    let found := answers.any (·.2.1)
    let failed := answers.any (·.2.2)
    { all with status := if found && (flags.contains 'q' || !failed) then 0 else if failed then 2 else 1 }

end Refactor.Shell
