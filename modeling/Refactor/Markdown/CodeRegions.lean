import Refactor.Text.Pattern

/-!
# Parts of a document that are no prose

Fenced blocks, code between backticks and comments are no prose: links in them are examples.

* `codeRegions` — their byte ranges
* `inCode` — whether an offset lies in one
-/

namespace Refactor.Markdown

/-- A half-open byte range. -/
abbrev Region := Nat × Nat

/-! ## Fences -/

/-- An open fence: its character, its length and where its block starts. -/
structure Fence where
  mark : Char
  length : Nat
  start : Nat
deriving DecidableEq, Repr

/-- A run of at least three backticks or tildes at the start of a line. -/
def fenceRun? (line : List Char) : Option (Char × Nat) :=
  match line with
  | c :: _ =>
    let length := (line.takeWhile (· == c)).length
    if (c == '\x60' || c == '~') && 3 ≤ length then some (c, length) else none
  | [] => none

/-- Whether a run closes a fence: the same character, at least as often, and nothing after it. -/
def closes (f : Fence) (line : List Char) : Bool :=
  match fenceRun? line with
  | some (c, length) => c == f.mark && f.length ≤ length && (line.drop length).all Text.isBlank
  | none => false

/-! ## Code between backticks -/

/-- Where the run of exactly `n` backticks that comes next ends; `run` is the length of the run being
read. -/
def closingRun? (n run offset : Nat) : List Char → Option Nat
  | [] => if run == n then some offset else none
  | c :: cs =>
    if c == '\x60' then closingRun? n (run + 1) (offset + 1) cs
    else if run == n then some offset
    else closingRun? n 0 (offset + c.utf8Size) cs

/-- The code spans of a line from an offset on; text before `resume` is already read, and `inRun` says
that the character before was a backtick of a run that opened nothing. -/
def inlineCodeFrom (resume offset : Nat) (inRun : Bool) : List Char → List Region
  | [] => []
  | c :: cs =>
    if offset < resume then inlineCodeFrom resume (offset + c.utf8Size) false cs
    else if c != '\x60' then inlineCodeFrom resume (offset + c.utf8Size) false cs
    else if inRun then inlineCodeFrom resume (offset + 1) true cs
    else
      let length := ((c :: cs).takeWhile (· == '\x60')).length
      match closingRun? length 0 (offset + length) ((c :: cs).drop length) with
      | some stop => (offset, stop) :: inlineCodeFrom stop (offset + 1) false cs
      | none => inlineCodeFrom resume (offset + 1) true cs

/-- The code spans of a line that starts at an offset. -/
def inlineCode (start : Nat) (line : List Char) : List Region := inlineCodeFrom start start false line

/-! ## Regions -/

/-- The regions of lines one after the other; a fence left open runs to the end. -/
def regionsOfLines (fence : Option Fence) (offset : Nat) : List (List Char) → List Region
  | [] => (fence.map fun f => (f.start, offset)).toList
  | line :: rest =>
    let body := line.dropWhile (· == ' ')
    let shallow : Bool := line.length - body.length ≤ 3
    let stop := offset + Text.utf8Size line
    match fence with
    | some f =>
      if shallow && closes f body then (f.start, stop) :: regionsOfLines none stop rest
      else regionsOfLines fence stop rest
    | none =>
      match (fenceRun? body).filter fun _ => shallow with
      | some (c, length) => regionsOfLines (some ⟨c, length, offset⟩) stop rest
      | none => inlineCode offset line ++ regionsOfLines none stop rest

/-- A comment: from its opening mark to the first closing one. -/
def commentPattern : Text.Pattern := .all [.text "<!--", .few fun _ => true, .text "-->"]

/-- The parts of a document that are no prose. -/
def codeRegions (content : List Char) : List Region :=
  regionsOfLines none 0 (Text.inclusiveLines content) ++
    (commentPattern.findAll content).map fun m => (m.lo, m.hi)

/-- Whether an offset lies in one of the regions. -/
def inCode (regions : List Region) (offset : Nat) : Bool :=
  regions.any fun (lo, hi) => lo ≤ offset && offset < hi

end Refactor.Markdown
