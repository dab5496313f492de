import Refactor.Text.Unicode

/-!
# Patterns of text

Patterns describe stretches of text. Of the matches that start at one place the first in the order of
preference counts: earlier alternatives before later ones, long repetitions before short ones unless the
repetition is lazy.

* `Pattern` — what to look for, with at most one marked part
* `Pattern.matchAt?` — the preferred match at a place
* `Pattern.matchesAll` — whether it matches a text as a whole
* `Pattern.findAll` — the matches of a text from left to right, none overlapping
-/

namespace Refactor.Text

/-- What to look for. -/
inductive Pattern where
  | empty
  /-- one character of a class -/
  | one (p : Char → Bool)
  /-- any number of characters of a class, as many as possible -/
  | many (p : Char → Bool)
  /-- any number of characters of a class, as few as possible -/
  | few (p : Char → Bool)
  | seq (a b : Pattern)
  | alt (a b : Pattern)
  /-- the part that a match reports -/
  | mark (a : Pattern)
  /-- a place where exactly one side is a word character -/
  | wordEdge
  /-- the start of the text, or a place after a newline -/
  | lineStart

/-- A place in a text, with the bounds of the marked part met so far. -/
structure Place where
  previous : Option Char
  rest : List Char
  offset : Nat
  marked : Option (Nat × Nat) := none

namespace Place

/-- The place after one more character. -/
def next (p : Place) (c : Char) (cs : List Char) : Place :=
  { p with previous := some c, rest := cs, offset := p.offset + c.utf8Size }

end Place

namespace Pattern

/-- Greedy repetition: the longest run of the class for which the continuation succeeds. -/
def runMany {α : Type} (cls : Char → Bool) (k : Place → Option α) : List Char → Place → Option α
  | [], p => k p
  | c :: cs, p =>
    if cls c then
      match runMany cls k cs (p.next c cs) with
      | some a => some a
      | none => k p
    else k p

/-- Lazy repetition: the shortest run of the class for which the continuation succeeds. -/
def runFew {α : Type} (cls : Char → Bool) (k : Place → Option α) : List Char → Place → Option α
  | [], p => k p
  | c :: cs, p =>
    match k p with
    | some a => some a
    | none => if cls c then runFew cls k cs (p.next c cs) else none

/-- Matches at a place and goes on with the continuation. -/
def run {α : Type} : Pattern → Place → (Place → Option α) → Option α
  | .empty, p, k => k p
  | .one cls, p, k =>
    match p.rest with
    | [] => none
    | c :: cs => if cls c then k (p.next c cs) else none
  | .many cls, p, k => runMany cls k p.rest p
  | .few cls, p, k => runFew cls k p.rest p
  | .seq a b, p, k => run a p fun q => run b q k
  | .alt a b, p, k =>
    match run a p k with
    | some r => some r
    | none => run b p k
  | .mark a, p, k => run a p fun q => k { q with marked := some (p.offset, q.offset) }
  | .wordEdge, p, k => if p.previous.any isWord != p.rest.head?.any isWord then k p else none
  | .lineStart, p, k => if p.previous.all (· == '\n') then k p else none

/-- The patterns one after the other. -/
def all : List Pattern → Pattern
  | [] => .empty
  | [a] => a
  | a :: rest => .seq a (all rest)

/-- One of the patterns. -/
def any : List Pattern → Pattern
  | [] => .one fun _ => false
  | [a] => a
  | a :: rest => .alt a (any rest)

def char (c : Char) : Pattern := .one (· == c)

/-- A fixed text. -/
def text (s : String) : Pattern := all (s.toList.map char)

/-- The pattern, or nothing. -/
def maybe (a : Pattern) : Pattern := .alt a .empty

/-- At least one character of a class. -/
def oneOrMore (p : Char → Bool) : Pattern := .seq (.one p) (.many p)

/-- Any white space. -/
def blanks : Pattern := .many isBlank

end Pattern

/-- A match: its bounds and those of its marked part. -/
structure Match where
  lo : Nat
  hi : Nat
  markLo : Nat
  markHi : Nat
deriving DecidableEq, Repr

namespace Pattern

/-- The preferred match that starts at a place; without a marked part all of it is marked. -/
def matchAt? (pattern : Pattern) (p : Place) : Option Match :=
  run pattern { p with marked := none } fun q =>
    let (markLo, markHi) := q.marked.getD (p.offset, q.offset)
    some ⟨p.offset, q.offset, markLo, markHi⟩

/-- Whether the pattern matches all of a text. -/
def matchesAll (pattern : Pattern) (content : List Char) : Bool :=
  (run pattern ⟨none, content, 0, none⟩ fun q => if q.rest.isEmpty then some () else none).isSome

/-- The matches from a place on that start at `resume` or later. -/
def findFrom (pattern : Pattern) (resume : Nat) (p : Place) : List Char → List Match
  | [] => if resume ≤ p.offset then (pattern.matchAt? p).toList else []
  | c :: cs =>
    if p.offset < resume then findFrom pattern resume (p.next c cs) cs
    else match pattern.matchAt? p with
      | some m => m :: findFrom pattern (max m.hi (p.offset + 1)) (p.next c cs) cs
      | none => findFrom pattern resume (p.next c cs) cs

/-- The matches of a text, from left to right. -/
def findAll (pattern : Pattern) (content : List Char) : List Match :=
  findFrom pattern 0 ⟨none, content, 0, none⟩ content

end Pattern

end Refactor.Text
