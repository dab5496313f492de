import Refactor.Text.Basic

/-!
# Positions and spans

A position is a zero-based line and a zero-based column counted in UTF-16 code units; a span is a
pair of positions. Both are turned into byte offsets of a given text and back.

* `Position`, `Span` — places in a text
* `Position.byteOffset?` — the byte offset of a position that fits the text
* `Position.ofOffset` — the position of a byte offset
* `Span.byteRange?` — the byte range of a span that fits the text
* `Span.overlaps` — whether two edits at these spans would collide
-/

namespace Refactor

/-- A place in a text: zero-based line, and column in UTF-16 code units. -/
structure Position where
  line : Nat
  character : Nat
deriving DecidableEq, Repr, Inhabited

namespace Position

/-- Positions are ordered by line, then by column. -/
def before (p q : Position) : Bool := p.line < q.line || (p.line == q.line && p.character < q.character)

/-- `p` is `q` or stands before it. -/
def atMost (p q : Position) : Bool := !q.before p

/-- What follows the `n`-th newline, with the number of bytes skipped. -/
def skipLines : Nat → Nat → List Char → Option (Nat × List Char)
  | 0, off, cs => some (off, cs)
  | _ + 1, _, [] => none
  | n + 1, off, c :: cs =>
    if c = '\n' then skipLines n (off + 1) cs else skipLines (n + 1) (off + c.utf8Size) cs

/-- The first line of a text, without its line end. -/
def firstLine (cs : List Char) : List Char := Text.dropReturn (cs.takeWhile (· != '\n'))

/-- Bytes before column `units` of a line; a column inside a character or past the end has
none. -/
def columnOffset? : Nat → List Char → Option Nat
  | 0, _ => some 0
  | _ + 1, [] => none
  | n + 1, c :: cs =>
    if Text.unitSize c ≤ n + 1 then
      (columnOffset? (n + 1 - Text.unitSize c) cs).map (c.utf8Size + ·)
    else none
termination_by _ cs => cs.length

/-- Byte offset of a position in a text. A column past the end of its line has none. -/
def byteOffset? (content : List Char) (p : Position) : Option Nat := do
  let (start, rest) ← skipLines p.line 0 content
  let column ← columnOffset? p.character (firstLine rest)
  return start + column

/-- The position right after `before`. -/
def atEnd (before : List Char) : Position :=
  ⟨before.count '\n', Text.utf16Size (before.reverse.takeWhile (· != '\n')).reverse⟩

/-- Position of a byte offset; an offset past the end stands for the end. An offset inside a
character has none. -/
def ofOffset? (content : List Char) (offset : Nat) : Option Position :=
  (Text.splitAtByte? (min offset (Text.utf8Size content)) content).map fun (a, _) => atEnd a

/-- Position of a byte offset that lies between two characters. -/
def ofOffset (content : List Char) (offset : Nat) : Position :=
  (ofOffset? content offset).getD (atEnd content)

end Position

/-- A stretch of text between two positions, the end excluded. -/
structure Span where
  startLine : Nat
  startColumn : Nat
  endLine : Nat
  endColumn : Nat
deriving DecidableEq, Repr, Inhabited

namespace Span

/-- The span between two positions. -/
def between (a b : Position) : Span := ⟨a.line, a.character, b.line, b.character⟩

/-- The empty span at a position. -/
def empty (p : Position) : Span := between p p

def start (s : Span) : Position := ⟨s.startLine, s.startColumn⟩

def stop (s : Span) : Position := ⟨s.endLine, s.endColumn⟩

def isEmpty (s : Span) : Bool := s.start == s.stop

/-- Whether two spans share a character, or are empty at the same place. Spans that only touch do
not overlap. -/
def overlaps (a b : Span) : Bool :=
  if a.isEmpty && b.isEmpty then a.start == b.start
  else
    (a.start.before b.stop && b.start.before a.stop) ||
    (a.isEmpty && b.start.before a.start && a.start.before b.stop) ||
    (b.isEmpty && a.start.before b.start && b.start.before a.stop)

/-- The byte range of a span that fits the text. -/
def byteRange? (content : List Char) (s : Span) : Option (Nat × Nat) := do
  let a ← s.start.byteOffset? content
  let b ← s.stop.byteOffset? content
  if a ≤ b then some (a, b) else none

/-- The span of a byte range. -/
def ofBytes (content : List Char) (a b : Nat) : Span :=
  between (Position.ofOffset content a) (Position.ofOffset content b)

/-- Spans are sorted by their start, then by their end. -/
def sortsBefore (a b : Span) : Bool :=
  a.start.before b.start || (a.start == b.start && a.stop.atMost b.stop)

end Span

end Refactor
