import Refactor.Edit.Basic
import Refactor.Error
import Refactor.Script.Parser

/-!
# Places in a source

Cuts, lines and edits of a source text by byte offsets. An offset inside a character is reported rather
than cut.

* `Source.slice`, `Source.lineStart`, `Source.lineEnd`, `Source.linesAround` — cuts and lines
* `Source.replacing`, `Source.inserting` — edits at byte offsets
* `Source.selection` — the bytes of a selection without the blanks around it
-/

namespace Refactor.Script

/-- The text of a module. -/
abbrev Source := List Char

/-- Answers of a language service. -/
abbrev Service := Except LanguageError

/-- Refusal of a request. -/
def refuse {α : Type} (message : String) : Service α := .error (.invalidInput message)

namespace Source

/-- The text from byte `a` up to byte `b`. -/
def slice (s : Source) (a b : Nat) : Service (List Char) :=
  match Text.slice? s a b with
  | some t => .ok t
  | none => .error .misaligned

/-- The text before and after a byte offset. -/
def cut (s : Source) (offset : Nat) : Service (List Char × List Char) :=
  match Text.splitAtByte? offset s with
  | some p => .ok p
  | none => .error .misaligned

/-- Start of the line that holds an offset. -/
def lineStart (s : Source) (offset : Nat) : Service Nat := do
  let (before, _) ← cut s offset
  return offset - Text.utf8Size (before.reverse.takeWhile (· != '\n'))

/-- End of the line that holds an offset, after its newline when there is one. -/
def lineEnd (s : Source) (offset : Nat) : Service Nat := do
  let (_, rest) ← cut s offset
  let line := rest.takeWhile (· != '\n')
  return offset + Text.utf8Size line + (if line.length < rest.length then 1 else 0)

/-- The blanks and tabs at the start of a line. -/
def indentation (line : List Char) : List Char := line.takeWhile fun c => c == ' ' || c == '\t'

/-- Whether a text holds only white space. -/
def isBlank (t : List Char) : Bool := t.all Text.isBlank

/-- The lines that hold a range, from their start to their end, and whether nothing else stands on them. -/
def linesAround (s : Source) (lo hi : Nat) : Service (Nat × Nat × Bool) := do
  let first ← lineStart s lo
  let last ← lineEnd s hi
  let before ← slice s first lo
  let after ← slice s hi last
  return (first, last, isBlank before && isBlank after)

/-- The position of a byte offset. -/
def positionOf (s : Source) (offset : Nat) : Service Position :=
  match Position.ofOffset? s offset with
  | some p => .ok p
  | none => .error .misaligned

/-- An edit that replaces a byte range. -/
def replacing (s : Source) (a b : Nat) (new : List Char) : Service TextEdit := do
  let p ← positionOf s a
  let q ← positionOf s b
  let old ← slice s a b
  return .replacing (.between p q) (String.ofList old) (String.ofList new)

/-- An edit that inserts at a byte offset. -/
def inserting (s : Source) (offset : Nat) (new : List Char) : Service TextEdit := do
  return .inserting (← positionOf s offset) (String.ofList new)

/-- Offset after the semicolon that may follow a statement. -/
def afterSemicolon (s : Source) (offset : Nat) : Service Nat := do
  let (_, rest) ← cut s offset
  return if rest.head? == some ';' then offset + 1 else offset

/-- The bytes of a selection, without the white space around it. -/
def selection (s : Source) (range : Span) : Service (Nat × Nat) := do
  let some (a, b) := range.byteRange? s | refuse "Selection is outside the file"
  let selected ← slice s a b
  let front := Text.utf8Size selected - Text.utf8Size (Text.trimStart selected)
  let back := Text.utf8Size selected - Text.utf8Size (Text.trimEnd selected)
  if b - back ≤ a + front then refuse "Selection is empty"
  return (a + front, b - back)

/-- The module of a source. -/
def parsed (s : Source) (path : Path) : Service Parsed :=
  match parse? s (some path) with
  | some p => .ok p
  | none => .error (.parse "Failed to parse module: unexpected token" none)

end Source

end Refactor.Script
