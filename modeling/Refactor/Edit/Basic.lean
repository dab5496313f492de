import Refactor.Path.Map
import Refactor.Text.Position

/-!
# Edits

Replacements of spans of text, changes to whole files, and both together for a workspace.

* `TextEdit` — replaces a span of one file
* `FileOperation` — moves, creates or deletes a file
* `WorkspaceEdit` — text edits by file and file operations
* `WorkspaceEdit.touchedPaths` — every path that an edit concerns
-/

namespace Refactor

/-- What a text edit is for. -/
inductive EditType where
  | rename | updateImport | updateReference | insert | delete | replace
deriving DecidableEq, Repr

/-- Replaces the text at a span. -/
structure TextEdit where
  editType : EditType
  location : Span
  /-- The text expected at the span; the empty text expects nothing. -/
  oldText : String := ""
  newText : String
  description : String := ""
deriving DecidableEq, Repr

namespace TextEdit

/-- Replacement of `old` by `new`. -/
def replacing (location : Span) (old new : String) : TextEdit :=
  { editType := .replace, location, oldText := old, newText := new }

/-- Insertion at a position. -/
def inserting (p : Position) (new : String) : TextEdit :=
  { editType := .insert, location := .empty p, newText := new }

def withType (e : TextEdit) (t : EditType) : TextEdit := { e with editType := t }

def describedAs (e : TextEdit) (d : String) : TextEdit := { e with description := d }

/-- Edits are sorted by the start of their span, then by its end. -/
def sortsBefore (a b : TextEdit) : Bool := a.location.sortsBefore b.location

end TextEdit

/-- A change to a whole file. -/
inductive FileOperation where
  | move (source target : Path) (overwrite : Bool)
  | create (path : Path) (content : String) (overwrite : Bool)
  | delete (path : Path)
deriving Repr

namespace FileOperation

/-- The paths that an operation concerns. -/
def paths : FileOperation → List Path
  | .move a b _ => [a, b]
  | .create p _ _ => [p]
  | .delete p => [p]

/-- The path that exists afterwards. -/
def destination? : FileOperation → Option Path
  | .move _ b _ => some b
  | .create p _ _ => some p
  | .delete _ => none

/-- The path that is gone afterwards. -/
def source? : FileOperation → Option Path
  | .move a _ _ => some a
  | .create .. => none
  | .delete p => some p

end FileOperation

/-- Text edits by file, and file operations. Text edits are keyed by the path a file has before any
move of the same edit. -/
structure WorkspaceEdit where
  changes : PathMap (List TextEdit) := []
  operations : List FileOperation := []
deriving Repr, Inhabited

namespace WorkspaceEdit

def isEmpty (w : WorkspaceEdit) : Bool := w.changes.all (·.2.isEmpty) && w.operations.isEmpty

def addEdits (w : WorkspaceEdit) (p : Path) (es : List TextEdit) : WorkspaceEdit :=
  { w with changes := w.changes.alter p [] (· ++ es) }

def addOperation (w : WorkspaceEdit) (op : FileOperation) : WorkspaceEdit :=
  { w with operations := w.operations ++ [op] }

/-- The edits of a file. -/
def editsOf (w : WorkspaceEdit) (p : Path) : List TextEdit := (w.changes.find? p).getD []

/-- The files with at least one text edit. -/
def editedFiles (w : WorkspaceEdit) : List Path :=
  (w.changes.filter fun (_, es) => !es.isEmpty).map (·.1)

def editCount (w : WorkspaceEdit) : Nat := w.changes.foldl (fun n (_, es) => n + es.length) 0

/-- Every path that the edit concerns, sorted. -/
def touchedPaths (w : WorkspaceEdit) : PathSet :=
  PathSet.union (PathSet.ofList w.editedFiles) (w.operations.flatMap FileOperation.paths)

end WorkspaceEdit

end Refactor
