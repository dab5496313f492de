import Refactor.Edit.Basic
import Refactor.Json.Decode

/-!
# Edits as documents

The written form of positions, spans, edits and file operations, and its reading.
-/

namespace Refactor

open Decoder

namespace Position

def toJson (p : Position) : Json := .ofFields [("line", .nat p.line), ("character", .nat p.character)]

def decode : Decoder Position := fun j => do
  let fs ← record "struct Position" ["line", "character"] j
  return ⟨← required fs "line" word32, ← required fs "character" word32⟩

end Position

namespace Span

def toJson (s : Span) : Json :=
  .ofFields [("startLine", .nat s.startLine), ("startColumn", .nat s.startColumn),
    ("endLine", .nat s.endLine), ("endColumn", .nat s.endColumn)]

def decode : Decoder Span := fun j => do
  let fs ← record "struct EditLocation" ["startLine", "startColumn", "endLine", "endColumn"] j
  return ⟨← required fs "startLine" word32, ← required fs "startColumn" word32,
    ← required fs "endLine" word32, ← required fs "endColumn" word32⟩

end Span

namespace EditType

def text : EditType → String
  | .rename => "rename"
  | .updateImport => "update_import"
  | .updateReference => "update_reference"
  | .insert => "insert"
  | .delete => "delete"
  | .replace => "replace"

def all : List EditType := [.rename, .updateImport, .updateReference, .insert, .delete, .replace]

def decode : Decoder EditType := fun j => do
  let s ← variant (all.map text) j
  return (all.find? (·.text == s)).getD .replace

end EditType

namespace TextEdit

def toJson (e : TextEdit) : Json :=
  .ofFields [("editType", .str e.editType.text), ("location", e.location.toJson),
    ("originalText", .str e.oldText), ("newText", .str e.newText),
    ("description", .str e.description)]

def decode : Decoder TextEdit := fun j => do
  let fs ← record "struct TextEdit" ["editType", "location", "originalText", "newText", "description"] j
  return { editType := ← required fs "editType" EditType.decode
           location := ← required fs "location" Span.decode
           oldText := ← defaulted fs "originalText" "" string
           newText := ← required fs "newText" string
           description := ← defaulted fs "description" "" string }

end TextEdit

/-- A path as it is written. -/
def Path.toJson (p : Path) : Json := .str p.raw

/-- A map by path as an object. -/
def PathMap.toJson {α : Type} (f : α → Json) (m : PathMap α) : Json :=
  .ofFields (m.map fun (p, a) => (p.raw, f a))

/-- A map by path from an object. -/
def PathMap.decode {α : Type} (d : Decoder α) : Decoder (PathMap α)
  | .obj fields => do
    let entries ← fields.mapM fun (k, j) => do return ((⟨k⟩ : Path), ← d j)
    return PathMap.ofList entries
  | j => wrongType j "a map"

namespace FileOperation

def toJson : FileOperation → Json
  | .move a b o => .ofFields [("kind", .str "move"), ("from", a.toJson), ("to", b.toJson), ("overwrite", .bool o)]
  | .create p c o =>
    .ofFields [("kind", .str "create"), ("path", p.toJson), ("content", .str c), ("overwrite", .bool o)]
  | .delete p => .ofFields [("kind", .str "delete"), ("path", p.toJson)]

def decode : Decoder FileOperation := fun j => do
  let (kind, body) ← tagged "internally tagged enum FileOperation" "kind" ["move", "create", "delete"] j
  match kind with
  | "move" =>
    let fs ← record "struct variant FileOperation::Move" ["from", "to", "overwrite"] body
    return .move (← required fs "from" path) (← required fs "to" path) (← defaulted fs "overwrite" false boolean)
  | "create" =>
    let fs ← record "struct variant FileOperation::Create" ["path", "content", "overwrite"] body
    return .create (← required fs "path" path) (← required fs "content" string)
      (← defaulted fs "overwrite" false boolean)
  | _ =>
    let fs ← record "struct variant FileOperation::Delete" ["path"] body
    return .delete (← required fs "path" path)

end FileOperation

namespace WorkspaceEdit

def toJson (w : WorkspaceEdit) : Json :=
  .ofFields [("changes", w.changes.toJson (Json.list TextEdit.toJson)),
    ("fileOperations", .list FileOperation.toJson w.operations)]

def decode : Decoder WorkspaceEdit := fun j => do
  let fs ← record "struct WorkspaceEdit" ["changes", "fileOperations"] j
  return { changes := ← required fs "changes" (PathMap.decode (list TextEdit.decode))
           operations := ← required fs "fileOperations" (list FileOperation.decode) }

end WorkspaceEdit

end Refactor
