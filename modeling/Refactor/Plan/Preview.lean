import Refactor.Disk.Basic
import Refactor.Edit.Merge
import Refactor.Plan.Result

/-!
# Rendering plans

* `Plan.preview` — every file of a plan as it would be, without writing anything
-/

namespace Refactor

namespace Plan

/-- The moves of a plan. -/
def moves (p : Plan) : List (Path × Path) :=
  p.edit.operations.filterMap fun
    | .move a b _ => some (a, b)
    | _ => none

/-- Where a file ends up, if it moves; of several moves of one file the last counts. -/
def destination? (p : Plan) (file : Path) : Option Path := p.moves.reverse.lookup file

/-- The text of a file, missing when its content is no text. -/
def readContent (d : Disk) (p : Path) : Except Error (Option String) :=
  match d.read p with
  | .ok b => .ok (Bytes.text? b)
  | .error e => .error (e.orMissing p)

/-- Adds the files with text edits. -/
def previewEdits (p : Plan) (d : Disk) : List (Path × List TextEdit) → PathMap FilePreview →
    Except Error (PathMap FilePreview)
  | [], files => .ok files
  | (path, edits) :: rest, files =>
    if edits.isEmpty then previewEdits p d rest files
    else
      match d.readText path with
      | .error e => .error (e.at_ path)
      | .ok before => do
        let rendered ← TextEdit.applyAll path.raw before edits
        let newPath := p.destination? path
        previewEdits p d rest (files.insert path
          { path, newPath, status := if newPath.isSome then .moved else .modified
            before := some before, rendered := some rendered })

/-- Adds the files with file operations. -/
def previewOperations (d : Disk) : List FileOperation → PathMap FilePreview → Except Error (PathMap FilePreview)
  | [], files => .ok files
  | .move a b _ :: rest, files =>
    if files.contains a then previewOperations d rest files
    else do
      let content ← readContent d a
      previewOperations d rest (files.insert a
        { path := a, newPath := some b, status := .moved, before := content, rendered := content })
  | .create p content _ :: rest, files =>
    previewOperations d rest (files.insert p { path := p, status := .created, rendered := some content })
  | .delete p :: rest, files => do
    let content ← readContent d p
    previewOperations d rest (files.insert p { path := p, status := .deleted, before := content })

/-- Every file of a plan as it would be, sorted by path. -/
def preview (p : Plan) (d : Disk) : Except Error Preview := do
  let files ← previewEdits p d p.edit.changes []
  let files ← previewOperations d p.edit.operations files
  return ⟨p.id, files.map (·.2), p.warnings, p.impact⟩

end Plan

end Refactor
