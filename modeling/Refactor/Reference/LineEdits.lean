import Refactor.Edit.Basic

/-!
# Edits between two texts

* `lineEdits` — the edits that turn one text into another one, line by line where the number of
  lines is the same
-/

namespace Refactor

/-- The edits of the lines that differ; `line` is the number of the first one. -/
def changedLines (description : String) (line : Nat) :
    List (List Char) → List (List Char) → List TextEdit
  | old :: olds, new :: news =>
    let old := Text.dropReturn old
    let new := Text.dropReturn new
    let rest := changedLines description (line + 1) olds news
    if old = new then rest
    else { editType := .updateImport, location := ⟨line, 0, line, Text.utf16Size old⟩,
           oldText := String.ofList old, newText := String.ofList new, description } :: rest
  | _, _ => []

/-- The edits that turn `before` into `after`. -/
def lineEdits (before after description : String) : List TextEdit :=
  if before = after then []
  else
    let olds := before.toList.splitOn '\n'
    let news := after.toList.splitOn '\n'
    if olds.length = news.length then changedLines description 0 olds news
    else
      [{ editType := .updateImport, location := .between ⟨0, 0⟩ (.atEnd before.toList),
         oldText := before, newText := after, description }]

end Refactor
