import Refactor.Planning.Basic

/-!
# Planning refactorings inside a file

Extracting, inlining and deleting a symbol are planned by the language of the file.

* `Planning.planExtract`, `Planning.planInline` — edits of one file
* `Planning.planDeleteSymbol` — the same, with a warning about references that stay
-/

namespace Refactor.Planning

/-- No language can do this to a file. -/
def unsupported (operation : String) (file : Path) : Error :=
  .notSupported operation (some ("No language capability for " ++ file.extension?.getD "extension-less" ++ " files"))

/-- An ability of the language of a file. -/
def ability {α : Type} (operation : String) (file : Path) (pick : Refactorings → Option α) : Planning α := do
  match ((← read).registry.find? file).bind Language.refactorings? |>.bind pick with
  | some a => return a
  | none => throw (unsupported operation file)

/-- The edits of a language. -/
def fileEdits : FileEdits → Planning (List TextEdit)
  | .ok edits => return edits
  | .error e => throw e.toError

/-- A draft that edits one file, which also counts as its dependent. -/
def fileDraft (file : Path) (edits : List TextEdit) : Draft :=
  { edit := ({} : WorkspaceEdit).addEdits file edits, dependents := [file] }

/-- Extracting a function, a variable or a constant. -/
def planExtract (kind : ExtractKind) (file : Path) (range : Span) (name : String) : Planning Draft := do
  ensureInRoot file
  unless isIdentifier name do throw (.invalidRequest ("'" ++ name ++ "' is not a valid identifier"))
  let run ← match kind with
    | .function => ability "extract_function" file (·.extractFunction?)
    | .variable => ability "extract_variable" file (·.extractVariable?)
    | .constant => ability "extract_constant" file (·.extractConstant?)
  let source ← readText file
  return fileDraft file (← fileEdits (run source.toList file range name))

/-- Inlining a variable or a function. -/
def planInline (kind : InlineKind) (file : Path) (position : Position) : Planning Draft := do
  ensureInRoot file
  let run ← match kind with
    | .variable => ability "inline_variable" file (·.inlineVariable?)
    | .function => ability "inline_function" file (·.inlineFunction?)
  let source ← readText file
  return fileDraft file (← fileEdits (run source.toList file position))

/-! ## Deleting a symbol -/

/-- The references that stay after a deletion. -/
def remaining (file : Path) (edits : List TextEdit) (locations : List Location) : List Location :=
  locations.filter fun l => !(l.path == file && edits.any fun e => e.location.overlaps l.range)

/-- Deleting the declaration at a position. -/
def planDeleteSymbol (file : Path) (position : Position) : Planning Draft := do
  ensureInRoot file
  let env ← read
  let run ← match ((env.registry.find? file).bind Language.refactorings?).bind (·.deleteSymbol?) with
    | some run => pure run
    | none => throw (.notSupported "delete_symbol" (some ("No symbol delete support for " ++ (← shown file))))
  let source ← readText file
  let edits ← fileEdits (run source.toList file position)
  let edit := ({} : WorkspaceEdit).addEdits file edits
  match ← (try .ok <$> findReferences file position catch e => pure (.error e) : Planning (Except Error (List Location))) with
  | .error e =>
    return { edit, warnings := [.danglingReferences ("References to the deleted symbol were not checked: " ++ e.message)] }
  | .ok locations =>
    let left := remaining file edits locations
    let files := PathSet.ofList (left.map (·.path))
    let warnings := if left.isEmpty then [] else
      [PlanWarning.danglingReferences (toString left.length ++ " reference(s) to the deleted symbol remain in " ++
        toString files.length ++ " file(s)")]
    return { edit, warnings, dependents := files.filter fun f => !(f == file) }

end Refactor.Planning
