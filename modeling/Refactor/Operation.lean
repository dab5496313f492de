import Refactor.Edit.Codec

/-!
# Requested refactorings

What a caller can ask for, with its written form.

* `Operation` — a requested refactoring
* `Operation.label`, `Operation.primaryPath?` — how it is shown
* `Operation.toJson`, `Operation.decode` — its written form
-/

namespace Refactor

open Decoder

/-- One source and destination of a batch. -/
structure MoveSpec where
  source : Path
  destination : Path
deriving Repr

/-- How a symbol is named: by an occurrence, or by its bare name. -/
inductive SymbolTarget where
  | position (file : Path) (position : Position)
  | name (name : String) (file : Option Path)
deriving Repr

inductive ExtractKind where
  | function | variable | constant
deriving DecidableEq, Repr

inductive InlineKind where
  | variable | function
deriving DecidableEq, Repr

/-- What a delete removes. -/
inductive DeleteTarget where
  | symbol (file : Path) (position : Position)
  | file (path : Path)
  | directory (path : Path)
deriving Repr

/-- A requested refactoring. -/
inductive Operation where
  | renameFile (oldPath newPath : Path) (overwrite : Bool)
  | renameDirectory (oldPath newPath : Path) (overwrite : Bool)
  | renameSymbol (target : SymbolTarget) (newName : String)
  | move (source destination : Path) (overwrite : Bool)
  | batchMove (moves : List MoveSpec) (overwrite : Bool)
  | extract (kind : ExtractKind) (file : Path) (range : Span) (name : String)
  | inline (kind : InlineKind) (file : Path) (position : Position)
  | delete (target : DeleteTarget)
deriving Repr

namespace Operation

/-- A short name of the sort of operation. -/
def label : Operation → String
  | .renameFile .. => "rename_file"
  | .renameDirectory .. => "rename_directory"
  | .renameSymbol .. => "rename_symbol"
  | .move .. => "move"
  | .batchMove .. => "batch_move"
  | .extract .. => "extract"
  | .inline .. => "inline"
  | .delete _ => "delete"

def labels : List String :=
  ["rename_file", "rename_directory", "rename_symbol", "move", "batch_move", "extract", "inline", "delete"]

/-- The file or directory that the operation starts from. -/
def primaryPath? : Operation → Option Path
  | .renameFile p _ _ | .renameDirectory p _ _ | .move p _ _ | .extract _ p _ _ | .inline _ p _ => some p
  | .renameSymbol (.position f _) _ => some f
  | .renameSymbol (.name _ f) _ => f
  | .batchMove ms _ => ms.head?.map (·.source)
  | .delete (.symbol p _) | .delete (.file p) | .delete (.directory p) => some p

def isSymbolRename : Operation → Bool
  | .renameSymbol .. => true
  | _ => false

end Operation

/-! ## Written form -/

def MoveSpec.toJson (m : MoveSpec) : Json :=
  .ofFields [("source", m.source.toJson), ("destination", m.destination.toJson)]

def MoveSpec.decode : Decoder MoveSpec := fun j => do
  let fs ← record "struct MoveSpec" ["source", "destination"] j
  return ⟨← required fs "source" path, ← required fs "destination" path⟩

namespace SymbolTarget

def toJson : SymbolTarget → Json
  | .position f p => .ofFields [("by", .str "position"), ("file", f.toJson), ("position", p.toJson)]
  | .name n f => .ofSome [("by", some (.str "name")), ("name", some (.str n)), ("file", f.map Path.toJson)]

def decode : Decoder SymbolTarget := fun j => do
  let (by_, body) ← tagged "internally tagged enum SymbolTarget" "by" ["position", "name"] j
  if by_ == "position" then
    let fs ← record "struct variant SymbolTarget::Position" ["file", "position"] body
    return .position (← required fs "file" path) (← required fs "position" Position.decode)
  else
    let fs ← record "struct variant SymbolTarget::Name" ["name", "file"] body
    return .name (← required fs "name" string) (← optional fs "file" path)

end SymbolTarget

namespace ExtractKind

def text : ExtractKind → String
  | .function => "function"
  | .variable => "variable"
  | .constant => "constant"

def decode : Decoder ExtractKind := fun j => do
  match ← variant ["function", "variable", "constant"] j with
  | "function" => return .function
  | "variable" => return .variable
  | _ => return .constant

end ExtractKind

namespace InlineKind

def text : InlineKind → String
  | .variable => "variable"
  | .function => "function"

def decode : Decoder InlineKind := fun j => do
  match ← variant ["variable", "function"] j with
  | "variable" => return .variable
  | _ => return .function

end InlineKind

namespace DeleteTarget

def toJson : DeleteTarget → Json
  | .symbol f p => .ofFields [("target", .str "symbol"), ("file", f.toJson), ("position", p.toJson)]
  | .file p => .ofFields [("target", .str "file"), ("path", p.toJson)]
  | .directory p => .ofFields [("target", .str "directory"), ("path", p.toJson)]

def decode : Decoder DeleteTarget := fun j => do
  let (target, body) ← tagged "internally tagged enum DeleteTarget" "target" ["symbol", "file", "directory"] j
  match target with
  | "symbol" =>
    let fs ← record "struct variant DeleteTarget::Symbol" ["file", "position"] body
    return .symbol (← required fs "file" path) (← required fs "position" Position.decode)
  | "file" =>
    let fs ← record "struct variant DeleteTarget::File" ["path"] body
    return .file (← required fs "path" path)
  | _ =>
    let fs ← record "struct variant DeleteTarget::Directory" ["path"] body
    return .directory (← required fs "path" path)

end DeleteTarget

namespace Operation

/-- The fields of an operation besides its kind. -/
def fields : Operation → List (String × Json)
  | .renameFile a b o | .renameDirectory a b o =>
    [("old_path", a.toJson), ("new_path", b.toJson), ("overwrite", .bool o)]
  | .renameSymbol t n => [("target", t.toJson), ("new_name", .str n)]
  | .move a b o => [("source", a.toJson), ("destination", b.toJson), ("overwrite", .bool o)]
  | .batchMove ms o => [("moves", .list MoveSpec.toJson ms), ("overwrite", .bool o)]
  | .extract k f r n =>
    [("extract", .str k.text), ("file", f.toJson), ("range", r.toJson), ("name", .str n)]
  | .inline k f p => [("inline", .str k.text), ("file", f.toJson), ("position", p.toJson)]
  | .delete t => [("delete", t.toJson)]

def toJson (o : Operation) : Json := .ofFields (("kind", .str o.label) :: o.fields)

def decode : Decoder Operation := fun j => do
  let (kind, body) ← tagged "internally tagged enum RefactorOperation" "kind" labels j
  let fields := record ("struct variant RefactorOperation::" ++ kind)
  match kind with
  | "rename_file" =>
    let fs ← fields ["old_path", "new_path", "overwrite"] body
    return .renameFile (← required fs "old_path" path) (← required fs "new_path" path)
      (← defaulted fs "overwrite" false boolean)
  | "rename_directory" =>
    let fs ← fields ["old_path", "new_path", "overwrite"] body
    return .renameDirectory (← required fs "old_path" path) (← required fs "new_path" path)
      (← defaulted fs "overwrite" false boolean)
  | "rename_symbol" =>
    let fs ← fields ["target", "new_name"] body
    return .renameSymbol (← required fs "target" SymbolTarget.decode) (← required fs "new_name" string)
  | "move" =>
    let fs ← fields ["source", "destination", "overwrite"] body
    return .move (← required fs "source" path) (← required fs "destination" path)
      (← defaulted fs "overwrite" false boolean)
  | "batch_move" =>
    let fs ← fields ["moves", "overwrite"] body
    return .batchMove (← required fs "moves" (list MoveSpec.decode)) (← defaulted fs "overwrite" false boolean)
  | "extract" =>
    let fs ← fields ["extract", "file", "range", "name"] body
    return .extract (← required fs "extract" ExtractKind.decode) (← required fs "file" path)
      (← required fs "range" Span.decode) (← required fs "name" string)
  | "inline" =>
    let fs ← fields ["inline", "file", "position"] body
    return .inline (← required fs "inline" InlineKind.decode) (← required fs "file" path)
      (← required fs "position" Position.decode)
  | _ =>
    let fs ← fields ["delete"] body
    return .delete (← required fs "delete" DeleteTarget.decode)

end Operation

end Refactor
