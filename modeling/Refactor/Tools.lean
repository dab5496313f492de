import Refactor.Engine

/-!
# Tools

The service as a set of named tools. Each takes a document of parameters; a refactoring tool plans, and
then either previews and stores the plan or applies it.

* `Tool.renameOperation`, `Tool.moveOperation`, … — parameters of the tools
* `Tool.call` — a call of a tool by its name
-/

namespace Refactor.Tool

open Decoder

/-! ## Parameters -/

/-- Options of every refactoring tool. -/
structure Options where
  /-- plan and store, do not apply -/
  dryRun : Bool := true
  overwrite : Bool := false
deriving DecidableEq, Repr

def Options.decode : Decoder Options := fun j => do
  let fs ← record "struct ToolOptions" ["dryRun", "overwrite"] j
  precheck [("dryRun", checks boolean), ("overwrite", checks boolean)] fs
  return { dryRun := ← defaulted fs "dryRun" true boolean, overwrite := ← defaulted fs "overwrite" false boolean }

/-- What a rename or delete is aimed at. -/
inductive TargetKind where
  | symbol | file | directory
deriving DecidableEq, Repr

def TargetKind.decode : Decoder TargetKind := fun j => do
  match ← variant ["symbol", "file", "directory"] j with
  | "symbol" => return .symbol
  | "file" => return .file
  | _ => return .directory

/-- A range by its two ends. -/
def rangeDecode : Decoder Span := fun j => do
  let fs ← record "struct RangeParam" ["start", "end"] j
  precheck [("start", checks Position.decode), ("end", checks Position.decode)] fs
  return .between (← required fs "start" Position.decode) (← required fs "end" Position.decode)

/-- Reads the parameters of a tool. -/
def parse {α : Type} (tool : String) (d : Decoder α) (arguments : Option Json) : Except Error α :=
  match d (arguments.getD (.obj [])) with
  | .ok a => .ok a
  | .error m => .error (.invalidRequest ("Invalid " ++ tool ++ " parameters: " ++ m))

/-- A parameter that this use of a tool needs. -/
def needed {α : Type} (a : Option α) (field use : String) : Except Error α :=
  match a with
  | some a => .ok a
  | none => .error (.invalidRequest ("'" ++ field ++ "' is required " ++ use))

/-- What a rename is aimed at. -/
structure RenameTarget where
  kind : TargetKind
  path : Option Path
  position : Option Position
  name : Option String

def RenameTarget.decode : Decoder RenameTarget := fun j => do
  let fs ← record "struct RenameTarget" ["kind", "path", "position", "name"] j
  precheck [("kind", checks TargetKind.decode), ("path", checks (nullable Decoder.path)),
    ("position", checks (nullable Position.decode)), ("name", checks (nullable string))] fs
  return ⟨← required fs "kind" TargetKind.decode, ← optional fs "path" Decoder.path,
    ← optional fs "position" Position.decode, ← optional fs "name" string⟩

def renameParams : Decoder (RenameTarget × String × Options) := fun j => do
  let fs ← record "struct RenameParams" ["target", "newName", "options"] j
  precheck [("target", checks RenameTarget.decode), ("newName", checks string), ("options", checks Options.decode)] fs
  return (← required fs "target" RenameTarget.decode, ← required fs "newName" string,
    ← defaulted fs "options" {} Options.decode)

def renameOperation (arguments : Option Json) : Except Error (Operation × Options) := do
  let (t, newName, options) ← parse "rename" renameParams arguments
  let operation ← match t.kind with
    | .symbol =>
      match t.position, t.name with
      | some position, _ =>
        pure (.renameSymbol (.position (← needed t.path "target.path" "when renaming by position") position) newName)
      | none, some name => pure (.renameSymbol (.name name t.path) newName)
      | none, none =>
        throw (.invalidRequest "Symbol rename needs either 'target.position' or 'target.name'")
    | .file => pure (.renameFile (← needed t.path "target.path" "for a file rename") ⟨newName⟩ options.overwrite)
    | .directory =>
      pure (.renameDirectory (← needed t.path "target.path" "for a directory rename") ⟨newName⟩ options.overwrite)
  return (operation, options)

/-- One move of a list. -/
def moveEntry : Decoder MoveSpec := fun j => do
  let fs ← record "struct MoveEntry" ["source", "destination"] j
  precheck [("source", checks path), ("destination", checks path)] fs
  return ⟨← required fs "source" path, ← required fs "destination" path⟩

def moveParams : Decoder (Option Path × Option Path × Option (List MoveSpec) × Options) := fun j => do
  let fs ← record "struct MoveParams" ["source", "destination", "moves", "options"] j
  precheck [("source", checks (nullable path)), ("destination", checks (nullable path)),
    ("moves", checks (nullable (list moveEntry))), ("options", checks Options.decode)] fs
  return (← optional fs "source" path, ← optional fs "destination" path, ← optional fs "moves" (list moveEntry),
    ← defaulted fs "options" {} Options.decode)

def moveOperation (arguments : Option Json) : Except Error (Operation × Options) := do
  let (source, destination, moves, options) ← parse "move" moveParams arguments
  match source, destination, moves with
  | some a, some b, none => return (.move a b options.overwrite, options)
  | none, none, some [] => throw (.invalidRequest "'moves' must not be empty")
  | none, none, some ms => return (.batchMove ms options.overwrite, options)
  | _, _, _ => throw (.invalidRequest "Provide either 'source' and 'destination' or a 'moves' list")

def extractParams : Decoder (Operation × Options) := fun j => do
  let fs ← record "struct ExtractParams" ["kind", "filePath", "range", "name", "options"] j
  precheck [("kind", checks ExtractKind.decode), ("filePath", checks path), ("range", checks rangeDecode),
    ("name", checks string), ("options", checks Options.decode)] fs
  return (.extract (← required fs "kind" ExtractKind.decode) (← required fs "filePath" path)
    (← required fs "range" rangeDecode) (← required fs "name" string), ← defaulted fs "options" {} Options.decode)

def inlineParams : Decoder (Operation × Options) := fun j => do
  let fs ← record "struct InlineParams" ["kind", "filePath", "position", "options"] j
  precheck [("kind", checks InlineKind.decode), ("filePath", checks path), ("position", checks Position.decode),
    ("options", checks Options.decode)] fs
  return (.inline (← required fs "kind" InlineKind.decode) (← required fs "filePath" path)
    (← required fs "position" Position.decode), ← defaulted fs "options" {} Options.decode)

def deleteParams : Decoder (TargetKind × Path × Option Position × Options) := fun j => do
  let fs ← record "struct DeleteParams" ["kind", "path", "position", "options"] j
  precheck [("kind", checks TargetKind.decode), ("path", checks path), ("position", checks (nullable Position.decode)),
    ("options", checks Options.decode)] fs
  return (← required fs "kind" TargetKind.decode, ← required fs "path" path, ← optional fs "position" Position.decode,
    ← defaulted fs "options" {} Options.decode)

def deleteOperation (arguments : Option Json) : Except Error (Operation × Options) := do
  let (kind, p, position, options) ← parse "delete" deleteParams arguments
  let target ← match kind with
    | .symbol => pure (DeleteTarget.symbol p (← needed position "position" "when deleting a symbol"))
    | .file => pure (.file p)
    | .directory => pure (.directory p)
  return (.delete target, options)

/-- The operation of a refactoring tool; `none` for another name. -/
def operationOf? (tool : String) (arguments : Option Json) : Option (Except Error (Operation × Options)) :=
  match tool with
  | "rename" => some (renameOperation arguments)
  | "move" => some (moveOperation arguments)
  | "extract" => some (parse "extract" extractParams arguments)
  | "inline" => some (parse "inline" inlineParams arguments)
  | "delete" => some (deleteOperation arguments)
  | _ => none

/-! ## Answers -/

/-- The answer about a finished apply. -/
def applied (r : ApplyResult) : Json :=
  let status := if r.success then "applied" else if r.workspaceRestored then "rolled_back" else "partially_restored"
  .ofFields [("content", .ofFields [("status", .str status), ("dryRun", .bool false), ("planId", r.planId.toJson),
    ("result", r.toJson)])]

/-- Plans, and then previews and stores, or applies. -/
def planAndAnswer (operation : Operation) (options : Options) : Serving Json := do
  match ← Engine.plan operation with
  | .ambiguous candidates =>
    return .ofFields [("content", .ofFields [("status", .str "needs_disambiguation"),
      ("candidates", .list SymbolCandidate.toJson candidates)])]
  | .ready plan =>
    if options.dryRun then
      let preview ← Engine.preview plan
      let id ← Engine.store plan
      return .ofFields [("content", .ofFields [("status", .str "planned"), ("dryRun", .bool true),
        ("planId", id.toJson), ("plan", plan.toJson), ("preview", preview.toJson)])]
    else return applied (← Engine.apply plan false)

/-- The operation that a call of the impact tool is about. -/
def impactOperation (arguments : Option Json) : Except Error Operation := do
  let params : Decoder (String × Option Json) := fun j => do
    let fs ← record "struct ImpactParams" ["tool", "arguments"] j
    return (← required fs "tool" string, ← optional fs "arguments" fun j => .ok j)
  let (tool, inner) ← parse "analyze_impact" params arguments
  match operationOf? tool inner with
  | some answer => return (← answer).1
  | none =>
    throw (.invalidRequest ("Cannot analyze impact of '" ++ tool ++
      "'. Expected one of: rename, move, extract, inline, delete"))

/-- The tools with the names of their handlers, sorted. -/
def handlers : List (String × String) :=
  [("analyze_impact", "AnalyzeImpactHandler"), ("apply_plan", "ApplyPlanHandler"), ("delete", "DeleteHandler"),
    ("extract", "ExtractHandler"), ("inline", "InlineHandler"), ("move", "MoveHandler"), ("rename", "RenameHandler")]

def names : List String := handlers.map (·.1)

/-- Calls a tool. -/
def call (tool : String) (arguments : Option Json) : Serving Json := do
  match tool with
  | "analyze_impact" =>
    let operation ← ExceptT.mk (pure (impactOperation arguments))
    let impact ← Engine.impact operation
    return .ofFields [("content", .ofFields [("impact", impact.toJson)])]
  | "apply_plan" =>
    let params : Decoder PlanId := fun j => do
      let fs ← record "struct ApplyPlanParams" ["planId"] j
      required fs "planId" PlanId.decode
    let id ← ExceptT.mk (pure (parse "apply_plan" params arguments))
    return applied (← Engine.applyStored id)
  | _ =>
    match operationOf? tool arguments with
    | some answer =>
      let (operation, options) ← ExceptT.mk (pure answer)
      planAndAnswer operation options
    | none => throw (.notSupported tool (some ("Unknown tool. Available tools: " ++ joinWith ", " names)))

/-- Calls a tool; a failure is an answer too. -/
def dispatch (tool : String) (arguments : Option Json) : StateM Engine Json := do
  match ← (call tool arguments).run with
  | .ok answer => return answer
  | .error e => return .ofFields [("error", (ErrorResponse.ofError e).toJson)]

end Refactor.Tool
