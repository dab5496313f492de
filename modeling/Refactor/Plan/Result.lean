import Refactor.Plan.Basic

/-!
# Results

What an apply and a preview answer.

* `ApplyState`, `ApplyResult` — the course and the end of an apply
* `FilePreview`, `Preview` — the files of a plan as they would be
-/

namespace Refactor

open Decoder

/-- The states of an apply. -/
inductive ApplyState where
  | validating | locking | snapshotting | writing | verifying | committed | rollingBack | rolledBack | released
deriving DecidableEq, Repr

namespace ApplyState

def text : ApplyState → String
  | .validating => "validating"
  | .locking => "locking"
  | .snapshotting => "snapshotting"
  | .writing => "writing"
  | .verifying => "verifying"
  | .committed => "committed"
  | .rollingBack => "rolling_back"
  | .rolledBack => "rolled_back"
  | .released => "released"

def states : List ApplyState :=
  [.validating, .locking, .snapshotting, .writing, .verifying, .committed, .rollingBack, .rolledBack, .released]

def decode : Decoder ApplyState := fun j => do
  let name ← variant (states.map text) j
  return (states.find? fun s => s.text == name).getD .validating

end ApplyState

/-- How a check after an apply ended. -/
structure ValidationResult where
  passed : Bool
  command : String
  exitCode : Option Int
  stdout : String
  stderr : String
  durationMs : Nat := 0
deriving DecidableEq, Repr

namespace ValidationResult

def toJson (v : ValidationResult) : Json :=
  .ofFields [("passed", .bool v.passed), ("command", .str v.command), ("exitCode", .ofOption .int v.exitCode),
    ("stdout", .str v.stdout), ("stderr", .str v.stderr), ("durationMs", .nat v.durationMs)]

def decode : Decoder ValidationResult := fun j => do
  let fs ← record "struct ValidationResult" ["passed", "command", "exitCode", "stdout", "stderr", "durationMs"] j
  return { passed := ← required fs "passed" boolean, command := ← required fs "command" string
           exitCode := ← optional fs "exitCode" int32, stdout := ← required fs "stdout" string
           stderr := ← required fs "stderr" string, durationMs := ← required fs "durationMs" word64 }

end ValidationResult

/-- Bytes as a list of numbers. -/
def bytesToJson (b : ByteArray) : Json := .list (fun (x : UInt8) => .nat x.toNat) b.toList

def bytesDecode : Decoder ByteArray := fun j => do
  let ns ← list (below 256 "u8") j
  return ⟨(ns.map Nat.toUInt8).toArray⟩

/-- A file that could not be put back. -/
structure RestoreFailure where
  path : Path
  error : String
  priorContent : Option ByteArray := none
  currentContent : Option ByteArray := none
  /-- where the file survives -/
  preservedAt : Option Path := none

namespace RestoreFailure

def toJson (f : RestoreFailure) : Json :=
  .ofSome [("path", some f.path.toJson), ("error", some (.str f.error)),
    ("originalContent", f.priorContent.map bytesToJson), ("currentContent", f.currentContent.map bytesToJson),
    ("preservedAt", f.preservedAt.map Path.toJson)]

def decode : Decoder RestoreFailure := fun j => do
  let fs ← record "struct RestoreFailure" ["path", "error", "originalContent", "currentContent", "preservedAt"] j
  return { path := ← required fs "path" Decoder.path, error := ← required fs "error" string
           priorContent := ← optional fs "originalContent" bytesDecode
           currentContent := ← optional fs "currentContent" bytesDecode
           preservedAt := ← optional fs "preservedAt" Decoder.path }

end RestoreFailure

def ErrorKind.decode : Decoder ErrorKind := fun j => do
  match ← variant ["validation", "conflict", "not_found", "unavailable", "internal"] j with
  | "validation" => return .validation
  | "conflict" => return .conflict
  | "not_found" => return .notFound
  | "unavailable" => return .unavailable
  | _ => return .internal

def ErrorResponse.decode : Decoder ErrorResponse := fun j => do
  let fs ← record "struct ErrorResponse" ["code", "message", "category", "kind", "retryable", "details", "suggestion"] j
  return { code := ← required fs "code" string, message := ← required fs "message" string
           category := ← required fs "category" string, kind := ← required fs "kind" ErrorKind.decode
           retryable := ← defaulted fs "retryable" false boolean, details := ← optional fs "details" fun j => .ok j
           suggestion := ← optional fs "suggestion" string }

/-- The course and the end of an apply. -/
structure ApplyResult where
  planId : PlanId
  success : Bool := false
  finalState : ApplyState := .validating
  /-- the states in the order of their visit -/
  history : List ApplyState := []
  filesModified : List Path := []
  filesCreated : List Path := []
  filesDeleted : List Path := []
  rolledBack : Bool := false
  restoredFiles : List Path := []
  restoreFailures : List RestoreFailure := []
  validation : Option ValidationResult := none
  error : Option ErrorResponse := none
  durationMs : Nat := 0

namespace ApplyResult

/-- The result after entering a state. -/
def enter (r : ApplyResult) (s : ApplyState) : ApplyResult :=
  { r with finalState := s, history := r.history ++ [s] }

/-- Whether a failed apply left every file as it was. -/
def workspaceRestored (r : ApplyResult) : Bool := !r.success && r.restoreFailures.isEmpty

def toJson (r : ApplyResult) : Json :=
  .ofSome [("planId", some r.planId.toJson), ("success", some (.bool r.success)),
    ("finalState", some (.str r.finalState.text)), ("stateHistory", some (.list (fun s => .str s.text) r.history)),
    ("filesModified", some (.list Path.toJson r.filesModified)),
    ("filesCreated", some (.list Path.toJson r.filesCreated)),
    ("filesDeleted", some (.list Path.toJson r.filesDeleted)), ("rolledBack", some (.bool r.rolledBack)),
    ("restoredFiles", some (.list Path.toJson r.restoredFiles)),
    ("restoreFailures", some (.list RestoreFailure.toJson r.restoreFailures)),
    ("validation", r.validation.map ValidationResult.toJson), ("error", r.error.map ErrorResponse.toJson),
    ("durationMs", some (.nat r.durationMs))]

def decode : Decoder ApplyResult := fun j => do
  let fs ← record "struct ApplyResult" ["planId", "success", "finalState", "stateHistory", "filesModified",
    "filesCreated", "filesDeleted", "rolledBack", "restoredFiles", "restoreFailures", "validation", "error",
    "durationMs"] j
  return { planId := ← required fs "planId" PlanId.decode, success := ← required fs "success" boolean
           finalState := ← required fs "finalState" ApplyState.decode
           history := ← required fs "stateHistory" (list ApplyState.decode)
           filesModified := ← required fs "filesModified" (list path)
           filesCreated := ← required fs "filesCreated" (list path)
           filesDeleted := ← required fs "filesDeleted" (list path)
           rolledBack := ← required fs "rolledBack" boolean
           restoredFiles := ← required fs "restoredFiles" (list path)
           restoreFailures := ← required fs "restoreFailures" (list RestoreFailure.decode)
           validation := ← optional fs "validation" ValidationResult.decode
           error := ← optional fs "error" ErrorResponse.decode
           durationMs := ← required fs "durationMs" word64 }

end ApplyResult

/-! ## Previews -/

/-- What happens to a file. -/
inductive FileChange where
  | modified | created | moved | deleted
deriving DecidableEq, Repr

namespace FileChange

def text : FileChange → String
  | .modified => "modified"
  | .created => "created"
  | .moved => "moved"
  | .deleted => "deleted"

def decode : Decoder FileChange := fun j => do
  match ← variant ["modified", "created", "moved", "deleted"] j with
  | "modified" => return .modified
  | "created" => return .created
  | "moved" => return .moved
  | _ => return .deleted

end FileChange

/-- One file as it would be. -/
structure FilePreview where
  path : Path
  newPath : Option Path := none
  status : FileChange
  before : Option String := none
  /-- the content after the plan, missing for a deletion -/
  rendered : Option String := none

namespace FilePreview

def toJson (f : FilePreview) : Json :=
  .ofSome [("path", some f.path.toJson), ("newPath", f.newPath.map Path.toJson), ("status", some (.str f.status.text)),
    ("original", f.before.map .str), ("rendered", f.rendered.map .str)]

def decode : Decoder FilePreview := fun j => do
  let fs ← record "struct FilePreview" ["path", "newPath", "status", "original", "rendered"] j
  return { path := ← required fs "path" Decoder.path, newPath := ← optional fs "newPath" Decoder.path
           status := ← required fs "status" FileChange.decode, before := ← optional fs "original" string
           rendered := ← optional fs "rendered" string }

end FilePreview

/-- All files of a plan as they would be. -/
structure Preview where
  planId : PlanId
  files : List FilePreview
  warnings : List PlanWarning
  impact : Impact

namespace Preview

/-- The entry of a file, by its old or its new path. -/
def file? (p : Preview) (path : Path) : Option FilePreview :=
  p.files.find? fun f => f.path == path || f.newPath.any (· == path)

def toJson (p : Preview) : Json :=
  .ofFields [("planId", p.planId.toJson), ("files", .list FilePreview.toJson p.files),
    ("warnings", .list PlanWarning.toJson p.warnings), ("impact", p.impact.toJson)]

def decode : Decoder Preview := fun j => do
  let fs ← record "struct Preview" ["planId", "files", "warnings", "impact"] j
  return { planId := ← required fs "planId" PlanId.decode, files := ← required fs "files" (list FilePreview.decode)
           warnings := ← required fs "warnings" (list PlanWarning.decode), impact := ← required fs "impact" Impact.decode }

end Preview

end Refactor
