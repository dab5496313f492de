import Refactor.Apply.Checksums
import Refactor.Apply.Locks
import Refactor.Apply.Snapshot
import Refactor.Apply.Verify
import Refactor.Disk.Walk
import Refactor.Edit.Merge
import Refactor.Plan.Preview
import Refactor.Reference.Cache

/-!
# Applying plans

An apply validates, locks, takes snapshots, writes, checks and commits. A failure before the writing is
an error and leaves everything as it was; a failure from the writing on puts every touched path back.

* `Transaction` — the file system and the records of one apply
* `Transaction.writeAll` — the writing
* `Transaction.rollback` — putting back
* `Workspace.apply` — a whole apply
-/

namespace Refactor

/-- One change, as putting back has to undo it. -/
inductive Written where
  /-- content replaced or file removed -/
  | path (p : Path)
  | move (source target : Path)

/-- A directory that the apply empties, and where its counterpart is. -/
structure SourceDir where
  path : Path
  destination : Option Path

/-- The file system and the records of one apply. -/
structure Transaction (σ : Type) where
  disk : σ
  result : ApplyResult
  /-- the apply heeds a raised cancellation -/
  heeds : Bool
  /-- changes in order -/
  log : List Written := []
  createdDirs : List Path := []
  removedDirs : List Path := []

/-- Steps of the writing: a failure keeps what is done so far. -/
abbrev Writing (σ : Type) := ExceptT Error (StateM (Transaction σ))

namespace Transaction

variable {σ : Type} [FileSystem σ]

/-- A call on the file system. -/
def ask {α : Type} (f : StateM σ α) : StateM (Transaction σ) α :=
  modifyGet fun tx => let (a, d) := f.run tx.disk; (a, { tx with disk := d })

/-- A call as a step of the writing. -/
def call {α : Type} (f : StateM σ α) : Writing σ α := ExceptT.lift (ask f)

/-- A call whose failure, at a path, ends the writing. -/
def perform (p : Path) (f : StateM σ (Except DiskError Unit)) : Writing σ Unit := do
  match ← call f with
  | .ok () => pure ()
  | .error e => throw (e.at_ p)

def record (w : Written) : Writing σ Unit := modify fun tx => { tx with log := tx.log ++ [w] }

def note (f : ApplyResult → ApplyResult) : Writing σ Unit := modify fun tx => { tx with result := f tx.result }

/-- Ends the writing when a cancellation was raised. -/
def heedCancel : Writing σ Unit := do
  if (← get).heeds then
    if ← call FileSystem.cancelled then throw (.cancelled "apply")

/-! ## Directories -/

/-- Of a directory and its ancestors, nearest first, those before the first one that is there. -/
def missingDirs : List Path → StateM (Transaction σ) (List Path)
  | [] => return []
  | p :: above => do
    if ← ask (FileSystem.exists? p) then return []
    return p :: (← missingDirs above)

/-- Creates a directory with all that is missing above it; the outermost one is noted first. -/
def ensureDir (dir : Path) : Writing σ Unit := do
  let missing ← ExceptT.lift (missingDirs dir.ancestors)
  if missing.isEmpty then return
  perform dir (FileSystem.makeDirs dir)
  modify fun tx => { tx with createdDirs := tx.createdDirs ++ missing.reverse }

def ensureParent (p : Path) : Writing σ Unit :=
  match p.parent? with
  | some dir => ensureDir dir
  | none => pure ()

/-- Removes a directory when it is empty; an empty part of a moved directory goes to its counterpart. -/
def removeEmptied (source : SourceDir) (dir : Path) : Writing σ Unit := do
  match ← call (FileSystem.removeDir dir) with
  | .error _ => pure ()
  | .ok () =>
    modify fun tx => { tx with removedDirs := tx.removedDirs ++ [dir] }
    match source.destination, dir.stripLead? source.path with
    | some destination, some relative => ensureDir (destination.join relative)
    | _, _ => pure ()

/-- Removes every directory that the apply has emptied. -/
def removeAllEmptied (sources : List SourceDir) : Writing σ Unit :=
  sources.forM fun source => do
    let dirs ← call (FileSystem.dirsUnder source.path)
    dirs.forM (removeEmptied source)

/-! ## Writing -/

/-- Writes the edited content of a file, computed from its snapshot. -/
def writeEdits (plan : Plan) (snapshots : Snapshots) (path : Path) (edits : List TextEdit) : Writing σ Unit := do
  if edits.isEmpty then return
  heedCancel
  let before ← match snapshots.find? path with
    | some (.content b) =>
      match Bytes.text? b with
      | some s => pure s
      | none => throw (.validation (path.raw ++ " is not valid UTF-8"))
    | _ => throw (.fileNotFound path.raw)
  let rendered ← ExceptT.mk (pure (TextEdit.applyAll path.raw before edits))
  record (.path path)
  perform path (FileSystem.write path (Bytes.ofText rendered))
  note fun r => { r with filesModified := r.filesModified ++ [(plan.destination? path).getD path] }

/-- Moves a file. -/
def writeMove (source target : Path) : Writing σ Unit := do
  heedCancel
  ensureParent target
  record (.move source target)
  perform source (FileSystem.rename source target)
  note fun r => { r with filesDeleted := r.filesDeleted ++ [source], filesCreated := r.filesCreated ++ [target] }

/-- Creates a file. -/
def writeCreate (path : Path) (content : String) : Writing σ Unit := do
  heedCancel
  ensureParent path
  record (.path path)
  perform path (FileSystem.write path (Bytes.ofText content))
  note fun r => { r with filesCreated := r.filesCreated ++ [path] }

/-- Deletes a file. -/
def writeDelete (path : Path) : Writing σ Unit := do
  heedCancel
  record (.path path)
  perform path (FileSystem.removeFile path)
  note fun r => { r with filesDeleted := r.filesDeleted ++ [path] }

/-- All changes of a plan: contents at the paths before any move, then moves, creations and deletions, and
last the directories that are empty now. -/
def writeAll (plan : Plan) (snapshots : Snapshots) (sources : List SourceDir) : Writing σ Unit := do
  plan.edit.changes.forM fun (path, edits) => writeEdits plan snapshots path edits
  plan.edit.operations.forM fun
    | .move a b _ => writeMove a b
    | _ => pure ()
  plan.edit.operations.forM fun
    | .create p content _ => writeCreate p content
    | _ => pure ()
  plan.edit.operations.forM fun
    | .delete p => writeDelete p
    | _ => pure ()
  removeAllEmptied sources
  heedCancel

/-! ## Putting back -/

/-- Puts a path back to its recorded state. -/
def restore (p : Path) : SnapshotState → StateM (Transaction σ) (Except DiskError Unit)
  | .content b => do
    let made ← match p.parent? with
      | some dir => ask (FileSystem.makeDirs dir)
      | none => pure (.ok ())
    match made with
    | .ok () => ask (FileSystem.write p b)
    | .error e => return .error e
  | .absent => do
    match ← ask (FileSystem.removeFile p) with
    | .error e => return if e.isNotFound then .ok () else .error e
    | .ok () => return .ok ()

/-- Notes that a path was put back. -/
def restored (p : Path) : StateM (Transaction σ) Unit :=
  modify fun tx => { tx with result := { tx.result with restoredFiles := tx.result.restoredFiles ++ [p] } }

/-- Notes that a path could not be put back. -/
def notRestored (p : Path) (state : SnapshotState) (e : DiskError) (preservedAt : Option Path) :
    StateM (Transaction σ) Unit := do
  let now ← ask (FileSystem.read p)
  let failure : RestoreFailure :=
    { path := p, error := e.message
      priorContent := match state with
        | .content b => some b
        | .absent => none
      currentContent := now.toOption, preservedAt }
  modify fun tx =>
    { tx with result := { tx.result with restoreFailures := tx.result.restoreFailures ++ [failure] } }

/-- Puts a path back and notes how it went. -/
def restorePath (snapshots : Snapshots) (p : Path) : StateM (Transaction σ) Unit := do
  match snapshots.find? p with
  | none => pure ()
  | some state =>
    match ← restore p state with
    | .ok () => restored p
    | .error e => notRestored p state e none

/-- Puts back the source of a move; `false` when that failed and the target, which holds the only copy,
must stay. -/
def restoreSource (snapshots : Snapshots) (source target : Path) : StateM (Transaction σ) Bool := do
  match snapshots.find? source with
  | none => return true
  | some state =>
    match ← restore source state with
    | .ok () => restored source; return true
    | .error e =>
      let preserved := if ← ask (FileSystem.exists? target) then some target else none
      notRestored source state e preserved
      return false

/-- Undoes changes, last first; every path is put back once. -/
def undo (snapshots : Snapshots) : List Written → List Path → StateM (Transaction σ) Unit
  | [], _ => pure ()
  | .path p :: rest, seen => do
    unless seen.contains p do restorePath snapshots p
    undo snapshots rest (p :: seen)
  | .move a b :: rest, seen => do
    let sourceDone := seen.contains a
    let targetDone := (a :: seen).contains b
    let kept ← if sourceDone then pure true else restoreSource snapshots a b
    if kept && !targetDone then restorePath snapshots b
    undo snapshots rest (b :: a :: seen)

/-- Makes the removed directories again, undoes the changes and removes the created directories, as far as
each can be done. -/
def putBack (snapshots : Snapshots) : StateM (Transaction σ) Unit := do
  (← get).removedDirs.forM fun dir => do let _ ← ask (FileSystem.makeDirs dir)
  undo snapshots (← get).log.reverse []
  (← get).createdDirs.reverse.forM fun dir => do let _ ← ask (FileSystem.removeDir dir)

/-- A transaction that failed. -/
def failed (tx : Transaction σ) (e : Error) : Transaction σ :=
  { tx with result := { tx.result with error := some (.ofError e) } }

/-- A transaction that starts to put everything back. -/
def rollingBack (tx : Transaction σ) : Transaction σ :=
  { tx with result := { tx.result.enter .rollingBack with rolledBack := true } }

/-- A transaction that has put everything back. -/
def rolledBack (tx : Transaction σ) : Transaction σ :=
  { tx with
    log := [], createdDirs := [], removedDirs := []
    result := { tx.result.enter .rolledBack with filesModified := [], filesCreated := [], filesDeleted := [] } }

/-- Puts everything back and says so. -/
def rollback (snapshots : Snapshots) : StateM (Transaction σ) Unit := do
  modify rollingBack
  putBack snapshots
  modify rolledBack

end Transaction

/-! ## Preconditions -/

/-- The directories that an operation may move or delete as a whole. -/
def Operation.dirCandidates : Operation → List SourceDir
  | .renameDirectory a b _ | .move a b _ => [⟨a, some b⟩]
  | .batchMove ms _ => ms.map fun m => ⟨m.source, some m.destination⟩
  | .delete (.directory a) => [⟨a, none⟩]
  | _ => []

namespace Plan

variable {σ : Type} [FileSystem σ]

/-- A path that has to be there. -/
def checkPresent (p : Path) : Checking σ Unit := do
  unless ← Checking.ask (FileSystem.exists? p) do throw (.fileNotFound p.raw)

/-- A path that has to be free, unless it may be overwritten. -/
def checkFree (p : Path) (overwrite : Bool) : Checking σ Unit := do
  unless overwrite do
    if ← Checking.ask (FileSystem.exists? p) then throw (.alreadyExists p.raw)

/-- Whether an operation finds its source and may take its destination. -/
def checkOperation : FileOperation → Checking σ Unit
  | .move a b overwrite => do checkPresent a; checkFree b overwrite
  | .create p _ overwrite => checkFree p overwrite
  | .delete p => checkPresent p

/-- Whether all files to edit, move and delete are there and all destinations are free. -/
def checkTargets (p : Plan) : Checking σ Unit := do
  p.edit.editedFiles.forM checkPresent
  p.edit.operations.forM checkOperation

/-- The directories that the operation of a plan may move or delete as a whole. -/
def dirCandidates (p : Plan) : List SourceDir := p.operation.dirCandidates

/-- The directories that the operation moves or deletes as a whole. -/
def sourceDirs (p : Plan) (root : Path) : StateM σ (List SourceDir) :=
  p.dirCandidates.filterM fun c => return (← FileSystem.isDir c.path) && !(c.path == root)

end Plan

/-! ## Whole applies -/

/-- What applies work on. -/
structure Workspace (σ : Type) where
  root : Path
  disk : σ
  locks : LockTable := {}
  cache : ImportCache := {}
  /-- the check after writing -/
  hook : Option (Hook σ) := none
  lockTimeoutMs : Nat := 5000

/-- Steps on a workspace: a failure keeps what is done so far. -/
abbrev Applying (σ : Type) := ExceptT Error (StateM (Workspace σ))

namespace Workspace

variable {σ : Type} [FileSystem σ]

/-- The holder of the locks of an apply. -/
def holder : String := "apply"

/-- A call on the file system. -/
def ask {α : Type} (f : StateM σ α) : StateM (Workspace σ) α :=
  modifyGet fun w => let (a, d) := f.run w.disk; (a, { w with disk := d })

def releaseLocks : StateM (Workspace σ) Unit := modify fun w => { w with locks := w.locks.release holder }

/-- A check on the file system. -/
def require (c : Checking σ Unit) : Applying σ Unit := ExceptT.mk (ask c.run)

/-- Ends the apply when a cancellation was raised. -/
def heedCancel (heeds : Bool) : Applying σ Unit :=
  require do
    if heeds then
      if ← Checking.ask FileSystem.cancelled then throw (.cancelled "apply")

/-- Everything before the locks. -/
def validate (plan : Plan) (heeds : Bool) : Applying σ Unit := do
  heedCancel heeds
  require plan.checkFresh
  require (ExceptT.mk (pure plan.edit.validate))
  require plan.checkTargets

/-- Takes the locks of all paths that a plan touches. -/
def lock (plan : Plan) : Applying σ Unit := ExceptT.mk fun w =>
  let keys := PathSet.ofList (plan.edit.touchedPaths.map (LockTable.keyOf (FileSystem.canonical? w.disk)))
  let (locks, locked) := w.locks.acquireKeys holder keys w.lockTimeoutMs
  (locked.map fun _ => (), { w with locks })

/-- Everything between taking the locks and the writing: the snapshots, and the result with the states so far. -/
def prepare (plan : Plan) (heeds : Bool) (result : ApplyResult) : Applying σ (Snapshots × ApplyResult) := do
  heedCancel heeds
  require plan.checkFresh
  require plan.checkTargets
  let result := result.enter .snapshotting
  match ← ExceptT.lift (ask (Snapshots.captureAll {} plan.edit.touchedPaths)) with
  | (snapshots, .ok ()) => do heedCancel heeds; return (snapshots, result)
  | (_, .error e) => throw e

/-- Everything before the writing; a failure leaves no lock taken. -/
def begin (plan : Plan) (heeds : Bool) : Applying σ (Snapshots × ApplyResult) := do
  let result := ApplyResult.enter { planId := plan.id } .validating
  validate plan heeds
  let result := result.enter .locking
  lock plan
  match ← ExceptT.lift (prepare plan heeds result).run with
  | .error e => do ExceptT.lift releaseLocks; throw e
  | .ok begun => return begun

/-- Takes over what a transaction did. -/
def finish (tx : Transaction σ) (invalidated : List Path) : StateM (Workspace σ) ApplyResult := do
  modify fun w => { w with disk := tx.disk, cache := w.cache.invalidate invalidated }
  releaseLocks
  return tx.result.enter .released

/-- Ends a transaction by putting everything back. -/
def abort (tx : Transaction σ) (snapshots : Snapshots) (e : Error) : StateM (Workspace σ) ApplyResult := do
  let ((), tx) := (Transaction.rollback snapshots).run (tx.failed e)
  finish tx snapshots.paths

/-- Runs the check, when there is one. -/
def verify (w : Workspace σ) (tx : Transaction σ) : Transaction σ × Option Error :=
  match w.hook with
  | none => (tx, none)
  | some hook =>
    let tx := { tx with result := tx.result.enter .verifying }
    let (answer, tx) := (Transaction.ask (hook w.root)).run tx
    match answer with
    | .error e => (tx, some e)
    | .ok v =>
      let tx := { tx with result := { tx.result with validation := some v } }
      if v.passed then (tx, none)
      else
        let code := match v.exitCode with
          | some n => "Some(" ++ toString n ++ ")"
          | none => "None"
        (tx, some (.validation ("Post-apply validation '" ++ v.command ++ "' failed with exit code " ++ code)))

/-- The writing of an apply: how it ends, and the transaction it leaves. -/
def writing (plan : Plan) (snapshots : Snapshots) (result : ApplyResult) (heeds : Bool) (w : Workspace σ) :
    Except Error Unit × Transaction σ :=
  let result := result.enter .writing
  let (sources, disk) := (plan.sourceDirs w.root).run w.disk
  (Transaction.writeAll plan snapshots sources).run.run { disk, heeds, result }

/-- The writing and the check of an apply: the transaction they leave, and why it has to be put back. -/
def attempt (plan : Plan) (snapshots : Snapshots) (result : ApplyResult) (heeds : Bool) (w : Workspace σ) :
    Transaction σ × Option Error :=
  match w.writing plan snapshots result heeds with
  | (.error e, tx) => (tx, some e)
  | (.ok (), tx) => w.verify tx

/-- Commits what was written, or puts everything back. -/
def conclude (plan : Plan) (snapshots : Snapshots) :
    Transaction σ × Option Error → StateM (Workspace σ) ApplyResult
  | (tx, some e) => abort tx snapshots e
  | (tx, none) =>
    finish { tx with result := { tx.result.enter .committed with success := true } } plan.edit.touchedPaths

/-- Writes, checks and commits, or puts everything back. -/
def transact (plan : Plan) (snapshots : Snapshots) (result : ApplyResult) (heeds : Bool) :
    StateM (Workspace σ) ApplyResult := do
  conclude plan snapshots ((← get).attempt plan snapshots result heeds)

/-- Applies a plan, all or nothing. Only failures before the writing are errors. -/
def apply (plan : Plan) (heeds : Bool) : Applying σ ApplyResult := do
  let (snapshots, result) ← begin plan heeds
  ExceptT.lift (transact plan snapshots result heeds)

end Workspace

end Refactor
