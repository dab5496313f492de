import Refactor.Edit.Merge
import Refactor.Planning.InFile
import Refactor.Planning.Moves
import Refactor.Planning.Symbols

/-!
# Building plans

* `Operation.anchored` — an operation with all its paths in the root
* `Planning.build` — the plan of an operation
* `Planning.impactOf` — how far an operation would reach
-/

namespace Refactor

/-- An operation with every path resolved in a root. -/
def Operation.anchored (root : Path) : Operation → Operation :=
  let at_ (p : Path) : Path := p.resolveIn root
  fun
  | .renameFile a b o => .renameFile (at_ a) (at_ b) o
  | .renameDirectory a b o => .renameDirectory (at_ a) (at_ b) o
  | .move a b o => .move (at_ a) (at_ b) o
  | .batchMove ms o => .batchMove (ms.map fun m => ⟨at_ m.source, at_ m.destination⟩) o
  | .renameSymbol (.position f p) n => .renameSymbol (.position (at_ f) p) n
  | .renameSymbol (.name s f) n => .renameSymbol (.name s (f.map at_)) n
  | .extract k f r n => .extract k (at_ f) r n
  | .inline k f p => .inline k (at_ f) p
  | .delete (.symbol f p) => .delete (.symbol (at_ f) p)
  | .delete (.file p) => .delete (.file (at_ p))
  | .delete (.directory p) => .delete (.directory (at_ p))

namespace Planning

/-! ## Deleting paths -/

/-- Deleting a file or a directory; nothing that refers to it is changed. -/
def planDeletePath (path : Path) (directory : Bool) : Planning Draft := do
  ensureInRoot path
  if path == (← read).root then throw (.invalidRequest "The project root cannot be deleted")
  unless ← exists? path do throw (.fileNotFound path.raw)
  let isDirectory ← isDir path
  if isDirectory != directory then
    throw (.invalidRequest ((← shown path) ++ " is " ++ (if isDirectory then "" else "not ") ++ "a directory"))
  let files ← if directory then ofExcept ((← read).tree.filesUnder path) else pure [path]
  let edit := files.foldl (fun e f => e.addOperation (.delete f)) ({} : WorkspaceEdit)
  let found ← search fun r t => r.dependents t [path]
  let warnings ← found.mapM fun (dependent, targets) => do
    return PlanWarning.danglingReferences ((← shown dependent) ++ " still references " ++
      joinWith ", " (← targets.mapM shown))
  return { edit, warnings, dependents := found.map (·.1) }

def planDelete : DeleteTarget → Planning Draft
  | .file path => planDeletePath path false
  | .directory path => planDeletePath path true
  | .symbol file position => planDeleteSymbol file position

/-! ## Plans -/

/-- The draft of an operation, or the symbols to choose from. -/
def draftOf : Operation → Planning (Draft ⊕ List SymbolCandidate)
  | .renameFile a b o => .inl <$> planMove a b o (some .file)
  | .renameDirectory a b o => .inl <$> planMove a b o (some .directory)
  | .move a b o => .inl <$> planMove a b o none
  | .batchMove ms o => .inl <$> planBatch ms o
  | .renameSymbol target name => planRename target name
  | .extract k f r n => .inl <$> planExtract k f r n
  | .inline k f p => .inl <$> planInline k f p
  | .delete target => .inl <$> planDelete target

/-- The files whose checksums a plan records: those it edits, moves or deletes. -/
def checksummed (w : WorkspaceEdit) : PathSet :=
  PathSet.union (PathSet.ofList w.editedFiles) (w.operations.filterMap FileOperation.source?)

/-- A finished plan: merged, with checksums and impact. -/
def finalize (id : PlanId) (operation : Operation) (draft : Draft) : Planning Plan := do
  let edit ← ofExcept (WorkspaceEdit.merge [draft.edit])
  let files := checksummed edit
  let tree := (← read).tree
  files.forM fun p =>
    if tree.isLink p then throw (.invalidRequest (p.raw ++ " is a symbolic link; refactor its target instead"))
    else pure ()
  let checksums ← ofExcept (checksumsOf { tree } files)
  let plan := Plan.ofEdit id operation edit
  return { plan with
    impact := .analyze draft.dependents plan.estimatedChanges operation.isSymbolRename
    warnings := draft.warnings, checksums }

/-- The plan of an operation. -/
def build (id : PlanId) (operation : Operation) : Planning PlanOutcome := do
  let operation := operation.anchored (← read).root
  match ← draftOf operation with
  | .inl draft => return .ready (← finalize id operation draft)
  | .inr candidates => return .ambiguous candidates

/-! ## Impact -/

/-- The files that depend on paths, and the number of changes: one for every reference and path. -/
def pathDependents (targets : List Path) : Planning (List Path × Nat) := do
  let found ← search fun r t => r.dependents t targets
  return (found.map (·.1), found.foldl (fun n (_, refs) => n + refs.length) targets.length)

/-- The files that an operation concerns, and the number of changes. -/
def reachOf : Operation → Planning (List Path × Nat)
  | .renameFile a _ _ | .renameDirectory a _ _ | .move a _ _ => pathDependents [a]
  | .batchMove ms _ => pathDependents (ms.map (·.source))
  | .renameSymbol target _ => do
    match ← resolveSymbol target with
    | .ambiguous candidates =>
      throw (.invalidRequest ("Symbol name matches " ++ toString candidates.length ++
        " declarations; pass a file and position"))
    | .at_ file position =>
      let locations ← findReferences file position
      return (locations.map (·.path), locations.length)
  | .extract _ f _ _ | .inline _ f _ => return ([f], 1)
  | .delete (.file p) | .delete (.directory p) => pathDependents [p]
  | .delete (.symbol file position) => do
    let locations ← findReferences file position
    let files := (locations.map (·.path)).filter fun p => !(p == file)
    return (files, files.length + 1)

/-- How far an operation would reach. -/
def impactOf (operation : Operation) : Planning Impact := do
  let operation := operation.anchored (← read).root
  let (dependents, estimated) ← reachOf operation
  return .analyze dependents estimated operation.isSymbolRename

end Planning

end Refactor
