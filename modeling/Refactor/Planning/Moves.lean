import Refactor.Planning.Basic

/-!
# Planning moves

* `Planning.checkMove` — one move against the workspace as it is
* `Planning.planMove`, `Planning.planBatch` — moves with the edits that keep references valid
-/

namespace Refactor.Planning

/-- What a moved path is. -/
inductive PathKind where
  | file | directory
deriving DecidableEq, Repr

/-- A move that was checked. -/
structure CheckedMove where
  source : Path
  destination : Path
  kind : PathKind

/-- Checks one move; `expected` is what the source has to be. -/
def checkMove (source destination : Path) (overwrite : Bool) (expected : Option PathKind) : Planning CheckedMove := do
  ensureInRoot source
  ensureInRoot destination
  if source == destination then
    throw (.invalidRequest ("Source and destination are the same path: " ++ source.raw))
  if source == (← read).root then throw (.invalidRequest "The project root cannot be moved")
  unless ← exists? source do throw (.fileNotFound source.raw)
  let kind : PathKind := if ← isDir source then .directory else .file
  match expected, kind with
  | some .file, .directory => throw (.invalidRequest ((← shown source) ++ " is a directory"))
  | some .directory, .file => throw (.invalidRequest ((← shown source) ++ " is not a directory"))
  | _, _ => pure ()
  if kind == .directory && destination.startsWith source then
    throw (.invalidRequest ("Cannot move " ++ (← shown source) ++ " into its own subtree"))
  if ← exists? destination then
    unless overwrite do throw (.alreadyExists destination.raw)
    if kind == .file && (← isDir destination) then
      throw (.invalidRequest ("Cannot overwrite directory " ++ (← shown destination) ++ " with a file"))
  return ⟨source, destination, kind⟩

/-- Files that move one by one, and where to. -/
def expandFiles (overwrite : Bool) (source destination : Path) : List Path → Planning (List (Path × Path))
  | [] => return []
  | file :: rest => do
    match file.rebase? source destination with
    | none => expandFiles overwrite source destination rest
    | some place =>
      if !overwrite && (← exists? place) then throw (.alreadyExists place.raw)
      return (file, place) :: (← expandFiles overwrite source destination rest)

/-- The files that a move takes along, and where to. -/
def expandMove (overwrite : Bool) (m : CheckedMove) : Planning (List (Path × Path)) := do
  match m.kind with
  | .file => return [(m.source, m.destination)]
  | .directory =>
    let files ← ofExcept ((← read).tree.filesUnder m.source)
    if files.isEmpty then
      throw (.invalidRequest ("Directory " ++ (← shown m.source) ++ " contains no files to move"))
    expandFiles overwrite m.source m.destination files

/-- Moves with the edits that keep references valid. -/
def planChecked (moves : List CheckedMove) (overwrite : Bool) : Planning Draft := do
  let pairs := (← moves.mapM (expandMove overwrite)).flatten
  let context : Moves :=
    { files := PathMap.ofList pairs
      dirs := (moves.filter (·.kind == .directory)).map fun m => (m.source, m.destination) }
  let found ← search fun r t => r.planMoves t context
  let edit := pairs.foldl (fun e (a, b) => e.addOperation (.move a b overwrite)) found.edit
  return { edit, warnings := found.warnings, dependents := found.dependents }

/-- One move. -/
def planMove (source destination : Path) (overwrite : Bool) (expected : Option PathKind) : Planning Draft := do
  planChecked [← checkMove source destination overwrite expected] overwrite

/-! ## Batches -/

/-- Two moves of a batch may not have one destination. -/
def checkDestinations : List MoveSpec → List MoveSpec → Planning Unit
  | [], _ => pure ()
  | m :: rest, before => do
    match before.find? fun b => b.destination == m.destination with
    | some b =>
      throw (.conflict
        ((← shown b.source) ++ " and " ++ (← shown m.source) ++ " both move to " ++ (← shown m.destination))
        [b.source.raw, m.source.raw, m.destination.raw])
    | none => checkDestinations rest (m :: before)

/-- No move of a batch may go into, or start inside, the source of another. -/
def checkPair (a b : MoveSpec) : Planning Unit := do
  if a.destination == b.source || a.destination.startsWith b.source then
    throw (.conflict
      ("Destination " ++ (← shown a.destination) ++ " overlaps " ++ (← shown b.source) ++
        ", which is moved by the same batch")
      [a.destination.raw, b.source.raw])
  if a.source.startsWith b.source then
    throw (.conflict ((← shown a.source) ++ " is inside " ++ (← shown b.source) ++ ", which is also moved")
      [a.source.raw, b.source.raw])

/-- Every pair of different moves of a batch. -/
def pairs {α : Type} (xs : List α) : List (α × α) :=
  let numbered := (List.range xs.length).zip xs
  numbered.flatMap fun (i, a) => (numbered.filter (·.1 != i)).map fun (_, b) => (a, b)

/-- Several moves at once. -/
def planBatch (moves : List MoveSpec) (overwrite : Bool) : Planning Draft := do
  if moves.isEmpty then throw (.invalidRequest "Batch move needs at least one move")
  checkDestinations moves []
  (pairs moves).forM fun (a, b) => checkPair a b
  let checked ← moves.mapM fun m => checkMove m.source m.destination overwrite none
  planChecked checked overwrite

end Refactor.Planning
