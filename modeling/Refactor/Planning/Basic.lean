import Refactor.Plan.Basic
import Refactor.Reference.Update

/-!
# Planning

Planning reads the workspace and asks about symbols, and writes nothing. Along the way it fills the cache
of references and notes what it asked.

* `Intelligence` — answers about symbols
* `Planner` — what planning works with
* `Planning` — steps of planning
* `Draft` — the parts of a plan before it is finished
-/

namespace Refactor

/-- Answers about symbols. -/
structure Intelligence where
  references : Path → Position → Except Error (List Location)
  symbols : String → Except Error (List SymbolCandidate)
  /-- the edit that someone else would make; plans do not rely on it -/
  rename : Path → Position → String → Except Error WorkspaceEdit :=
    fun _ _ _ => .error (.notSupported "rename_symbol" none)

namespace Intelligence

/-- No one can answer. -/
def unavailable : Intelligence :=
  let e : Error := .unavailable "lsp" "No language server is configured for this workspace"
  ⟨fun _ _ => .error e, fun _ => .error e, fun _ _ _ => .error e⟩

end Intelligence

/-- A question about symbols, or a request to whoever answers them. -/
inductive Query where
  | references (file : Path) (position : Position)
  | symbols (name : String)
  | restart (extensions : Option (List String))
  | shutdown

/-- What planning works with. -/
structure Planner where
  root : Path
  tree : Tree
  registry : Registry
  references : References
  intelligence : Intelligence

/-- What changes during planning. -/
structure PlanningState where
  cache : ImportCache := {}
  queries : List Query := []

/-- Steps of planning: a failure keeps what changed so far. -/
abbrev Planning := ReaderT Planner (ExceptT Error (StateM PlanningState))

namespace Planning

def ofExcept {α : Type} : Except Error α → Planning α
  | .ok a => pure a
  | .error e => throw e

/-- A search for references. -/
def search {α : Type} (f : References → Tree → Searching α) : Planning α := do
  let env ← read
  let s ← get
  let (a, cache) := (f env.references env.tree).run s.cache
  set { s with cache }
  return a

/-- The references of the symbol at a position. -/
def findReferences (file : Path) (position : Position) : Planning (List Location) := do
  modify fun s => { s with queries := s.queries ++ [.references file position] }
  ofExcept ((← read).intelligence.references file position)

/-- The symbols that a name may mean. -/
def findSymbols (name : String) : Planning (List SymbolCandidate) := do
  modify fun s => { s with queries := s.queries ++ [.symbols name] }
  ofExcept ((← read).intelligence.symbols name)

/-- A path as messages show it. -/
def shown (p : Path) : Planning String := return p.displayIn (← read).root

/-- Paths must lie in the root. -/
def ensureInRoot (p : Path) : Planning Unit := do
  let root := (← read).root
  unless p.startsWith root do
    throw (.invalidRequest (p.raw ++ " is outside the project root " ++ root.raw))

def exists? (p : Path) : Planning Bool := return (← read).tree.exists? p

def isDir (p : Path) : Planning Bool := return (← read).tree.isDir p

/-- The text of a file. -/
def readText (p : Path) : Planning String := do
  match ({ tree := (← read).tree } : Disk).readText p with
  | .ok s => return s
  | .error e => throw (e.orMissing p)

end Planning

/-- The parts of a plan before it is finished. -/
structure Draft where
  edit : WorkspaceEdit
  warnings : List PlanWarning := []
  dependents : List Path := []

/-- Names that can stand for a variable: letters, digits, underscores and dollar signs of the ASCII range,
no digit first. -/
def isIdentifier (name : String) : Bool :=
  match name.toList with
  | [] => false
  | c :: cs => Text.isWordChar c && !c.isDigit && cs.all Text.isWordChar

end Refactor
