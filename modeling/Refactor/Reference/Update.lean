import Refactor.Apply.Checksums
import Refactor.Config
import Refactor.Disk.Walk
import Refactor.Language
import Refactor.Reference.Cache
import Refactor.Reference.LineEdits
import Refactor.Reference.Mention
import Refactor.Reference.Resolve

/-!
# Keeping references valid

Given moves, every file whose references point at a moved path gets the edits that keep them resolving,
and a moved file gets its own relative references rebased.

* `Moves` — what moves where
* `References.dependents` — the files that refer to given paths
* `References.planMoves` — the edits, dependents and warnings of moves
-/

namespace Refactor

/-! ## Moves -/

/-- The new path of every moved file, and the moved directories. -/
structure Moves where
  files : PathMap Path := []
  dirs : List (Path × Path) := []

namespace Moves

/-- Where a path ends up, if it moves. -/
def newLocation? (m : Moves) (p : Path) : Option Path :=
  (m.files.find? p).or (m.dirs.findSome? fun (a, b) => p.rebase? a b)

def isMoved (m : Moves) (p : Path) : Bool := m.files.contains p

def isEmpty (m : Moves) : Bool := m.files.isEmpty && m.dirs.isEmpty

end Moves

/-- Edits that keep references valid, keyed by the paths before the moves. -/
structure ReferenceEdits where
  edit : WorkspaceEdit := {}
  /-- files outside the moves that refer to a moved path -/
  dependents : List Path := []
  warnings : List PlanWarning := []

/-! ## Scanning -/

/-- What the search for references works with. -/
structure References where
  root : Path
  registry : Registry
  ignoredDirs : List String
  textExtensions : List String
  maxFileSize : Nat

/-- A file as the search sees it: its references with their spans, or a language that can only move
all references of the text. -/
inductive Scanned where
  | refs (refs : List ImportRef) (generic : Bool)
  | whole (content : List Char) (move : List Char → Path → Path → Path → List Char × Nat)

/-- The cache changes during a search. -/
abbrev Searching := StateM ImportCache

namespace References

def ofConfig (root : Path) (registry : Registry) (c : EngineConfig) : References :=
  { root, registry, ignoredDirs := c.allIgnoredDirs, textExtensions := c.allTextExtensions
    maxFileSize := c.maxFileSizeBytes }

def projectFiles (r : References) (t : Tree) : List Path := t.projectFiles r.ignoredDirs r.root

/-- The references of a text: those of its language, or the paths it mentions; `none` when the language
cannot tell where its references are. -/
def refsOf (language : Option Language) (extension : String) (content : String) : Option (List ImportRef) :=
  match language with
  | some l => l.references?.bind fun f => locatedRefs? (f content.toList)
  | none => some ((Mention.find content extension).map fun m => ⟨m.text, .link, some m.location⟩)

/-- The paths that references resolve to. -/
def targetsOf (r : References) (known : KnownFiles) (file : Path) (refs : List ImportRef) : List Path :=
  refs.filterMap fun ref =>
    match known.resolve r.root file ref.specifier with
    | .resolved target _ _ => some target
    | _ => none

/-- The references of a text through the cache. -/
def cachedRefs (r : References) (known : KnownFiles) (file : Path) (language : Option Language)
    (extension fingerprint content : String) : Searching (Option (List ImportRef)) := do
  match ← modifyGet fun c => c.get file fingerprint with
  | some refs => return some refs
  | none =>
    match refsOf language extension content with
    | none => return none
    | some refs =>
      modify fun c => c.insert file ⟨fingerprint, refs, r.targetsOf known file refs⟩
      return some refs

/-- Reads one file in the way that its extension asks for. -/
def scan (r : References) (t : Tree) (known : KnownFiles) (file : Path) : Searching (Option Scanned) := do
  match file.extension?.map lowered with
  | none => return none
  | some extension =>
    let language := r.registry.find? file
    if language.isNone && !r.textExtensions.contains extension then return none
    match t.read file with
    | .error _ => return none
    | .ok bytes =>
      if r.maxFileSize < bytes.size then return none
      match Bytes.text? bytes with
      | none => return none
      | some content =>
        let whole := (language.bind Language.moveReferences?).map (Scanned.whole content.toList)
        if language.any (·.references?.isNone) then return whole
        match ← r.cachedRefs known file language extension (Checksum.ofBytes bytes) content with
        | some refs => return some (.refs refs language.isNone)
        | none => return whole

/-! ## Dependents -/

/-- A path that no file has, next to a given one. -/
def scratchPath (target : Path) : Path :=
  ((target.parent?.getD ⟨""⟩).join ⟨".refit-scratch"⟩).join ⟨target.fileName?.getD ""⟩

/-- Whether a path is one of the targets or lies below one. -/
def isTarget (targets : List Path) (p : Path) : Bool := targets.any fun t => p == t || p.startsWith t

/-- The targets that a file refers to. -/
def hitsOf (r : References) (known : KnownFiles) (file : Path) (targets : List Path) : Scanned → PathSet
  | .refs refs _ => PathSet.ofList ((r.targetsOf known file refs).filter (isTarget targets))
  | .whole content move =>
    PathSet.ofList (targets.filter fun target => (move content file target (scratchPath target)).2 > 0)

/-- Every file that refers to a target, with the targets it refers to. -/
def dependents (r : References) (t : Tree) (targets : List Path) : Searching (List (Path × PathSet)) := do
  let files := r.projectFiles t
  let known := KnownFiles.ofFiles r.root files
  let found ← (files.filter fun f => !isTarget targets f).mapM fun file => do
    match ← r.scan t known file with
    | none => return none
    | some scanned =>
      let hits := r.hitsOf known file targets scanned
      return if hits.isEmpty then none else some (file, hits)
  return found.filterMap id

/-! ## New specifiers -/

/-- What becomes of a specifier. -/
inductive SpecifierUpdate where
  | unchanged
  | changed (new : String)
  | ambiguous (candidates : List Path)
  | unresolved

/-- A specifier with the extension that the old one wrote and the slash that it ended with. -/
def dress (old new : String) (writtenExtension : Option String) : String :=
  let (p, suffix) := Specifier.splitSuffix new
  let p := match writtenExtension with
    | some ext => p ++ "." ++ ext
    | none => p
  let p := if endsWith (Specifier.splitSuffix old).1 "/" && !endsWith p "/" then p ++ "/" else p
  p ++ suffix

/-- What becomes of a specifier in a file that moves from `old` to `new`. -/
def updateSpecifier (r : References) (known : KnownFiles) (moves : Moves) (old new : Path) (specifier : String) :
    SpecifierUpdate :=
  match known.resolve r.root old specifier with
  | .ambiguous candidates => .ambiguous candidates
  | .unresolved => .unresolved
  | .resolved target base writtenExtension =>
    let targetNew := (moves.newLocation? target).getD target
    if targetNew == target && (new == old || base == .projectRoot) then .unchanged
    else
      let style := SpecifierStyle.infer specifier base target
      let style := if known.isDir target then { style with explicitExtension := true, index := false } else style
      let written := dress specifier (Specifier.format style r.root new targetNew) writtenExtension
      if written == specifier then .unchanged else .changed written

/-! ## Edits of one file -/

/-- The edits and warnings of one file. -/
structure FileOutcome where
  path : Path
  edits : List TextEdit := []
  warnings : List PlanWarning := []

namespace FileOutcome

def isEmpty (o : FileOutcome) : Bool := o.edits.isEmpty && o.warnings.isEmpty

def addEdit (o : FileOutcome) (e : TextEdit) : FileOutcome := { o with edits := o.edits ++ [e] }

def addWarning (o : FileOutcome) (w : PlanWarning) : FileOutcome := { o with warnings := o.warnings ++ [w] }

end FileOutcome

/-- What one reference with a span contributes. -/
def planRef (r : References) (known : KnownFiles) (moves : Moves) (new : Path) (generic : Bool)
    (o : FileOutcome) (ref : ImportRef) (location : Span) : FileOutcome :=
  let moved := !(new == o.path)
  let shown := o.path.displayIn r.root
  let s := ref.specifier
  match r.updateSpecifier known moves o.path new s with
  | .unchanged => o
  | .changed written =>
    o.addEdit (((TextEdit.replacing location s written).withType (if generic then .updateReference else .updateImport)).describedAs
      ("Update reference '" ++ s ++ "' -> '" ++ written ++ "'"))
  | .ambiguous candidates =>
    if moved || candidates.any fun c => (moves.newLocation? c).isSome then
      o.addWarning (.ambiguousReference
        ("Reference '" ++ s ++ "' in " ++ shown ++ " matches several files and was left unchanged")
        (candidates.map (·.displayIn r.root)))
    else o
  | .unresolved =>
    if moved && !generic && ref.kind != .link then
      o.addWarning (.unresolvedReference
        ("Reference '" ++ s ++ "' in moved file " ++ shown ++ " does not resolve and was left unchanged"))
    else o

/-- What the references of a file contribute; every span counts once. -/
def planRefs (r : References) (known : KnownFiles) (moves : Moves) (new : Path) (generic : Bool) :
    List ImportRef → List Span → FileOutcome → FileOutcome
  | [], _, o => o
  | ref :: rest, seen, o =>
    match ref.location with
    | none => planRefs r known moves new generic rest seen o
    | some location =>
      if seen.contains location then planRefs r known moves new generic rest seen o
      else planRefs r known moves new generic rest (location :: seen) (planRef r known moves new generic o ref location)

/-- A text with every moved file named anew, and the number of changes. -/
def moveAll (move : List Char → Path → Path → Path → List Char × Nat) (file : Path) (content : List Char)
    (moved : List (Path × Path)) : List Char × Nat :=
  moved.foldl (fun (text, total) (old, new) =>
    if old == file then (text, total)
    else
      let (next, count) := move text file old new
      if count > 0 then (next, total + count) else (text, total)) (content, 0)

/-- What one file contributes. -/
def planFile (r : References) (t : Tree) (known : KnownFiles) (moves : Moves) (file : Path) :
    Searching (Option FileOutcome) := do
  match ← r.scan t known file with
  | none => return none
  | some scanned =>
    let new := (moves.newLocation? file).getD file
    let outcome := match scanned with
      | .refs refs generic => r.planRefs known moves new generic refs [] { path := file }
      | .whole content move =>
        let (moved, total) := moveAll move file content moves.files
        { path := file
          warnings := if new == file then [] else
            [.skippedReference ("References inside moved file " ++ file.displayIn r.root ++ " were not rebased")]
          edits := if total == 0 then [] else
            lineEdits (String.ofList content) (String.ofList moved) "Update imports for moved files" }
    return if outcome.isEmpty then none else some outcome

/-- Adds what one file contributes. -/
def collect (moves : Moves) (acc : ReferenceEdits) (o : FileOutcome) : ReferenceEdits :=
  { edit := if o.edits.isEmpty then acc.edit else acc.edit.addEdits o.path o.edits
    dependents := if o.edits.isEmpty || moves.isMoved o.path then acc.dependents else acc.dependents ++ [o.path]
    warnings := acc.warnings ++ o.warnings }

/-- The edits of every file that moves affect. -/
def planMoves (r : References) (t : Tree) (moves : Moves) : Searching ReferenceEdits := do
  let files := r.projectFiles t
  let known := KnownFiles.ofFiles r.root files
  let outcomes ← files.mapM (r.planFile t known moves)
  return (outcomes.filterMap id).foldl (collect moves) {}

end References

end Refactor
