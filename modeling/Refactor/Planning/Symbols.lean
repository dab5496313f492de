import Refactor.Planning.Basic

/-!
# Planning renames of symbols

The places of a symbol come from whoever answers about symbols; each is edited only when it holds exactly
the old name as a whole word.

* `identifierAt?`, `namePosition?`, `isWholeToken` — names in a text
* `Planning.resolveSymbol` — the one place that a request means
* `Planning.planRename` — the edits
-/

namespace Refactor

/-! ## Names in a text -/

/-- Characters of a name. -/
def isNameChar (c : Char) : Bool := Text.isAlphanumeric c || c == '_' || c == '$'

/-- The name around a position. -/
def identifierAt? (content : List Char) (p : Position) : Option String := do
  let offset ← p.byteOffset? content
  let (before, after) ← Text.splitAtByte? offset content
  let name := String.ofList ((before.reverse.takeWhile isNameChar).reverse ++ after.takeWhile isNameChar)
  if isIdentifier name then some name else none

/-- The places where a text occurs, none overlapping; `skip` characters belong to an occurrence. -/
def occurrencesFrom (name : List Char) (previous : Option Char) (offset skip : Nat) :
    List Char → List (Nat × Option Char × List Char)
  | [] => []
  | c :: cs =>
    match skip with
    | k + 1 => occurrencesFrom name (some c) (offset + c.utf8Size) k cs
    | 0 =>
      let here := name.isPrefixOf (c :: cs)
      let later := occurrencesFrom name (some c) (offset + c.utf8Size) (if here then name.length - 1 else 0) cs
      if here then (offset, previous, (c :: cs).drop name.length) :: later else later

/-- The first place in a span where a name stands as a whole word. -/
def namePosition? (content : List Char) (range : Span) (name : String) : Option Position := do
  let start ← range.start.byteOffset? content
  let stop := max start (((range.byteRange? content).map (·.2)).getD (Text.utf8Size content))
  let (before, rest) ← Text.splitAtByte? start content
  -- the search starts with the span, so that no occurrence reaches into it from before
  let inside := occurrencesFrom name.toList before.getLast? start 0 rest
  let hit ← inside.find? fun (offset, previous, after) =>
    offset + Text.utf8Size name.toList ≤ stop && !previous.any isNameChar && !after.head?.any isNameChar
  return Position.ofOffset content hit.1

/-- Whether a span holds exactly a name as a whole word. -/
def isWholeToken (content : List Char) (range : Span) (name : String) : Bool :=
  match range.byteRange? content with
  | none => false
  | some (a, b) =>
    match Text.splitAtByte? a content, Text.splitAtByte? b content with
    | some (before, _), some (_, after) =>
      Text.slice? content a b == some name.toList && !before.getLast?.any isNameChar && !after.head?.any isNameChar
    | _, _ => false

namespace Planning

/-! ## Targets -/

/-- What a request names: one place, or several symbols. -/
inductive ResolvedSymbol where
  | at_ (file : Path) (position : Position)
  | ambiguous (candidates : List SymbolCandidate)

/-- Candidates are sorted by path and start. -/
def sortsBefore (a b : SymbolCandidate) : Bool :=
  match a.location.path.cmp b.location.path with
  | .lt => true
  | .gt => false
  | .eq => a.location.range.start.atMost b.location.range.start

/-- Of neighbours at the same place only the first. -/
def dropSame : List SymbolCandidate → List SymbolCandidate
  | [] => []
  | c :: rest =>
    match dropSame rest with
    | [] => [c]
    | d :: ds => if c.location.same d.location then c :: ds else c :: d :: ds

/-- The symbols that a bare name means, sorted. -/
def candidatesFor (name : String) (file : Option Path) : Planning (List SymbolCandidate) := do
  let all ← findSymbols name
  let fitting := all.filter fun c => c.name == name && file.all fun f => c.location.path == f
  return dropSame (fitting.mergeSort sortsBefore)

/-- The one place that a request means, or the symbols to choose from. -/
def resolveSymbol : SymbolTarget → Planning ResolvedSymbol
  | .position file position => do
    ensureInRoot file
    unless ← exists? file do throw (.fileNotFound file.raw)
    return .at_ file position
  | .name name file => do
    match ← candidatesFor name file with
    | [] => throw (.symbolNotFound name (file.map (·.raw)))
    | [c] =>
      let content ← readText c.location.path
      return .at_ c.location.path ((namePosition? content.toList c.location.range name).getD c.location.range.start)
    | cs => return .ambiguous cs

/-! ## Renames -/

/-- A number of a line or column as messages count it. -/
def counted (n : Nat) : String := toString (Word.next 32 n)

/-- The edits of a rename so far. -/
structure RenameDraft where
  contents : PathMap String
  draft : Draft

/-- Adds one reference. -/
def renameAt (old new : String) (acc : RenameDraft) (l : Location) : Planning RenameDraft := do
  unless l.path.startsWith (← read).root do return acc
  let (content, contents) ← match acc.contents.find? l.path with
    | some c => pure (c, acc.contents)
    | none => do
      let c ← readText l.path
      pure (c, acc.contents.insert l.path c)
  let d := acc.draft
  if isWholeToken content.toList l.range old then
    let edit := ((TextEdit.replacing l.range old new).withType .rename).describedAs
      ("Rename '" ++ old ++ "' to '" ++ new ++ "'")
    return { contents, draft := { d with edit := d.edit.addEdits l.path [edit], dependents := d.dependents ++ [l.path] } }
  else
    let warning := PlanWarning.skippedReference
      ("Skipped reference at " ++ (← shown l.path) ++ ":" ++ counted l.range.startLine ++ ":" ++
        counted l.range.startColumn ++ ": text is not the identifier '" ++ old ++ "'")
    return { contents, draft := { d with warnings := d.warnings ++ [warning] } }

/-- The old name of the symbol at a place. -/
def oldName (target : SymbolTarget) (source : String) (file : Path) (position : Position) : Planning String :=
  match target with
  | .name name _ => return name
  | .position .. =>
    match identifierAt? source.toList position with
    | some name => return name
    | none =>
      throw (.symbolNotFound (counted position.line ++ ":" ++ counted position.character) (some file.raw))

/-- The renames of all references, or the symbols to choose from. -/
def planRename (target : SymbolTarget) (newName : String) : Planning (Draft ⊕ List SymbolCandidate) := do
  unless isIdentifier newName do throw (.invalidRequest ("'" ++ newName ++ "' is not a valid identifier"))
  match ← resolveSymbol target with
  | .ambiguous candidates => return .inr candidates
  | .at_ file position =>
    let source ← readText file
    let old ← oldName target source file position
    if old == newName then throw (.invalidRequest ("Symbol is already named '" ++ newName ++ "'"))
    let locations ← findReferences file position
    if locations.isEmpty then throw (.symbolNotFound old (some file.raw))
    let start : RenameDraft := ⟨PathMap.insert file source [], { edit := {} }⟩
    let renamed ← locations.foldlM (renameAt old newName) start
    if renamed.draft.edit.editCount == 0 then throw (.symbolNotFound old (some file.raw))
    return .inl renamed.draft

end Planning

end Refactor
