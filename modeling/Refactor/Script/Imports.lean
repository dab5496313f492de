import Refactor.Reference.Located
import Refactor.Script.Source
import Refactor.Text.Pattern

/-!
# Imports of a script module

Every specifier of a module with its byte range: imports, re-exports, `require` calls and dynamic
imports. A text that no dialect reads is searched line by line instead.

* `scanLines` — the specifiers found line by line, in order
* `scanImports` — the specifiers of a module in order
* `importBlockEnd` — where the imports at the top of a module end
* `renameImports`, `moveImports` — a text with its specifiers replaced
-/

namespace Refactor.Script

/-! ## Specifiers of a tree -/

/-- The specifier inside the quotes of a literal. -/
def specifierOf (s : Source) (kind : ImportKind) (literal : Node) : List LocatedRef :=
  if literal.hi < literal.lo + 2 then []
  else match Text.slice? s (literal.lo + 1) (literal.hi - 1) with
    | some t => [⟨String.ofList t, kind, literal.lo + 1, literal.hi - 1⟩]
    | none => []

/-- The sort of reference that a call makes, by its callee. -/
def callKind? (callee : Node) : Option ImportKind :=
  match callee.form with
  | .importRef => some .dynamicImport
  | .ident "require" => if callee.isExpr then some .require else none
  | _ => none

/-- The specifiers that a node itself holds. -/
def specifiersBy (s : Source) (n : Node) : List LocatedRef :=
  match n.form with
  | .importDecl => specifierOf s .importFrom (n.kid 0)
  | .exportAll => specifierOf s .reExport (n.kid 0)
  | .exportNamed => if (n.kid 0).isAbsent then [] else specifierOf s .reExport (n.kid 0)
  | .importEquals => if (n.kid 0).isAbsent then [] else specifierOf s .require (n.kid 0)
  | .call =>
    match n.isExpr, callKind? (n.kid 0), (n.kids.drop 1).filter fun k => k.isExpr || k.form == .spread with
    | true, some kind, [argument] =>
      let value := if argument.form == .spread then argument.kid 0 else argument
      if value.form == .literal .string then specifierOf s kind value else []
    | _, _, _ => []
  | _ => []

/-! ## Specifiers of a text that does not parse -/

section Fallback

open Text

/-- A specifier between quotes. -/
def quoted : Pattern :=
  .all [.one isQuote, .mark (.oneOrMore fun c => !isQuote c && c != '\n'), .one isQuote]
where
  isQuote (c : Char) : Bool := c == '\'' || c == '"'

/-- `type` before the names of an import or export. -/
def typeMark : Pattern := .maybe (.all [.text "type", .oneOrMore isBlank])

/-- What an import may name between the keyword and `from`. -/
def isImportedName (c : Char) : Bool :=
  isWord c || isBlank c || c == '$' || c == '*' || c == '{' || c == '}' || c == ','

def importPattern : Pattern :=
  .all [.wordEdge, .text "import", .oneOrMore isBlank, typeMark,
    .maybe (.all [.one isImportedName, .few isImportedName, .oneOrMore isBlank, .text "from", .blanks]), quoted]

def reExportPattern : Pattern :=
  .all [.wordEdge, .text "export", .oneOrMore isBlank, typeMark,
    .alt
      (.all [.char '*', .maybe (.all [.oneOrMore isBlank, .text "as", .oneOrMore isBlank, .oneOrMore fun c => isWord c || c == '$'])])
      (.all [.char '{', .many (· != '}'), .char '}']),
    .blanks, .text "from", .blanks, quoted]

/-- A call of a function with one quoted argument. -/
def callPattern (name : String) : Pattern :=
  .all [.wordEdge, .text name, .blanks, .char '(', .blanks, quoted, .blanks, .char ')']

/-- The patterns of the sorts of references. -/
def linePatterns : List (Pattern × ImportKind) :=
  [(importPattern, .importFrom), (reExportPattern, .reExport), (callPattern "require", .require),
    (callPattern "import", .dynamicImport)]

/-- Whether a line opens with a comment. -/
def opensComment (line : List Char) : Bool :=
  let t := trimStart line
  ['/', '/'].isPrefixOf t || ['/', '*'].isPrefixOf t || ['*'].isPrefixOf t

/-- The specifiers of one line that starts at a byte offset. -/
def specifiersOfLine (start : Nat) (line : List Char) : List LocatedRef :=
  if opensComment line then []
  else linePatterns.flatMap fun (pattern, kind) =>
    (pattern.findAll line).filterMap fun m =>
      (slice? line m.markLo m.markHi).map fun t => ⟨String.ofList t, kind, start + m.markLo, start + m.markHi⟩

/-- The specifiers of lines one after the other. -/
def specifiersOfLines (start : Nat) : List (List Char) → List LocatedRef
  | [] => []
  | line :: rest => specifiersOfLine start line ++ specifiersOfLines (start + utf8Size line) rest

end Fallback

/-! ## All specifiers -/

/-- Of neighbours that start at the same place only the first. -/
def dropRepeats : List LocatedRef → List LocatedRef
  | [] => []
  | r :: rest =>
    match dropRepeats rest with
    | [] => [r]
    | q :: qs => if r.lo == q.lo then r :: qs else r :: q :: qs

/-- Specifiers in the order of their places, one for each place. -/
def inOrder (found : List LocatedRef) : List LocatedRef := dropRepeats (found.mergeSort fun a b => a.lo ≤ b.lo)

/-- The specifiers that the search line by line finds, in order. -/
def scanLines (s : Source) : List LocatedRef := inOrder (specifiersOfLines 0 (Text.inclusiveLines s))

/-- The specifiers of a module in order. -/
def scanImports (s : Source) (path : Option Path) : List LocatedRef :=
  match parse? s path with
  | some p => inOrder (p.module.all.flatMap (specifiersBy s))
  | none => scanLines s

/-- The references of a module. -/
def importsOf (content : List Char) : List ImportRef := (scanImports content none).map (LocatedRef.toRef content)

/-- Byte offset after the line on which the last import or re-export at the top level ends, or zero. -/
def importBlockEnd (s : Source) (p : Parsed) : Service Nat := do
  let isImport (n : Node) : Bool := match n.form with
    | .importDecl | .exportAll => true
    | .exportNamed => !(n.kid 0).isAbsent
    | _ => false
  let ends ← (p.body.filter isImport).mapM fun n => s.lineEnd n.hi
  return ends.foldl max 0

/-! ## Rewriting -/

/-- The text with every specifier of a package, or of a path below it, renamed. -/
def renameImports (content : List Char) (old new : String) : List Char × Nat :=
  LocatedRef.replaceAll (fun r =>
    if r.specifier == old then some new
    else (afterLead? r.specifier (old ++ "/")).map fun rest => new ++ "/" ++ rest) content (scanImports content none)

def sourceExtensions : List String := ["ts", "tsx", "mts", "cts", "js", "jsx", "mjs", "cjs"]

def plainExtensions : List String := ["js", "jsx", "mjs", "cjs"]

/-- Whether the extension of a path is one of these, in any case. -/
def hasExtensionIn (p : Path) (extensions : List String) : Bool :=
  p.extension?.any fun e => extensions.contains (lowered e)

/-- Whether a specifier that resolves to `candidate` names `target`: exactly, without its extension, by
the extension of the compiled file, or as the directory of an index file. -/
def refersTo (candidate target : Path) : Bool :=
  candidate == target ||
    (hasExtensionIn target sourceExtensions &&
      (target.withExtension "" == candidate ||
        (hasExtensionIn candidate plainExtensions && candidate.withExtension "" == target.withExtension "") ||
        (target.fileStem? == some "index" && target.parent?.any (· == candidate))))

/-- The extension of a compiled file that a specifier writes for a source with another one. -/
def writtenExtension? (candidate target : Path) : Option String :=
  if candidate == target || !hasExtensionIn candidate plainExtensions then none else candidate.extension?

/-- The specifier in `file` for `new` in place of one for `old`; `none` when it names another file. -/
def movedSpecifier? (file old new : Path) (specifier : String) : Option String :=
  let base := file.parent?.getD ⟨"/"⟩
  let (pathPart, _) := Specifier.splitSuffix specifier
  if !startsWith pathPart "." then none
  else
    let candidate := base.clampedJoin pathPart
    if !refersTo candidate old then none
    else
      let style := SpecifierStyle.infer specifier .importingFile old
      let formatted := Specifier.format style base file new
      let written := match writtenExtension? candidate old with
        | some ext =>
          let (p, suffix) := Specifier.splitSuffix formatted
          p ++ "." ++ ext ++ suffix
        | none => formatted
      if written == specifier then none else some written

/-- The text of `file` with every specifier of `old` naming `new`. -/
def moveImports (content : List Char) (file old new : Path) : List Char × Nat :=
  LocatedRef.replaceAll (fun r => movedSpecifier? file old new r.specifier) content (scanImports content (some file))

end Refactor.Script
