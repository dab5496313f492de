import Refactor.Planning.Basic
import Refactor.Text.Pattern

/-!
# Symbols by their names

Where no one can say what a name means, names can be taken at their word: every whole-word occurrence of
a name is a reference to one symbol, declared where a declaring word stands before it.

* `IndexedSymbol.ofTree?` — the symbol of a name in the files below a root
* `Intelligence.ofIndex` — answers from such symbols
-/

namespace Refactor

open Text

/-- A symbol with all its occurrences. -/
structure IndexedSymbol where
  candidate : SymbolCandidate
  references : List Location

namespace IndexedSymbol

/-- A name as a word of its own. -/
def occurrence (name : String) : Pattern := .all [.wordEdge, .text name, .wordEdge]

/-- A name behind a word that declares it. -/
def declaration (name : String) : Pattern :=
  .all [.wordEdge, .any (["function", "const", "let", "class"].map .text), .oneOrMore isBlank, .text name, .wordEdge]

/-- The occurrences in one line, each with whether the line declares the name. -/
def inLine (name : String) (file : Path) (number : Nat) (line : List Char) : List (Location × Bool) :=
  let declares := !((declaration name).findAll line).isEmpty
  ((occurrence name).findAll line).filterMap fun m =>
    (slice? line 0 m.lo).map fun before =>
      let column := utf16Size before
      (⟨file, ⟨number, column, number, column + utf16Size name.toList⟩⟩, declares)

/-- The occurrences in a file. -/
def inFile (name : String) (file : Path) (content : String) : List (Location × Bool) :=
  (splitLines content.toList).zipIdx.flatMap fun (line, n) => inLine name file n line

/-- The symbol of a name in the texts below a root; a name that occurs nowhere has none. -/
def ofTree? (t : Tree) (root : Path) (name kind : String) : Option IndexedSymbol :=
  let files := (((t.filesUnder root).toOption).getD []).filter fun f => !t.isLink f
  let found := files.flatMap fun f =>
    match (t.read f).toOption.bind Bytes.text? with
    | some content => inFile name f content
    | none => []
  ((found.find? (·.2)).or found.head?).map fun (location, _) => ⟨⟨name, kind, location, none⟩, found.map (·.1)⟩

/-- Whether a position touches a location, its ends included. -/
def covers (l : Location) (file : Path) (p : Position) : Bool :=
  l.path == file && l.range.start.atMost p && p.atMost l.range.stop

/-- Whether a position touches an occurrence. -/
def isAt (s : IndexedSymbol) (file : Path) (p : Position) : Bool :=
  covers s.candidate.location file p || s.references.any fun l => covers l file p

end IndexedSymbol

/-- Answers from symbols that were looked up before. -/
def Intelligence.ofIndex (symbols : List IndexedSymbol) : Intelligence where
  references file p := .ok (((symbols.find? (·.isAt file p)).map (·.references)).getD [])
  symbols name := .ok ((symbols.map (·.candidate)).filter (·.name == name))

end Refactor
