import Refactor.Markdown.Links
import Refactor.Script.Imports
import Refactor.Script.Refactoring

/-!
# Languages

A language handles the files with certain extensions. Each thing it can do is a field that may be
missing.

* `Language` — name, extensions and abilities
* `Language.typescript`, `Language.markdown` — the built-in ones
* `Registry` — languages in the order of their registration; the first that claims an extension has it
-/

namespace Refactor

/-- The edits of one file, or why a language refuses. -/
abbrev FileEdits := Except LanguageError (List TextEdit)

/-- Refactorings inside one file; a missing field is an unsupported refactoring. -/
structure Refactorings where
  extractFunction? : Option (List Char → Path → Span → String → FileEdits) := none
  extractVariable? : Option (List Char → Path → Span → String → FileEdits) := none
  extractConstant? : Option (List Char → Path → Span → String → FileEdits) := none
  inlineVariable? : Option (List Char → Path → Position → FileEdits) := none
  inlineFunction? : Option (List Char → Path → Position → FileEdits) := none
  deleteSymbol? : Option (List Char → Path → Position → FileEdits) := none

namespace Refactorings

/-- The edits of an ability, or that it is missing. -/
def attempt {α : Type} (name : String) (f? : Option α) (run : α → FileEdits) : FileEdits :=
  match f? with
  | some f => run f
  | none => .error (.notSupported name)

def extractFunction (r : Refactorings) (s : List Char) (file : Path) (range : Span) (name : String) : FileEdits :=
  attempt "plan_extract_function" r.extractFunction? fun f => f s file range name

def extractVariable (r : Refactorings) (s : List Char) (file : Path) (range : Span) (name : String) : FileEdits :=
  attempt "plan_extract_variable" r.extractVariable? fun f => f s file range name

def extractConstant (r : Refactorings) (s : List Char) (file : Path) (range : Span) (name : String) : FileEdits :=
  attempt "plan_extract_constant" r.extractConstant? fun f => f s file range name

def inlineVariable (r : Refactorings) (s : List Char) (file : Path) (at_ : Position) : FileEdits :=
  attempt "plan_inline_variable" r.inlineVariable? fun f => f s file at_

def inlineFunction (r : Refactorings) (s : List Char) (file : Path) (at_ : Position) : FileEdits :=
  attempt "plan_inline_function" r.inlineFunction? fun f => f s file at_

def deleteSymbol (r : Refactorings) (s : List Char) (file : Path) (at_ : Position) : FileEdits :=
  attempt "plan_delete_symbol" r.deleteSymbol? fun f => f s file at_

/-- Which refactorings are there, in the order of the fields. -/
def supported (r : Refactorings) : List Bool :=
  [r.extractFunction?.isSome, r.extractVariable?.isSome, r.extractConstant?.isSome, r.inlineVariable?.isSome,
    r.inlineFunction?.isSome, r.deleteSymbol?.isSome]

/-- The refactorings of scripts. -/
def script : Refactorings where
  extractFunction? := some fun s path range name => (Script.Refactoring.extractFunction range name).plan s path
  extractVariable? := some fun s path range name => (Script.Refactoring.extractVariable range name).plan s path
  extractConstant? := some fun s path range name => (Script.Refactoring.extractConstant range name).plan s path
  inlineVariable? := some fun s path position => (Script.Refactoring.inlineVariable position).plan s path
  deleteSymbol? := some fun s path position => (Script.Refactoring.deleteSymbol position).plan s path

end Refactorings

/-- A language and its abilities. -/
structure Language where
  name : String
  extensions : List String
  /-- the references of a text -/
  references? : Option (List Char → List ImportRef) := none
  /-- a text of a file with the references to an old path naming a new one, and their number -/
  moveReferences? : Option (List Char → Path → Path → Path → List Char × Nat) := none
  /-- a text with the references to an old name naming a new one, and their number -/
  renameReferences? : Option (List Char → String → String → List Char × Nat) := none
  refactorings? : Option Refactorings := none

namespace Language

def typescript : Language where
  name := "TypeScript"
  extensions := ["ts", "tsx", "js", "jsx", "mjs", "cjs", "mts", "cts"]
  references? := some Script.importsOf
  moveReferences? := some Script.moveImports
  renameReferences? := some Script.renameImports
  refactorings? := some .script

def markdown : Language where
  name := "Markdown"
  extensions := ["md", "markdown", "mdx"]
  references? := some Markdown.linksOf
  moveReferences? := some Markdown.moveLinks
  renameReferences? := some Markdown.renameLinks

/-- Whether the language claims an extension, in any case. -/
def handles (l : Language) (extension : String) : Bool :=
  l.extensions.any fun e => lowered e == lowered extension

end Language

/-- Languages in the order of their registration. -/
abbrev Registry := List Language

namespace Registry

/-- The language of an extension. -/
def findExtension? (r : Registry) (extension : String) : Option Language := r.find? (·.handles extension)

/-- The language of a file. -/
def find? (r : Registry) (path : Path) : Option Language := path.extension?.bind r.findExtension?

/-- Every claimed extension once. -/
def extensions (r : Registry) : List String :=
  (r.flatMap Language.extensions).foldl (fun acc e => if acc.contains e then acc else acc ++ [e]) []

/-- One line that lists the names. -/
def describe (r : Registry) : String :=
  "PluginRegistry \x7b plugins: [" ++ joinWith ", " (r.map fun l => Decoder.debugText l.name) ++ "] \x7d"

end Registry

end Refactor
