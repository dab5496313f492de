import Refactor.Json.Basic

/-!
# What a server can do

A server introduces itself by a long record of abilities. Two of them matter here, but a record that is
malformed anywhere counts as unknown, so its shape is checked as a whole.

* `Shape`, `Shape.fits` — shapes of documents
* `Capabilities.ofIntroduction?` — the abilities of a server
-/

namespace Refactor

/-- A shape that documents can have. -/
inductive Shape where
  | anything
  | boolean
  | text
  /-- a number that fits a word with a sign -/
  | number (bits : Nat)
  | list (item : Shape)
  | oneOf (a b : Shape)
  /-- a missing field and `null` fit as well -/
  | optional (a : Shape)
  | fields (first : String) (shape : Shape) (rest : Shape)
  /-- an object whose other fields are free -/
  | object

namespace Shape

def isOptional : Shape → Bool
  | .optional _ => true
  | _ => false

/-- Whether a document has a shape. -/
def fits : Shape → Json → Bool
  | .anything, _ => true
  | .boolean, j => j.bool?.isSome
  | .text, j => j.str?.isSome
  | .number bits, j => j.int?.any (Word.fitsSigned bits)
  | .list item, j => j.arr?.any fun js => js.all fun v => fits item v
  | .oneOf a b, j => fits a j || fits b j
  | .optional a, j => j.isNull || fits a j
  | .fields first shape rest, j =>
    match j.get? first with
    | none => shape.isOptional && fits rest j
    | some v => fits shape v && fits rest j
  | .object, j => j.obj?.isSome

/-- An object with fields of given shapes. -/
def record (fs : List (String × Shape)) : Shape := fs.foldr (fun (k, s) rest => .fields k s rest) .object

/-- An object whose given fields may all be missing. -/
def options (fs : List (String × Shape)) : Shape := record (fs.map fun (k, s) => (k, .optional s))

/-- A truth value or a record. -/
def flagOr (a : Shape) : Shape := .oneOf .boolean a

def int : Shape := .number 32

def texts : Shape := .list .text

end Shape

open Shape

namespace Capabilities

/-- Work can be reported on. -/
def progress : Shape := options [("workDoneProgress", .boolean)]

def resolving : Shape := options [("resolveProvider", .boolean), ("workDoneProgress", .boolean)]

/-- Which documents a server wants to hear of. -/
def selector : Shape := .list (options [("language", .text), ("scheme", .text), ("pattern", .text)])

/-- A registration for some documents. -/
def registration : Shape :=
  options [("documentSelector", selector), ("id", .text), ("workDoneProgress", .boolean)]

def synchronization : Shape :=
  .oneOf int (options [("openClose", .boolean), ("change", int), ("willSave", .boolean),
    ("willSaveWaitUntil", .boolean), ("save", flagOr (options [("includeText", .boolean)]))])

def completion : Shape :=
  options [("resolveProvider", .boolean), ("triggerCharacters", texts), ("allCommitCharacters", texts),
    ("workDoneProgress", .boolean), ("completionItem", options [("labelDetailsSupport", .boolean)])]

def signatureHelp : Shape :=
  options [("triggerCharacters", texts), ("retriggerCharacters", texts), ("workDoneProgress", .boolean)]

def codeAction : Shape :=
  flagOr (options [("codeActionKinds", texts), ("workDoneProgress", .boolean), ("resolveProvider", .boolean)])

def typing : Shape :=
  .fields "firstTriggerCharacter" .text (options [("moreTriggerCharacter", texts)])

def commands : Shape := .fields "commands" texts progress

def fileFilters : Shape :=
  record [("filters", .list (.fields "pattern" (.fields "glob" .text (options [("matches", .text),
    ("options", options [("ignoreCase", .boolean)])])) (options [("scheme", .text)])))]

def workspace : Shape :=
  options [("workspaceFolders", options [("supported", .boolean), ("changeNotifications", .oneOf .boolean .text)]),
    ("fileOperations", options [("didCreate", fileFilters), ("willCreate", fileFilters), ("didRename", fileFilters),
      ("willRename", fileFilters), ("didDelete", fileFilters), ("willDelete", fileFilters)])]

def semanticTokens : Shape :=
  .fields "legend" (record [("tokenTypes", texts), ("tokenModifiers", texts)])
    (options [("workDoneProgress", .boolean), ("range", .boolean),
      ("full", flagOr (options [("delta", .boolean)]))])

def diagnostics : Shape :=
  record [("interFileDependencies", .boolean), ("workspaceDiagnostics", .boolean), ("identifier", .optional .text),
    ("workDoneProgress", .optional .boolean)]

def notebooks : Shape := .fields "notebookSelector" (.list .object) (options [("save", .boolean)])

/-- All abilities. -/
def all : Shape :=
  options [("positionEncoding", .text), ("textDocumentSync", synchronization), ("notebookDocumentSync", notebooks),
    ("selectionRangeProvider", flagOr registration), ("hoverProvider", flagOr progress),
    ("completionProvider", completion), ("signatureHelpProvider", signatureHelp),
    ("definitionProvider", flagOr progress), ("typeDefinitionProvider", flagOr registration),
    ("implementationProvider", flagOr registration), ("referencesProvider", flagOr progress),
    ("documentHighlightProvider", flagOr progress),
    ("documentSymbolProvider", flagOr (options [("label", .text), ("workDoneProgress", .boolean)])),
    ("workspaceSymbolProvider", flagOr resolving), ("codeActionProvider", codeAction),
    ("codeLensProvider", options [("resolveProvider", .boolean)]), ("documentFormattingProvider", flagOr progress),
    ("documentRangeFormattingProvider", flagOr progress), ("documentOnTypeFormattingProvider", typing),
    ("renameProvider", flagOr (options [("prepareProvider", .boolean), ("workDoneProgress", .boolean)])),
    ("documentLinkProvider", resolving), ("colorProvider", flagOr registration),
    ("foldingRangeProvider", flagOr registration), ("declarationProvider", flagOr registration),
    ("executeCommandProvider", commands), ("workspace", workspace), ("callHierarchyProvider", flagOr progress),
    ("semanticTokensProvider", semanticTokens), ("monikerProvider", flagOr registration),
    ("linkedEditingRangeProvider", flagOr registration), ("inlineValueProvider", flagOr registration),
    ("inlayHintProvider", flagOr (options [("resolveProvider", .boolean), ("workDoneProgress", .boolean),
      ("documentSelector", selector), ("id", .text)])),
    ("diagnosticProvider", diagnostics), ("inlineCompletionProvider", flagOr progress), ("experimental", .anything)]

/-- The answer of a server that introduces itself. -/
def introduction : Shape :=
  .fields "capabilities" all (options [("serverInfo", .fields "name" .text (options [("version", .text)])),
    ("offsetEncoding", .text)])

end Capabilities

/-- The abilities that matter. -/
structure Capabilities where
  /-- diagnostics can be asked for -/
  diagnosticPull : Bool
  workspaceSymbols : Bool
deriving DecidableEq, Repr

/-- The abilities of a server that introduces itself; malformed answers say nothing. -/
def Capabilities.ofIntroduction? (j : Json) : Option Capabilities :=
  if Capabilities.introduction.fits j then
    let all := j.getD "capabilities"
    some ⟨!(all.getD "diagnosticProvider").isNull, !(all.getD "workspaceSymbolProvider").isNull⟩
  else none

end Refactor
