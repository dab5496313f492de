import Refactor.Edit.Codec
import Refactor.Plan.Basic
import Refactor.Server.Uri

/-!
# Values of language servers

The documents that servers answer with, and what they mean here: locations, edits, symbols and
diagnostics.

* `Protocol.location`, `Protocol.workspaceEdit`, `Protocol.symbols`, `Protocol.diagnostic` — decoders
* `UriSpan.toLocation`, `ServerEdit.toWorkspaceEdit`, `ServerSymbol.candidate?` — their meaning
-/

namespace Refactor

open Decoder

/-! ## Values -/

/-- A stretch of the file that a URI names. -/
structure UriSpan where
  uri : Uri
  range : Span
deriving Repr

/-- A change of a document, or of the set of files. -/
inductive DocumentChange where
  | edit (uri : Uri) (edits : List (Span × String))
  | create (uri : Uri) (overwrite : Bool)
  | rename (old new : Uri) (overwrite : Bool)
  | delete (uri : Uri)

/-- An edit that a server computed. -/
structure ServerEdit where
  changes : List (Uri × List (Span × String)) := []
  documents : List DocumentChange := []

/-- A symbol that a server found; only one with a range can be worked on. -/
structure ServerSymbol where
  name : String
  kind : Int
  location : Option UriSpan
  container : Option String

/-- How bad a diagnostic is. -/
inductive Severity where
  | error | warning | information | hint
deriving DecidableEq, Repr

/-- A remark of a server about a stretch of a file. -/
structure ServerDiagnostic where
  range : Span
  severity : Severity
  message : String
  source : Option String
deriving DecidableEq, Repr

/-- A remark about a stretch of a file. -/
structure Diagnostic where
  path : Path
  range : Span
  severity : Severity
  message : String
  source : Option String
deriving Repr

/-! ## Documents -/

namespace Protocol

/-- The first decoder that accepts. -/
def untagged {α : Type} (name : String) (ds : List (Decoder α)) : Decoder α := fun j =>
  match ds.findSome? fun d => (d j).toOption with
  | some a => .ok a
  | none => .error ("data did not match any variant of untagged enum " ++ name)

def uri : Decoder Uri := fun j => do
  match Uri.ofText (← string j) with
  | .ok u => .ok u
  | .error f => .error f.message

def range : Decoder Span := fun j => do
  let fs ← record "struct Range" ["start", "end"] j
  precheck [("start", checks Position.decode), ("end", checks Position.decode)] fs
  return .between (← required fs "start" Position.decode) (← required fs "end" Position.decode)

def location : Decoder UriSpan := fun j => do
  let fs ← record "struct Location" ["uri", "range"] j
  precheck [("uri", checks uri), ("range", checks range)] fs
  return ⟨← required fs "uri" uri, ← required fs "range" range⟩

/-! ### Edits -/

def textEdit : Decoder (Span × String) := fun j => do
  let fs ← record "struct TextEdit" ["range", "newText"] j
  precheck [("range", checks range), ("newText", checks string)] fs
  return (← required fs "range" range, ← required fs "newText" string)

/-- The uri of a document with a version. -/
def versioned : Decoder Uri := fun j => do
  let fs ← record "struct OptionalVersionedTextDocumentIdentifier" ["uri", "version"] j
  let _ ← optional fs "version" int32
  required fs "uri" uri

def documentEdit : Decoder DocumentChange := fun j => do
  let fs ← record "struct TextDocumentEdit" ["textDocument", "edits"] j
  return .edit (← required fs "textDocument" versioned) (← required fs "edits" (list (untagged "OneOf" [textEdit])))

/-- Whether existing files are overwritten. -/
def overwriting (what other : String) (fs : List (String × Json)) : Except String Bool := do
  let options : Decoder Bool := fun j => do
    let fs ← record what ["overwrite", other] j
    let _ ← optional fs other boolean
    return (← optional fs "overwrite" boolean).getD false
  return (← optional fs "options" options).getD false

def fileChange : Decoder DocumentChange := fun j => do
  let (kind, j) ← tagged "internally tagged enum ResourceOp" "kind" ["create", "rename", "delete"] j
  match kind with
  | "create" =>
    let fs ← record "struct CreateFile" ["uri", "options", "annotationId"] j
    let _ ← optional fs "annotationId" string
    return .create (← required fs "uri" uri) (← overwriting "struct CreateFileOptions" "ignoreIfExists" fs)
  | "rename" =>
    let fs ← record "struct RenameFile" ["oldUri", "newUri", "options", "annotationId"] j
    let _ ← optional fs "annotationId" string
    return .rename (← required fs "oldUri" uri) (← required fs "newUri" uri)
      (← overwriting "struct RenameFileOptions" "ignoreIfExists" fs)
  | _ =>
    let fs ← record "struct DeleteFile" ["uri", "options"] j
    let options : Decoder Unit := fun j => do
      let fs ← record "struct DeleteFileOptions" ["recursive", "ignoreIfNotExists", "annotationId"] j
      let _ ← optional fs "recursive" boolean
      let _ ← optional fs "ignoreIfNotExists" boolean
      let _ ← optional fs "annotationId" string
    let _ ← optional fs "options" options
    return .delete (← required fs "uri" uri)

/-- Changes of documents only, or mixed with changes of files. -/
def documentChanges : Decoder (List DocumentChange) :=
  untagged "DocumentChanges"
    [list documentEdit, list (untagged "DocumentChangeOperation" [fileChange, documentEdit])]

/-- Edits by the uri of their file. -/
def changes : Decoder (List (Uri × List (Span × String)))
  | .obj fields => fields.mapM fun (k, j) => do return (← uri (.str k), ← list textEdit j)
  | j => wrongType j "a map"

/-- Names of groups of changes; only their shape matters. -/
def annotations : Decoder Unit
  | .obj fields => fields.forM fun (_, j) => do
      let fs ← record "struct ChangeAnnotation" ["label", "needsConfirmation", "description"] j
      let _ ← required fs "label" string
      let _ ← optional fs "needsConfirmation" boolean
      let _ ← optional fs "description" string
  | j => wrongType j "a map"

def workspaceEdit : Decoder ServerEdit := fun j => do
  let fs ← record "struct WorkspaceEdit" ["changes", "documentChanges", "changeAnnotations"] j
  precheck [("changes", checks (nullable changes)), ("documentChanges", checks (nullable documentChanges)),
    ("changeAnnotations", checks (nullable annotations))] fs
  return ⟨(← optional fs "changes" changes).getD [], (← optional fs "documentChanges" documentChanges).getD []⟩

/-! ### Symbols -/

/-- The fields that every symbol has. -/
def symbolFields (located : Decoder (Option UriSpan)) (fs : List (String × Json)) : Except String ServerSymbol := do
  let _ ← optional fs "tags" (list int32)
  return ⟨← required fs "name" string, ← required fs "kind" int32, ← required fs "location" located,
    ← optional fs "containerName" string⟩

def flatSymbol : Decoder ServerSymbol := fun j => do
  let fs ← record "struct SymbolInformation" ["name", "kind", "tags", "deprecated", "location", "containerName"] j
  let _ ← optional fs "deprecated" boolean
  symbolFields (fun j => (location j).map some) fs

/-- A location without a range. -/
def bareLocation : Decoder (Option UriSpan) := fun j => do
  let fs ← record "struct WorkspaceLocation" ["uri"] j
  let _ ← required fs "uri" uri
  return none

def nestedSymbol : Decoder ServerSymbol := fun j => do
  let fs ← record "struct WorkspaceSymbol" ["name", "kind", "tags", "containerName", "location", "data"] j
  symbolFields (untagged "OneOf" [fun j => (location j).map some, bareLocation]) fs

def symbols : Decoder (List ServerSymbol) :=
  untagged "WorkspaceSymbolResponse" [list flatSymbol, list nestedSymbol]

/-! ### Diagnostics -/

def code : Decoder Unit := untagged "NumberOrString" [checks int32, checks string]

def codeDescription : Decoder Unit := fun j => do
  let fs ← record "struct CodeDescription" ["href"] j
  let _ ← required fs "href" uri

def related : Decoder Unit := fun j => do
  let fs ← record "struct DiagnosticRelatedInformation" ["location", "message"] j
  precheck [("location", checks location), ("message", checks string)] fs
  let _ ← required fs "location" location
  let _ ← required fs "message" string

/-- The name of a severity; unknown numbers are errors. -/
def severityOf : Option Int → Severity
  | some 2 => .warning
  | some 3 => .information
  | some 4 => .hint
  | _ => .error

def diagnostic : Decoder ServerDiagnostic := fun j => do
  let fs ← record "struct Diagnostic" ["range", "severity", "code", "codeDescription", "source", "message",
    "relatedInformation", "tags", "data"] j
  precheck [("range", checks range), ("severity", checks (nullable int32)), ("code", checks (nullable code)),
    ("codeDescription", checks (nullable codeDescription)), ("source", checks (nullable string)),
    ("message", checks string), ("relatedInformation", checks (nullable (list related))),
    ("tags", checks (nullable (list int32)))] fs
  return ⟨← required fs "range" range, severityOf (← optional fs "severity" int32), ← required fs "message" string,
    ← optional fs "source" string⟩

/-- The diagnostics that a server published for a file. -/
def published : Decoder (Uri × List ServerDiagnostic) := fun j => do
  let fs ← record "struct PublishDiagnosticsParams" ["uri", "diagnostics", "version"] j
  let _ ← optional fs "version" int32
  return (← required fs "uri" uri, ← required fs "diagnostics" (list diagnostic))

end Protocol

/-! ## Meaning -/

/-- The location that a stretch of a file URI is. -/
def UriSpan.toLocation (u : UriSpan) : Except Error Location := do return ⟨← u.uri.toPath, u.range⟩

/-- Edits of a server replace text that the server knows. -/
def TextEdit.ofServer (e : Span × String) : TextEdit :=
  { editType := .rename, location := e.1, newText := e.2 }

/-- Adds a change to an edit. -/
def DocumentChange.addTo (w : WorkspaceEdit) : DocumentChange → Except Error WorkspaceEdit
  | .edit u es => do return w.addEdits (← u.toPath) (es.map TextEdit.ofServer)
  | .create u overwrite => do return w.addOperation (.create (← u.toPath) "" overwrite)
  | .rename a b overwrite => do return w.addOperation (.move (← a.toPath) (← b.toPath) overwrite)
  | .delete u => do return w.addOperation (.delete (← u.toPath))

/-- The edit that a server computed, in terms of paths. -/
def ServerEdit.toWorkspaceEdit (e : ServerEdit) : Except Error WorkspaceEdit := do
  let w ← e.changes.foldlM (fun w (u, es) => DocumentChange.addTo w (.edit u es)) {}
  e.documents.foldlM DocumentChange.addTo w

namespace ServerSymbol

/-- The names of the kinds that are told apart. -/
def kindNames : List (Int × String) :=
  [(1, "file"), (2, "module"), (3, "namespace"), (5, "class"), (6, "method"), (7, "property"), (8, "field"),
    (9, "constructor"), (10, "enum"), (11, "interface"), (12, "function"), (13, "variable"), (14, "constant"),
    (22, "enum_member"), (23, "struct"), (26, "type_parameter")]

def kindName (kind : Int) : String := (kindNames.lookup kind).getD "symbol"

/-- The candidate that a symbol is, when it has a usable location. -/
def candidate? (s : ServerSymbol) : Option SymbolCandidate := do
  let location ← (← s.location).toLocation.toOption
  return { name := s.name, kind := kindName s.kind, location, container := s.container }

end ServerSymbol

def Severity.text : Severity → String
  | .error => "error"
  | .warning => "warning"
  | .information => "information"
  | .hint => "hint"

/-- A remark of a server about a file. -/
def ServerDiagnostic.at_ (d : ServerDiagnostic) (path : Path) : Diagnostic :=
  ⟨path, d.range, d.severity, d.message, d.source⟩

def Diagnostic.toJson (d : Diagnostic) : Json :=
  .ofSome [("path", some d.path.toJson), ("range", some d.range.toJson), ("severity", some (.str d.severity.text)),
    ("message", some (.str d.message)), ("source", d.source.map .str)]

end Refactor
