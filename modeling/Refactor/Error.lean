import Refactor.Json.Basic

/-!
# Errors

Everything that planning and applying can report, with its wording, its class and the form in which
it is handed to a caller.

* `Error` — what went wrong
* `Error.message` — in words
* `Error.kind`, `Error.code`, `Error.category`, `Error.isRetryable` — how it is classified
* `ErrorResponse` — the form carried in results
* `LanguageError` — what a language service reports, and the error it becomes
-/

namespace Refactor

/-- Classes of errors as a caller sees them. -/
inductive ErrorKind where
  | validation | conflict | notFound | unavailable | internal
deriving DecidableEq, Repr

def ErrorKind.text : ErrorKind → String
  | .validation => "validation"
  | .conflict => "conflict"
  | .notFound => "not_found"
  | .unavailable => "unavailable"
  | .internal => "internal"

/-- What went wrong. -/
inductive Error where
  | config (message : String)
  | notFound (resource : String) (resourceType : Option String)
  | alreadyExists (resource : String)
  | symbolNotFound (symbol : String) (file : Option String)
  | io (message : String)
  | json (message : String)
  | validation (message : String)
  | staleChecksum (path expected actual : String)
  | invalidRequest (message : String)
  | cancelled (operation : String)
  | conflict (message : String) (paths : List String)
  | busy (path : String) (waitedMs : Nat)
  | unavailable (service message : String)
  | timeout (operation : String) (durationMs : Option Nat)
  | notSupported (operation : String) (reason : Option String)
  | lsp (message : String)
  | plugin (plugin message : String)
  | internal (message : String)
deriving DecidableEq, Repr

namespace Error

/-- A missing file. -/
def fileNotFound (path : String) : Error := .notFound path (some "file")

/-- A failed file access, with the path it concerns. -/
def ioAt (path text : String) : Error := .io (path ++ ": " ++ text)

/-- The error in words. -/
def message : Error → String
  | .config m => "Configuration error: " ++ m
  | .notFound r _ => "Resource not found: " ++ r
  | .alreadyExists r => "Resource already exists: " ++ r
  | .symbolNotFound s _ => "Symbol not found: " ++ s
  | .io m => "I/O error: " ++ m
  | .json m => "JSON error: " ++ m
  | .validation m => "Validation error: " ++ m
  | .staleChecksum p e a =>
    "File '" ++ p ++ "' has changed since the plan was created (expected checksum " ++ e ++ ", found " ++ a ++ ")"
  | .invalidRequest m => "Invalid request: " ++ m
  | .cancelled o => "Operation cancelled: " ++ o
  | .conflict m _ => "Conflict: " ++ m
  | .busy p ms => "Busy: could not lock '" ++ p ++ "' within " ++ toString ms ++ "ms"
  | .unavailable s m => "Service unavailable (" ++ s ++ "): " ++ m
  | .timeout o _ => "Timeout during: " ++ o
  | .notSupported o _ => "Operation not supported: " ++ o
  | .lsp m => "LSP error: " ++ m
  | .plugin p m => "Plugin error (" ++ p ++ "): " ++ m
  | .internal m => "Internal error: " ++ m

/-- The class of an error. -/
def kind : Error → ErrorKind
  | .validation _ | .staleChecksum .. | .invalidRequest _ | .cancelled _ | .alreadyExists _ => .validation
  | .conflict .. | .busy .. => .conflict
  | .notFound .. | .symbolNotFound .. => .notFound
  | .unavailable .. | .timeout .. | .lsp _ | .notSupported .. => .unavailable
  | .io _ | .json _ | .config _ | .plugin .. | .internal _ => .internal

/-- The stable code of an error. -/
def code : Error → String
  | .io _ | .internal _ => "E1000"
  | .invalidRequest _ => "E1001"
  | .lsp _ => "E1003"
  | .timeout .. => "E1004"
  | .notFound .. => "E1006"
  | .notSupported .. => "E1007"
  | .json _ => "E1008"
  | .validation _ => "E1010"
  | .plugin .. => "E1014"
  | .config _ => "E1019"
  | .alreadyExists _ => "E1022"
  | .staleChecksum .. => "E1030"
  | .conflict .. => "E1031"
  | .busy .. => "E1032"
  | .unavailable .. => "E1033"
  | .symbolNotFound .. => "E1034"
  | .cancelled _ => "E1035"

/-- The name of an error's sort. -/
def category : Error → String
  | .config _ => "config_error"
  | .notFound .. => "not_found"
  | .alreadyExists _ => "already_exists"
  | .symbolNotFound .. => "symbol_not_found"
  | .io _ => "io_error"
  | .json _ => "json_error"
  | .validation _ => "validation_error"
  | .staleChecksum .. => "stale_checksum"
  | .invalidRequest _ => "invalid_request"
  | .cancelled _ => "cancelled"
  | .conflict .. => "conflict"
  | .busy .. => "busy"
  | .unavailable .. => "unavailable"
  | .timeout .. => "timeout"
  | .notSupported .. => "not_supported"
  | .lsp _ => "lsp_error"
  | .plugin .. => "plugin_error"
  | .internal _ => "internal_error"

/-- Whether the request, rather than the service, is at fault. -/
def isClientError (e : Error) : Bool :=
  match e.kind, e with
  | .validation, _ | .conflict, _ | .notFound, _ | _, .notSupported .. => true
  | _, _ => false

/-- Whether the same request may succeed later. -/
def isRetryable : Error → Bool
  | .busy .. | .unavailable .. | .timeout .. | .lsp _ => true
  | _ => false

end Error

/-- The form of an error that results carry. -/
structure ErrorResponse where
  code : String
  message : String
  category : String
  kind : ErrorKind
  retryable : Bool
  details : Option Json := none
  suggestion : Option String := none

namespace ErrorResponse

/-- Further facts about an error. -/
def detailsOf : Error → Option Json
  | .conflict _ paths => if paths.isEmpty then none else some (.ofFields [("paths", .list .str paths)])
  | .staleChecksum p e a => some (.ofFields [("path", .str p), ("expected", .str e), ("actual", .str a)])
  | .busy p ms => some (.ofFields [("path", .str p), ("waitedMs", .nat ms)])
  | _ => none

/-- What a caller can do about an error. -/
def suggestionOf : Error → Option String
  | .staleChecksum .. => some "Regenerate the plan against the current file contents"
  | .busy .. => some "Another apply holds these files; retry once it finishes"
  | .unavailable .. | .timeout .. => some "Restart the code intelligence service and retry"
  | _ => none

def ofError (e : Error) : ErrorResponse :=
  { code := e.code, message := e.message, category := e.category, kind := e.kind,
    retryable := e.isRetryable, details := detailsOf e, suggestion := suggestionOf e }

/-- The fields in the order in which they are written. -/
def fields (r : ErrorResponse) : List (String × Json) :=
  [("code", .str r.code), ("message", .str r.message), ("category", .str r.category),
    ("kind", .str r.kind.text), ("retryable", .bool r.retryable)] ++
  (r.details.map (("details", ·))).toList ++ (r.suggestion.map (("suggestion", .str ·))).toList

def toJson (r : ErrorResponse) : Json := .ofFields r.fields

/-- Compact text, fields in their own order. -/
def render (r : ErrorResponse) : String := (Json.obj r.fields).render

/-- One message for a reader. -/
def display (r : ErrorResponse) : String :=
  "[" ++ r.code ++ "] " ++ r.message ++
  (match r.details with | some d => " (details: " ++ d.render ++ ")" | none => "") ++
  (match r.suggestion with | some s => "\nSuggestion: " ++ s | none => "")

end ErrorResponse

/-- What a language service reports. -/
inductive LanguageError where
  | parse (message : String) (place : Option (Nat × Nat))
  | notSupported (operation : String)
  | invalidInput (message : String)
  | internal (message : String)
  /-- A cut of the source that does not lie between two characters. -/
  | misaligned
deriving DecidableEq, Repr

namespace LanguageError

def message : LanguageError → String
  | .parse m _ => "Parse error: " ++ m
  | .notSupported o => "Operation not supported: " ++ o
  | .invalidInput m => "Invalid input: " ++ m
  | .internal m => "Internal error: " ++ m
  | .misaligned => "Internal error: offset inside a character"

/-- The sort of report. -/
def category : LanguageError → String
  | .parse .. => "parse"
  | .notSupported _ => "not_supported"
  | .invalidInput _ => "invalid_input"
  | .internal _ => "internal"
  | .misaligned => "panic"

/-- The error that a report becomes. -/
def toError : LanguageError → Error
  | .notSupported o => .notSupported o none
  | .invalidInput m => .invalidRequest m
  | .parse m (some (line, column)) =>
    .validation ("Parse error: " ++ m ++ " at " ++ toString line ++ ":" ++ toString column)
  | .parse m none => .validation ("Parse error: " ++ m)
  | .internal m => .plugin "language" m
  | .misaligned => .plugin "language" "offset inside a character"

end LanguageError

end Refactor
