import Refactor.Error
import Refactor.Json.Decode
import Refactor.Edit.Codec
import Refactor.Text.Unicode

/-!
# Settings

* `Config` — all settings, with their defaults
* `Config.decode`, `Config.toJson` — their document
* `Config.validate` — whether they make sense together
-/

namespace Refactor

/-- How log lines are written. -/
inductive LogFormat where
  | json | pretty
deriving DecidableEq, Repr

/-- Settings of the log. -/
structure LogConfig where
  level : String := "info"
  format : LogFormat := .pretty
deriving DecidableEq, Repr

/-- A language server: what it handles and how it is started. -/
structure ServerConfig where
  extensions : List String
  command : List String
  rootDir : Option Path := none
  initializationOptions : Option Json := none

/-- Settings of the language servers. -/
structure ServersConfig where
  servers : List ServerConfig :=
    [{ extensions := ["ts", "tsx", "js", "jsx"], command := ["typescript-language-server", "--stdio"] }]
  requestTimeoutMs : Nat := 30000

/-- Settings of planning and applying. -/
structure EngineConfig where
  lockTimeoutMs : Nat := 5000
  textExtensions : List String := []
  ignoredDirs : List String := []
  maxFileSizeBytes : Nat := 2 * 1024 * 1024
  planTtlSeconds : Nat := 3600
  maxStoredPlans : Nat := 256
deriving DecidableEq, Repr

/-- Settings of the cache of references. -/
structure CacheConfig where
  enabled : Bool := true
deriving DecidableEq, Repr

/-- Settings of the check after an apply. -/
structure ValidationConfig where
  enabled : Bool := false
  command : String := "npx tsc --noEmit"
  timeoutSeconds : Nat := 120
  failOnStderr : Bool := false
deriving DecidableEq, Repr

/-- All settings. -/
structure Config where
  logging : LogConfig := {}
  lsp : ServersConfig := {}
  refactor : EngineConfig := {}
  cache : CacheConfig := {}
  validation : ValidationConfig := {}

/-! ## Derived lists -/

namespace EngineConfig

def defaultTextExtensions : List String :=
  ["md", "markdown", "txt", "rst", "adoc", "toml", "yaml", "yml", "json"]

def defaultIgnoredDirs : List String :=
  [".git", "node_modules", "target", "dist", "build", ".next", "coverage", "__pycache__"]

/-- Adds what is not there yet. -/
def addNew (xs : List String) (x : String) : List String := if xs.contains x then xs else xs ++ [x]

/-- The built-in text extensions and the configured ones, without dots and in lower case. -/
def allTextExtensions (c : EngineConfig) : List String :=
  (c.textExtensions.map fun e => Text.lower (String.ofList (e.toList.dropWhile (· == '.')))).foldl addNew
    defaultTextExtensions

/-- The built-in ignored directories and the configured ones. -/
def allIgnoredDirs (c : EngineConfig) : List String := c.ignoredDirs.foldl addNew defaultIgnoredDirs

end EngineConfig

/-! ## Documents -/

open Decoder

def LogFormat.text : LogFormat → String
  | .json => "json"
  | .pretty => "pretty"

def LogFormat.decode : Decoder LogFormat := fun j => do
  match ← variant ["json", "pretty"] j with
  | "json" => return .json
  | _ => return .pretty

namespace LogConfig

def toJson (c : LogConfig) : Json := .ofFields [("level", .str c.level), ("format", .str c.format.text)]

def decode : Decoder LogConfig := fun j => do
  let fs ← record "struct LoggingConfig" ["level", "format"] j
  precheck [("level", checks string), ("format", checks LogFormat.decode)] fs
  return { level := ← defaulted fs "level" "info" string, format := ← defaulted fs "format" .pretty LogFormat.decode }

end LogConfig

namespace ServerConfig

def toJson (c : ServerConfig) : Json :=
  .ofSome [("extensions", some (.list .str c.extensions)), ("command", some (.list .str c.command)),
    ("rootDir", some (.ofOption Path.toJson c.rootDir)), ("initializationOptions", c.initializationOptions)]

def decode : Decoder ServerConfig := fun j => do
  let fs ← record "struct LspServerConfig" ["extensions", "command", "rootDir", "initializationOptions"] j
  precheck [("extensions", checks (list string)), ("command", checks (list string)),
    ("rootDir", checks (nullable path))] fs
  return { extensions := ← required fs "extensions" (list string), command := ← required fs "command" (list string)
           rootDir := ← optional fs "rootDir" path
           initializationOptions := ← optional fs "initializationOptions" fun j => .ok j }

end ServerConfig

namespace ServersConfig

def toJson (c : ServersConfig) : Json :=
  .ofFields [("servers", .list ServerConfig.toJson c.servers), ("requestTimeoutMs", .nat c.requestTimeoutMs)]

def decode : Decoder ServersConfig := fun j => do
  let fs ← record "struct LspConfig" ["servers", "requestTimeoutMs"] j
  precheck [("servers", checks (list ServerConfig.decode)), ("requestTimeoutMs", checks word64)] fs
  let d : ServersConfig := {}
  return { servers := ← defaulted fs "servers" d.servers (list ServerConfig.decode)
           requestTimeoutMs := ← defaulted fs "requestTimeoutMs" d.requestTimeoutMs word64 }

end ServersConfig

namespace EngineConfig

def toJson (c : EngineConfig) : Json :=
  .ofFields [("lockTimeoutMs", .nat c.lockTimeoutMs), ("textExtensions", .list .str c.textExtensions),
    ("ignoredDirs", .list .str c.ignoredDirs), ("maxFileSizeBytes", .nat c.maxFileSizeBytes),
    ("planTtlSeconds", .nat c.planTtlSeconds), ("maxStoredPlans", .nat c.maxStoredPlans)]

def decode : Decoder EngineConfig := fun j => do
  let fs ← record "struct RefactorConfig" ["lockTimeoutMs", "textExtensions", "ignoredDirs", "maxFileSizeBytes",
    "planTtlSeconds", "maxStoredPlans"] j
  precheck [("lockTimeoutMs", checks word64), ("textExtensions", checks (list string)),
    ("ignoredDirs", checks (list string)), ("maxFileSizeBytes", checks word64), ("planTtlSeconds", checks word64),
    ("maxStoredPlans", checks size)] fs
  let d : EngineConfig := {}
  return { lockTimeoutMs := ← defaulted fs "lockTimeoutMs" d.lockTimeoutMs word64
           textExtensions := ← defaulted fs "textExtensions" [] (list string)
           ignoredDirs := ← defaulted fs "ignoredDirs" [] (list string)
           maxFileSizeBytes := ← defaulted fs "maxFileSizeBytes" d.maxFileSizeBytes word64
           planTtlSeconds := ← defaulted fs "planTtlSeconds" d.planTtlSeconds word64
           maxStoredPlans := ← defaulted fs "maxStoredPlans" d.maxStoredPlans size }

end EngineConfig

namespace CacheConfig

def toJson (c : CacheConfig) : Json := .ofFields [("enabled", .bool c.enabled)]

def decode : Decoder CacheConfig := fun j => do
  let fs ← record "struct CacheConfig" ["enabled"] j
  return { enabled := ← defaulted fs "enabled" true boolean }

end CacheConfig

namespace ValidationConfig

def toJson (c : ValidationConfig) : Json :=
  .ofFields [("enabled", .bool c.enabled), ("command", .str c.command), ("timeoutSeconds", .nat c.timeoutSeconds),
    ("failOnStderr", .bool c.failOnStderr)]

def decode : Decoder ValidationConfig := fun j => do
  let fs ← record "struct ValidationConfig" ["enabled", "command", "timeoutSeconds", "failOnStderr"] j
  precheck [("enabled", checks boolean), ("command", checks string), ("timeoutSeconds", checks word64),
    ("failOnStderr", checks boolean)] fs
  let d : ValidationConfig := {}
  return { enabled := ← defaulted fs "enabled" d.enabled boolean, command := ← defaulted fs "command" d.command string
           timeoutSeconds := ← defaulted fs "timeoutSeconds" d.timeoutSeconds word64
           failOnStderr := ← defaulted fs "failOnStderr" d.failOnStderr boolean }

end ValidationConfig

namespace Config

def toJson (c : Config) : Json :=
  .ofFields [("logging", c.logging.toJson), ("lsp", c.lsp.toJson), ("refactor", c.refactor.toJson),
    ("cache", c.cache.toJson), ("validation", c.validation.toJson)]

def decode : Decoder Config := fun j => do
  let fs ← record "struct AppConfig" ["logging", "lsp", "refactor", "cache", "validation"] j
  return { logging := ← defaulted fs "logging" {} LogConfig.decode, lsp := ← defaulted fs "lsp" {} ServersConfig.decode
           refactor := ← defaulted fs "refactor" {} EngineConfig.decode
           cache := ← defaulted fs "cache" {} CacheConfig.decode
           validation := ← defaulted fs "validation" {} ValidationConfig.decode }

/-! ## Sense -/

def logLevels : List String := ["trace", "debug", "info", "warn", "error"]

/-- Why settings of a server make no sense. -/
def serverFault? (s : ServerConfig) : Option String :=
  if s.extensions.isEmpty then some "LSP server must handle at least one extension"
  else if s.command.head?.all fun c => trimmed c == "" then some "LSP server command cannot be empty"
  else none

/-- Why settings of the check make no sense. -/
def validationFault? (v : ValidationConfig) : Option String :=
  if !v.enabled then none
  else if trimmed v.command == "" then some "Validation command cannot be empty when validation is enabled"
  else if v.timeoutSeconds == 0 then some "Validation timeout cannot be 0"
  else none

/-- The first reason why settings make no sense. -/
def fault? (c : Config) : Option String :=
  if !logLevels.contains c.logging.level then
    some ("Invalid log level '" ++ c.logging.level ++ "', must be one of: " ++ joinWith ", " logLevels)
  else if c.lsp.requestTimeoutMs == 0 then some "LSP request timeout cannot be 0"
  else (c.lsp.servers.findSome? serverFault?).or
    (if c.refactor.lockTimeoutMs == 0 then some "Lock timeout cannot be 0"
     else if c.refactor.maxStoredPlans == 0 then some "max_stored_plans cannot be 0"
     else validationFault? c.validation)

/-- The settings, when they make sense. -/
def validate (c : Config) : Except Error Config :=
  match c.fault? with
  | some message => .error (.config message)
  | none => .ok c

end Config

end Refactor
