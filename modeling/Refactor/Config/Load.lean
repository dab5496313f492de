import Refactor.Config
import Refactor.Config.Variable
import Refactor.Disk.Basic

/-!
# Where settings come from

Settings are the defaults, with those of a file laid over them, with those of the environment laid over
both.

* `Config.ofToml` — settings from a text alone
* `Config.load` — the settings of a project
* `Config.save` — writes settings to a file
-/

namespace Refactor.Config

/-- Settings from a text; what it leaves out has its default. -/
def ofToml (text : String) : Except Error Config := do
  let refuse (why : String) : Except Error Config := .error (.config ("Invalid TOML configuration: " ++ why))
  match Toml.parse? text.toList with
  | none => refuse "malformed document"
  | some j =>
    match decode j with
    | .error why => refuse why
    | .ok c => c.validate

/-- The places of the file, the first one that is there counting. -/
def files : List Path := [⟨"refit.toml"⟩, ⟨".refit/config.toml"⟩]

/-- The settings of the file of a project; one that is no plain file has none. -/
def fileSettings (t : Tree) (root : Path) : Except String Json :=
  match (files.map root.join).find? t.exists? with
  | none => .ok (.obj [])
  | some p =>
    match t.read p with
    | .error _ => .ok (.obj [])
    | .ok b =>
      match (Bytes.text? b).bind fun s => Toml.parse? s.toList with
      | some j => .ok j
      | none => .error "malformed document"

/-- The settings of a project. -/
def load (t : Tree) (root : Path) (environment : List (String × String)) : Except Error Config :=
  let found := do
    let file ← fileSettings t root
    decode ((({} : Config).toJson.merge file).merge (Variable.settings environment))
  match found with
  | .error why => .error (.config ("Failed to load configuration: " ++ why))
  | .ok c => c.validate

/-- The fields of the settings as a file holds them: a server without a directory has no such field. -/
def savedFields (c : Config) : List (String × Json) :=
  let server (s : ServerConfig) : Json :=
    if s.rootDir.isNone then s.toJson.erase "rootDir" else s.toJson
  let j := c.toJson.set "lsp" (c.lsp.toJson.set "servers" (.list server c.lsp.servers))
  (j.obj?).getD []

/-- Writes settings to a file, whose directory is created when it is missing. -/
def save (c : Config) (t : Tree) (path : Path) : Except Error Tree := do
  let at_ (p : Path) : Except SystemFault Tree → Except Error Tree
    | .ok t => .ok t
    | .error f => .error ((DiskError.system f).at_ p)
  let t ← match path.parent? with
    | some dir => at_ dir (t.makeDirs dir)
    | none => .ok t
  match Toml.render c.savedFields with
  | .error f => .error (.config ("Failed to serialize configuration: " ++ f.message))
  | .ok text => at_ path (t.overwrite path (Bytes.ofText text))

end Refactor.Config
