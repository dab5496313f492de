import Refactor.Config
import Refactor.Disk.Basic
import Refactor.Server.Capabilities
import Refactor.Server.Connection
import Refactor.Server.Process

/-!
# Clients

A client starts a server, introduces itself, keeps the server's documents up to date and asks it
questions. A question that stays without an answer times out.

* `Host` — where servers run
* `Client` — a connection with what is known about the server
* `Client.start` — starts and introduces
* `Client.request`, `Client.notify`, `Client.sync` — talking
-/

namespace Refactor

/-! ## Hosts -/

/-- Where servers run: the files, the programs that can be started, and what runs. -/
structure Host where
  root : Path
  tree : Tree
  programs : List (String × Behaviour) := []
  requestTimeoutMs : Nat := 30000
  processId : Nat := 1
  /-- every process that was started, with its program -/
  running : List (String × ServerProcess) := []
  /-- what each program did, oldest first: a start, or a message it read -/
  heard : List (String × Option Json) := []

namespace Host

/-- Why a program cannot be started. -/
def launchFault (h : Host) (program : String) (dir : Path) : String :=
  if program.toList.contains '/' then
    match h.tree.entry true (dir.join ⟨program⟩) with
    | .ok _ => "Permission denied (os error 13)"
    | .error f => f.message
  else SystemFault.notFound.message

/-- Starts a program in a directory: the number of the process. -/
def launch (h : Host) (program : String) (dir : Path) : Except String (Host × Nat) :=
  match h.tree.entry true dir with
  | .error f => .error f.message
  | .ok (_, .dir) =>
    match h.programs.lookup program with
    | some behaviour =>
      .ok ({ h with running := h.running ++ [(program, { behaviour })], heard := h.heard ++ [(program, none)] },
        h.running.length)
    | none => .error (h.launchFault program dir)
  | .ok _ => .error SystemFault.notDirectory.message

def process? (h : Host) (n : Nat) : Option ServerProcess := (h.running[n]?).map (·.2)

def isAlive (h : Host) (n : Nat) : Bool := (h.process? n).any (·.alive)

/-- Changes a process. -/
def alter (h : Host) (n : Nat) (f : ServerProcess → ServerProcess) : Host :=
  { h with running := h.running.modify n fun (program, p) => (program, f p) }

/-- Ends a process. -/
def kill (h : Host) (n : Nat) : Host := h.alter n fun p => { p with alive := false, inbox := [], doing := none }

/-- Lets a process read what has arrived: what it wrote. -/
def step (h : Host) (n : Nat) : Host × List UInt8 :=
  match h.running[n]? with
  | none => (h, [])
  | some (program, p) =>
    let (p, out) := p.run
    ({ h.alter n (fun _ => p) with heard := h.heard ++ out.read.map fun m => (program, some m) }, out.written)

/-- A bound on the rounds that two parties can go. -/
def patience (h : Host) (n : Nat) : Nat :=
  match h.process? n with
  | none => 4
  | some p =>
    match p.behaviour with
    | .scripted script => p.budget script + 4
    | _ => 4

end Host

/-! ## Clients -/

/-- A document as a server knows it. -/
structure OpenDocument where
  version : Nat
  text : String

/-- A connection with what is known about the server. -/
structure Client where
  config : ServerConfig
  rootDir : Path
  process : Nat
  connection : Connection := {}
  /-- unknown when the server introduced itself badly -/
  capabilities : Option Capabilities := none
  documents : PathMap OpenDocument := []

/-- A client together with where its server runs. -/
structure Link where
  client : Client
  host : Host

/-- Steps of a client: a failure keeps what happened so far. -/
abbrev Talk := ExceptT Error (StateM Link)

namespace Link

/-- Changes the connection. -/
def connect (l : Link) (f : Connection → Connection) : Link :=
  { l with client := { l.client with connection := f l.client.connection } }

/-- Writes a message; a server that has ended breaks the connection. -/
def write (l : Link) (message : Json) : Link :=
  if l.host.isAlive l.client.process then { l with host := l.host.alter l.client.process (·.send message) }
  else l.connect Connection.stopWriting

/-- Lets server and client go on, at most `fuel` rounds, until both wait. -/
def exchange : Nat → Link → Link
  | 0, l => l
  | fuel + 1, l =>
    let (host, bytes) := l.host.step l.client.process
    let (connection, replies) := l.client.connection.feed (!host.isAlive l.client.process) bytes
    let l : Link := ⟨{ l.client with connection }, host⟩
    if replies.isEmpty then l else exchange fuel (replies.foldl write l)

/-- Lets server and client go on until both wait. -/
def settle (l : Link) : Link := exchange (l.host.patience l.client.process) l

end Link

namespace Client

def closed : Error := .unavailable "lsp" "LSP server connection closed"

/-- Sends a request and waits for its outcome. -/
def request (method : String) (params : Json) : Talk Json := do
  let l ← get
  let (connection, id, message) := l.client.connection.openRequest method params
  let l := l.connect fun _ => connection
  if !connection.writing then
    set (l.connect (·.forget id))
    throw closed
  let l := (l.write message).settle
  set l
  match l.client.connection.outcome? id with
  | some (.result value) => return value
  | some (.refused message) => throw (.lsp (method ++ " failed: " ++ message))
  | some (.disconnected reason) => throw (.unavailable "lsp" reason)
  | none =>
    set (l.connect (·.forget id))
    throw (.timeout ("LSP request " ++ method) (some l.host.requestTimeoutMs))

/-- Sends a message that has no outcome. -/
def notify (method : String) (params : Json) : Talk Unit := do
  let l ← get
  if !l.client.connection.writing then throw closed
  set (l.write (Message.notification method params))

/-- What a client says of itself. -/
def introduction (l : Link) : Json :=
  let uri : Json := .str (Uri.ofPath l.client.rootDir).text
  let fixed : Json := .ofFields [("dynamicRegistration", .bool false)]
  .ofSome [("processId", some (.nat l.host.processId)),
    ("clientInfo", some (.ofFields [("name", .str "refit"), ("version", .str "0.1.0")])),
    ("rootUri", some uri),
    ("workspaceFolders", some (.arr [.ofFields [("uri", uri), ("name", .str "workspace")]])),
    ("capabilities", some (.ofFields
      [("textDocument", .ofFields
        [("synchronization", .ofFields
          [("didOpen", .bool true), ("didChange", .bool true), ("didClose", .bool true)]),
         ("references", fixed), ("rename", .ofFields [("prepareSupport", .bool false)]), ("diagnostic", fixed),
         ("publishDiagnostics", .obj [])]),
       ("workspace", .ofFields
        [("workspaceEdit", .ofFields [("documentChanges", .bool true),
          ("resourceOperations", .list .str ["create", "rename", "delete"])]),
         ("symbol", .obj []), ("workspaceFolders", .bool true)])])),
    ("initializationOptions", l.client.config.initializationOptions)]

/-- Introduces client and server to each other. -/
def initialize_ : Talk Unit := do
  let answer ← request "initialize" (introduction (← get))
  modify fun l => { l with client := { l.client with capabilities := Capabilities.ofIntroduction? answer } }
  notify "initialized" (.obj [])

def isAlive (c : Client) (h : Host) : Bool := h.isAlive c.process

/-- Abilities that are unknown count as there. -/
def supportsDiagnosticPull (c : Client) : Bool := c.capabilities.all (·.diagnosticPull)

def supportsWorkspaceSymbols (c : Client) : Bool := c.capabilities.all (·.workspaceSymbols)

/-- The command line of a server. -/
def commandLine (config : ServerConfig) : String := joinWith " " config.command

/-- Starts a server and introduces the client. A server that fails this is ended. -/
def start (config : ServerConfig) (h : Host) : Host × Except Error Client :=
  match config.command with
  | [] => (h, .error (.config "LSP server command cannot be empty"))
  | program :: _ =>
    let rootDir := config.rootDir.getD h.root
    match h.launch program rootDir with
    | .error why =>
      (h, .error (.unavailable "lsp" ("Failed to start LSP server '" ++ commandLine config ++ "': " ++ why)))
    | .ok (h, process) =>
      let (answer, l) := initialize_.run.run ⟨{ config, rootDir, process }, h⟩
      match answer with
      | .error e => (l.host.kill process, .error e)
      | .ok () =>
        if l.host.isAlive process then (l.host, .ok l.client)
        else (l.host, .error (.unavailable "lsp"
          ("LSP server '" ++ commandLine config ++ "' exited right after startup")))

/-! ### Documents -/

/-- The name of a language for servers. -/
def languageId (p : Path) : String :=
  match p.extension? with
  | some e =>
    if ["ts", "mts", "cts"].contains e then "typescript"
    else if e == "tsx" then "typescriptreact"
    else if ["js", "mjs", "cjs"].contains e then "javascript"
    else if e == "jsx" then "javascriptreact"
    else if e == "py" then "python"
    else if e == "rs" then "rust"
    else if e == "go" then "go"
    else if ["md", "markdown"].contains e then "markdown"
    else "plaintext"
  | none => "plaintext"

/-- Remembers what a server knows of a document. -/
def remember (file : Path) (d : OpenDocument) : Talk Unit :=
  modify fun l => { l with client := { l.client with documents := l.client.documents.insert file d } }

/-- Tells the server the text of a file, when it does not know it yet. A file that cannot be read is left
out. -/
def sync (file : Path) : Talk Unit := do
  let l ← get
  match ({ tree := l.host.tree } : Disk).readText file with
  | .error _ => return
  | .ok text =>
    let uri : Json := .str (Uri.ofPath file).text
    match l.client.documents.find? file with
    | none =>
      notify "textDocument/didOpen" (.ofFields [("textDocument", .ofFields
        [("uri", uri), ("languageId", .str (languageId file)), ("version", .nat 1), ("text", .str text)])])
      remember file ⟨1, text⟩
    | some d =>
      unless d.text == text do
        notify "textDocument/didChange" (.ofFields
          [("textDocument", .ofFields [("uri", uri), ("version", .nat (d.version + 1))]),
           ("contentChanges", .arr [.ofFields [("text", .str text)]])])
        remember file ⟨d.version + 1, text⟩

/-- The diagnostics that the server published for a file. -/
def cached (c : Client) (uri : String) : Option (List ServerDiagnostic) := c.connection.diagnostics.lookup uri

/-- Asks the server to end; one that does not is ended. -/
def stop (l : Link) : Link :=
  let (_, l) := (request "shutdown" .null).run.run l
  let (_, l) := (notify "exit" .null).run.run l
  let l := l.settle
  { l with host := l.host.kill l.client.process }

end Client

end Refactor
