import Refactor.Server.Client

/-!
# Language servers of a project

Every configured server has at most one client, started when the first question for its files comes. A
client whose server has ended is dropped and reported; the next question starts a new one.

* `Servers` — configuration, host and clients
* `Servers.references`, `Servers.rename`, `Servers.symbols`, `Servers.diagnostics` — questions
* `Servers.restart`, `Servers.shutdown` — ending clients
-/

namespace Refactor

/-- The servers of a project. -/
structure Servers where
  config : ServersConfig
  host : Host
  /-- clients by the place of their server in the configuration -/
  clients : List (Nat × Client) := []

/-- Questions to servers: a failure keeps what happened so far. -/
abbrev Asking := ExceptT Error (StateM Servers)

namespace Servers

/-- The place of the server that handles an extension. -/
def indexOf? (s : Servers) (extension : String) : Option Nat :=
  s.config.servers.findIdx? fun c => c.extensions.any fun e => lowered e == lowered extension

/-- The place of the server for a file. -/
def indexFor (file : Path) : Asking Nat := do
  let extension := file.extension?.getD ""
  match (← get).indexOf? extension with
  | some n => return n
  | none => throw (.unavailable "lsp" ("No LSP server configured for extension: '" ++ extension ++ "'"))

def putClient (s : Servers) (n : Nat) (c : Client) : Servers :=
  { s with clients := s.clients.filter (·.1 != n) ++ [(n, c)] }

def dropClient (s : Servers) (n : Nat) : Servers := { s with clients := s.clients.filter (·.1 != n) }

/-- Makes sure that a server has a client. -/
def ensure (n : Nat) : Asking Unit := do
  let s ← get
  match s.config.servers[n]? with
  | none => throw (.internal ("No LSP server at index " ++ toString n))
  | some config =>
    match s.clients.lookup n with
    | some c =>
      unless c.isAlive s.host do
        set (s.dropClient n)
        throw (.unavailable "lsp" ("LSP server '" ++ Client.commandLine config ++
          "' exited unexpectedly; retry or restart it"))
    | none =>
      let (host, started) := Client.start config s.host
      set { s with host }
      let c ← ExceptT.mk (pure started)
      modify (·.putClient n c)

/-- Talks to the client of a server. -/
def talk {α : Type} (n : Nat) (f : Talk α) : Asking α := do
  ensure n
  let s ← get
  match s.clients.lookup n with
  | none => throw (.internal ("No LSP server at index " ++ toString n))
  | some c =>
    let (answer, l) := f.run.run ⟨c, s.host⟩
    set { s.putClient n l.client with host := l.host }
    ExceptT.mk (pure answer)

/-- A question about a document, once the server knows its text. -/
def documentRequest (file : Path) (method : String) (params : Json) : Asking Json := do
  let n ← indexFor file
  talk n do
    Client.sync file
    Client.request method params

/-- What an answer means; another shape is an error. -/
def decoded {α : Type} (d : Decoder α) (j : Json) : Asking α :=
  match d j with
  | .ok a => return a
  | .error m => throw (.json m)

def document (file : Path) : Json := .ofFields [("uri", .str (Uri.ofPath file).text)]

def positionJson (p : Position) : Json := .ofFields [("line", .nat p.line), ("character", .nat p.character)]

/-- The references of the symbol at a position. Locations outside files are left out. -/
def references (file : Path) (p : Position) : Asking (List Location) := do
  let answer ← documentRequest file "textDocument/references" (.ofFields [("textDocument", document file),
    ("position", positionJson p), ("context", .ofFields [("includeDeclaration", .bool true)])])
  let found ← decoded (Decoder.nullable (Decoder.list Protocol.location)) answer
  return (found.getD []).filterMap fun u => u.toLocation.toOption

/-- The edit that renames the symbol at a position. -/
def rename (file : Path) (p : Position) (newName : String) : Asking WorkspaceEdit := do
  let answer ← documentRequest file "textDocument/rename" (.ofFields [("textDocument", document file),
    ("position", positionJson p), ("newName", .str newName)])
  match ← decoded (Decoder.nullable Protocol.workspaceEdit) answer with
  | some e => ExceptT.mk (pure e.toWorkspaceEdit)
  | none => return {}

/-! ### Symbols -/

/-- What the servers said about a name. -/
structure SymbolSearch where
  found : List SymbolCandidate := []
  answered : Bool := false
  lastError : Option Error := none

/-- Asks one server for symbols; `none` when it does not know about them. -/
def symbolsOf (n : Nat) (name : String) : Asking (Option (List SymbolCandidate)) := do
  let capable ← talk n (do return (← get).client.supportsWorkspaceSymbols)
  if !capable then return none
  let answer ← talkOn n (Client.request "workspace/symbol" (.ofFields [("query", .str name)]))
  let symbols := if answer.isNull then [] else ((Protocol.symbols answer).toOption).getD []
  return some (symbols.filterMap ServerSymbol.candidate?)
where
  /-- Talks to a client that is there, even when its server has ended meanwhile. -/
  talkOn (n : Nat) (f : Talk Json) : Asking Json := do
    let s ← get
    match s.clients.lookup n with
    | none => throw Client.closed
    | some c =>
      let (answer, l) := f.run.run ⟨c, s.host⟩
      set { s.putClient n l.client with host := l.host }
      ExceptT.mk (pure answer)

/-- Asks one more server. -/
def searchIn (name : String) (found : SymbolSearch) (n : Nat) : Asking SymbolSearch := do
  match ← ExceptT.lift (symbolsOf n name).run with
  | .ok (some symbols) => return { found with found := found.found ++ symbols, answered := true }
  | .ok none => return found
  | .error e => return { found with lastError := some e }

/-- Symbols are sorted by path, then by where they start. -/
def sortsBefore (a b : SymbolCandidate) : Bool :=
  match a.location.path.cmp b.location.path with
  | .lt => true
  | .gt => false
  | .eq => a.location.range.start.atMost b.location.range.start

/-- Drops a symbol that stands where the one before it does. -/
def dropRepeated : List SymbolCandidate → List SymbolCandidate
  | [] => []
  | a :: rest =>
    match dropRepeated rest with
    | [] => [a]
    | b :: more => if a.location.same b.location then a :: more else a :: b :: more

/-- The symbols with exactly this name, over all servers. -/
def symbols (name : String) : Asking (List SymbolCandidate) := do
  let count := (← get).config.servers.length
  if count == 0 then throw (.unavailable "lsp" "No LSP servers configured")
  let search ← (List.range count).foldlM (searchIn name) {}
  match search.answered, search.lastError with
  | false, some e => throw e
  | _, _ => return dropRepeated ((search.found.filter (·.name == name)).mergeSort sortsBefore)

/-! ### Diagnostics -/

/-- The diagnostics of a file: asked for where that is possible, else those published last. -/
def diagnostics (file : Path) : Asking (List Diagnostic) := do
  let n ← indexFor file
  let asked : Talk (Option Json) := do
    Client.sync file
    if !(← get).client.supportsDiagnosticPull then return none
    try return some (← Client.request "textDocument/diagnostic" (.ofFields [("textDocument", document file)]))
    catch _ => return none
  match ← talk n asked with
  | some answer =>
    let items := (answer.get? "items").getD (.arr [])
    return (← decoded (Decoder.list Protocol.diagnostic) items).map (·.at_ file)
  | none =>
    let published := ((← get).clients.lookup n).bind (·.cached (Uri.ofPath file).text)
    return (published.getD []).map (·.at_ file)

/-! ### Ending -/

/-- Ends the clients of servers. -/
def stopAll (s : Servers) (indices : List Nat) : Servers :=
  indices.foldl (fun s n =>
    match s.clients.lookup n with
    | none => s
    | some c => { s.dropClient n with host := (Client.stop ⟨c, s.host⟩).host }) s

/-- Ends the clients of the servers for some extensions, or of all; they start again when needed. -/
def restart (s : Servers) (extensions : Option (List String)) : Servers :=
  match extensions with
  | none => s.stopAll (List.range s.config.servers.length)
  | some es =>
    s.stopAll (es.filterMap fun e => s.indexOf? (String.ofList (e.toList.dropWhile (· == '.')))).mergeSort.eraseDups

def shutdown (s : Servers) : Servers := s.stopAll (s.clients.map (·.1))

/-- Lets every server read what was sent to it. -/
def settle (s : Servers) : Servers :=
  s.clients.foldl (fun s (n, c) =>
    let l := Link.settle ⟨c, s.host⟩
    { s with host := l.host, clients := s.clients.map fun (m, d) => if m == n then (m, l.client) else (m, d) }) s

end Servers

end Refactor
