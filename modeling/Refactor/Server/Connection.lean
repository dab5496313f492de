import Refactor.Server.Message
import Refactor.Server.Protocol

/-!
# Connections

The client's end of a connection. Requests wait until a response with their number arrives or the
connection ends; the server's own requests are answered at once, and published diagnostics are kept.

* `Connection` — who waits, what arrived
* `Connection.receive` — the effect of one message
* `Connection.feed` — the effect of bytes that arrive
* `Connection.failAll` — the end of the connection
-/

namespace Refactor

/-- The client's end of a connection. -/
structure Connection where
  /-- the number of the next request -/
  nextId : Int := 1
  /-- requests without an outcome -/
  waiting : List Int := []
  /-- outcomes of requests -/
  outcomes : List (Int × Outcome) := []
  /-- the diagnostics last published for every file -/
  diagnostics : List (String × List ServerDiagnostic) := []
  /-- bytes that do not make a message yet -/
  buffer : List UInt8 := []
  /-- whether messages are still read -/
  reading : Bool := true
  /-- whether messages are still written -/
  writing : Bool := true

namespace Connection

/-- The answer to a request of the server. Edits are declined: they reach files through plans only. -/
def answer (id : Json) (method : String) (params : Json) : Json :=
  match method with
  | "workspace/configuration" =>
    Message.response id (.arr (((params.getD "items").arr?.getD []).map fun _ => .null))
  | "client/registerCapability" | "window/workDoneProgress/create" => Message.response id .null
  | "workspace/workspaceFolders" => Message.response id (.arr [])
  | "workspace/applyEdit" =>
    Message.response id (.ofFields [("applied", .bool false),
      ("failureReason", .str "edits are applied through refit plans")])
  | _ => Message.methodNotFound id

/-- Gives a waiting request its outcome; nobody waits for anything else. -/
def resolve (c : Connection) (id : Int) (o : Outcome) : Connection :=
  if c.waiting.contains id then
    { c with waiting := c.waiting.filter (· != id), outcomes := c.outcomes ++ [(id, o)] }
  else c

/-- Keeps published diagnostics; unreadable ones are dropped. -/
def publish (c : Connection) (params : Json) : Connection :=
  match Protocol.published params with
  | .ok (u, ds) => { c with diagnostics := c.diagnostics.filter (·.1 != u.text) ++ [(u.text, ds)] }
  | .error _ => c

/-- The effect of a message, and the replies to it. -/
def receive (c : Connection) (message : Json) : Connection × List Json :=
  match Incoming.classify message with
  | some (.response id o) => (c.resolve id o, [])
  | some (.request id method params) => (c, [answer id method params])
  | some (.notification method params) =>
    (if method == "textDocument/publishDiagnostics" then c.publish params else c, [])
  | none => (c, [])

/-- The effect of messages one after the other, and the replies to all of them. -/
def receiveAll (c : Connection) : List Json → Connection × List Json
  | [] => (c, [])
  | m :: ms =>
    let (c, replies) := c.receive m
    let (c, more) := c.receiveAll ms
    (c, replies ++ more)

/-- Ends every waiting request. -/
def failAll (c : Connection) (reason : String) : Connection :=
  { c with waiting := [], outcomes := c.outcomes ++ c.waiting.map (·, .disconnected reason) }

/-- Nothing more is read. -/
def stopReading (c : Connection) : Connection :=
  { c.failAll "LSP server exited" with reading := false, buffer := [] }

/-- Nothing more is written. -/
def stopWriting (c : Connection) : Connection :=
  { c.failAll "Write to LSP server failed: Broken pipe (os error 32)" with writing := false }

/-- Reads the messages in the buffer, at most `fuel`. -/
def drain (ended : Bool) : Nat → Connection → Connection × List Json
  | 0, c => (c, [])
  | fuel + 1, c =>
    match Frame.next ended c.buffer with
    | .message m rest =>
      let (c, replies) := ({ c with buffer := rest }).receive m
      let (c, more) := drain ended fuel c
      (c, replies ++ more)
    | .incomplete => (c, [])
    | .ended | .fault _ => (c.stopReading, [])

/-- The effect of bytes that arrive, and the replies; `ended` says that no more will follow. -/
def feed (c : Connection) (ended : Bool) (bytes : List UInt8) : Connection × List Json :=
  if c.reading then
    let c := { c with buffer := c.buffer ++ bytes }
    drain ended (c.buffer.length + 1) c
  else (c, [])

/-- Takes the number of the next request. -/
def number (c : Connection) : Connection := { c with nextId := c.nextId + 1 }

/-- Notes a request among those that wait. -/
def note (c : Connection) (id : Int) : Connection := { c with waiting := c.waiting ++ [id] }

/-- Opens a request: its number is taken and noted, and the message is there to be sent. -/
def openRequest (c : Connection) (method : String) (params : Json) : Connection × Int × Json :=
  (c.number.note c.nextId, c.nextId, Message.request c.nextId method params)

/-- Gives up on a request. -/
def forget (c : Connection) (id : Int) : Connection := { c with waiting := c.waiting.filter (· != id) }

def outcome? (c : Connection) (id : Int) : Option Outcome := c.outcomes.lookup id

end Connection

end Refactor
