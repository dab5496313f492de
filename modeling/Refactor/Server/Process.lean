import Refactor.Server.Message

/-!
# Server processes

A server as its client sees it: a process that reads messages in order and writes bytes. What it writes
is laid down by a script, so that clients can be tried out without a real server.

* `ServerAction`, `Script` — what a server does on a message
* `ServerProcess` — a running server
* `ServerProcess.run` — reads what has arrived
-/

namespace Refactor

/-- One thing that a server does. -/
inductive ServerAction where
  /-- answers the message at hand -/
  | result (value : Json)
  | error (value : Json)
  | send (message : Json)
  | raw (text : String)
  /-- reads messages without reacting to them -/
  | receive (count : Nat)
  | exit
  /-- nothing that the client can see -/
  | idle

/-- The reactions to the first, second, … message of a method; the last one repeats. -/
abbrev Script := List (String × List (List ServerAction))

/-- What a server does with messages. -/
inductive Behaviour where
  | scripted (script : Script)
  /-- sends everything back -/
  | echo
  /-- never says anything -/
  | silent

/-- A running server, or one that has ended. -/
structure ServerProcess where
  behaviour : Behaviour
  alive : Bool := true
  /-- messages that were sent to it and not read -/
  inbox : List Json := []
  /-- how often each method was read -/
  counts : List (String × Nat) := []
  /-- the number of the message at hand and what is left to do about it -/
  doing : Option (Json × List ServerAction) := none

/-- What a run of a process shows: the bytes written and the messages read. -/
structure RunOutput where
  written : List UInt8 := []
  read : List Json := []

namespace ServerProcess

/-- What a server does on a message that its script leaves open. -/
def byDefault (method : Option String) (hasId : Bool) : List ServerAction :=
  match method with
  | some "initialize" => [.result (.ofFields [("capabilities", .obj [])])]
  | some "exit" => [.exit]
  | some _ => if hasId then [.result .null] else []
  | none => []

/-- The reaction to a message, and the process that has counted it. -/
def reaction (p : ServerProcess) (script : Script) (message : Json) : ServerProcess × List ServerAction :=
  let method := (message.getD "method").str?
  let open_ := byDefault method (message.get? "id").isSome
  match method with
  | none => (p, open_)
  | some m =>
    let n := (p.counts.lookup m).getD 0
    let p := { p with counts := (m, n + 1) :: p.counts.filter (·.1 != m) }
    match script.lookup m with
    | none => (p, open_)
    | some replies => (p, (replies[min n (replies.length - 1)]?).getD open_)

/-- Does one thing; `none` when it has to wait for messages. -/
def act (p : ServerProcess) (id : Json) : ServerAction → Option (ServerProcess × RunOutput × List ServerAction)
  | .result v =>
    some (p, { written := Frame.encode (Message.response id v) }, [])
  | .error v =>
    some (p, { written := Frame.encode (.ofFields [("jsonrpc", .str "2.0"), ("id", id), ("error", v)]) }, [])
  | .send m => some (p, { written := Frame.encode m }, [])
  | .raw s => some (p, { written := Frame.bytes s }, [])
  | .exit => some ({ p with alive := false, inbox := [], doing := none }, {}, [])
  | .idle => some (p, {}, [])
  | .receive 0 => some (p, {}, [])
  | .receive (n + 1) =>
    match p.inbox with
    | [] => none
    | m :: rest => some ({ p with inbox := rest }, { read := [m] }, [.receive n])

/-- Runs a scripted process until it waits for messages or ends. -/
def runScript (script : Script) : Nat → ServerProcess → RunOutput → ServerProcess × RunOutput
  | 0, p, out => (p, out)
  | fuel + 1, p, out =>
    if !p.alive then (p, out)
    else match p.doing, p.inbox with
      | some (_, []), _ => runScript script fuel { p with doing := none } out
      | some (id, a :: rest), _ =>
        match p.act id a with
        | none => (p, out)
        | some (p, more, first) =>
          let p := if p.alive then { p with doing := some (id, first ++ rest) } else p
          runScript script fuel p ⟨out.written ++ more.written, out.read ++ more.read⟩
      | none, [] => (p, out)
      | none, m :: rest =>
        let (p, actions) := { p with inbox := rest }.reaction script m
        runScript script fuel { p with doing := some (m.getD "id", actions) } { out with read := out.read ++ [m] }

/-- A bound on the steps of a reaction. -/
def cost (actions : List ServerAction) : Nat :=
  actions.foldl (fun n a => match a with
    | .receive k => n + k + 2
    | _ => n + 2) 2

/-- A bound on the steps of a run. -/
def budget (p : ServerProcess) (script : Script) : Nat :=
  let longest := (script.flatMap fun (_, replies) => replies.map cost).foldl max 4
  ((p.doing.map fun (_, actions) => cost actions).getD 0) + (p.inbox.length + 1) * longest

/-- Reads what has arrived and reacts to it. -/
def run (p : ServerProcess) : ServerProcess × RunOutput :=
  if !p.alive then (p, {})
  else match p.behaviour with
    | .scripted script => runScript script (p.budget script) p {}
    | .echo => ({ p with inbox := [] }, { written := p.inbox.flatMap Frame.encode, read := p.inbox })
    | .silent => ({ p with inbox := [] }, { read := p.inbox })

/-- Hands a message to a process. -/
def send (p : ServerProcess) (message : Json) : ServerProcess := { p with inbox := p.inbox ++ [message] }

end ServerProcess

end Refactor
