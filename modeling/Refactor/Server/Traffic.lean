import Refactor.Server.Connection

/-!
# Traffic on a connection

Requests run side by side, a step of one after a step of another, while a reader takes in the messages of the server and a
writer sends what is handed over to it. A request takes its number, is noted among those that wait, hands its message over
and waits for its outcome until its time is over. The numbers of the client and those of the server's own requests have
nothing to do with each other.

* `OpenRequest`, `RequestPhase`, `RequestEnd` — a request, how far it is and how it returned
* `Traffic` — a connection with all its requests
* `Traffic.step`, `Traffic.run` — one step of a request, the reader or the writer, and all steps
-/

namespace Refactor

/-! ## Requests -/

/-- How a request returned. -/
inductive RequestEnd where
  | outcome (o : Outcome)
  /-- its message was not taken -/
  | closed
  | timedOut
deriving BEq, Repr

/-- How far a request is. -/
inductive RequestPhase where
  | numbered
  /-- it is noted among those that wait, and its message is not handed over -/
  | noted
  /-- its message is handed over, and it waits for its outcome -/
  | sent
  /-- its message was not taken, and it is still noted -/
  | refused
  /-- its time is over, and it may still be noted -/
  | late
  | returned
deriving DecidableEq, Repr

/-- A request of the client. -/
structure OpenRequest where
  id : Int
  method : String
  params : Json
  phase : RequestPhase := .numbered

/-- A step of a request. -/
inductive RequestMove where
  | note
  | send
  /-- the message is not taken -/
  | refuse
  /-- the outcome is there -/
  | wake
  /-- the time is over -/
  | expire
  /-- the request is not noted any more -/
  | leave
deriving DecidableEq, Repr

/-- A step of a request, the reader or the writer. -/
inductive TrafficEvent where
  | start (method : String) (params : Json)
  | move (request : Nat) (m : RequestMove)
  /-- the reader takes in a message -/
  | message (m : Json)
  /-- the reader comes to the end of the stream, or cannot read on -/
  | ended
  /-- the writer cannot write on -/
  | failed (reason : String)
  /-- the writer is gone, and no more messages are taken -/
  | closed

/-! ## Steps -/

/-- A connection with all its requests. -/
structure Traffic where
  connection : Connection := {}
  /-- all requests, oldest first -/
  requests : List OpenRequest := []
  /-- everything that was handed over to the writer, oldest first -/
  outbox : List Json := []
  /-- how requests returned, by their numbers -/
  ends : List (Int × RequestEnd) := []
  /-- whether the writer has met a failure -/
  failing : Bool := false

namespace Traffic

/-- Puts a request into a phase. -/
def put (s : Traffic) (i : Nat) (r : OpenRequest) (phase : RequestPhase) : Traffic :=
  { s with requests := s.requests.set i { r with phase } }

/-- A request returns. -/
def finish (s : Traffic) (i : Nat) (r : OpenRequest) (e : RequestEnd) : Traffic :=
  { s.put i r .returned with ends := s.ends ++ [(r.id, e)] }

/-- A step of a request, when it can take it. -/
def advance (s : Traffic) (i : Nat) (r : OpenRequest) : RequestMove → Option Traffic
  | .note =>
    match r.phase with
    | .numbered => some { s.put i r .noted with connection := s.connection.note r.id }
    | _ => none
  | .send =>
    match r.phase with
    | .noted =>
      if s.connection.writing then
        some { s.put i r .sent with outbox := s.outbox ++ [Message.request r.id r.method r.params] }
      else none
    | _ => none
  | .refuse =>
    match r.phase with
    | .noted => if s.connection.writing then none else some (s.put i r .refused)
    | _ => none
  | .wake =>
    match r.phase, s.connection.outcome? r.id with
    | .sent, some o => some (s.finish i r (.outcome o))
    | _, _ => none
  | .expire =>
    match r.phase, s.connection.outcome? r.id with
    | .sent, none => some (s.put i r .late)
    | _, _ => none
  | .leave =>
    match r.phase with
    | .refused => some { s.finish i r .closed with connection := s.connection.forget r.id }
    | .late => some { s.finish i r .timedOut with connection := s.connection.forget r.id }
    | _ => none

/-- The reader takes in a message. It stops when a reply is not taken, so such a message is the end of the stream. -/
def hear (s : Traffic) (m : Json) : Option Traffic :=
  let (connection, replies) := s.connection.receive m
  if s.connection.reading && (replies.isEmpty || s.connection.writing) then
    some { s with connection, outbox := s.outbox ++ replies }
  else none

/-- One step, when it can be taken. -/
def step (s : Traffic) : TrafficEvent → Option Traffic
  | .start method params =>
    some { s with connection := s.connection.number
                  requests := s.requests ++ [{ id := s.connection.nextId, method, params }] }
  | .move i m => (s.requests[i]?).bind fun r => s.advance i r m
  | .message m => s.hear m
  | .ended => if s.connection.reading then some { s with connection := s.connection.stopReading } else none
  | .failed reason =>
    if s.connection.writing && !s.failing then some { s with connection := s.connection.failAll reason, failing := true }
    else none
  | .closed =>
    if s.connection.writing && s.failing then some { s with connection := { s.connection with writing := false } }
    else none

/-- Steps one after the other. -/
def run (s : Traffic) (events : List TrafficEvent) : Option Traffic := events.foldlM step s

/-- How a request with a number returned; nothing when it has not. -/
def endsOf (s : Traffic) (id : Int) : List RequestEnd := (s.ends.filter (·.1 == id)).map (·.2)

/-- A request goes on when its outcome is there. -/
def woken (s : Traffic) (i : Nat) : Traffic := (s.step (.move i .wake)).getD s

end Traffic

end Refactor
