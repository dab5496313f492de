import Refactor.Disk.Bytes
import Refactor.Json.Parser

/-!
# Messages and frames

Client and server send each other documents. A document travels as a frame: header lines, a blank line,
and as many bytes as a header announced.

* `Message.request`, `Message.notification`, `Message.response` — messages of the client
* `Incoming.classify` — what a message of the server is
* `Frame.encode`, `Frame.next` — writing and reading frames
-/

namespace Refactor

/-! ## Messages -/

namespace Message

def request (id : Int) (method : String) (params : Json) : Json :=
  .ofFields [("jsonrpc", .str "2.0"), ("id", .int id), ("method", .str method), ("params", params)]

def notification (method : String) (params : Json) : Json :=
  .ofFields [("jsonrpc", .str "2.0"), ("method", .str method), ("params", params)]

def response (id result : Json) : Json :=
  .ofFields [("jsonrpc", .str "2.0"), ("id", id), ("result", result)]

/-- The answer to a request that the client does not know. -/
def methodNotFound (id : Json) : Json :=
  .ofFields [("jsonrpc", .str "2.0"), ("id", id),
    ("error", .ofFields [("code", .int (-32601)), ("message", .str "Method not found")])]

end Message

/-- How a request ended. -/
inductive Outcome where
  | result (value : Json)
  /-- the server refused -/
  | refused (message : String)
  /-- the connection went away -/
  | disconnected (reason : String)
deriving BEq, Repr

/-- A message of the server, by what has to be done with it. -/
inductive Incoming where
  | response (id : Int) (outcome : Outcome)
  | request (id : Json) (method : String) (params : Json)
  | notification (method : String) (params : Json)

namespace Incoming

/-- The outcome that a response carries. -/
def outcomeOf (message : Json) : Outcome :=
  match message.get? "error" with
  | some e => .refused ((e.getD "message").str?.getD "unknown server error")
  | none => .result (message.getD "result")

/-- Sorts a message. One with the name of a method is never a response. -/
def classify (message : Json) : Option Incoming :=
  match (message.getD "method").str?, message.get? "id" with
  | some method, some id => some (.request id method (message.getD "params"))
  | some method, none => some (.notification method (message.getD "params"))
  | none, some (.int id) => if Word.fitsSigned 64 id then some (.response id (outcomeOf message)) else none
  | none, _ => none

end Incoming

/-! ## Frames -/

namespace Frame

/-- The bytes of a text. -/
def bytes (s : String) : List UInt8 := (Bytes.ofText s).toList

/-- A message with the header that announces its length. -/
def encode (message : Json) : List UInt8 :=
  let body := bytes message.render
  bytes ("Content-Length: " ++ toString body.length ++ "\r\n\r\n") ++ body

/-- Why a stream cannot be read on. -/
inductive Fault where
  | invalidData
  /-- the stream ended inside a message -/
  | unexpectedEnd
deriving DecidableEq, Repr

def Fault.kind : Fault → String
  | .invalidData => "InvalidData"
  | .unexpectedEnd => "UnexpectedEof"

/-- What stands next in a stream. -/
inductive Next where
  | message (message : Json) (rest : List UInt8)
  /-- the stream has to go on before more can be said -/
  | incomplete
  /-- the stream ended between messages -/
  | ended
  | fault (fault : Fault)

/-- The value of decimal digits; a plus sign may stand before them. -/
def length? (cs : List Char) : Option Nat :=
  let ds := (Text.dropLead? ['+'] cs).getD cs
  if ds.isEmpty || !ds.all Char.isDigit then none
  else
    let n := ds.foldl (fun n c => 10 * n + (c.toNat - 48)) 0
    if n < Word.count 64 then some n else none

/-- The length that a header line announces. -/
def contentLength? (line : List Char) : Option Nat := do
  let (name, value) ← Text.splitOnce? [':'] line
  if Text.lowerAscii (Text.trim name) == "content-length".toList then length? (Text.trim value) else none

/-- The body of a message. -/
def body (ended : Bool) (length : Nat) (stream : List UInt8) : Next :=
  if stream.length < length then (if ended then .fault .unexpectedEnd else .incomplete)
  else match (Bytes.text? ⟨(stream.take length).toArray⟩).map fun s => Json.parse s.toList with
    | some (.ok m) => .message m (stream.drop length)
    | _ => .fault .invalidData

/-- The first line of a stream, with its end, and the rest. -/
def splitLine : List UInt8 → List UInt8 × List UInt8
  | [] => ([], [])
  | b :: bs => if b == 10 then ([b], bs) else let (line, rest) := splitLine bs; (b :: line, rest)

/-- Reads header lines, of which there are at most `fuel`, and then the body. -/
def headers (ended : Bool) : Nat → Option Nat → List UInt8 → Next
  | 0, _, _ => .ended
  | fuel + 1, length, stream =>
    let (line, rest) := splitLine stream
    if line.isEmpty then (if ended then .ended else .incomplete)
    else if line.getLast? != some 10 && !ended then .incomplete
    else match Bytes.text? ⟨line.toArray⟩ with
      | none => .fault .invalidData
      | some text =>
        let line := Text.trim text.toList
        match line, length with
        | [], some n => body ended n rest
        | [], none => headers ended fuel none rest
        | _, _ => headers ended fuel ((contentLength? line).or length) rest

/-- What stands next in a stream; `ended` says whether more can follow. -/
def next (ended : Bool) (stream : List UInt8) : Next := headers ended (stream.length + 1) none stream

/-- How a stream ends. -/
inductive End where
  | clean
  | fault (fault : Fault)
deriving DecidableEq, Repr

/-- The messages of a whole stream, at most `fuel`, and how it ends. -/
def readFrom : Nat → List UInt8 → List Json × End
  | 0, _ => ([], .clean)
  | fuel + 1, stream =>
    match next true stream with
    | .message m rest => let (ms, e) := readFrom fuel rest; (m :: ms, e)
    | .fault f => ([], .fault f)
    | .incomplete | .ended => ([], .clean)

/-- The messages of a whole stream. -/
def readAll (stream : List UInt8) : List Json × End := readFrom (stream.length + 1) stream

end Frame

end Refactor
