import Refactor.Disk.Bytes
import Refactor.Error
import Refactor.Path.Basic

/-!
# File URIs

Editors name files by URIs. A path becomes a URI by percent-encoding its segments, and the path part of
a URI becomes a path again by decoding.

* `Percent.Coding`, `Percent.standard` — how segments are encoded and decoded
* `Uri` — a text that was checked to be a URI or a relative reference
* `Uri.ofText` — the check
* `Uri.ofPath`, `Uri.toPath` — between paths and URIs
-/

namespace Refactor

/-! ## Percent-encoding -/

namespace Percent

/-- Bytes that stand for themselves everywhere. -/
def isUnreserved (b : UInt8) : Bool :=
  let c := Char.ofNat b.toNat
  b.toNat < 128 && (c.isAlphanum || c == '-' || c == '_' || c == '.' || c == '~')

/-- A hexadecimal digit in upper case. -/
def digit (n : Nat) : Char := if n < 10 then Char.ofNat (48 + n) else Char.ofNat (55 + n)

/-- One byte: itself, or a percent sign and two digits. -/
def encodeByte (b : UInt8) : List Char :=
  if isUnreserved b then [Char.ofNat b.toNat] else ['%', digit (b.toNat / 16), digit (b.toNat % 16)]

def encode (s : String) : String := String.ofList ((Bytes.ofText s).toList.flatMap encodeByte)

/-- The bytes that an encoded text stands for; a percent sign without two digits stands for itself. -/
def decodeBytes : List UInt8 → List UInt8
  | [] => []
  | b :: hi :: lo :: rest =>
    if b == 37 then
      match Bytes.hexValue? (Char.ofNat hi.toNat), Bytes.hexValue? (Char.ofNat lo.toNat) with
      | some h, some l => UInt8.ofNat (16 * h + l) :: decodeBytes rest
      | _, _ => b :: decodeBytes (hi :: lo :: rest)
    else b :: decodeBytes (hi :: lo :: rest)
  | b :: rest => b :: decodeBytes rest

def decode (s : String) : ByteArray := ⟨(decodeBytes (Bytes.ofText s).toList).toArray⟩

/-- A way of writing texts with octets, and of reading them. -/
structure Coding where
  encode : String → String
  decode : String → ByteArray

/-- The coding of URIs. -/
def standard : Coding := ⟨encode, decode⟩

end Percent

/-! ## References -/

/-- A URI or a relative reference, and where its path stands. -/
structure Uri where
  text : String
  path : String
deriving DecidableEq, Repr

namespace Uri

/-- Why a text is no URI. -/
inductive Fault where
  | badOctet (index : Nat)
  | unexpected (index : Nat)
  | badLiteral (index : Nat)
deriving DecidableEq, Repr

def Fault.message : Fault → String
  | .badOctet i => "invalid percent-encoded octet at index " ++ toString i
  | .unexpected i => "unexpected character at index " ++ toString i
  | .badLiteral i => "invalid IP literal at index " ++ toString i

def isUnreserved (c : Char) : Bool := c.isAlphanum || c == '-' || c == '_' || c == '.' || c == '~'

def isDelimiter (c : Char) : Bool := "!$&'()*+,;=".toList.contains c

def isScheme (c : Char) : Bool := c.isAlphanum || c == '+' || c == '-' || c == '.'

def isSegment (c : Char) : Bool := isUnreserved c || isDelimiter c || c == ':' || c == '@'

def isPath (c : Char) : Bool := isSegment c || c == '/'

def isQuery (c : Char) : Bool := isPath c || c == '?'

def isUserInfo (c : Char) : Bool := isUnreserved c || isDelimiter c || c == ':'

def isRegName (c : Char) : Bool := isUnreserved c || isDelimiter c

/-- Reads characters of a class and percent-encoded octets: what was read, and the rest. -/
def readClass (p : Char → Bool) (index : Nat) : List Char → Except Fault (List Char × List Char)
  | [] => .ok ([], [])
  | '%' :: rest =>
    match rest with
    | a :: b :: more =>
      if (Bytes.hexValue? a).isSome && (Bytes.hexValue? b).isSome then do
        let (read, rest) ← readClass p (index + 3) more
        return ('%' :: a :: b :: read, rest)
      else .error (.badOctet index)
    | _ => .error (.badOctet index)
  | c :: rest =>
    if p c then do
      let (read, rest) ← readClass p (index + 1) rest
      return (c :: read, rest)
    else .ok ([], c :: rest)

/-- Everything after the path: a query and a fragment may follow. -/
def checkTail (index : Nat) (cs : List Char) : Except Fault Unit := do
  let fragment (index : Nat) (cs : List Char) : Except Fault Unit :=
    match cs with
    | [] => .ok ()
    | '#' :: rest => do
      let (read, rest) ← readClass isQuery (index + 1) rest
      if rest.isEmpty then .ok () else .error (.unexpected (index + 1 + read.length))
    | _ => .error (.unexpected index)
  match cs with
  | '?' :: rest =>
    let (read, rest) ← readClass isQuery (index + 1) rest
    fragment (index + 1 + read.length) rest
  | _ => fragment index cs

/-- A path from an index on, and everything after it. -/
def finish (text : String) (index : Nat) (cs : List Char) : Except Fault Uri := do
  let (path, rest) ← readClass isPath index cs
  checkTail (index + path.length) rest
  return ⟨text, String.ofList path⟩

/-- The number after a host, and the path after it. -/
def afterHost (text : String) (index : Nat) (cs : List Char) : Except Fault Uri := do
  let (index, cs) := match cs with
    | ':' :: rest => (index + 1 + (rest.takeWhile Char.isDigit).length, rest.dropWhile Char.isDigit)
    | _ => (index, cs)
  match cs with
  | [] => finish text index cs
  | c :: _ => if c == '/' || c == '?' || c == '#' then finish text index cs else .error (.unexpected index)

/-- A host in brackets, or a registered name. -/
def host (text : String) (index : Nat) (cs : List Char) : Except Fault Uri := do
  match cs with
  | '[' :: rest =>
    let isLiteral (c : Char) : Bool := isUserInfo c
    let inner := rest.takeWhile isLiteral
    match rest.dropWhile isLiteral with
    | ']' :: more =>
      if inner.isEmpty then .error (.badLiteral index) else afterHost text (index + inner.length + 2) more
    | _ => .error (.badLiteral index)
  | _ =>
    let (name, rest) ← readClass isRegName index cs
    afterHost text (index + name.length) rest

/-- The part after two slashes: user, host and number, and then a path. -/
def authority (text : String) (index : Nat) (cs : List Char) : Except Fault Uri := do
  let (user, rest) ← readClass isUserInfo index cs
  match rest with
  | '@' :: more => host text (index + user.length + 1) more
  | _ => host text index cs

/-- Checks that a text is a URI or a relative reference. -/
def ofText (text : String) : Except Fault Uri := do
  let cs := text.toList
  let scheme := cs.takeWhile isScheme
  match cs.dropWhile isScheme with
  | ':' :: rest =>
    if !(scheme.head?.any Char.isAlpha) then .error (.unexpected 0)
    else match rest with
      | '/' :: '/' :: more => authority text (scheme.length + 3) more
      | _ => finish text (scheme.length + 1) rest
  | _ =>
    match cs with
    | '/' :: '/' :: more => authority text 2 more
    | _ =>
      let (first, rest) ← readClass (fun c => isSegment c && c != ':') 0 cs
      match rest with
      | ':' :: _ => .error (.unexpected first.length)
      | _ => finish text 0 cs

/-! ## Paths -/

/-- The URI of a file in a coding. -/
def ofPathBy (coding : Percent.Coding) (p : Path) : Uri :=
  let encoded := joinWith "/" ((p.raw.toList.splitOn '/').map fun s => coding.encode (String.ofList s))
  let path := if startsWith encoded "/" then encoded else "/" ++ encoded
  ⟨"file://" ++ path, path⟩

/-- The path that a file URI names in a coding. -/
def toPathBy (coding : Percent.Coding) (u : Uri) : Except Error Path :=
  if !startsWith u.text "file:" then .error (.lsp ("Unsupported URI scheme in '" ++ u.text ++ "'"))
  else
    let decoded := coding.decode u.path
    match Bytes.text? decoded with
    | some s => .ok ⟨s⟩
    | none =>
      let why := ((Bytes.fault? decoded).map Bytes.Fault.message).getD ""
      .error (.lsp ("Invalid URI '" ++ u.text ++ "': " ++ why))

/-- The URI of a file. -/
def ofPath (p : Path) : Uri := ofPathBy Percent.standard p

/-- The path that a file URI names. -/
def toPath (u : Uri) : Except Error Path := toPathBy Percent.standard u

end Uri

end Refactor
