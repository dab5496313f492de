import Refactor.Json.Basic

/-!
# Contents as bytes

Files hold bytes. A content is text when its bytes are valid UTF-8; otherwise the first fault can be
named, or the faulty stretches can be replaced.

* `Bytes.text?` — the text of a content
* `Bytes.fault?` — where a content stops being text
* `Bytes.lossyText` — text with a mark for every faulty stretch
-/

namespace Refactor.Bytes

/-- Contents are equal when all their bytes are. -/
instance decEq : DecidableEq ByteArray := ByteArray.instDecidableEq

/-- The text of a content. -/
def text? (b : ByteArray) : Option String := String.fromUTF8? b

/-- The content of a text. -/
def ofText (s : String) : ByteArray := s.toUTF8

/-! ## Faults -/

/-- A fault: the bytes before it, and the length of the faulty stretch; a content that ends inside a
character has no length. -/
structure Fault where
  index : Nat
  length : Option Nat
deriving DecidableEq, Repr

/-- How a fault is worded. -/
def Fault.message (f : Fault) : String :=
  match f.length with
  | some n => "invalid utf-8 sequence of " ++ toString n ++ " bytes from index " ++ toString f.index
  | none => "incomplete utf-8 byte sequence from index " ++ toString f.index

/-- One step of reading: a character with its number of bytes, or the length of a faulty stretch. -/
inductive Step where
  | char (c : Char) (size : Nat)
  | fault (length : Option Nat)
deriving DecidableEq, Repr

def isTail (b : Nat) : Bool := 0x80 ≤ b && b ≤ 0xBF

/-- The least and the greatest second byte after a first byte of three or four. -/
def secondBounds (first : Nat) : Nat × Nat :=
  if first == 0xE0 then (0xA0, 0xBF)
  else if first == 0xED then (0x80, 0x9F)
  else if first == 0xF0 then (0x90, 0xBF)
  else if first == 0xF4 then (0x80, 0x8F)
  else (0x80, 0xBF)

/-- The number of bytes that a first byte announces; zero when it announces no character. -/
def announced (first : Nat) : Nat :=
  if first < 0x80 then 1
  else if 0xC2 ≤ first && first ≤ 0xDF then 2
  else if 0xE0 ≤ first && first ≤ 0xEF then 3
  else if 0xF0 ≤ first && first ≤ 0xF4 then 4
  else 0

/-- Reads the bytes after the first one: `seen` of them are read, `left` are to come. -/
def readTail (first value seen : Nat) : Nat → List UInt8 → Step
  | 0, _ => .char (Char.ofNat value) seen
  | _ + 1, [] => .fault none
  | left + 1, b :: rest =>
    let (lo, hi) := if seen == 1 then secondBounds first else (0x80, 0xBF)
    let n := b.toNat
    if lo ≤ n && n ≤ hi then readTail first (value * 64 + n % 64) (seen + 1) left rest
    else .fault (some seen)

/-- Reads the first character of a content. -/
def step (first : UInt8) (rest : List UInt8) : Step :=
  let n := first.toNat
  match announced n with
  | 0 => .fault (some 1)
  | 1 => .char (Char.ofNat n) 1
  | 2 => readTail n (n % 32) 1 1 rest
  | 3 => readTail n (n % 16) 1 2 rest
  | _ => readTail n (n % 8) 1 3 rest

/-- The first fault at or after an index; `skip` bytes belong to a character already read. -/
def faultFrom (index skip : Nat) : List UInt8 → Option Fault
  | [] => none
  | b :: rest =>
    match skip with
    | k + 1 => faultFrom (index + 1) k rest
    | 0 =>
      match step b rest with
      | .char _ size => faultFrom (index + 1) (size - 1) rest
      | .fault length => some ⟨index, length⟩

/-- Where a content stops being text. -/
def fault? (b : ByteArray) : Option Fault := faultFrom 0 0 b.toList

/-- Text with one mark for every faulty stretch. -/
def lossyFrom (skip : Nat) : List UInt8 → List Char
  | [] => []
  | b :: rest =>
    match skip with
    | k + 1 => lossyFrom k rest
    | 0 =>
      match step b rest with
      | .char c size => c :: lossyFrom (size - 1) rest
      | .fault (some n) => '\uFFFD' :: lossyFrom (n - 1) rest
      | .fault none => ['\uFFFD']

/-- The text of a content, faulty stretches replaced by U+FFFD. -/
def lossyText (b : ByteArray) : String := String.ofList (lossyFrom 0 b.toList)

/-! ## Hexadecimal -/

/-- Two digits for every byte. -/
def hex (b : ByteArray) : String :=
  String.ofList (b.toList.flatMap fun x => [Json.hexDigit (x.toNat / 16), Json.hexDigit (x.toNat % 16)])

def hexValue? (c : Char) : Option Nat :=
  if c.isDigit then some (c.toNat - 48)
  else if 'a' ≤ c && c ≤ 'f' then some (c.toNat - 87)
  else if 'A' ≤ c && c ≤ 'F' then some (c.toNat - 55)
  else none

/-- The bytes of pairs of digits; reading stops where there is no pair. -/
def bytesOfHex : List Char → List UInt8
  | a :: b :: rest =>
    match hexValue? a, hexValue? b with
    | some x, some y => (16 * x + y).toUInt8 :: bytesOfHex rest
    | _, _ => []
  | _ => []

def ofHex (s : String) : ByteArray := ⟨(bytesOfHex s.toList).toArray⟩

end Refactor.Bytes
