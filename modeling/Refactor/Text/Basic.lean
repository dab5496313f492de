/-!
# Text measured in bytes

Text is a list of characters; offsets into it count the bytes of its UTF-8 form, so an offset is
meaningful only between two characters.

* `utf8Size` — number of bytes of a text
* `splitAtByte?`, `slice?` — cut at byte offsets, refusing offsets inside a character
* `isBlank` — the characters that count as white space
* `trim`, `splitLines`, `replaceAll`, `findSub?` — the elementary searches and cuts
-/

namespace Refactor.Text

/-! ## Sizes and cuts -/

/-- Number of bytes of the UTF-8 form. -/
def utf8Size : List Char → Nat
  | [] => 0
  | c :: cs => c.utf8Size + utf8Size cs

/-- Number of UTF-16 code units of one character. -/
def unitSize (c : Char) : Nat := if c.val ≤ 0xFFFF then 1 else 2

/-- Number of UTF-16 code units. -/
def utf16Size : List Char → Nat
  | [] => 0
  | c :: cs => unitSize c + utf16Size cs

/-- The text before and after byte offset `n`; `none` when `n` lies inside a character or past
the end. -/
def splitAtByte? : Nat → List Char → Option (List Char × List Char)
  | 0, cs => some ([], cs)
  | _ + 1, [] => none
  | n + 1, c :: cs =>
    if c.utf8Size ≤ n + 1 then
      (splitAtByte? (n + 1 - c.utf8Size) cs).map fun (a, b) => (c :: a, b)
    else none
termination_by _ cs => cs.length

/-- The text from byte `a` up to byte `b`. -/
def slice? (cs : List Char) (a b : Nat) : Option (List Char) := do
  let (_, rest) ← splitAtByte? a cs
  if b < a then none else
  let (mid, _) ← splitAtByte? (b - a) rest
  return mid

/-- Every character with the byte offset at which it starts. -/
def withOffsetsFrom (start : Nat) : List Char → List (Nat × Char)
  | [] => []
  | c :: cs => (start, c) :: withOffsetsFrom (start + c.utf8Size) cs

/-! ## Characters -/

/-- White space: the characters with the Unicode property `White_Space`. -/
def isBlank (c : Char) : Bool :=
  let n := c.toNat
  (9 ≤ n && n ≤ 13) || n == 0x20 || n == 0x85 || n == 0xA0 || n == 0x1680 ||
    (0x2000 ≤ n && n ≤ 0x200A) || n == 0x2028 || n == 0x2029 || n == 0x202F || n == 0x205F ||
    n == 0x3000

/-- White space of the ASCII range; vertical tab is not one. -/
def isAsciiBlank (c : Char) : Bool :=
  c == ' ' || c == '\t' || c == '\n' || c == '\r' || c == '\x0c'

/-- Characters of an ASCII identifier after its first one. -/
def isWordChar (c : Char) : Bool := c.isAlphanum || c == '_' || c == '$'

/-! ## Searches -/

/-- What follows `p` when the text starts with it. -/
def dropLead? : List Char → List Char → Option (List Char)
  | [], cs => some cs
  | _ :: _, [] => none
  | p :: ps, c :: cs => if p = c then dropLead? ps cs else none

/-- What precedes `p` when the text ends with it. -/
def dropTail? (p cs : List Char) : Option (List Char) :=
  (dropLead? p.reverse cs.reverse).map List.reverse

/-- The text before and after the first place where `p` occurs. -/
def splitOnce? (p : List Char) : List Char → Option (List Char × List Char)
  | [] => if p.isEmpty then some ([], []) else none
  | c :: cs =>
    match dropLead? p (c :: cs) with
    | some rest => some ([], rest)
    | none => (splitOnce? p cs).map fun (a, b) => (c :: a, b)

/-- Whether `p` occurs in the text. -/
def contains (p cs : List Char) : Bool := (splitOnce? p cs).isSome

/-- Byte offset of the first occurrence of `p`. -/
def findSub? (p cs : List Char) : Option Nat := (splitOnce? p cs).map fun (a, _) => utf8Size a

/-- The text with every occurrence of the non-empty `p`, from left to right, replaced by `q`. -/
def replaceAll (p q cs : List Char) : List Char :=
  match p with
  | [] => cs
  | _ :: _ => go 0 cs
where
  /-- Leave out the next `skip` characters, which belong to a replaced occurrence. -/
  go (skip : Nat) : List Char → List Char
    | [] => []
    | c :: cs =>
      match skip with
      | k + 1 => go k cs
      | 0 => if p.isPrefixOf (c :: cs) then q ++ go (p.length - 1) cs else c :: go 0 cs

/-- The text split at the last occurrence of `c`: what is before it and what is after it. -/
def splitLast? (c : Char) (cs : List Char) : Option (List Char × List Char) :=
  match cs.reverse.span (· != c) with
  | (_, []) => none
  | (tail, _ :: front) => some (front.reverse, tail.reverse)

/-- The text without the characters of `p` at its end. -/
def dropWhileEnd (p : Char → Bool) (cs : List Char) : List Char := (cs.reverse.dropWhile p).reverse

/-- The text without white space at its start. -/
def trimStart (cs : List Char) : List Char := cs.dropWhile isBlank

/-- The text without white space at its end. -/
def trimEnd (cs : List Char) : List Char := dropWhileEnd isBlank cs

/-- The text without white space at both ends. -/
def trim (cs : List Char) : List Char := trimEnd (trimStart cs)

/-- A line without the carriage return that ends it. -/
def dropReturn (line : List Char) : List Char := (dropTail? ['\r'] line).getD line

/-- The lines of a text without their line ends; a newline at the very end opens no further
line. -/
def splitLines (cs : List Char) : List (List Char) :=
  let parts := cs.splitOn '\n'
  let parts := if parts.getLast? == some [] then parts.dropLast else parts
  parts.map dropReturn

/-- The lines of a text, each with the newline that ends it; the last one may lack it. -/
def inclusiveLines (cs : List Char) : List (List Char) :=
  go cs
where
  /-- Cut after every newline. -/
  go : List Char → List (List Char)
    | [] => []
    | c :: cs =>
      if c == '\n' then [c] :: go cs
      else match go cs with
        | [] => [[c]]
        | l :: ls => (c :: l) :: ls

/-- Text in ASCII lower case. -/
def lowerAscii (cs : List Char) : List Char := cs.map Char.toLower

end Refactor.Text

namespace Refactor

/-! ## Strings -/

/-- Whether `s` starts with `p`. -/
def startsWith (s p : String) : Bool := p.toList.isPrefixOf s.toList

/-- Whether `s` ends with `p`. -/
def endsWith (s p : String) : Bool := p.toList.reverse.isPrefixOf s.toList.reverse

/-- Whether `p` occurs in `s`. -/
def occursIn (p s : String) : Bool := Text.contains p.toList s.toList

/-- What follows `p` in `s`. -/
def afterLead? (s p : String) : Option String := (Text.dropLead? p.toList s.toList).map String.ofList

/-- What precedes `p` at the end of `s`. -/
def beforeTail? (s p : String) : Option String := (Text.dropTail? p.toList s.toList).map String.ofList

/-- `s` without white space at both ends. -/
def trimmed (s : String) : String := String.ofList (Text.trim s.toList)

/-- The parts joined with a separator. -/
def joinWith (sep : String) : List String → String
  | [] => ""
  | [s] => s
  | s :: t :: rest => s ++ sep ++ joinWith sep (t :: rest)

/-- `s` in ASCII lower case. -/
def lowered (s : String) : String := String.ofList (Text.lowerAscii s.toList)

end Refactor
