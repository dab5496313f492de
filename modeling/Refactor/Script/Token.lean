import Refactor.Text.Unicode

/-!
# Tokens of scripts

Cutting a script into words, numbers, texts and marks. A slash is read as a mark, and `>` never joins
what follows it; the parser reads regular expressions, templates and longer operators itself where the
grammar has them.

* `Token` — a token
* `Token.scan` — the token at the start of a text
* `skipTrivia` — blanks and comments before a token
-/

namespace Refactor.Script

/-- A token. -/
inductive Token where
  | eof
  | word (s : String)
  | privateName
  | number
  | bigint
  | text
  | mark (s : String)
  /-- what starts no token -/
  | bad
deriving DecidableEq, Repr

/-! ## Blanks and comments -/

/-- Ends of lines. -/
def isLineEnd (c : Char) : Bool := c == '\n' || c == '\r' || c.toNat == 0x2028 || c.toNat == 0x2029

/-- Blanks between tokens. -/
def isSpace (c : Char) : Bool := Text.isBlank c || c.toNat == 0xFEFF

/-- What was skipped before a token. -/
structure Skipped where
  rest : List Char
  pos : Nat
  /-- a line ended -/
  newline : Bool
  /-- byte ranges of comments, last first -/
  comments : List (Nat × Nat)

/-- The end of a block comment: what follows it, its place, and whether a line ended inside. -/
def blockCommentEnd : List Char → Nat → Bool → Option (List Char × Nat × Bool)
  | [], _, _ => none
  | '*' :: '/' :: rest, pos, nl => some (rest, pos + 2, nl)
  | c :: rest, pos, nl => blockCommentEnd rest (pos + c.utf8Size) (nl || isLineEnd c)

/-- Skips blanks and comments; a comment without an end reaches to the end of the text. -/
def skipTrivia : Nat → Skipped → Skipped
  | 0, s => s
  | fuel + 1, s =>
    match s.rest with
    | '/' :: '/' :: rest =>
      let body := rest.takeWhile (!isLineEnd ·)
      let stop := s.pos + 2 + Text.utf8Size body
      skipTrivia fuel { s with rest := rest.drop body.length, pos := stop, comments := (s.pos, stop) :: s.comments }
    | '/' :: '*' :: rest =>
      match blockCommentEnd rest (s.pos + 2) false with
      | some (rest, stop, nl) =>
        skipTrivia fuel ⟨rest, stop, s.newline || nl, (s.pos, stop) :: s.comments⟩
      | none => { s with rest := [], pos := s.pos + 2 + Text.utf8Size rest }
    | c :: rest =>
      if isLineEnd c then skipTrivia fuel { s with rest, pos := s.pos + c.utf8Size, newline := true }
      else if isSpace c then skipTrivia fuel { s with rest, pos := s.pos + c.utf8Size }
      else s
    | [] => s

/-! ## Tokens -/

/-- The marks, longer ones before their beginnings. -/
def marks : List String :=
  ["...", "===", "!==", "**=", "<<=", "&&=", "||=", "??=",
   "=>", "==", "!=", "<=", "++", "--", "**", "<<", "&&", "||", "??", "?.", "+=", "-=", "*=", "/=", "%=",
   "&=", "|=", "^=",
   "\x7b", "\x7d", "(", ")", "[", "]", ".", ";", ",", "<", ">", "+", "-", "*", "/", "%", "&", "|", "^", "!", "~",
   "?", ":", "=", "@", "`", "#"]

/-- A digit of a base, in either case. -/
def isDigitOf (base : Nat) (c : Char) : Bool :=
  if base ≤ 10 then '0' ≤ c && c.toNat < 48 + base
  else c.isDigit || ('a' ≤ c.toLower && c.toLower ≤ 'f')

/-- Whether a character that is named by its number is named well, after the mark before the number. -/
def isHexEscape (mark : Char) (rest : List Char) : Bool :=
  match mark, rest with
  | 'x', _ => (rest.take 2).length == 2 && (rest.take 2).all (isDigitOf 16)
  | 'u', '\x7b' :: more =>
    let hex := more.takeWhile (isDigitOf 16)
    !hex.isEmpty && Text.hexNumeral (hex.map Char.toUpper) ≤ 0x10FFFF && (more.drop hex.length).head? == some '\x7d'
  | 'u', _ => (rest.take 4).length == 4 && (rest.take 4).all (isDigitOf 16)
  | _, _ => true

/-- The rest of a quoted text after its opening quote, with the number of bytes read. A text ends at the
latest with its line; a malformed escape makes it unreadable. -/
def textEnd (quote : Char) : List Char → Nat → Option (List Char × Nat)
  | [], n => some ([], n)
  | ['\\'], _ => none
  | '\\' :: '\r' :: '\n' :: rest, n => textEnd quote rest (n + 3)
  | '\\' :: c :: rest, n => if isHexEscape c rest then textEnd quote rest (n + 1 + c.utf8Size) else none
  | c :: rest, n =>
    if c == quote then some (rest, n + 1)
    else if c == '\n' || c == '\r' then some (c :: rest, n)
    else textEnd quote rest (n + c.utf8Size)

/-- Digits of a number, with separators. -/
def isNumberPart (c : Char) : Bool := c.isDigit || c == '_'

/-- The exponent of a number; `none` when its digits are missing. -/
def exponentPart? (cs : List Char) : Option (List Char) :=
  match cs with
  | e :: rest =>
    if e == 'e' || e == 'E' then
      let sign := (rest.take 1).filter fun c => c == '+' || c == '-'
      let digits := (rest.drop sign.length).takeWhile isNumberPart
      if digits.isEmpty then none else some (e :: sign ++ digits)
    else some []
  | [] => some []

/-- The base of a number with a letter after its zero. -/
def baseOf? (letter : Char) : Option Nat :=
  match letter.toLower with
  | 'x' => some 16
  | 'o' => some 8
  | 'b' => some 2
  | _ => none

/-- The characters of a decimal number. -/
def decimalPart? (cs : List Char) : Option (List Char) :=
  let whole := cs.takeWhile isNumberPart
  let rest := cs.drop whole.length
  let frac := match rest with
    | '.' :: more => '.' :: more.takeWhile isNumberPart
    | _ => []
  (exponentPart? (rest.drop frac.length)).map (whole ++ frac ++ ·)

/-- The characters of a number. -/
def numberPart? (cs : List Char) : Option (List Char) :=
  match cs with
  | '0' :: x :: rest =>
    match baseOf? x with
    | some base =>
      let digits := rest.takeWhile fun c => c == '_' || isDigitOf base c
      if digits.isEmpty then none else some ('0' :: x :: digits)
    | none => decimalPart? cs
  | _ => decimalPart? cs

/-- An escaped character of a word: the character, the bytes and what follows. -/
def wordEscape? : List Char → Option (Char × Nat × List Char)
  | '\\' :: 'u' :: '\x7b' :: rest =>
    let hex := rest.takeWhile (· != '\x7d')
    some (Char.ofNat (Text.hexNumeral (hex.map Char.toUpper)), 4 + hex.length, rest.drop (hex.length + 1))
  | '\\' :: 'u' :: a :: b :: c :: d :: rest =>
    some (Char.ofNat (Text.hexNumeral ([a, b, c, d].map Char.toUpper)), 6, rest)
  | _ => none

/-- The characters of a word, the bytes they take and what follows. -/
def wordPart : Nat → List Char → List Char → Nat → List Char × Nat × List Char
  | 0, cs, acc, n => (acc.reverse, n, cs)
  | fuel + 1, cs, acc, n =>
    match cs with
    | c :: rest =>
      if Text.isIdentPart c then wordPart fuel rest (c :: acc) (n + c.utf8Size)
      else if c == '\\' then
        match wordEscape? cs with
        | some (e, bytes, rest) => wordPart fuel rest (e :: acc) (n + bytes)
        | none => (acc.reverse, n, cs)
      else (acc.reverse, n, cs)
    | [] => (acc.reverse, n, [])

/-- The token at the start of a text, the bytes it takes and what follows it. -/
def Token.scan (cs : List Char) : Token × Nat × List Char :=
  match cs with
  | [] => (.eof, 0, [])
  | c :: rest =>
    if c.isDigit || (c == '.' && rest.head?.any Char.isDigit) then
      match numberPart? cs with
      | none => (.bad, 1, rest)
      | some num =>
        match cs.drop num.length with
        | 'n' :: after => (.bigint, num.length + 1, after)
        | after => if after.head?.any Text.isIdentStart then (.bad, 1, rest) else (.number, num.length, after)
    else if c == '"' || c == '\'' then
      match textEnd c rest 1 with
      | some (after, n) => (.text, n, after)
      | none => (.bad, 1, rest)
    else if Text.isIdentStart c || c == '\\' then
      let (name, n, after) := wordPart cs.length cs [] 0
      if n == 0 then (.bad, 1, rest) else (.word (String.ofList name), n, after)
    else if c == '#' && rest.head?.any (fun d => Text.isIdentStart d || d == '\\') then
      let (_, n, after) := wordPart rest.length rest [] 1
      (.privateName, n, after)
    else
      -- an optional chain is no start of a fraction
      let fits (m : String) : Bool :=
        m.toList.isPrefixOf cs && !(m == "?." && (cs.drop 2).head?.any Char.isDigit)
      match marks.find? fits with
      | some m => (.mark m, m.length, cs.drop m.length)
      | none => (.bad, c.utf8Size, rest)

/-- Words that are no identifiers. -/
def reservedWords : List String :=
  ["break", "case", "catch", "class", "const", "continue", "debugger", "default", "delete", "do", "else", "enum",
   "export", "extends", "false", "finally", "for", "function", "if", "import", "in", "instanceof", "new", "null",
   "return", "super", "switch", "this", "throw", "true", "try", "typeof", "var", "void", "while", "with"]

/-- Words that can be bound in a module, but not used. -/
def unusableWords : List String :=
  ["yield", "implements", "package", "protected", "interface", "private", "public"]

end Refactor.Script
