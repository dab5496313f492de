import Refactor.Disk.Bytes
import Refactor.Reference.Basic

/-!
# Paths mentioned in plain text

Files that no language claims are searched for path-like words. Code, comments and, in prose, quoted
strings are blanked first, byte for byte, so that offsets stay what they are. Lines are read byte by
byte too; a byte from 128 on is no mark of any kind.

* `Mention.Markings` — what is code and what is a comment, by file extension
* `Mention.mask` — the text with code and comments blanked
* `Mention.find` — the path-like words of a text with their spans
-/

namespace Refactor

/-- A path-like word of a text. -/
structure Mention where
  text : String
  location : Span
deriving DecidableEq, Repr

namespace Mention

/-! ## Markings -/

/-- How comments up to the end of the line start. -/
inductive LineComment where
  | hash | doubleSlash
deriving DecidableEq, Repr

/-- What is code, comment or string in a sort of file. -/
structure Markings where
  fences : Bool
  inlineCode : Bool
  blockComment : Option (String × String)
  lineComment : Option LineComment
  maskStrings : Bool
  singleQuotes : Bool
deriving Repr

/-- The markings of files with an extension. -/
def Markings.ofExtension (extension : String) : Markings :=
  let ext := lowered extension
  if ext == "md" || ext == "markdown" || ext == "mdx" then
    ⟨true, true, some ("<!--", "-->"), none, true, false⟩
  else if ext == "toml" || ext == "yaml" || ext == "yml" then
    ⟨false, false, none, some .hash, false, true⟩
  else if ext == "json" then ⟨false, false, none, none, false, false⟩
  else ⟨true, true, some ("/*", "*/"), some .doubleSlash, true, false⟩

/-! ## What is blanked -/

/-- A range of bytes. -/
abbrev ByteRange := Nat × Nat

/-- The block comments of a text, from byte `off` on; an open one reaches to the end. -/
def blockComments (opening closing : List Char) : Nat → Nat → List Char → List ByteRange
  | 0, _, _ => []
  | fuel + 1, off, cs =>
    match Text.splitOnce? opening cs with
    | none => []
    | some (front, inner) =>
      let start := off + Text.utf8Size front
      let bodyStart := start + Text.utf8Size opening
      match Text.splitOnce? closing inner with
      | none => [(start, bodyStart + Text.utf8Size inner)]
      | some (body, rest) =>
        let stop := bodyStart + Text.utf8Size body + Text.utf8Size closing
        (start, stop) :: blockComments opening closing fuel stop rest

/-- Number of backticks at the start. -/
def tickRun (cs : List (Nat × Char)) : Nat := (cs.takeWhile (·.2 == '\x60')).length

/-- What follows the next run of exactly `run` backticks on the line. -/
def afterTicks? (run : Nat) : Nat → List (Nat × Char) → Option (List (Nat × Char))
  | 0, _ => none
  | _ + 1, [] => none
  | fuel + 1, (o, c) :: rest =>
    if c == '\n' then none
    else if c == '\x60' then
      let len := tickRun ((o, c) :: rest)
      let after := rest.drop (len - 1)
      if len == run then some after else afterTicks? run fuel after
    else afterTicks? run fuel rest

/-- Whether a single quote after this character opens a string. -/
def opensAfter : Option Char → Bool
  | none => true
  | some c => c == ' ' || c == '\t' || c == ':' || c == '=' || c == '[' || c == ','

/-- The ranges to blank on a line that ends at byte `stop`; `quote` is the open quote with its
place. -/
def lineRanges (m : Markings) (stop : Nat) :
    Nat → Option Char → Option (Char × Nat) → List (Nat × Char) → List ByteRange
  | 0, _, _, _ => []
  | _ + 1, _, _, [] => []
  | fuel + 1, _, some (q, openAt), (o, c) :: rest =>
    if c == '\\' then lineRanges m stop fuel (some c) (some (q, openAt)) (rest.drop 1)
    else if c == q then
      (if m.maskStrings then [(openAt, o + 1)] else []) ++ lineRanges m stop fuel (some c) none rest
    else lineRanges m stop fuel (some c) (some (q, openAt)) rest
  | fuel + 1, prev, none, (o, c) :: rest =>
    if m.inlineCode && c == '\x60' then
      let run := tickRun ((o, c) :: rest)
      let after := rest.drop (run - 1)
      match afterTicks? run (after.length + 1) after with
      | some closed =>
        let stopAt := (closed.head?.map (·.1)).getD stop
        (o, stopAt) :: lineRanges m stop fuel (some c) none closed
      | none => lineRanges m stop fuel (some c) none after
    else
      let spaced := prev.all Text.isAsciiBlank
      if m.lineComment == some .hash && c == '#' && spaced then [(o, stop)]
      else if m.lineComment == some .doubleSlash && c == '/' && rest.head?.any (·.2 == '/') && spaced then
        [(o, stop)]
      else if c == '"' || (m.singleQuotes && c == '\'' && opensAfter prev) then
        lineRanges m stop fuel (some c) (some (c, o)) rest
      else lineRanges m stop fuel (some c) none rest

/-- The fence that a line opens or closes. -/
def fenceMark? (line : List Char) : Option Char :=
  let body := Text.trimStart line
  if ['\x60', '\x60', '\x60'].isPrefixOf body then some '\x60'
  else if ['~', '~', '~'].isPrefixOf body then some '~'
  else none

/-- The bytes of a text. -/
def bytesOf (cs : List Char) : List UInt8 := (Bytes.ofText (String.ofList cs)).toList

/-- Bytes with their offsets, each as the character of its number. -/
def bytesFrom (off : Nat) : List UInt8 → List (Nat × Char)
  | [] => []
  | b :: bs => (off, Char.ofUInt8 b) :: bytesFrom (off + 1) bs

/-- The ranges to blank on a line that starts at byte `off`. -/
def rangesOfLine (m : Markings) (off : Nat) (line : List Char) : List ByteRange :=
  let bytes := bytesFrom off (bytesOf line)
  lineRanges m (off + bytes.length) (bytes.length + 1) none none bytes

/-- The ranges to blank on the lines from byte `off` on; `fence` is the open fence. -/
def linesRanges (m : Markings) : Nat → Option Char → List (List Char) → List ByteRange
  | _, _, [] => []
  | off, fence, line :: rest =>
    let stop := off + Text.utf8Size line
    let plain := rangesOfLine m off line
    if !m.fences then plain ++ linesRanges m stop none rest
    else match fence, fenceMark? line with
      | none, some mark => (off, stop) :: linesRanges m stop (some mark) rest
      | some opened, some mark =>
        (off, stop) :: linesRanges m stop (if opened == mark then none else some opened) rest
      | some opened, none => (off, stop) :: linesRanges m stop (some opened) rest
      | none, none => plain ++ linesRanges m stop none rest

/-- The ranges of code, comments and strings. -/
def blankRanges (m : Markings) (content : List Char) : List ByteRange :=
  (match m.blockComment with
   | some (a, b) => blockComments a.toList b.toList (content.length + 1) 0 content
   | none => []) ++
  linesRanges m 0 none (Text.inclusiveLines content)

/-- Whether one of the ranges holds a byte. -/
def covered (ranges : List ByteRange) (off : Nat) : Bool := ranges.any fun (lo, hi) => lo ≤ off && off < hi

/-- Bytes with those in ranges replaced by blanks; newlines stay. -/
def blankBytes (ranges : List ByteRange) : Nat → List UInt8 → List UInt8
  | _, [] => []
  | off, b :: bs => (if b != 10 && covered ranges off then 32 else b) :: blankBytes ranges (off + 1) bs

/-- The bytes of a text, those of code, comments and, where the markings say so, strings blanked. -/
def maskBytes (m : Markings) (content : List Char) : List UInt8 :=
  blankBytes (blankRanges m content) 0 (bytesOf content)

/-- The masked text; it would be empty if its bytes were no text. -/
def mask (m : Markings) (content : List Char) : List Char :=
  ((Bytes.text? ⟨(maskBytes m content).toArray⟩).getD "").toList

/-! ## Words -/

/-- Characters of a path. -/
def isPathChar (c : Char) : Bool :=
  c.isAlphanum || c == '_' || c == '.' || c == '~' || c == '@' || c == '/' || c == '+' || c == '-'

/-- Characters of an anchor or query. -/
def isSuffixChar (c : Char) : Bool :=
  c.isAlphanum || c == '_' || c == '.' || c == '~' || c == '/' || c == '=' || c == '&' || c == '%' ||
    c == '+' || c == '-'

/-- The longest words of path characters with an optional suffix, and their byte offsets. -/
def words : Nat → Nat → List Char → List (Nat × List Char)
  | 0, _, _ => []
  | _ + 1, _, [] => []
  | fuel + 1, off, c :: cs =>
    if isPathChar c then
      let (body, rest) := (c :: cs).span isPathChar
      let (suffix, rest) := match rest with
        | s :: more =>
          if s == '#' || s == '?' then let (a, b) := more.span isSuffixChar; (s :: a, b) else ([], s :: more)
        | [] => ([], [])
      let word := body ++ suffix
      (off, word) :: words fuel (off + Text.utf8Size word) rest
    else words fuel (off + c.utf8Size) cs

/-- Whether a path has an extension of letters and digits. -/
def hasExtension (path : List Char) : Bool :=
  let last := ((Text.dropWhileEnd (· == '/') path).splitOn '/').getLastD []
  match Text.splitLast? '.' last with
  | some (_, ext) => !ext.isEmpty && ext.all Char.isAlphanum
  | none => false

/-- The word without the punctuation of the sentence, when it can be a path. -/
def cleanWord? (word : List Char) : Option (List Char) :=
  let path := word.takeWhile fun c => c != '#' && c != '?'
  let trimmed := Text.dropWhileEnd (fun c => c == '.' || c == ',' || c == ';' || c == ':') word
  let hasSuffix := path.length < word.length
  let token := if hasSuffix then word else trimmed
  let path := if hasSuffix then path else trimmed
  if path.isEmpty || ['/', '/'].isPrefixOf path then none
  else if !path.any Char.isAlphanum then none
  else if !path.contains '/' && !hasExtension path then none
  else some token

/-- The path-like words of a text outside code, comments and prose strings. -/
def find (content : String) (extension : String) : List Mention :=
  let cs := content.toList
  let masked := mask (.ofExtension extension) cs
  (words (masked.length + 1) 0 masked).filterMap fun (off, word) =>
    (cleanWord? word).map fun token =>
      ⟨String.ofList token, .ofBytes cs off (off + Text.utf8Size token)⟩

end Mention

end Refactor
