import Refactor.Markdown.CodeRegions
import Refactor.Reference.Located

/-!
# Links of a document

Inline links and images, definitions of references and autolinks that name files.

* `scanLinks` — the link targets in order
* `renameLinks`, `moveLinks` — a document with its targets replaced
-/

namespace Refactor.Markdown

open Text

/-! ## Patterns -/

/-- A target between angle brackets. -/
def bracketed : Pattern := .all [.char '<', .oneOrMore fun c => c != '>' && c != '\n', .char '>']

/-- `[text](target "title")`, also after an exclamation mark. -/
def inlineLink : Pattern :=
  .all [.maybe (.char '!'), .char '[', .many (· != ']'), .text "](", .blanks,
    .mark (.alt bracketed (.oneOrMore fun c => c != ')' && !isBlank c)),
    .maybe (.seq (.oneOrMore isBlank) (.alt
      (.all [.char '"', .many (· != '"'), .char '"'])
      (.all [.char '\'', .many (· != '\''), .char '\'']))),
    .blanks, .char ')']

/-- `[label]: target` at the start of a line. -/
def definition : Pattern :=
  .all [.lineStart, .maybe (.char ' '), .maybe (.char ' '), .maybe (.char ' '),
    .char '[', .oneOrMore (· != ']'), .text "]:", .many fun c => c == ' ' || c == '\t',
    .mark (.alt bracketed (.oneOrMore fun c => !isBlank c))]

/-- `<target>`. -/
def autolink : Pattern :=
  .all [.char '<', .mark (.oneOrMore fun c => c != '<' && c != '>' && !isBlank c), .char '>']

/-! ## Targets -/

/-- Whether a target names a file rather than a site, an anchor or another resource. -/
def isFileTarget (t : String) : Bool :=
  t != "" && !startsWith t "#" && !startsWith t "//" && !occursIn "://" t &&
    !(["mailto:", "tel:", "data:", "javascript:"].any fun s => startsWith t s)

/-- Whether an autolink names a file rather than a tag or an address. -/
def isFileAutolink (t : String) : Bool := isFileTarget t && !t.toList.contains '@' && t.toList.contains '.'

/-- The marked part of a match without the angle brackets around it. -/
def targetOf (content : List Char) (m : Match) : Option LocatedRef :=
  (slice? content m.markLo m.markHi).map fun t =>
    match (dropLead? ['<'] t).bind (dropTail? ['>']) with
    | some inner => ⟨String.ofList inner, .link, m.markLo + 1, m.markHi - 1⟩
    | none => ⟨String.ofList t, .link, m.markLo, m.markHi⟩

/-- The accepted targets of a pattern outside code. -/
def collect (content : List Char) (code : List Region) (pattern : Pattern) (accept : String → Bool) :
    List LocatedRef :=
  ((pattern.findAll content).filter fun m => !inCode code m.lo).filterMap fun m =>
    (targetOf content m).filter fun r => accept r.specifier

/-- Leaves out every target that starts before the end of the last one kept. -/
def dropOverlapping (stop : Nat) : List LocatedRef → List LocatedRef
  | [] => []
  | r :: rest => if r.lo < stop then dropOverlapping stop rest else r :: dropOverlapping r.hi rest

/-- The link targets of a document in order. -/
def scanLinks (content : List Char) : List LocatedRef :=
  let code := codeRegions content
  let found := collect content code inlineLink isFileTarget ++ collect content code definition isFileTarget ++
    collect content code autolink isFileAutolink
  dropOverlapping 0 (found.mergeSort fun a b => a.lo ≤ b.lo)

/-- The references of a document. -/
def linksOf (content : List Char) : List ImportRef := (scanLinks content).map (LocatedRef.toRef content)

/-! ## Rewriting -/

/-- A text without any number of `./` at its start. -/
def dropDots (cs : List Char) : List Char :=
  match cs with
  | '.' :: '/' :: rest => dropDots rest
  | other => other

/-- The document with every target named `old`, or below it, renamed. -/
def renameLinks (content : List Char) (old new : String) : List Char × Nat :=
  let old := String.ofList (dropDots old.toList)
  LocatedRef.replaceAll (fun r =>
    let (p, suffix) := Specifier.splitSuffix r.specifier
    let (dot, clean) := match afterLead? p "./" with
      | some rest => ("./", rest)
      | none => ("", p)
    if clean == old then some (dot ++ new ++ suffix)
    else (afterLead? clean (old ++ "/")).map fun rest => dot ++ new ++ "/" ++ rest ++ suffix)
    content (scanLinks content)

/-- The target in `file` for `new` in place of one for `old`; `none` when it names another file. -/
def movedTarget? (file old new : Path) (target : String) : Option String :=
  let base := file.parent?.getD ⟨"/"⟩
  let (p, _) := Specifier.splitSuffix target
  if p == "" || startsWith p "/" || !(base.clampedJoin p == old) then none
  else
    let written := Specifier.format (.infer target .importingFile old) base file new
    if written == target then none else some written

/-- The document `file` with every target of `old` naming `new`. -/
def moveLinks (content : List Char) (file old new : Path) : List Char × Nat :=
  LocatedRef.replaceAll (fun r => movedTarget? file old new r.specifier) content (scanLinks content)

end Refactor.Markdown
