import Refactor.Text.Pattern

/-!
# Ignore files

An ignore file lists patterns of paths relative to its directory. The last pattern that matches a path
decides; one that starts with an exclamation mark keeps the path.

* `Glob.parse?` — a pattern of paths
* `IgnoreRule.ofLine?` — one line of an ignore file
* `IgnoreRule.verdict` — what a list of rules says about a path
-/

namespace Refactor

/-! ## Patterns of paths -/

namespace Glob

open Text

/-- Parts of a pattern. -/
inductive Part where
  | plain (p : Pattern)
  /-- a slash -/
  | slash
  /-- `**/` at the start -/
  | anyLead
  /-- `/**` at the end -/
  | anyTail
  /-- `/**/` -/
  | anyBetween

/-- What a part matches. -/
def Part.pattern : Part → Pattern
  | .plain p => p
  | .slash => .char '/'
  | .anyLead => .alt (.maybe (.char '/')) (.seq (.many fun _ => true) (.char '/'))
  | .anyTail => .seq (.char '/') (.many fun _ => true)
  | .anyBetween => .alt (.char '/') (.all [.char '/', .many fun _ => true, .char '/'])

def star : Part := .plain (.many (· != '/'))

/-- The parts after a run of stars; `done` holds the parts before it, last first. -/
def stars (done : List Part) (previous : Option Char) (rest : List Char) : List Part × List Char :=
  if done.isEmpty then
    match rest with
    | [] => ([.anyLead], [])
    | '/' :: cs => ([.anyLead], cs)
    | cs => ([star, star], cs)
  else if previous != some '/' then (star :: star :: done, rest)
  else
    match rest, done with
    | [], .anyLead :: _ => (done, [])
    | [], .anyTail :: _ => (done, [])
    | [], _ :: before => (.anyTail :: before, [])
    | '/' :: cs, .anyLead :: _ => (done, cs)
    | '/' :: cs, .anyTail :: _ => (done, cs)
    | '/' :: cs, _ :: before => (.anyBetween :: before, cs)
    | cs, _ => (star :: star :: done, cs)

/-- The members of a class between brackets: single characters and ranges. -/
def classMembers : List Char → Bool → List (Char × Char) → Option (List (Char × Char) × List Char)
  | [], _, _ => none
  | ']' :: cs, false, acc => some (acc, cs)
  | a :: '-' :: b :: cs, _, acc =>
    if b == ']' then some (('-', '-') :: (a, a) :: acc, cs)
    else if b < a then none
    else classMembers cs false ((a, b) :: acc)
  | a :: cs, _, acc => classMembers cs false ((a, a) :: acc)

/-- A class after its opening bracket. -/
def charClass (cs : List Char) : Option (Part × List Char) := do
  let (negated, cs) := match cs with
    | '!' :: r => (true, r)
    | '^' :: r => (true, r)
    | r => (false, r)
  let (members, rest) ← classMembers cs true []
  return (.plain (.one fun c => (members.any fun (a, b) => a ≤ c && c ≤ b) != negated), rest)

/-- The parts of a pattern up to its end; `none` when it is malformed. `fuel` bounds its length. -/
def partsFrom : Nat → List Part → Option Char → List Char → Option (List Part)
  | 0, _, _, _ => none
  | _ + 1, done, _, [] => some done.reverse
  | fuel + 1, done, previous, c :: cs =>
    if c == '?' then partsFrom fuel (.plain (.one fun d => d != '/' && d.utf8Size == 1) :: done) (some c) cs
    else if c == '*' then
      match cs with
      | '*' :: rest =>
        let (done, cs) := stars done previous rest
        let last := if rest.length == cs.length then '*' else '/'
        partsFrom fuel done (some last) cs
      | _ => partsFrom fuel (star :: done) (some c) cs
    else if c == '[' then
      match charClass cs with
      | some (part, rest) => partsFrom fuel (part :: done) (some ']') rest
      | none => none
    else if c == '\\' then
      match cs with
      | d :: rest => partsFrom fuel (.plain (.char d) :: done) (some d) rest
      | [] => none
    else if c == '/' then partsFrom fuel (.slash :: done) (some c) cs
    else partsFrom fuel (.plain (.char c) :: done) (some c) cs

/-- The text of an alternative up to a comma or the closing brace at its own level; `depth` counts the
braces open inside. -/
def splitAlternatives : Nat → List Char → List Char → List (List Char) → Option (List (List Char) × List Char)
  | _, _, [], _ => none
  | depth, acc, '\\' :: c :: cs, alts => splitAlternatives depth (c :: '\\' :: acc) cs alts
  | depth, acc, c :: cs, alts =>
    if c == '{' then splitAlternatives (depth + 1) (c :: acc) cs alts
    else if c == '}' then
      match depth with
      | 0 => some ((acc.reverse :: alts).reverse, cs)
      | d + 1 => splitAlternatives d (c :: acc) cs alts
    else if c == ',' && depth == 0 then splitAlternatives depth [] cs (acc.reverse :: alts)
    else splitAlternatives depth (c :: acc) cs alts

/-- The text before the first brace that is not escaped, and after it. -/
def firstBrace? : List Char → List Char → Option (List Char × List Char)
  | _, [] => none
  | acc, '\\' :: c :: cs => firstBrace? (c :: '\\' :: acc) cs
  | acc, c :: cs => if c == '{' then some (acc.reverse, cs) else firstBrace? (c :: acc) cs

/-- All texts that a text with alternatives in braces stands for. -/
def expand : Nat → List Char → Option (List (List Char))
  | 0, _ => none
  | fuel + 1, cs =>
    match firstBrace? [] cs with
    | none => some [cs]
    | some (before, rest) => do
      let (alts, after) ← splitAlternatives 0 [] rest []
      let all ← alts.mapM fun a => expand fuel (before ++ a ++ after)
      return all.flatten

/-- What parts match one after the other; two stars alone match every path. -/
def whole : List Part → Pattern
  | [.anyLead] => .many fun _ => true
  | ps => .all (ps.map Part.pattern)

/-- A pattern of whole paths. -/
def parse? (text : List Char) : Option Pattern := do
  let texts ← expand (text.length + 1) text
  let patterns ← texts.mapM fun t => (partsFrom (t.length + 1) [] none t).map whole
  return .any patterns

end Glob

/-! ## Rules -/

/-- One line of an ignore file. -/
structure IgnoreRule where
  pattern : Text.Pattern
  /-- the rule keeps what it matches -/
  keeps : Bool
  onlyDirs : Bool

namespace IgnoreRule

/-- The rule of a line; empty lines, comments and malformed patterns have none. -/
def ofLine? (line : List Char) : Option IgnoreRule := do
  if line.head? == some '#' then none
  let line := if ['\\', ' '].isSuffixOf line then line else Text.trimEnd line
  if line.isEmpty then none
  let escaped := ['\\', '!'].isPrefixOf line || ['\\', '#'].isPrefixOf line
  let keeps := !escaped && line.head? == some '!'
  let line := if escaped || keeps then line.drop 1 else line
  let anchored := line.head? == some '/'
  let line := if anchored && !escaped then line.drop 1 else line
  let onlyDirs := line.getLast? == some '/'
  let line := if onlyDirs then line.dropLast else line
  let line := if onlyDirs && line.getLast? == some '\\' then line.dropLast else line
  let floating := !anchored && !line.contains '/' && !(['*', '*', '/'].isPrefixOf line || line == ['*', '*'])
  let glob := if floating then '*' :: '*' :: '/' :: line else line
  let glob := if ['/', '*', '*'].isSuffixOf glob then glob ++ ['/', '*'] else glob
  return { pattern := ← Glob.parse? glob, keeps, onlyDirs }

/-- The rules of an ignore file. -/
def ofText (text : List Char) : List IgnoreRule :=
  let text := if text.head? == some '\uFEFF' then text.drop 1 else text
  (Text.splitLines text).filterMap ofLine?

/-- What the last rule that matches a path says: whether the path is ignored. -/
def verdict (rules : List IgnoreRule) (relative : List Char) (isDir : Bool) : Option Bool :=
  (rules.reverse.find? fun r => (!r.onlyDirs || isDir) && r.pattern.matchesAll relative).map fun r => !r.keeps

end IgnoreRule

end Refactor
