import Refactor.Shell.Commands
import Refactor.Shell.Syntax

/-!
# Running command lines

A command line runs in a directory of a tree. It writes to two streams, may change files, takes time
when it sleeps, and ends with a status unless it is killed.

* `Shell.fieldsOf` — the fields that a word stands for
* `Shell.run` — a command
* `Shell.runLine` — a whole command line
-/

namespace Refactor.Shell

/-- Runs a nested command line. -/
abbrev Nested := State → List Char → State

/-! ## Words -/

/-- Parts of a word whose pieces are replaced by their values. -/
inductive Mark where
  /-- a character that may belong to a pattern of names -/
  | plain (c : Char)
  | shielded (c : Char)
  /-- a blank of a value, where the word is cut -/
  | cut
  /-- quotes: the field counts even when it is empty -/
  | keep
deriving DecidableEq, Repr

namespace Mark

def char? : Mark → Option Char
  | .plain c | .shielded c => some c
  | _ => none

/-- The marks of a value. -/
def ofValue (quoted : Bool) (v : List Char) : List Mark :=
  if quoted then .keep :: v.map .shielded
  else v.map fun c => if c == ' ' || c == '\t' || c == '\n' then .cut else .plain c

/-- The text of marks. -/
def text (ms : List Mark) : String := String.ofList (ms.filterMap char?)

/-- Whether a field is a pattern of names. -/
def isWild (m : Mark) : Bool := m == .plain '*' || m == .plain '?'

end Mark

/-- What a nested command line writes, without the newlines at its end; files that it changes stay
changed. -/
def substitute (nested : Nested) (s : State) (line : List Char) : State × List Char :=
  let inner := nested { s with stdout := .empty, stopped := none } line
  let stopped := if inner.stopped == some .killed then none else s.stopped
  ({ s with tree := inner.tree, stderr := inner.stderr, status := inner.status, stopped
            sleptSeconds := inner.sleptSeconds },
    Text.dropWhileEnd (· == '\n') (Bytes.lossyText inner.stdout).toList)

/-- The value of a parameter, which may name what stands for a missing one, or ask for its length. -/
def paramValue (s : State) (name : List Char) : String :=
  match Text.splitOnce? ":-".toList name with
  | some (n, default) =>
    match s.value? (String.ofList n) with
    | some v => if v == "" then String.ofList default else v
    | none => String.ofList default
  | none =>
    match name with
    | '#' :: n :: ns => toString ((s.value? (String.ofList (n :: ns))).getD "").length
    | _ => (s.value? (String.ofList name)).getD ""

/-- A word with its pieces replaced by their values. -/
def marksOf (nested : Nested) (s : State) : List Piece → State × List Mark
  | [] => (s, [])
  | .text cs quoted :: rest =>
    let (s, ms) := marksOf nested s rest
    (s, (if quoted then .keep :: cs.map .shielded else cs.map .plain) ++ ms)
  | .param name quoted :: rest =>
    let value := paramValue s name
    let (s, ms) := marksOf nested s rest
    (s, Mark.ofValue quoted value.toList ++ ms)
  | .output line quoted :: rest =>
    let (s, value) := substitute nested s line
    let (s, ms) := marksOf nested s rest
    (s, Mark.ofValue quoted value ++ ms)

/-- A word as one text. -/
def textOf (nested : Nested) (s : State) (w : List Piece) : State × String :=
  let (s, ms) := marksOf nested s w
  (s, String.ofList (ms.filterMap fun m => if m == .cut then some ' ' else m.char?))

/-- The paths below a directory that fit the segments of a pattern. -/
def fitting (s : State) : List (List Mark) → String → List String
  | [], lead => [lead]
  | seg :: rest, lead =>
    let joined (n : String) : String := if lead == "" then n else lead ++ "/" ++ n
    if !seg.any Mark.isWild then
      let p := joined (Mark.text seg)
      if s.tree.exists? (s.at p) then fitting s rest p else []
    else
      let pattern : Text.Pattern := .all (seg.filterMap fun
        | .plain '*' => some (.many fun _ => true)
        | .plain '?' => some (.one fun _ => true)
        | m => m.char?.map Text.Pattern.char)
      let hidden := (Mark.text seg).toList.head? == some '.'
      match s.tree.entry true (s.at (if lead == "" then "." else lead)) with
      | .ok (place, .dir) =>
        (((s.tree.children place).map (·.1)).filter fun n =>
          (hidden || !startsWith n ".") && pattern.matchesAll n.toList).flatMap fun n => fitting s rest (joined n)
      | _ => []

/-- The names that a field stands for. -/
def namesOf (s : State) (field : List Mark) : List String :=
  if !field.any Mark.isWild then [Mark.text field]
  else
    match fitting s (field.splitOnP fun m => m.char? == some '/') "" with
    | [] => [Mark.text field]
    | names => names

/-- The fields that a word stands for. -/
def fieldsOf (nested : Nested) (s : State) (w : List Piece) : State × List String :=
  let (s, ms) := marksOf nested s w
  (s, ((ms.splitOnP (· == .cut)).filter (!·.isEmpty)).flatMap (namesOf s))

/-- The fields of words one after the other. -/
def allFields (nested : Nested) (s : State) : List (List Piece) → State × List String
  | [] => (s, [])
  | w :: rest =>
    let (s, here) := fieldsOf nested s w
    let (s, later) := allFields nested s rest
    (s, here ++ later)

/-! ## Streams -/

/-- Where the two streams of a command go. -/
structure Streams where
  out : Nat := 1
  err : Nat := 2
  /-- files by number, from three on, with whether they are added to -/
  files : List (Path × Bool) := []

/-- Follows the redirections of a command. -/
def Streams.follow (nested : Nested) (s : State) (t : Streams) : List Redirect → Streams
  | [] => t
  | r :: rest =>
    let target := (textOf nested s r.target).2
    let put (t : Streams) (n : Nat) : Streams :=
      if r.fd == 1 then { t with out := n } else if r.fd == 2 then { t with err := n } else t
    let t := match r.op with
      | ">&" => put t (if target == "1" then t.out else if target == "2" then t.err else 0)
      | ">" | ">|" => put { t with files := t.files ++ [(s.at target, false)] } (3 + t.files.length)
      | ">>" => put { t with files := t.files ++ [(s.at target, true)] } (3 + t.files.length)
      | _ => t
    t.follow nested s rest

/-- Writes to where a stream goes. -/
def deliver (s : State) (t : Streams) (n : Nat) (b : ByteArray) : State :=
  match n with
  | 0 => s
  | 1 => { s with stdout := s.stdout ++ b }
  | 2 => { s with stderr := s.stderr ++ b }
  | k + 3 =>
    match t.files[k]? with
    | none => s
    | some (p, _) =>
      if p.raw == "/dev/null" then s
      else
        let old := ((s.tree.read p).toOption).getD .empty
        match s.tree.write p (old ++ b) with
        | .ok tree => { s with tree }
        | .error _ => s

/-- Opens the files of redirections, emptying those that are replaced; the first one that cannot be opened
is reported. -/
def openFiles (s : State) (t : Streams) (rs : List Redirect) (nested : Nested) : State × Option String :=
  let reading := rs.filter (·.op == "<")
  let missing := reading.findSome? fun r =>
    let name := (textOf nested s r.target).2
    match s.tree.read (s.at name) with
    | .ok _ => none
    | .error e => if (s.at name).raw == "/dev/null" then none
        else some ("cannot open " ++ name ++ ": " ++ (if e == .notFound then "No such file" else faultText e))
  t.files.foldl (fun (s, fault) (p, append) =>
    if fault.isSome || p.raw == "/dev/null" || (append && s.tree.exists? p) then (s, fault)
    else match s.tree.write p .empty with
      | .ok tree => ({ s with tree }, none)
      | .error e =>
        let shown := p.displayIn s.cwd
        (s, some ("cannot create " ++ shown ++ ": " ++ (if e == .notFound then "Directory nonexistent" else faultText e))))
    (s, missing)

/-- The input that redirections ask for. -/
def inputOf (nested : Nested) (s : State) (rs : List Redirect) (input : ByteArray) : ByteArray :=
  match (rs.filter (·.op == "<")).getLast? with
  | some r => ((s.tree.read (s.at (textOf nested s r.target).2)).toOption).getD .empty
  | none => input

/-- Runs something with redirections in force. -/
def withRedirects (nested : Nested) (input : ByteArray) (rs : List Redirect) (f : ByteArray → State → State)
    (s : State) : State :=
  let t := Streams.follow nested s {} rs
  match openFiles s t rs nested with
  | (s, some fault) => { s with status := 2, stderr := s.stderr ++ Bytes.ofText ("sh: 1: " ++ fault ++ "\n") }
  | (s, none) =>
    let inner := f (inputOf nested s rs input) { s with stdout := .empty, stderr := .empty }
    let outer := { inner with stdout := s.stdout, stderr := s.stderr }
    deliver (deliver outer t t.out inner.stdout) t t.err inner.stderr

/-! ## Commands -/

/-- Gives variables their values. -/
def assignAll (nested : Nested) (s : State) : List (List Char × List Piece) → State
  | [] => s
  | (name, value) :: rest =>
    let (s, v) := textOf nested { s with status := 0 } value
    assignAll nested (s.assign (String.ofList name) v) rest

/-- Calls a command by its name. -/
def callCommand (nested : Nested) (input : ByteArray) (s : State) (words : List String) : State :=
  match words with
  | [] => s
  | name :: args =>
    match baseName name, args with
    | "eval", _ => nested { s with status := 0 } (joinWith " " args).toList
    | "sh", "-c" :: line :: _ =>
      let inner := nested { s with stdout := .empty, vars := [], strict := false } line.toList
      { inner with stdout := s.stdout ++ inner.stdout, vars := s.vars, strict := s.strict, cwd := s.cwd
                   stopped := none, status := if inner.stopped == some .killed then 137 else inner.status }
    | _, _ =>
      let (s, o) := builtin s input name args
      { s with status := o.status, stdout := s.stdout ++ o.out, stderr := s.stderr ++ o.err }

/-- Ends a strict shell after a failure. -/
def heedFailure (s : State) : State :=
  if s.strict && s.status != 0 && s.stopped.isNone then { s with stopped := some .exit } else s

/-- Repeats a step until it says that it is done; a loop without end takes all time. -/
def repeatStep (step : State → State × Bool) : Nat → State → State
  | 0, s => { s with sleptSeconds := s.sleptSeconds + Word.count 32 }
  | n + 1, s =>
    match step s with
    | (s, true) => s
    | (s, false) => repeatStep step n s

/-- What a shell of its own leaves behind in the outer one. -/
def rejoin (outer inner : State) : State :=
  { inner with cwd := outer.cwd, vars := outer.vars, strict := outer.strict
               stopped := if inner.stopped == some .exit then outer.stopped else inner.stopped }

/-- Runs a command with an input. Nothing runs after the shell has stopped. -/
def run (nested : Nested) (input : ByteArray) : Command → State → State
  | .skip, s => s
  | .simple assigned words rs, s =>
    if s.stopped.isSome then s
    else
      let (s, fields) := allFields nested s words
      if fields.isEmpty then
        let s := if words.isEmpty then assignAll nested { s with status := 0 } assigned else s
        withRedirects nested input rs (fun _ s => s) s
      else heedFailure (withRedirects nested input rs (fun input s => callCommand nested input s fields) s)
  | .group c, s => if s.stopped.isSome then s else heedFailure (rejoin s (run nested input c s))
  | .redirected c rs, s => if s.stopped.isSome then s else withRedirects nested input rs (fun input s => run nested input c s) s
  | .pipe a b, s =>
    if s.stopped.isSome then s
    else
      let first := rejoin s (run nested input a { s with stdout := .empty })
      let second := run nested first.stdout b { first with stdout := s.stdout, stopped := none }
      heedFailure (rejoin s second)
  | .not c, s =>
    let ended := run nested input c { s with strict := false }
    let ended := { ended with strict := s.strict }
    if ended.stopped.isSome then ended else { ended with status := if ended.status == 0 then 1 else 0 }
  | .and a b, s =>
    let tested := { run nested input a { s with strict := false } with strict := s.strict }
    if tested.status == 0 then run nested input b tested else tested
  | .or a b, s =>
    let tested := { run nested input a { s with strict := false } with strict := s.strict }
    if tested.status == 0 then tested else run nested input b tested
  | .seq a b, s => run nested input b (run nested input a s)
  | .cond test yes no, s =>
    let tested := { run nested input test { s with strict := false } with strict := s.strict }
    if tested.stopped.isSome then tested
    else if tested.status == 0 then run nested input yes tested
    else run nested input no { tested with status := 0 }
  | .loop until_ test body, s =>
    let step (s : State) : State × Bool :=
      let tested := { run nested input test { s with strict := false } with strict := s.strict }
      if tested.stopped.isSome then (tested, true)
      else if (tested.status == 0) == until_ then ({ tested with status := s.status }, true)
      else
        let ended := run nested input body tested
        (ended, ended.stopped.isSome)
    if s.stopped.isSome then s else repeatStep step 100000 { s with status := 0 }
  | .forEach name items body, s =>
    if s.stopped.isSome then s
    else
      let (s, fields) := allFields nested { s with status := 0 } items
      fields.foldl (fun s v => if s.stopped.isSome then s else run nested input body (s.assign (String.ofList name) v)) s

/-- Runs a line in a state; `fuel` bounds how deeply lines are nested. -/
def runNested : Nat → Nested
  | 0, s, _ => s
  | fuel + 1, s, line =>
    match parse line with
    | .ok c => run (runNested fuel) .empty c s
    | .error f =>
      { s with status := 2, stopped := some .exit
               stderr := s.stderr ++ Bytes.ofText ("sh: 1: Syntax error: " ++ f.message ++ "\n") }

/-- Runs a command line in a directory. -/
def runLine (tree : Tree) (cwd : Path) (line : String) : State :=
  runNested (line.length + 1) { tree, cwd } line.toList

end Refactor.Shell
