import Refactor.Text.Basic

/-!
# Command lines

The commands that check a workspace after an apply are written for a shell. This is their syntax: words
with quotes, parameters and nested command lines, redirections, pipelines, lists joined by `;`, `&&` and
`||`, and the compound commands `if`, `for`, `while` and `until`.

* `Shell.tokens` — words and operators
* `Shell.parse` — a list of commands
-/

namespace Refactor.Shell

/-! ## Tokens -/

/-- Pieces of a word, each with whether quotes stand around it. -/
inductive Piece where
  | text (cs : List Char) (quoted : Bool)
  /-- the value of a parameter -/
  | param (name : List Char) (quoted : Bool)
  /-- what a nested command line writes -/
  | output (line : List Char) (quoted : Bool)
deriving DecidableEq, Repr

inductive Token where
  | word (pieces : List Piece)
  | op (s : String)
  /-- the descriptor that a redirection concerns, and its operator -/
  | redirect (fd : Nat) (op : String)
deriving DecidableEq, Repr

/-- Why a line is no command line. -/
inductive SyntaxFault where
  | openQuote
  | openBackquote
  | openBrace
  /-- something else stands, or nothing, where a certain word may be expected -/
  | unexpected (what : String) (expected : Option String)
deriving DecidableEq, Repr

def SyntaxFault.message : SyntaxFault → String
  | .openQuote => "Unterminated quoted string"
  | .openBackquote => "EOF in backquote substitution"
  | .openBrace => "Missing '\x7d'"
  | .unexpected what none => what ++ " unexpected"
  | .unexpected what (some w) => what ++ " unexpected (expecting \"" ++ w ++ "\")"

/-- The end of the line where something has to follow. -/
def endOfFile (expected : Option String) : SyntaxFault := .unexpected "end of file" expected

/-- Adds characters to a word, joining texts. -/
def addText (quoted : Bool) (cs : List Char) : List Piece → List Piece
  | .text ds q :: rest => if q == quoted then .text (ds ++ cs) q :: rest else .text cs quoted :: .text ds q :: rest
  | pieces => .text cs quoted :: pieces

/-- The number of characters before the parenthesis that closes a nested command line; `q` is the open
quote, and `skip` characters are protected. -/
def nestedLength (q : Option Char) (depth skip n : Nat) : List Char → Option Nat
  | [] => none
  | c :: cs =>
    if 0 < skip then nestedLength q depth (skip - 1) (n + 1) cs
    else match q with
      | some d =>
        if c == d then nestedLength none depth 0 (n + 1) cs
        else nestedLength q depth (if c == '\\' && d == '"' then 1 else 0) (n + 1) cs
      | none =>
        if c == '\'' || c == '"' then nestedLength (some c) depth 0 (n + 1) cs
        else if c == '\\' then nestedLength none depth 1 (n + 1) cs
        else if c == '(' then nestedLength none (depth + 1) 0 (n + 1) cs
        else if c == ')' then
          match depth with
          | 0 => some n
          | d + 1 => nestedLength none d 0 (n + 1) cs
        else nestedLength none depth 0 (n + 1) cs

/-- A piece after a dollar sign, with the number of characters it takes; a plain dollar sign has none. -/
def afterDollar (quoted : Bool) (cs : List Char) : Except SyntaxFault (Option (Piece × Nat)) :=
  match cs with
  | '(' :: rest =>
    match nestedLength none 0 0 0 rest with
    | some n => .ok (some (.output (rest.take n) quoted, n + 2))
    | none => .error (endOfFile (some ")"))
  | '{' :: rest =>
    let name := rest.takeWhile (· != '}')
    if name.length == rest.length then .error .openBrace else .ok (some (.param name quoted, name.length + 2))
  | c :: _ =>
    if "$?#@*!-".toList.contains c || c.isDigit then .ok (some (.param [c] quoted, 1))
    else
      let name := cs.takeWhile fun c => c.isAlphanum || c == '_'
      .ok (if name.isEmpty then none else some (.param name quoted, name.length))
  | [] => .ok none

/-- A nested command line between backquotes, with the number of characters up to the closing one. -/
def backquoted (skip : Bool) (line : List Char) (n : Nat) : List Char → Option (List Char × Nat)
  | [] => none
  | c :: cs =>
    if skip then
      let kept := if c == '\x60' || c == '\\' || c == '$' then [c] else ['\\', c]
      backquoted false (line ++ kept) (n + 1) cs
    else if c == '\x60' then some (line, n + 1)
    else if c == '\\' then backquoted true line (n + 1) cs
    else backquoted false (line ++ [c]) (n + 1) cs

/-- How the characters of a word are read. -/
inductive Quoting where
  | none | single | double
deriving DecidableEq, Repr

/-- The word being read, last piece first. -/
abbrev Pending := Option (List Piece)

/-- Closes the word being read. -/
def flush (word : Pending) (done : List Token) : List Token :=
  match word with
  | some pieces => .word pieces.reverse :: done
  | none => done

/-- The descriptor in front of a redirection: a digit directly before it. -/
def descriptor (word : Pending) (default : Nat) : Pending × Nat :=
  match word with
  | some [.text [c] false] => if c.isDigit then (none, c.toNat - 48) else (word, default)
  | _ => (word, default)

/-- The operators, longer ones first. -/
def operators : List String := ["&&", "||", ";", "|", "(", ")", "&", "\n"]

/-- The redirections, longer ones first, with the descriptor that each concerns by itself. -/
def redirections : List (String × Nat) :=
  [(">>", 1), (">&", 1), (">|", 1), (">", 1), ("<&", 0), ("<", 0)]

/-- Reads tokens; `skip` characters are already taken. -/
def tokensFrom (q : Quoting) (skip : Nat) (word : Pending) (done : List Token) :
    List Char → Except SyntaxFault (List Token)
  | [] => if q == .none then .ok (flush word done).reverse else .error .openQuote
  | c :: cs =>
    match skip with
    | k + 1 => tokensFrom q k word done cs
    | 0 =>
      let here := word.getD []
      let quoted := q != .none
      if q == .single then
        if c == '\'' then tokensFrom .none 0 (some here) done cs
        else tokensFrom q 0 (some (addText true [c] here)) done cs
      else if c == '$' then
        match afterDollar quoted cs with
        | .error f => .error f
        | .ok none => tokensFrom q 0 (some (addText quoted [c] here)) done cs
        | .ok (some (piece, n)) => tokensFrom q n (some (piece :: here)) done cs
      else if c == '\x60' then
        match backquoted false [] 0 cs with
        | some (line, n) => tokensFrom q n (some (.output line quoted :: here)) done cs
        | none => .error .openBackquote
      else if q == .double then
        if c == '"' then tokensFrom .none 0 (some here) done cs
        else if c == '\\' && cs.head?.any "\"\\$\x60".toList.contains then
          tokensFrom q 1 (some (addText true (cs.take 1) here)) done cs
        else tokensFrom q 0 (some (addText true [c] here)) done cs
      else if c == '\'' then tokensFrom .single 0 (some (addText true [] here)) done cs
      else if c == '"' then tokensFrom .double 0 (some (addText true [] here)) done cs
      else if c == '\\' then
        if cs.head? == some '\n' then tokensFrom q 1 word done cs
        else tokensFrom q 1 (some (addText true (if cs.isEmpty then [c] else cs.take 1) here)) done cs
      else if c == ' ' || c == '\t' then tokensFrom q 0 none (flush word done) cs
      else if c == '#' && word.isNone then tokensFrom q (cs.takeWhile (· != '\n')).length none done cs
      else
        let startsHere (s : String) : Bool := s.toList.isPrefixOf (c :: cs)
        match redirections.find? fun r => startsHere r.1 with
        | some (op, fd) =>
          let (word, fd) := descriptor word fd
          tokensFrom q (op.length - 1) none (.redirect fd op :: flush word done) cs
        | none =>
          match operators.find? startsHere with
          | some op => tokensFrom q (op.length - 1) none (.op op :: flush word done) cs
          | none => tokensFrom q 0 (some (addText false [c] here)) done cs

/-- The tokens of a command line. -/
def tokens (line : List Char) : Except SyntaxFault (List Token) := tokensFrom .none 0 none [] line

/-! ## Commands -/

/-- Where a descriptor goes. -/
structure Redirect where
  fd : Nat
  op : String
  target : List Piece
deriving DecidableEq, Repr

inductive Command where
  | simple (assigned : List (List Char × List Piece)) (words : List (List Piece)) (redirects : List Redirect)
  /-- a shell of its own -/
  | group (body : Command)
  | redirected (body : Command) (redirects : List Redirect)
  | pipe (first second : Command)
  | not (body : Command)
  | and (first second : Command)
  | or (first second : Command)
  | seq (first second : Command)
  | cond (test yes no : Command)
  /-- repeats the body while the test succeeds, or until it does -/
  | loop (until_ : Bool) (test body : Command)
  | forEach (name : List Char) (items : List (List Piece)) (body : Command)
  | skip
deriving DecidableEq, Repr

/-- The text of a word without quotes and parameters. -/
def plainWord? : Token → Option String
  | .word [.text cs false] => some (String.ofList cs)
  | _ => none

/-- Words that end a list of commands. -/
def closers : List String := ["then", "elif", "else", "fi", "do", "done", "\x7d"]

/-- Whether a token ends a list of commands. -/
def closes (t : Token) : Bool := t == .op ")" || (plainWord? t).any closers.contains

/-- Words that have a meaning of their own at the start of a command. -/
def reserved : List String := closers ++ ["if", "for", "while", "until", "\x7b", "!"]

/-- Complains about the next token. -/
def refuse {α : Type} (ts : List Token) (expected : Option String) : Except SyntaxFault α :=
  .error (match ts with
    | [] => endOfFile expected
    | .op "\n" :: _ => .unexpected "newline" expected
    | .op s :: _ => .unexpected ("\"" ++ s ++ "\"") expected
    | .redirect .. :: _ => .unexpected "redirection" expected
    | t :: _ =>
      match plainWord? t with
      | some w => .unexpected (if reserved.contains w then "\"" ++ w ++ "\"" else "word") expected
      | none => .unexpected "word" expected)

/-- A parser over tokens. -/
abbrev Reader := List Token → Except SyntaxFault (Command × List Token)

/-- Takes a word that has to stand here. -/
def expect (w : String) : List Token → Except SyntaxFault (List Token)
  | t :: rest => if plainWord? t == some w || t == .op w then .ok rest else refuse (t :: rest) (some w)
  | [] => refuse [] (some w)

/-- A list with at least one command. -/
def someOf (list : Reader) : Reader := fun ts => do
  match ← list ts with
  | (.skip, rest) => refuse rest none
  | answer => return answer

/-- The redirections that follow a command. -/
def redirectsOf (rs : List Redirect) : List Token → Except SyntaxFault (List Redirect × List Token)
  | .redirect fd op :: .word w :: rest => redirectsOf (⟨fd, op, w⟩ :: rs) rest
  | .redirect _ _ :: rest => refuse rest none
  | rest => .ok (rs.reverse, rest)

/-- A compound command with the redirections after it. -/
def redirecting (c : Command) (ts : List Token) : Except SyntaxFault (Command × List Token) := do
  match ← redirectsOf [] ts with
  | ([], rest) => return (c, rest)
  | (rs, rest) => return (.redirected c rs, rest)

/-- The name and value that a word assigns. -/
def assignment? : List Piece → Option (List Char × List Piece)
  | .text cs false :: rest =>
    let name := cs.takeWhile fun c => c.isAlphanum || c == '_'
    match cs.drop name.length with
    | '=' :: value =>
      if name.isEmpty || name.head?.any Char.isDigit then none else some (name, .text value false :: rest)
    | _ => none
  | _ => none

/-- The assignments, words and redirections of a simple command. -/
def simpleParts (assigned : List (List Char × List Piece)) (words : List (List Piece)) (rs : List Redirect) : Reader
  | .word w :: rest =>
    match assignment? w, words with
    | some a, [] => simpleParts (a :: assigned) [] rs rest
    | _, _ => simpleParts assigned (w :: words) rs rest
  | .redirect fd op :: .word w :: rest => simpleParts assigned words (⟨fd, op, w⟩ :: rs) rest
  | .redirect _ _ :: rest => refuse rest none
  | rest => .ok (.simple assigned.reverse words.reverse rs.reverse, rest)

/-- What follows the condition of an `if`. -/
def readBranches (list : Reader) : Nat → Reader
  | 0, ts => refuse ts none
  | n + 1, ts => do
    let (test, rest) ← someOf list ts
    let (yes, rest) ← someOf list (← expect "then" rest)
    match rest.head?.bind plainWord? with
    | some "elif" => do
      let (no, rest) ← readBranches list n (rest.drop 1)
      return (.cond test yes no, rest)
    | some "else" => do
      let (no, rest) ← someOf list (rest.drop 1)
      return (.cond test yes no, ← expect "fi" rest)
    | _ => return (.cond test yes .skip, ← expect "fi" rest)

/-- The body of a loop. -/
def readBody (list : Reader) : Reader := fun ts => do
  let (body, rest) ← someOf list (← expect "do" ts)
  return (body, ← expect "done" rest)

/-- The words of a `for`, and what follows the separator after them. -/
def readItems (items : List (List Piece)) : List Token → List (List Piece) × List Token
  | .word w :: rest => readItems (w :: items) rest
  | .op ";" :: rest | .op "\n" :: rest => (items.reverse, rest.dropWhile (· == .op "\n"))
  | rest => (items.reverse, rest)

/-- A simple or compound command. -/
def readOne (list : Reader) (ts : List Token) : Except SyntaxFault (Command × List Token) := do
  match ts with
  | .op "(" :: rest =>
    let (body, rest) ← someOf list rest
    redirecting (.group body) (← expect ")" rest)
  | t :: rest =>
    match plainWord? t with
    | some "\x7b" =>
      let (body, rest) ← someOf list rest
      redirecting body (← expect "\x7d" rest)
    | some "if" =>
      let (c, rest) ← readBranches list (ts.length + 1) rest
      redirecting c rest
    | some "while" =>
      let (test, rest) ← someOf list rest
      let (body, rest) ← readBody list rest
      redirecting (.loop false test body) rest
    | some "until" =>
      let (test, rest) ← someOf list rest
      let (body, rest) ← readBody list rest
      redirecting (.loop true test body) rest
    | some "for" =>
      match rest with
      | .word [.text name false] :: rest => do
        let (items, rest) := readItems [] (← expect "in" rest)
        let (body, rest) ← readBody list rest
        redirecting (.forEach name items body) rest
      | _ => refuse rest none
    | _ =>
      if closes t then refuse ts none
      else match t with
        | .op _ => refuse ts none
        | _ => simpleParts [] [] [] ts
  | [] => refuse ts none

/-- Commands joined by bars, after any number of exclamation marks. -/
def readPipe (list : Reader) : Nat → Reader
  | 0, ts => refuse ts none
  | n + 1, ts =>
    if ts.head?.bind plainWord? == some "!" then do
      let (c, rest) ← readPipe list n (ts.drop 1)
      return (.not c, rest)
    else do
      let (c, rest) ← readOne list ts
      match rest with
      | .op "|" :: rest => do
        let (d, rest) ← readPipe list n (rest.dropWhile (· == .op "\n"))
        return (.pipe c d, rest)
      | _ => return (c, rest)

/-- Pipelines joined by `&&` and `||`, from the left. -/
def readChain (list : Reader) : Nat → Command → Reader
  | 0, c, ts => .ok (c, ts)
  | n + 1, c, .op "&&" :: rest => do
    let (d, rest) ← readPipe list (rest.length + 1) (rest.dropWhile (· == .op "\n"))
    readChain list n (.and c d) rest
  | n + 1, c, .op "||" :: rest => do
    let (d, rest) ← readPipe list (rest.length + 1) (rest.dropWhile (· == .op "\n"))
    readChain list n (.or c d) rest
  | _ + 1, c, ts => .ok (c, ts)

/-- Lists of chains; the first argument bounds their number and nesting. -/
def readList : Nat → Reader
  | 0, ts => refuse ts none
  | _ + 1, [] => .ok (.skip, [])
  | n + 1, .op "\n" :: rest => readList n rest
  | n + 1, t :: rest =>
    if closes t then .ok (.skip, t :: rest)
    else do
      let (c, rest) ← readPipe (readList n) (rest.length + 2) (t :: rest)
      let (c, rest) ← readChain (readList n) (rest.length + 1) c rest
      match rest with
      | .op ";" :: rest | .op "&" :: rest | .op "\n" :: rest => do
        let (d, rest) ← readList n rest
        return (.seq c d, rest)
      | _ => return (c, rest)

/-- The commands of a command line. -/
def parse (line : List Char) : Except SyntaxFault Command := do
  let ts ← tokens line
  match ← readList (ts.length + 1) ts with
  | (c, []) => return c
  | (_, rest) => refuse rest none

end Refactor.Shell
