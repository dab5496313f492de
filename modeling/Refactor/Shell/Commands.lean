import Refactor.Shell.Search

/-!
# Commands

The commands that a command line may call, each a function of the state, the input and the arguments.

* `Shell.condition` — what `test` decides
* `Shell.builtin` — a command by its name
-/

namespace Refactor.Shell

/-! ## Texts -/

/-- The value of up to three octal digits, and the rest. -/
def octal (cs : List Char) : Nat × List Char :=
  let ds := (cs.take 3).takeWhile fun c => '0' ≤ c && c ≤ '7'
  (ds.foldl (fun n c => n * 8 + (c.toNat - 48)) 0, cs.drop ds.length)

/-- A text with its backslash escapes replaced. -/
def unescape : Nat → List Char → List UInt8
  | 0, _ => []
  | _ + 1, [] => []
  | n + 1, '\\' :: c :: cs =>
    match c with
    | 'n' => 10 :: unescape n cs
    | 't' => 9 :: unescape n cs
    | 'r' => 13 :: unescape n cs
    | 'a' => 7 :: unescape n cs
    | 'b' => 8 :: unescape n cs
    | 'f' => 12 :: unescape n cs
    | 'v' => 11 :: unescape n cs
    | '\\' => 92 :: unescape n cs
    | _ =>
      if '0' ≤ c && c ≤ '7' then
        let (v, rest) := octal (c :: cs)
        v.toUInt8 :: unescape n rest
      else 92 :: String.utf8EncodeChar c ++ unescape n cs
  | n + 1, c :: cs => String.utf8EncodeChar c ++ unescape n cs

def bytes (bs : List UInt8) : ByteArray := ⟨bs.toArray⟩

/-- A text brought to a width by blanks. -/
def padded (left : Bool) (width : Nat) (bs : List UInt8) : List UInt8 :=
  let blanks := List.replicate (width - bs.length) 32
  if left then bs ++ blanks else blanks ++ bs

/-- One pass over a format with its arguments; the second part holds the arguments left. -/
def format : Nat → List Char → List String → List UInt8 × List String
  | 0, _, args => ([], args)
  | _ + 1, [], args => ([], args)
  | n + 1, '%' :: '%' :: cs, args =>
    let (bs, args) := format n cs args
    (37 :: bs, args)
  | n + 1, '%' :: cs, args =>
    let left := cs.head? == some '-'
    let spec := if left then cs.drop 1 else cs
    let width := spec.takeWhile Char.isDigit
    match spec.drop width.length with
    | c :: rest =>
      if c == 's' || c == 'd' || c == 'i' || c == 'b' then
        let value := args.headD (if c == 's' || c == 'b' then "" else "0")
        let (bs, left') := format n rest (args.drop 1)
        let digits := width.foldl (fun n c => n * 10 + (c.toNat - 48)) 0
        (padded left digits (Bytes.ofText value).toList ++ bs, left')
      else
        let (bs, args) := format n cs args
        (37 :: bs, args)
    | [] => ([37], args)
  | n + 1, '\\' :: c :: cs, args =>
    let taken := if '0' ≤ c && c ≤ '7' then (octal (c :: cs)).2 else cs
    let here := unescape 2 ('\\' :: (c :: cs).take ((c :: cs).length - taken.length))
    let (bs, args) := format n taken args
    (here ++ bs, args)
  | n + 1, c :: cs, args =>
    let (bs, args) := format n cs args
    (String.utf8EncodeChar c ++ bs, args)

/-- The format again as long as there are arguments. -/
def formatAll (cs : List Char) : Nat → List String → List UInt8
  | 0, _ => []
  | n + 1, args =>
    let (bs, rest) := format (cs.length + 1) cs args
    if rest.isEmpty || rest.length == args.length then bs else bs ++ formatAll cs n rest

/-! ## Conditions -/

/-- A whole number with its sign. -/
def number (a : String) : Except String Int :=
  match (trimmed a).toInt? with
  | some n => .ok n
  | none => .error ("Illegal number: " ++ a)

/-- What a flag says about one argument. -/
def unary? (s : State) (flag a : String) : Option Bool :=
  let p := s.at a
  match flag with
  | "-f" => some (s.tree.exists? p && !s.tree.isDir p)
  | "-d" | "-x" => some (s.tree.isDir p)
  | "-e" | "-r" | "-w" => some (s.tree.exists? p)
  | "-s" => some (s.tree.isDir p || (s.tree.read p).toOption.any fun b => b.size > 0)
  | "-L" | "-h" => some (s.tree.isLink p)
  | "-z" => some (a == "")
  | "-n" => some (a != "")
  | _ => none

/-- What an operator says about two arguments. -/
def binary? (a op b : String) : Option (Except String Bool) :=
  let numbers (f : Int → Int → Bool) : Option (Except String Bool) := some do return f (← number a) (← number b)
  match op with
  | "=" => some (.ok (a == b))
  | "!=" => some (.ok (a != b))
  | "-eq" => numbers fun x y => x == y
  | "-ne" => numbers fun x y => x != y
  | "-lt" => numbers fun x y => x < y
  | "-le" => numbers fun x y => x ≤ y
  | "-gt" => numbers fun x y => x > y
  | "-ge" => numbers fun x y => x ≥ y
  | _ => none

/-- The arguments before and after the first one that is `word`. -/
def splitAtWord? (word : String) (args : List String) : Option (List String × List String) :=
  let front := args.takeWhile (· != word)
  if front.length == args.length || front.isEmpty then none else some (front, args.drop (front.length + 1))

/-- A condition of `test`, or why it is none. -/
def condition (s : State) : Nat → List String → Except String Bool
  | 0, _ => .ok false
  | _ + 1, [] => .ok false
  | _ + 1, [a] => .ok (a != "")
  | n + 1, [a, b] =>
    if a == "!" then return !(← condition s n [b])
    else match unary? s a b with
      | some v => .ok v
      | none => .error (a ++ ": unexpected operator")
  | n + 1, a :: b :: c :: rest =>
    match rest, binary? a b c with
    | [], some v => v
    | _, _ =>
      match splitAtWord? "-o" (a :: b :: c :: rest) with
      | some (front, back) => return (← condition s n front) || (← condition s n back)
      | none =>
        match splitAtWord? "-a" (a :: b :: c :: rest) with
        | some (front, back) => return (← condition s n front) && (← condition s n back)
        | none =>
          if a == "!" then return !(← condition s n (b :: c :: rest))
          else .error (b ++ ": unexpected operator")

/-- The answer of `test` under one of its names. -/
def testing (s : State) (name : String) (args : List String) : Output :=
  match condition s (args.length + 1) args with
  | .ok true => {}
  | .ok false => { status := 1 }
  | .error m => .fail 2 ("sh: 1: " ++ name ++ ": " ++ m)

/-! ## Files -/

/-- The contents of files one after the other. -/
def catenate (s : State) (input : ByteArray) (files : List String) : Output :=
  (readFiles "cat" s input files).foldl (fun acc (_, content) =>
    acc.andThen (match content with
      | .ok b => { out := b }
      | .error o => o)) {}

/-- Applies a change to each of several paths, in order; a failure is reported and the rest goes on. -/
def each (name : String) (s : State) (f : Tree → Path → Except SystemFault Tree) : List String → State × Output
  | [] => (s, {})
  | a :: rest =>
    match f s.tree (s.at a) with
    | .ok t => each name { s with tree := t } f rest
    | .error e =>
      let (s, later) := each name s f rest
      (s, (Output.fail 1 (name ++ " '" ++ a ++ "': " ++ faultText e)).andThen later)

/-- Creates an empty file where there is none. -/
def touch (t : Tree) (p : Path) : Except SystemFault Tree := if t.exists? p then .ok t else t.write p .empty

/-- Removes a file, or a whole directory. -/
def remove (recursive force : Bool) (t : Tree) (p : Path) : Except SystemFault Tree :=
  match t.entry false p with
  | .error .notFound => if force then .ok t else .error .notFound
  | .error e => .error e
  | .ok (place, .dir) =>
    if recursive then .ok ⟨t.entries.filter fun (q, _) => !place.isPrefixOf q⟩ else .error .isDirectory
  | .ok (place, _) => .ok (t.erase place)

/-- The destination of a move or copy: a directory takes the name of the source. -/
def destination (s : State) (source dest : String) : Path :=
  let d := s.at dest
  if s.tree.isDir d then d.join ⟨((s.at source).fileName?).getD ""⟩ else d

/-- Moves or copies one file. -/
def transfer (s : State) (name : String) (f : Tree → Path → Path → Except SystemFault Tree) (operands : List String) :
    State × Output :=
  match operands with
  | [] => (s, .fail 1 (name ++ ": missing file operand\nTry '" ++ name ++ " --help' for more information."))
  | [a] =>
    (s, .fail 1 (name ++ ": missing destination file operand after '" ++ a ++ "'\nTry '" ++ name ++
      " --help' for more information."))
  | a :: b :: _ =>
    match f s.tree (s.at a) (destination s a b) with
    | .ok t => ({ s with tree := t }, {})
    | .error e => (s, .fail 1 (name ++ ": cannot stat '" ++ a ++ "': " ++ faultText e))

/-- The names in a directory. -/
def list (s : State) (flags : List Char) (operand : String) : Output :=
  match s.tree.entry true (s.at operand) with
  | .ok (place, .dir) =>
    let names := (s.tree.children place).map (·.1)
    let shown := if flags.contains 'a' then "." :: ".." :: names
      else if flags.contains 'A' then names
      else names.filter fun n => !startsWith n "."
    .say (joinLines shown)
  | .ok _ => .say (operand ++ "\n")
  | .error e => .fail 2 ("ls: cannot access '" ++ operand ++ "': " ++ faultText e)

/-- Numbers of lines, words and bytes. -/
def counts (b : ByteArray) : List (Char × Nat) :=
  let cs := (Bytes.lossyText b).toList
  [('l', cs.count '\n'), ('w', (cs.splitOnP Text.isAsciiBlank |>.filter (!·.isEmpty)).length), ('c', b.size)]

/-- Counts lines, words and bytes of one input. -/
def count (s : State) (input : ByteArray) (flags : List Char) (files : List String) : Output :=
  (readFiles "wc" s input files).foldl (fun acc (f, content) =>
    acc.andThen (match content with
      | .error o => o
      | .ok b =>
        let shown := (counts b).filter fun (c, _) => flags.isEmpty || flags.contains c
        let width := if f == "-" && shown.length > 1 then 7 else (toString b.size).length
        let column (n : Nat) : String :=
          if shown.length == 1 then toString n
          else String.ofList (List.replicate (width - (toString n).length) ' ') ++ toString n
        .say (joinWith " " (shown.map fun (_, n) => column n) ++ (if f == "-" then "" else " " ++ f) ++ "\n"))) {}

/-- The number of lines that `head` and `tail` show, and their files. -/
def lineCount : List String → Nat × List String
  | "-n" :: n :: files => (n.toNat?.getD 10, files)
  | a :: files =>
    match (afterLead? a "-n").or (afterLead? a "-") with
    | some n => (n.toNat?.getD 10, files)
    | none => (10, a :: files)
  | [] => (10, [])

/-- Shows some lines of a file. -/
def someLines (name : String) (s : State) (input : ByteArray) (args : List String)
    (pick : Nat → List String → List String) : Output :=
  let (n, files) := lineCount args
  (readFiles name s input files).foldl (fun acc (_, content) =>
    acc.andThen (match content with
      | .error o => o
      | .ok b => .say (joinLines (pick n (linesOf b))))) {}

/-- The lines of files in the order of their characters. -/
def sortLines (s : State) (input : ByteArray) (flags : List Char) (files : List String) : Output :=
  let all := (readFiles "sort" s input files).flatMap fun (_, content) =>
    match content with
    | .ok b => linesOf b
    | .error _ => []
  let sorted := all.mergeSort fun a b => !(b < a)
  let sorted := if flags.contains 'u' then sorted.eraseDups else sorted
  .say (joinLines (if flags.contains 'r' then sorted.reverse else sorted))

/-! ## All commands -/

/-- Names of the commands that are files, and of those that the shell itself knows. -/
def programs : List String :=
  ["cat", "touch", "rm", "rmdir", "mkdir", "mv", "cp", "ls", "grep", "wc", "head", "tail", "sort", "sleep"]

def ownCommands : List String := [":", "true", "false", "echo", "printf", "exit", "kill", "test", "[", "pwd", "cd"]

/-- The name of a command without the directory that holds all commands. -/
def baseName (name : String) : String := ((afterLead? name "/bin/").or (afterLead? name "/usr/bin/")).getD name

/-- The answer to the name of no command. -/
def unknown (s : State) (name : String) : Output :=
  if name.toList.contains '/' && s.tree.exists? (s.at name) then
    .fail 126 ("sh: 1: " ++ name ++ ": Permission denied")
  else .fail 127 ("sh: 1: " ++ name ++ ": not found")

/-- Ends the shell. -/
def leave (s : State) (name : String) (args : List String) : State × Output :=
  let ended := { s with stopped := some .exit }
  match args.head? with
  | none => (ended, { status := s.status })
  | some a =>
    match a.toNat? with
    | some n => (ended, { status := n % 256 })
    | none => (ended, .fail 2 ("sh: 1: " ++ name ++ ": Illegal number: " ++ a))

/-- Runs a simple command. -/
def builtin (s : State) (input : ByteArray) (name : String) (args : List String) : State × Output :=
  let (flags, operands) := splitFlags args
  match baseName name with
  | "true" | ":" => (s, {})
  | "false" => (s, { status := 1 })
  | "echo" =>
    let (newline, words) := if args.head? == some "-n" then (false, args.drop 1) else (true, args)
    let text := (joinWith " " words).toList
    (s, { out := bytes (unescape (text.length + 1) text ++ if newline then [10] else []) })
  | "printf" =>
    match args with
    | f :: rest => (s, { out := bytes (formatAll f.toList (rest.length + 1) rest) })
    | [] => (s, .fail 2 "sh: 1: printf: usage: printf format [arg ...]")
  | "exit" => leave s "exit" args
  | "return" => leave s "return" args
  | "kill" =>
    if !operands.contains ownId then (s, .fail 1 "sh: 1: kill: No such process")
    else if flags == ['0'] then (s, {})
    else ({ s with stopped := some .killed }, { status := 137 })
  | "sleep" => ({ s with sleptSeconds := operands.foldl (fun n a => n + (a.toNat?).getD 0) s.sleptSeconds }, {})
  | "test" => (s, testing s "test" args)
  | "[" =>
    if args.getLast? == some "]" then (s, testing s "[" args.dropLast) else (s, .fail 2 "sh: 1: [: missing ]")
  | "pwd" => (s, .say (s.cwd.raw ++ "\n"))
  | "cd" =>
    let d := (s.at (operands.headD "/")).normalize
    if s.tree.isDir d then ({ s with cwd := d }, {})
    else (s, .fail 2 ("sh: 1: cd: can't cd to " ++ operands.headD "/"))
  | "export" =>
    (operands.foldl (fun s a => match Text.splitOnce? ['='] a.toList with
      | some (n, v) => s.assign (String.ofList n) (String.ofList v)
      | none => s) s, {})
  | "unset" => ({ s with vars := s.vars.filter fun (n, _) => !operands.contains n }, {})
  | "set" => ({ s with strict := s.strict || flags.contains 'e' }, {})
  | "command" =>
    match flags, operands with
    | ['v'], n :: _ =>
      if ownCommands.contains n then (s, .say (n ++ "\n"))
      else if programs.contains n then (s, .say ("/usr/bin/" ++ n ++ "\n"))
      else (s, { status := 127 })
    | _, _ => (s, {})
  | "cat" => (s, catenate s input operands)
  | "touch" => each "touch: cannot touch" s touch operands
  | "rm" => each "rm: cannot remove" s (remove (flags.contains 'r' || flags.contains 'R') (flags.contains 'f')) operands
  | "rmdir" => each "rmdir: failed to remove" s Tree.removeDir operands
  | "mkdir" => each "mkdir: cannot create directory" s (if flags.contains 'p' then Tree.makeDirs else Tree.makeDir) operands
  | "mv" => transfer s "mv" Tree.rename operands
  | "cp" => transfer s "cp" (fun t a b => (t.read a).bind fun c => t.write b c) operands
  | "ls" => (s, (if operands.isEmpty then ["."] else operands).foldl (fun acc a => acc.andThen (list s flags a)) {})
  | "grep" => (s, search s input args)
  | "wc" => (s, count s input flags operands)
  | "head" => (s, someLines "head" s input args List.take)
  | "tail" => (s, someLines "tail" s input args fun n ls => ls.drop (ls.length - n))
  | "sort" => (s, sortLines s input flags operands)
  | _ => (s, unknown s name)

end Refactor.Shell
