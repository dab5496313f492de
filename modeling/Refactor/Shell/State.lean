import Refactor.Disk.Basic

/-!
# The state of a shell

* `Shell.State` — tree, directory, streams, status, variables and time
* `Shell.Output` — what a command answers
-/

namespace Refactor.Shell

/-- How a shell ends before its last command. -/
inductive Stop where
  | exit | killed
deriving DecidableEq, Repr

structure State where
  tree : Tree
  cwd : Path
  stdout : ByteArray := .empty
  stderr : ByteArray := .empty
  status : Nat := 0
  stopped : Option Stop := none
  sleptSeconds : Nat := 0
  vars : List (String × String) := []
  /-- a failing command ends the shell -/
  strict : Bool := false

/-- What a command answers: its status and what it writes. -/
structure Output where
  status : Nat := 0
  out : ByteArray := .empty
  err : ByteArray := .empty

namespace Output

def say (s : String) : Output := { out := Bytes.ofText s }

def fail (status : Nat) (message : String) : Output := { status, err := Bytes.ofText (message ++ "\n") }

/-- One answer after the other; the higher status counts. -/
def andThen (a b : Output) : Output := ⟨max a.status b.status, a.out ++ b.out, a.err ++ b.err⟩

end Output

/-- The number of the shell itself. -/
def ownId : String := "4242"

/-- A path seen from the directory of the shell. -/
def State.at (s : State) (file : String) : Path := s.cwd.join ⟨file⟩

/-- Gives a variable its value. -/
def State.assign (s : State) (name value : String) : State :=
  { s with vars := (name, value) :: s.vars.filter (·.1 != name) }

/-- The value of a variable. -/
def State.value? (s : State) (name : String) : Option String :=
  match name with
  | "$" => some ownId
  | "?" => some (toString s.status)
  | "#" => some "0"
  | "0" => some "sh"
  | "PWD" => some s.cwd.raw
  | _ => s.vars.lookup name

/-- The message of a command about a file, without the number of the fault. -/
def faultText (f : SystemFault) : String :=
  match Text.splitOnce? " (os".toList f.message.toList with
  | some (a, _) => String.ofList a
  | none => f.message

/-- The lines of a content. -/
def linesOf (b : ByteArray) : List String :=
  let text := (Bytes.lossyText b).toList
  let ls := (text.splitOn '\n').map String.ofList
  if text.getLast?.all (· == '\n') then ls.dropLast else ls

def joinLines (ls : List String) : String := joinWith "" (ls.map (· ++ "\n"))

/-- Flags of a command by their letters, and its operands. -/
def splitFlags (args : List String) : List Char × List String :=
  let isFlag (a : String) : Bool := startsWith a "-" && a != "-"
  ((args.filter isFlag).flatMap fun a => a.toList.drop 1, args.filter fun a => !isFlag a)

/-- Reads files one after the other; without a name, or under the name of a dash, that is the input. -/
def readFiles (name : String) (s : State) (input : ByteArray) (files : List String) :
    List (String × Except Output ByteArray) :=
  (if files.isEmpty then ["-"] else files).map fun f =>
    (f, if f == "-" then .ok input else
      match s.tree.read (s.at f) with
      | .ok b => .ok b
      | .error e => .error (.fail 1 (name ++ ": " ++ f ++ ": " ++ faultText e)))

end Refactor.Shell
