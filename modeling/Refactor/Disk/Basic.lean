import Refactor.Disk.Tree
import Refactor.Error

/-!
# Disks

A disk is a tree together with what may go wrong on it: one write that fails, writes to one path that
are refused, or a cancellation that is raised after some writes.

* `DiskError` — faults of the system and injected ones
* `Disk` — tree, mishap and counters
* `Disk.write`, `Disk.rename` — the counted changes; the others never fail on purpose
-/

namespace Refactor

/-- Why a call failed. -/
inductive DiskError where
  | system (fault : SystemFault)
  /-- the content is no text -/
  | notText (fault : Bytes.Fault)
  /-- a write that fails on purpose -/
  | injected (count : Nat) (path : String)
  /-- writes to the path are refused -/
  | refused (path : String)
deriving DecidableEq, Repr

namespace DiskError

def message : DiskError → String
  | .system f => f.message
  | .notText f => f.message
  | .injected n p => "injected failure on write #" ++ toString n ++ " (" ++ p ++ ")"
  | .refused p => "writes to " ++ p ++ " are refused"

def kind : DiskError → String
  | .system f => f.kind
  | .notText _ => "InvalidData"
  | .injected .. => "Other"
  | .refused _ => "PermissionDenied"

def isNotFound (e : DiskError) : Bool := e == .system .notFound

/-- The error of a request that failed at a path. -/
def at_ (e : DiskError) (p : Path) : Error := .ioAt p.raw e.message

/-- The same, a missing file being an error of its own. -/
def orMissing (e : DiskError) (p : Path) : Error :=
  if e.isNotFound then .fileNotFound p.raw else e.at_ p

end DiskError

/-- What may go wrong. -/
inductive Mishap where
  | none
  /-- the change with this number fails, once -/
  | failOn (count : Nat)
  /-- writes and renames to a path that ends with this one fail -/
  | refuse (path : Path)
  /-- a cancellation is raised when this many changes are done -/
  | cancelAfter (count : Nat)

/-- A tree and the changes made to it so far. -/
structure Disk where
  tree : Tree := {}
  mishap : Mishap := .none
  changes : Nat := 0
  cancelled : Bool := false

namespace Disk

def exists? (d : Disk) (p : Path) : Bool := d.tree.exists? p

def isDir (d : Disk) (p : Path) : Bool := d.tree.isDir p

def isLink (d : Disk) (p : Path) : Bool := d.tree.isLink p

def read (d : Disk) (p : Path) : Except DiskError ByteArray :=
  match d.tree.read p with
  | .ok b => .ok b
  | .error f => .error (.system f)

/-- The text of a file. -/
def readText (d : Disk) (p : Path) : Except DiskError String := do
  let b ← d.read p
  match Bytes.text? b with
  | some s => .ok s
  | none => .error (.notText ((Bytes.fault? b).getD ⟨0, none⟩))

/-- Takes over a changed tree. -/
def settle (d : Disk) : Except SystemFault Tree → Disk × Except DiskError Unit
  | .ok t => ({ d with tree := t }, .ok ())
  | .error f => (d, .error (.system f))

/-- Counts a change before it is made; `refusable` is the path that a refusal looks at and `named` the
one that an injected failure names. -/
def check (d : Disk) (refusable named : Path) : Disk × Except DiskError Unit :=
  let n := d.changes + 1
  match d.mishap with
  | .none | .cancelAfter _ => (d, .ok ())
  | .failOn k => ({ d with changes := n }, if n == k then .error (.injected n named.raw) else .ok ())
  | .refuse p =>
    ({ d with changes := n }, if refusable.endsWith p then .error (.refused refusable.raw) else .ok ())

/-- Counts a change after it is made. -/
def count (d : Disk) : Disk :=
  match d.mishap with
  | .cancelAfter k =>
    { d with changes := d.changes + 1, cancelled := d.cancelled || d.changes + 1 == k }
  | _ => d

/-- A counted change of the tree. -/
def change (d : Disk) (refusable named : Path) (f : Tree → Except SystemFault Tree) : Disk × Except DiskError Unit :=
  match d.check refusable named with
  | (d, .error e) => (d, .error e)
  | (d, .ok ()) =>
    match d.settle (f d.tree) with
    | (d, .ok ()) => (d.count, .ok ())
    | failed => failed

/-- Replaces a file as a whole. -/
def write (d : Disk) (p : Path) (content : ByteArray) : Disk × Except DiskError Unit :=
  d.change p p fun t => t.write p content

def rename (d : Disk) (old new : Path) : Disk × Except DiskError Unit :=
  d.change new old fun t => t.rename old new

def removeFile (d : Disk) (p : Path) : Disk × Except DiskError Unit := d.settle (d.tree.removeFile p)

def makeDirs (d : Disk) (p : Path) : Disk × Except DiskError Unit := d.settle (d.tree.makeDirs p)

def removeDir (d : Disk) (p : Path) : Disk × Except DiskError Unit := d.settle (d.tree.removeDir p)

end Disk

end Refactor
