import Refactor.Disk.Bytes
import Refactor.Path.Basic

/-!
# File trees

A tree maps places to files, directories and symbolic links. A place is the list of names from the top;
the top itself is always a directory. Paths are walked to places the way a file system does it.

* `Tree` — the entries, sorted by place
* `Tree.locate` — the place of a path
* `Tree.read`, `Tree.write`, `Tree.rename`, `Tree.removeFile`, `Tree.makeDirs`, `Tree.removeDir` — the operations
* `Tree.canonical?` — a path with its links resolved
-/

namespace Refactor

/-! ## Faults of the system -/

/-- What a file system call can fail with. -/
inductive SystemFault where
  | notFound | exists | notDirectory | isDirectory | notEmpty | invalid | loop
deriving DecidableEq, Repr

namespace SystemFault

def message : SystemFault → String
  | .notFound => "No such file or directory (os error 2)"
  | .exists => "File exists (os error 17)"
  | .notDirectory => "Not a directory (os error 20)"
  | .isDirectory => "Is a directory (os error 21)"
  | .notEmpty => "Directory not empty (os error 39)"
  | .invalid => "Invalid argument (os error 22)"
  | .loop => "Too many levels of symbolic links (os error 40)"

/-- The name of the sort of fault. -/
def kind : SystemFault → String
  | .notFound => "NotFound"
  | .exists => "AlreadyExists"
  | .notDirectory => "NotADirectory"
  | .isDirectory => "IsADirectory"
  | .notEmpty => "DirectoryNotEmpty"
  | .invalid => "InvalidInput"
  | .loop => "FilesystemLoop"

end SystemFault

/-! ## Trees -/

/-- Names from the top of a tree downwards. -/
abbrev Place := List String

/-- What stands at a place. -/
inductive Entry where
  | file (content : ByteArray)
  | dir
  | link (target : String)
deriving DecidableEq

/-- Entries by place, sorted name by name. -/
structure Tree where
  entries : List (Place × Entry) := []
deriving DecidableEq, Inhabited

namespace Tree

/-- The order of places, name by name. -/
def cmpPlace : Place → Place → Ordering
  | [], [] => .eq
  | [], _ :: _ => .lt
  | _ :: _, [] => .gt
  | a :: as, b :: bs => (compareOfLessAndEq a b).then (cmpPlace as bs)

/-- The entry at a place; the top is a directory. -/
def get? (t : Tree) (p : Place) : Option Entry :=
  match p with
  | [] => some .dir
  | _ => t.entries.lookup p

/-- Puts an entry among sorted ones. -/
def insertEntry (p : Place) (e : Entry) : List (Place × Entry) → List (Place × Entry)
  | [] => [(p, e)]
  | (q, f) :: rest =>
    match cmpPlace p q with
    | .lt => (p, e) :: (q, f) :: rest
    | .eq => (p, e) :: rest
    | .gt => (q, f) :: insertEntry p e rest

def set (t : Tree) (p : Place) (e : Entry) : Tree := ⟨insertEntry p e t.entries⟩

def erase (t : Tree) (p : Place) : Tree := ⟨t.entries.filter (·.1 != p)⟩

/-- The entries directly inside a directory, sorted by name. -/
def children (t : Tree) (dir : Place) : List (String × Entry) :=
  t.entries.filterMap fun (p, e) =>
    match p.getLast? with
    | some name => if p.dropLast == dir then some (name, e) else none
    | none => none

/-! ## From paths to places -/

/-- The segments of a path to walk; a slash at the end asks for a directory. -/
def steps (raw : String) : List String :=
  let names := ((raw.toList.splitOn '/').map String.ofList).filter (· != "")
  if endsWith raw "/" then names ++ ["."] else names

/-- Walks names from a directory; `fuel` bounds the links and names together. -/
def walk (t : Tree) (follow : Bool) : Nat → Nat → Place → List String → Except SystemFault Place
  | 0, _, _, _ => .error .loop
  | _ + 1, _, here, [] => .ok here
  | fuel + 1, links, here, name :: rest =>
    if name == "." then walk t follow fuel links here rest
    else if name == ".." then walk t follow fuel links here.dropLast rest
    else
      let next := here ++ [name]
      match t.get? next with
      | none => if rest.isEmpty then .ok next else .error .notFound
      | some (.file _) => if rest.isEmpty then .ok next else .error .notDirectory
      | some .dir => walk t follow fuel links next rest
      | some (.link target) =>
        if rest.isEmpty && !follow then .ok next
        else if links ≥ 40 then .error .loop
        else if target == "" then .error .notFound
        else walk t follow fuel (links + 1) (if startsWith target "/" then [] else here) (steps target ++ rest)

/-- The place of a path, which may be free; every directory on the way is there. With `follow` a link at
the end is followed too. -/
def locate (t : Tree) (follow : Bool) (p : Path) : Except SystemFault Place :=
  if p.raw == "" then .error .notFound
  else
    let names := steps p.raw
    let longest := (t.entries.map fun (_, e) => match e with | .link s => s.length | _ => 0).foldl max 0
    walk t follow (names.length + 41 * (longest + 2)) 0 [] names

/-- The place and entry of a path that is there. -/
def entry (t : Tree) (follow : Bool) (p : Path) : Except SystemFault (Place × Entry) := do
  let place ← t.locate follow p
  match t.get? place with
  | some e => .ok (place, e)
  | none => .error .notFound

/-! ## Looking -/

def exists? (t : Tree) (p : Path) : Bool := (t.entry true p).isOk

def isDir (t : Tree) (p : Path) : Bool :=
  match t.entry true p with
  | .ok (_, .dir) => true
  | _ => false

/-- Whether a path itself is a link, wherever it points. -/
def isLink (t : Tree) (p : Path) : Bool :=
  match t.entry false p with
  | .ok (_, .link _) => true
  | _ => false

def read (t : Tree) (p : Path) : Except SystemFault ByteArray :=
  match t.entry true p with
  | .ok (_, .file content) => .ok content
  | .ok (_, .dir) => .error .isDirectory
  | .ok (_, .link _) => .error .loop
  | .error e => .error e

/-- The path of a place. -/
def pathOf (p : Place) : Path := ⟨"/" ++ joinWith "/" p⟩

/-- A path that is there with its links resolved. -/
def canonical? (t : Tree) (p : Path) : Except SystemFault Path := do
  let (place, _) ← t.entry true p
  return pathOf place

/-! ## Changing -/

/-- Puts content into a file; a link at the path is followed. -/
def overwrite (t : Tree) (p : Path) (content : ByteArray) : Except SystemFault Tree := do
  let place ← t.locate true p
  match t.get? place with
  | some .dir => .error .isDirectory
  | _ => .ok (t.set place (.file content))

/-- Puts a link at a free path. -/
def link (t : Tree) (p : Path) (target : String) : Except SystemFault Tree := do
  let place ← t.locate false p
  match t.get? place with
  | some _ => .error .exists
  | none => .ok (t.set place (.link target))

/-- Removes an entry with all that is below it. -/
def removeAll (t : Tree) (p : Path) : Except SystemFault Tree := do
  let (place, _) ← t.entry false p
  return ⟨t.entries.filter fun (q, _) => !place.isPrefixOf q⟩

/-- Replaces a file as a whole; a link at the path is replaced, not followed. -/
def write (t : Tree) (p : Path) (content : ByteArray) : Except SystemFault Tree := do
  let place ← t.locate false p
  match t.get? place with
  | some .dir => .error .isDirectory
  | _ => .ok (t.set place (.file content))

/-- Moves every entry at or below a place. -/
def relocate (t : Tree) (old new : Place) : Tree :=
  let moved := t.entries.filter fun (p, _) => old.isPrefixOf p
  let kept := t.entries.filter fun (p, _) => !old.isPrefixOf p
  moved.foldl (fun t (p, e) => t.set (new ++ p.drop old.length) e) ⟨kept⟩

/-- Renames an entry; a file or an empty directory of the same sort at the new path is replaced. -/
def rename (t : Tree) (old new : Path) : Except SystemFault Tree := do
  let (src, e) ← t.entry false old
  let dst ← t.locate false new
  if src == dst then return t
  match e, t.get? dst with
  | .dir, some .dir =>
    if src.isPrefixOf dst then .error .invalid
    else if (t.children dst).isEmpty then .ok ((t.erase dst).relocate src dst)
    else .error .notEmpty
  | .dir, some _ => .error .notDirectory
  | .dir, none => if src.isPrefixOf dst then .error .invalid else .ok (t.relocate src dst)
  | _, some .dir => .error .isDirectory
  | _, _ => .ok ((t.erase dst).relocate src dst)

def removeFile (t : Tree) (p : Path) : Except SystemFault Tree := do
  let (place, e) ← t.entry false p
  match e with
  | .dir => .error .isDirectory
  | _ => .ok (t.erase place)

def removeDir (t : Tree) (p : Path) : Except SystemFault Tree := do
  let (place, e) ← t.entry false p
  match e with
  | .dir => if (t.children place).isEmpty then .ok (t.erase place) else .error .notEmpty
  | _ => .error .notDirectory

/-- Creates one directory. -/
def makeDir (t : Tree) (p : Path) : Except SystemFault Tree := do
  let place ← t.locate false p
  match t.get? place with
  | some _ => .error .exists
  | none => .ok (t.set place .dir)

/-- Creates a directory and those above it that are missing; the first argument lists the path and its
ancestors, nearest first. -/
def makeAll (t : Tree) : List Path → Except SystemFault Tree
  | [] => .ok t
  | p :: above =>
    if p.raw == "" then .ok t
    else match t.makeDir p with
      | .ok t => .ok t
      | .error .notFound => do
        let t ← makeAll t above
        match t.makeDir p with
        | .ok t => .ok t
        | .error e => if t.isDir p then .ok t else .error e
      | .error e => if t.isDir p then .ok t else .error e

/-- Creates a directory with all that is missing above it. -/
def makeDirs (t : Tree) (p : Path) : Except SystemFault Tree := t.makeAll p.ancestors

end Tree

end Refactor
