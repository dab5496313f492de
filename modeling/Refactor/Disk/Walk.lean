import Refactor.Disk.Basic
import Refactor.Disk.Ignore

/-!
# Walks over a tree

* `Tree.filesUnder` — everything below a directory that is no directory
* `Tree.dirsUnder` — the directories below one, children before parents
* `Tree.projectFiles` — the files of a project that no ignore rule leaves out
-/

namespace Refactor.Tree

/-- The entries below a place, with the names that lead to them. -/
def below (t : Tree) (dir : Place) : List (Place × Entry) :=
  t.entries.filterMap fun (p, e) =>
    if dir.isPrefixOf p && dir.length < p.length then some (p.drop dir.length, e) else none

/-- A path below another one. -/
def under (dir : Path) (names : Place) : Path := names.foldl (fun p n => p.join ⟨n⟩) dir

/-- Files and links below a directory, sorted. A link given as the directory is listed itself. -/
def filesUnder (t : Tree) (dir : Path) : Except Error (List Path) :=
  let failed (f : SystemFault) : Except Error (List Path) :=
    .error (.io ("Failed to walk " ++ dir.raw ++ ": IO error for operation on " ++ dir.raw ++ ": " ++ f.message))
  match t.entry false dir with
  | .error f => failed f
  | .ok (_, .file _) => .ok [dir]
  | .ok (place, .dir) => .ok (leaves place)
  | .ok (_, .link _) =>
    match t.entry true dir with
    | .error f => failed f
    | .ok (place, .dir) => .ok (dir :: leaves place)
    | .ok _ => .ok [dir]
where
  /-- Files and links below a place, as paths below the directory. -/
  leaves (place : Place) : List Path :=
    (t.below place).filterMap fun (names, e) => match e with
      | .dir => none
      | _ => some (under dir names)

/-- The directories at and below a path, children before parents. -/
def dirsUnder (t : Tree) (dir : Path) : List Path :=
  match t.entry true dir with
  | .ok (place, .dir) =>
    let inner := (t.below place).filterMap fun (names, e) => match e with
      | .dir => some (under dir names)
      | _ => none
    (if t.isLink dir then inner else dir :: inner).reverse
  | _ => []

/-! ## Ignore rules -/

/-- The rules of an ignore file. -/
def rulesAt (t : Tree) (file : Place) : List IgnoreRule :=
  match (t.read (pathOf file)).toOption.bind Bytes.text? with
  | some text => IgnoreRule.ofText text.toList
  | none => []

/-- The sorts of ignore files, in the order of their authority. -/
def ignoreFiles : List Place := [[".ignore"], [".gitignore"], [".git", "info", "exclude"]]

/-- What one sort of ignore file says about a place: the nearest directory above it that says anything
decides. -/
def verdictOf (t : Tree) (file : Place) (p : Place) (isDir : Bool) : Option Bool :=
  ((List.range p.length).reverse).findSome? fun n =>
    IgnoreRule.verdict (t.rulesAt (p.take n ++ file)) (joinWith "/" (p.drop n)).toList isDir

/-- Whether a place is ignored. -/
def isIgnored (t : Tree) (p : Place) (isDir : Bool) : Bool :=
  (ignoreFiles.findSome? fun file => t.verdictOf file p isDir).getD false

/-- Whether the walk of a project passes a directory. -/
def passes (t : Tree) (ignoredDirs : List String) (p : Place) : Bool :=
  !t.isIgnored p true && !(p.getLast?.any ignoredDirs.contains)

/-- The files of a project, sorted; directories with an ignored name and everything that ignore files
name are left out. -/
def projectFiles (t : Tree) (ignoredDirs : List String) (root : Path) : List Path :=
  match t.entry true root with
  | .ok (place, .dir) =>
    (t.below place).filterMap fun (names, e) => match e with
      | .file _ =>
        let dirs := (List.range names.length).drop 1 |>.map fun n => place ++ names.take n
        if dirs.all (t.passes ignoredDirs) && !t.isIgnored (place ++ names) false then some (under root names)
        else none
      | _ => none
  | .ok (_, .file _) => [root]
  | _ => []

end Refactor.Tree
