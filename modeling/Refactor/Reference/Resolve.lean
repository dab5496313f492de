import Refactor.Reference.Basic
import Refactor.Text.Unicode

/-!
# Resolving specifiers

A specifier is resolved against the files known at planning time. The first hit wins: the exact path
seen from the referring file, then from the root; an extension left out or written for its source;
the index file of a directory, or the directory itself; and last the same, letter case aside.

* `KnownFiles` — the files of a project and the directories that hold them
* `KnownFiles.resolve` — what a specifier names
-/

namespace Refactor

/-- What a specifier names. -/
inductive Resolution where
  /-- One path; `writtenExtension` is the extension of the specifier where the target has another. -/
  | resolved (target : Path) (base : SpecifierBase) (writtenExtension : Option String)
  | ambiguous (candidates : List Path)
  | unresolved
deriving Repr

/-- The files of a project, and the directories that hold them. -/
structure KnownFiles where
  files : PathSet := []
  dirs : PathSet := []
  /-- Files and directories by the lower case of their text. -/
  folded : List (String × Path) := []
deriving Repr, Inhabited

namespace KnownFiles

/-- Files a specifier without extension may stand for, in the order in which they are tried. -/
def implicitExtensions : List String := ["ts", "tsx", "js", "jsx", "mjs", "cjs", "md"]

/-- Extensions of sources by the extension under which they are imported. -/
def sourceExtensions : List (String × List String) :=
  [("js", ["ts", "tsx"]), ("jsx", ["tsx"]), ("mjs", ["mts"]), ("cjs", ["cts"])]

/-- Adds the ancestors of a file that lie in the root, up to the first one already known. -/
def addDirs (root : Path) : List Path → KnownFiles → KnownFiles
  | [], k => k
  | d :: ds, k =>
    if !d.startsWith root || k.dirs.contains d then k
    else addDirs root ds { k with dirs := PathSet.insert d k.dirs, folded := k.folded ++ [(Text.lower d.raw, d)] }

def addFile (root : Path) (k : KnownFiles) (f : Path) : KnownFiles :=
  addDirs root (f.ancestors.drop 1)
    { k with files := PathSet.insert f k.files, folded := k.folded ++ [(Text.lower f.raw, f)] }

def ofFiles (root : Path) (files : List Path) : KnownFiles := files.foldl (addFile root) {}

def isFile (k : KnownFiles) (p : Path) : Bool := k.files.contains p

def isDir (k : KnownFiles) (p : Path) : Bool := k.dirs.contains p

def size (k : KnownFiles) : Nat := k.files.length

/-- The places that a path text may mean, in the order in which they are tried. -/
def bases (root importer : Path) (pathPart : String) : List (SpecifierBase × Path) :=
  match afterLead? pathPart "/" with
  | some rooted => [(.projectRoot, (root.join ⟨rooted⟩).normalize)]
  | none =>
    let fromFile := ((importer.parent?.getD root).join ⟨pathPart⟩).normalize
    let fromRoot := (root.join ⟨pathPart⟩).normalize
    if startsWith pathPart "./" || startsWith pathPart "../" || fromRoot == fromFile then
      [(.importingFile, fromFile)]
    else [(.importingFile, fromFile), (.projectRoot, fromRoot)]

/-- The files that a path may stand for with another extension; the second part is the extension
written, where it is replaced. -/
def variants (p : Path) : List (Path × Option String) :=
  match p.fileName? with
  | none => []
  | some name =>
    implicitExtensions.map (fun e => (p.withFileName (name ++ "." ++ e), none)) ++
    (match p.extension? with
     | none => []
     | some ext => ((sourceExtensions.lookup ext).getD []).map fun e => (p.withExtension e, some ext))

/-- The exact path. -/
def exactly? (k : KnownFiles) (bs : List (SpecifierBase × Path)) : Option Resolution :=
  (bs.find? fun (_, p) => k.isFile p).map fun (b, p) => .resolved p b none

/-- A path with another extension. -/
def byExtension? (k : KnownFiles) (bs : List (SpecifierBase × Path)) : Option Resolution :=
  bs.findSome? fun (b, p) =>
    ((variants p).find? fun (v, _) => k.isFile v).map fun (v, ext) => .resolved v b ext

/-- A directory, through its index file or by itself. -/
def byDirectory? (k : KnownFiles) (bs : List (SpecifierBase × Path)) : Option Resolution :=
  (bs.find? fun (_, p) => k.isDir p).map fun (b, p) =>
    match (implicitExtensions.map fun e => p.join ⟨"index." ++ e⟩).find? k.isFile with
    | some index => .resolved index b none
    | none => .resolved p b none

/-- A path or variant that differs in letter case only. -/
def byCase (k : KnownFiles) (bs : List (SpecifierBase × Path)) : Resolution :=
  let hits := bs.flatMap fun (b, p) =>
    (p :: (variants p).map (·.1)).flatMap fun v =>
      (k.folded.filter (·.1 == Text.lower v.raw)).map fun (_, found) => (found, b)
  match PathSet.ofList (hits.map (·.1)) with
  | [] => .unresolved
  | [p] => .resolved p ((hits.head?.map (·.2)).getD .importingFile) none
  | ps => .ambiguous ps

/-- What a specifier in `importer` names. -/
def resolve (k : KnownFiles) (root importer : Path) (specifier : String) : Resolution :=
  if Specifier.isExternal specifier then .unresolved
  else
    let pathPart := String.ofList (Text.dropWhileEnd (· == '/') (Specifier.splitSuffix specifier).1.toList)
    if pathPart == "" then .unresolved
    else
      let bs := bases root importer pathPart
      (k.exactly? bs).getD ((k.byExtension? bs).getD ((k.byDirectory? bs).getD (k.byCase bs)))

end KnownFiles

end Refactor
