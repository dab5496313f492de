import Refactor.Text.Basic

/-!
# Paths

A path is a text; what it names is given by its components. Repeated and trailing slashes and inner
`.` segments carry no component, so two paths with the same components are the same path, however
they are written. A leading `.` of a relative path is a component of its own.

* `Path.components` — the components a path names
* `Path.cmp` — the order of paths, component by component
* `Path.parent?`, `Path.join`, `Path.fileName?`, `Path.extension?`, `Path.stripLead?` — the usual cuts
* `Path.normalize` — `.` and `..` resolved on the components alone
* `Path.relativeTo?` — the way from one directory to a path
-/

namespace Refactor

/-- A path as written. -/
structure Path where
  raw : String
deriving Repr, Inhabited

/-- A component of a path. -/
inductive Component where
  | root
  | here
  | parent
  | name (s : String)
deriving DecidableEq, Repr

namespace Component

/-- The text of a component. -/
def text : Component → String
  | .root => "/"
  | .here => "."
  | .parent => ".."
  | .name s => s

/-- Rank of the kinds of components. -/
def rank : Component → Nat
  | .root => 0
  | .here => 1
  | .parent => 2
  | .name _ => 3

/-- The root comes first, then `.`, `..` and the names in the order of their bytes. -/
def cmp : Component → Component → Ordering
  | .name a, .name b => compareOfLessAndEq a b
  | a, b => compareOfLessAndEq a.rank b.rank

end Component

namespace Path

/-! ## Components -/

def isAbsolute (p : Path) : Bool := startsWith p.raw "/"

/-- The segments between slashes; the empty one before a leading slash is left out. -/
def segments (p : Path) : List String :=
  let all := (p.raw.toList.splitOn '/').map String.ofList
  if p.isAbsolute then all.drop 1 else all

/-- The component of a segment that is not the first of a relative path. -/
def innerComponent? (s : String) : Option Component :=
  if s == "" || s == "." then none else if s == ".." then some .parent else some (.name s)

/-- The component of the first segment of a relative path. -/
def firstComponent? (s : String) : Option Component :=
  if s == "." then some .here else innerComponent? s

/-- The components that a path names. -/
def components (p : Path) : List Component :=
  if p.isAbsolute then .root :: p.segments.filterMap innerComponent?
  else match p.segments with
    | [] => []
    | first :: rest => (firstComponent? first).toList ++ rest.filterMap innerComponent?

/-- Two paths are the same when they name the same components. -/
instance : BEq Path := ⟨fun p q => p.components == q.components⟩

/-- Lexicographic order of component lists. -/
def cmpComponents : List Component → List Component → Ordering
  | [], [] => .eq
  | [], _ :: _ => .lt
  | _ :: _, [] => .gt
  | a :: as, b :: bs => (a.cmp b).then (cmpComponents as bs)

/-- The order of paths. -/
def cmp (p q : Path) : Ordering := cmpComponents p.components q.components

/-! ## Joining -/

/-- `q` seen from the directory `p`; an absolute `q` stands for itself. -/
def join (p q : Path) : Path :=
  if q.isAbsolute then q
  else if p.raw == "" || endsWith p.raw "/" then ⟨p.raw ++ q.raw⟩
  else ⟨p.raw ++ "/" ++ q.raw⟩

/-- The path that names the given components. -/
def ofComponents (cs : List Component) : Path := cs.foldl (fun p c => p.join ⟨c.text⟩) ⟨""⟩

/-! ## Cuts -/

/-- The segments up to the last one that carries a component. -/
def trimmedSegments (p : Path) : List String :=
  match p.segments with
  | [] => []
  | first :: rest =>
    let rest := (rest.reverse.dropWhile (fun s => s == "" || s == ".")).reverse
    if rest.isEmpty && (first == "" || (first == "." && p.isAbsolute)) then [] else first :: rest

/-- The path written with the given segments. -/
def ofSegments (absolute : Bool) (ss : List String) : Path :=
  ⟨(if absolute then "/" else "") ++ joinWith "/" ss⟩

/-- The path without its last component; the root and the empty path have no parent. -/
def parent? (p : Path) : Option Path :=
  match p.trimmedSegments with
  | [] => none
  | ss =>
    let shorter := ofSegments p.isAbsolute ss.dropLast
    some (ofSegments p.isAbsolute shorter.trimmedSegments)

/-- All proper ancestors, nearest first, after the path itself. -/
def ancestors (p : Path) : List Path :=
  go (p.components.length + 1) p
where
  /-- At most `n` steps upwards. -/
  go : Nat → Path → List Path
    | 0, _ => []
    | n + 1, q => q :: (match q.parent? with | some r => go n r | none => [])

/-- The last component when it is a name. -/
def fileName? (p : Path) : Option String :=
  match p.components.getLast? with
  | some (.name s) => some s
  | _ => none

/-- A file name cut at its last dot: stem and extension. A name whose only dot is its first
character has no extension. -/
def cutName (name : String) : String × Option String :=
  match Text.splitLast? '.' name.toList with
  | none => (name, none)
  | some (stem, ext) => if stem.isEmpty then (name, none) else (String.ofList stem, some (String.ofList ext))

def fileStem? (p : Path) : Option String := p.fileName?.map fun n => (cutName n).1

def extension? (p : Path) : Option String := p.fileName?.bind fun n => (cutName n).2

/-- The path with another extension; the empty one takes the extension away. -/
def withExtension (p : Path) (ext : String) : Path :=
  match p.fileStem? with
  | none => p
  | some stem =>
    let name := if ext == "" then stem else stem ++ "." ++ ext
    ofSegments p.isAbsolute (p.trimmedSegments.dropLast ++ [name])

/-- The path with its last component replaced. -/
def withFileName (p : Path) (name : String) : Path :=
  match p.fileName?, p.parent? with
  | some _, some dir => dir.join ⟨name⟩
  | _, _ => p.join ⟨name⟩

/-- Whether the components of `q` start those of `p`. -/
def startsWith (p q : Path) : Bool := q.components.isPrefixOf p.components

/-- Whether the components of `q` end those of `p`. -/
def endsWith (p q : Path) : Bool := q.components.reverse.isPrefixOf p.components.reverse

/-- Drop `n` components from a list of segments, and the empty segments before the next one. -/
def dropSegments : Nat → List String → List String
  | _, [] => []
  | n, s :: ss =>
    if s == "" || s == "." then dropSegments n ss
    else match n with
      | 0 => s :: ss
      | n + 1 => dropSegments n ss

/-- What is left of `p` below `q`, when `p` is `q` or lies under it. -/
def stripLead? (p q : Path) : Option Path :=
  if !p.startsWith q then none
  else
    let taken := q.components.length
    if taken == 0 then some (ofSegments p.isAbsolute p.trimmedSegments)
    else
      let ss := if p.isAbsolute then dropSegments (taken - 1) p.trimmedSegments
        else match p.trimmedSegments with
          | "." :: rest => dropSegments (taken - 1) rest
          | ss => dropSegments taken ss
      some (ofSegments false ss)

/-! ## Lexical resolution -/

/-- One component applied to a path built so far; `..` cancels the last component, whatever it is,
and stays when there is none. -/
def resolveStep (out : List Component) : Component → List Component
  | .here => out
  | .parent =>
    match out with
    | [] => [.parent]
    | [.root] => [.root, .parent]
    | cs => cs.dropLast
  | c => out ++ [c]

/-- The path with `.` and `..` resolved on its components alone. -/
def normalize (p : Path) : Path := ofComponents (p.components.foldl resolveStep [])

/-- `p` anchored at `root` and normalized. -/
def resolveIn (p root : Path) : Path := if p.isAbsolute then p.normalize else (root.join p).normalize

/-- The text of `p` relative to `root`, or of `p` itself when it lies elsewhere. -/
def displayIn (p root : Path) : String := ((p.stripLead? root).getD p).raw

/-- The place of `p` when `old` becomes `new`; only paths under `old` have one. -/
def rebase? (p old new : Path) : Option Path :=
  (p.stripLead? old).map fun rel => if rel.raw == "" then new else new.join rel

/-- The components joined with slashes, the root left out. -/
def slashed (p : Path) : String :=
  joinWith "/" ((p.components.filter (· != .root)).map Component.text)

/-- The components from a directory to a path. A `..` of the directory that is met on the way makes
the answer unknown. -/
def relativeSteps : List Component → List Component → Bool → Option (List Component)
  | [], [], _ => some []
  | as, [], _ => some as
  | [], _ :: bs, _ => (relativeSteps [] bs false).map (.parent :: ·)
  | a :: as, b :: bs, fresh =>
    if fresh && a == b then relativeSteps as bs true
    else if b == .here then (relativeSteps as bs false).map (a :: ·)
    else if b == .parent then none
    else some (.parent :: bs.map (fun _ => .parent) ++ a :: as)

/-- The way from the directory `base` to `p`. -/
def relativeTo? (p base : Path) : Option Path :=
  if p.isAbsolute != base.isAbsolute then (if p.isAbsolute then some p else none)
  else (relativeSteps p.components base.components true).map ofComponents

end Path

end Refactor
