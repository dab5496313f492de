import Refactor.Edit.Codec

/-!
# Specifiers

A specifier is the text by which one file refers to another. A new specifier keeps the shape of
the one it replaces: what it is relative to, how it starts, whether it shows the extension, whether
it names a directory for its index file, and the anchor or query after the path.

* `SpecifierStyle.infer` — the shape of a specifier
* `Specifier.format` — a specifier of that shape for another target
-/

namespace Refactor

/-- What a specifier is relative to. -/
inductive SpecifierBase where
  | importingFile | projectRoot
deriving DecidableEq, Repr

/-- How a specifier starts: with a dot segment, with a slash, or with neither. -/
inductive SpecifierLead where
  | dot | slash | bare
deriving DecidableEq, Repr

/-- The shape of a specifier. -/
structure SpecifierStyle where
  base : SpecifierBase
  lead : SpecifierLead
  explicitExtension : Bool
  /-- The specifier names a directory and stands for its index file. -/
  index : Bool
  suffix : String
deriving DecidableEq, Repr

namespace Specifier

/-- Path and suffix of a specifier; the suffix starts at the first `#` or `?`. -/
def splitSuffix (s : String) : String × String :=
  let (a, b) := s.toList.span fun c => c != '#' && c != '?'
  (String.ofList a, String.ofList b)

/-- The last segment of a path text, trailing slashes aside. -/
def lastSegment (s : String) : String :=
  let body := Text.dropWhileEnd (· == '/') s.toList
  String.ofList ((body.splitOn '/').getLastD [])

end Specifier

namespace SpecifierBase

def text : SpecifierBase → String
  | .importingFile => "importing_file"
  | .projectRoot => "project_root"

end SpecifierBase

namespace SpecifierLead

def text : SpecifierLead → String
  | .dot => "dot"
  | .slash => "slash"
  | .bare => "bare"

/-- How a path text starts. -/
def ofText (s : String) : SpecifierLead :=
  if startsWith s "./" || startsWith s "../" || s == "." || s == ".." then .dot
  else if startsWith s "/" then .slash
  else .bare

end SpecifierLead

namespace SpecifierStyle

/-- The shape of `written`, which names `target` from `base`. -/
def infer (written : String) (base : SpecifierBase) (target : Path) : SpecifierStyle :=
  let (pathPart, suffix) := Specifier.splitSuffix written
  let last := lowered (Specifier.lastSegment pathPart)
  let name := target.fileName?.getD ""
  let stem := target.fileStem?.getD ""
  { base, suffix
    lead := .ofText pathPart
    explicitExtension := last == lowered name && target.extension?.isSome
    index := stem == "index" && last != lowered name && last != lowered stem }

def toJson (s : SpecifierStyle) : Json :=
  .ofFields [("base", .str s.base.text), ("prefix", .str s.lead.text),
    ("explicit_extension", .bool s.explicitExtension), ("index", .bool s.index), ("suffix", .str s.suffix)]

end SpecifierStyle

namespace Specifier

/-- The path that a specifier of a style names in place of a target. -/
def referenced (style : SpecifierStyle) (target : Path) : Path :=
  if style.index && target.fileStem? == some "index" then target.parent?.getD target
  else if !style.explicitExtension then target.withExtension ""
  else target

/-- The specifier in `importer` that names `target` in the given style. -/
def format (style : SpecifierStyle) (root importer target : Path) : String :=
  let named := referenced style target
  let base := match style.base with
    | .importingFile => importer.parent?.getD root
    | .projectRoot => root
  let relative := ((named.relativeTo? base).getD named).slashed
  let body := match style.lead with
    | .dot =>
      if startsWith relative ".." then relative else if relative == "" then "." else "./" ++ relative
    | .slash => "/" ++ relative
    | .bare => relative
  body ++ style.suffix

/-- Whether a specifier points outside the file system. -/
def isExternal (s : String) : Bool :=
  occursIn "://" s || startsWith s "#" || startsWith s "mailto:" || startsWith s "data:" || startsWith s "tel:"

end Specifier

end Refactor
