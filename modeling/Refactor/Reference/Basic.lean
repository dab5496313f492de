import Refactor.Specifier

/-!
# References between files

A reference is a specifier as a file writes it, with its sort and, where known, its span.

* `ImportRef` — one reference
* `ImportRef.isPath` — whether it names a file rather than a package
* `locatedRefs?` — the tracked references, when all of them have a span
-/

namespace Refactor

/-- Sorts of references. -/
inductive ImportKind where
  | importFrom | reExport | require | dynamicImport | link
deriving DecidableEq, Repr

def ImportKind.text : ImportKind → String
  | .importFrom => "import"
  | .reExport => "re_export"
  | .require => "require"
  | .dynamicImport => "dynamic_import"
  | .link => "link"

/-- A reference to another file, as written. -/
structure ImportRef where
  specifier : String
  kind : ImportKind
  location : Option Span := none
deriving DecidableEq, Repr

namespace ImportRef

def toJson (r : ImportRef) : Json :=
  .ofSome [("specifier", some (.str r.specifier)), ("kind", some (.str r.kind.text)),
    ("location", r.location.map Span.toJson)]

/-- Whether the reference names a file: links may be bare, other references start with a dot or a
slash. -/
def isPath (r : ImportRef) : Bool :=
  r.kind == .link || startsWith r.specifier "." || startsWith r.specifier "/"

end ImportRef

/-- The references to files, when every one of them has a span. -/
def locatedRefs? (refs : List ImportRef) : Option (List ImportRef) :=
  let tracked := refs.filter ImportRef.isPath
  if tracked.any (·.location.isNone) then none else some tracked

end Refactor
