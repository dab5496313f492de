import Refactor.Reference.Basic

/-!
# References with their bytes

* `LocatedRef` — a reference with the byte range of its specifier
* `LocatedRef.replaceAll` — a text with some of its specifiers replaced
-/

namespace Refactor

/-- A specifier with its byte range in a text. -/
structure LocatedRef where
  specifier : String
  kind : ImportKind
  lo : Nat
  hi : Nat
deriving DecidableEq, Repr

namespace LocatedRef

/-- The reference with its span. -/
def toRef (content : List Char) (r : LocatedRef) : ImportRef :=
  ⟨r.specifier, r.kind, some (.ofBytes content r.lo r.hi)⟩

/-- The text with the bytes of one specifier replaced. -/
def replaceIn (r : LocatedRef) (new : String) (content : List Char) : List Char :=
  match Text.splitAtByte? r.lo content, Text.splitAtByte? r.hi content with
  | some (before, _), some (_, after) => before ++ new.toList ++ after
  | _, _ => content

/-- The text with every specifier for which `f` gives a new one replaced, and their number. -/
def replaceAll (f : LocatedRef → Option String) (content : List Char) (refs : List LocatedRef) : List Char × Nat :=
  refs.foldr (fun r (text, count) =>
    match f r with
    | some new => (r.replaceIn new text, count + 1)
    | none => (text, count)) (content, 0)

end LocatedRef

/-- The path that a relative specifier of a file in `base` names; `..` above the top is dropped. -/
def Path.clampedJoin (base : Path) (relative : String) : Path :=
  let step (out : List Component) : Component → List Component
    | .here => out
    | .parent => if out == [.root] then out else out.dropLast
    | c => out ++ [c]
  .ofComponents (((base.join ⟨relative⟩).components).foldl step [])

end Refactor
