import Refactor.Edit.Basic
import Refactor.Error

/-!
# Merging, checking and applying edits

* `WorkspaceEdit.merge` — one edit out of several, each distinct text edit once
* `WorkspaceEdit.validate` — refuses edits that overlap and operations that collide
* `TextEdit.applyAll` — the text after a list of edits
-/

namespace Refactor

/-! ## Checking -/

namespace TextEdit

/-- A one-based place in a message. -/
def placeText (p : Position) : String :=
  toString (Word.next 32 p.line) ++ ":" ++ toString (Word.next 32 p.character)

/-- The first edit of a sorted list that collides with `a`; edits that start after the end of `a`
are out of reach. -/
def firstCollision? (a : TextEdit) : List TextEdit → Option TextEdit
  | [] => none
  | b :: rest =>
    if a.location.stop.before b.location.start then none
    else if a.location.overlaps b.location then some b
    else firstCollision? a rest

/-- The first collision in a sorted list. -/
def collision? : List TextEdit → Option (TextEdit × TextEdit)
  | [] => none
  | a :: rest =>
    match firstCollision? a rest with
    | some b => some (a, b)
    | none => collision? rest

def sorted (es : List TextEdit) : List TextEdit := es.mergeSort sortsBefore

end TextEdit

namespace WorkspaceEdit

/-- Refuses overlapping edits of one file. -/
def checkOverlaps (p : Path) (es : List TextEdit) : Except Error Unit :=
  match TextEdit.collision? (TextEdit.sorted es) with
  | some (a, b) =>
    .error (.conflict ("Overlapping edits in " ++ p.raw ++ " at " ++ TextEdit.placeText a.location.start ++
      " and " ++ TextEdit.placeText b.location.start) [p.raw])
  | none => .ok ()

/-- Refuses two operations with one destination or one source. -/
def checkEndpoints : List FileOperation → List Path → List Path → Except Error Unit
  | [], _, _ => .ok ()
  | op :: rest, destinations, sources => do
    if let some d := op.destination? then
      if destinations.contains d then
        throw (.conflict ("Several operations produce " ++ d.raw) [d.raw])
    if let some s := op.source? then
      if sources.contains s then
        throw (.conflict ("Several operations consume " ++ s.raw) [s.raw])
    checkEndpoints rest (destinations ++ op.destination?.toList) (sources ++ op.source?.toList)

/-- Whether two different operations of the list move a path away and produce it. -/
def passesThrough (ops : List FileOperation) (p : Path) : Bool :=
  ops.zipIdx.any fun (a, i) => ops.zipIdx.any fun (b, j) =>
    i != j && a.source?.any (· == p) && b.destination?.any (· == p)

/-- Refuses a path that one operation moves away and another one produces. -/
def checkPassing (ops : List FileOperation) : Except Error Unit :=
  match (ops.filterMap FileOperation.source?).find? (passesThrough ops) with
  | some p =>
    .error (.conflict (p.raw ++ " is both moved away and the destination of another operation") [p.raw])
  | none => .ok ()

/-- Refuses an edit of a deleted file. -/
def checkDeleted (w : WorkspaceEdit) : List FileOperation → Except Error Unit
  | [] => .ok ()
  | .delete p :: rest =>
    if (w.editsOf p).isEmpty then checkDeleted w rest
    else .error (.conflict (p.raw ++ " is edited and deleted by the same plan") [p.raw])
  | _ :: rest => checkDeleted w rest

/-- Refuses overlapping edits and colliding file operations. -/
def validate (w : WorkspaceEdit) : Except Error Unit := do
  w.changes.forM fun (p, es) => checkOverlaps p es
  checkEndpoints w.operations [] []
  checkPassing w.operations
  checkDeleted w w.operations

/-! ## Merging -/

/-- Appends the edits that are not there yet. -/
def addDistinct (old new : List TextEdit) : List TextEdit :=
  new.foldl (fun acc e => if acc.contains e then acc else acc ++ [e]) old

/-- The union of two edits, file by file. -/
def union (a b : WorkspaceEdit) : WorkspaceEdit :=
  { changes := b.changes.foldl (fun m (p, es) => m.alter p [] (addDistinct · es)) a.changes
    operations := a.operations ++ b.operations }

/-- One edit out of several: each distinct text edit once, sorted, and all operations in order. -/
def merge (ws : List WorkspaceEdit) : Except Error WorkspaceEdit := do
  let all := ws.foldl union {}
  let merged : WorkspaceEdit :=
    { all with changes := (all.changes.map fun (p, es) => (p, TextEdit.sorted es)).filter (!·.2.isEmpty) }
  merged.validate
  return merged

end WorkspaceEdit

/-! ## Applying -/

namespace TextEdit

/-- A replacement of a byte range. -/
structure Splice where
  start : Nat
  stop : Nat
  text : List Char
deriving DecidableEq, Repr

/-- The text with one byte range replaced; `none` when the range does not lie between
characters. -/
def Splice.apply? (s : Splice) (content : List Char) : Option (List Char) := do
  let (front, rest) ← Text.splitAtByte? s.start content
  let (_, back) ← Text.splitAtByte? (s.stop - s.start) rest
  return front ++ s.text ++ back

/-- Splices are sorted by start, then by stop. -/
def Splice.sortsBefore (a b : Splice) : Bool :=
  a.start < b.start || (a.start == b.start && a.stop ≤ b.stop)

/-- Replaces sorted ranges from the last to the first, so that earlier offsets stay valid. -/
def spliceAll? (content : List Char) : List Splice → Option (List Char)
  | [] => some content
  | s :: rest => (spliceAll? content rest).bind s.apply?

/-- The byte range that an edit replaces, when it fits the text and finds what it expects. -/
def toSplice (path : String) (content : List Char) (e : TextEdit) : Except Error Splice := do
  let some (a, b) := e.location.byteRange? content
    | throw (.validation ("Edit at " ++ placeText e.location.start ++ " does not fit " ++ path))
  let found := (Text.slice? content a b).getD []
  if e.oldText != "" && found != e.oldText.toList then
    throw (.validation ("Expected '" ++ e.oldText ++ "' at " ++ placeText e.location.start ++ " in " ++ path ++
      ", found '" ++ String.ofList found ++ "'"))
  return ⟨a, b, e.newText.toList⟩

/-- The text after a list of edits, whose positions all refer to the text as given. -/
def applyAll (path content : String) (es : List TextEdit) : Except Error String := do
  let cs := content.toList
  let splices ← es.mapM (toSplice path cs)
  match spliceAll? cs (splices.mergeSort Splice.sortsBefore) with
  | some out => return String.ofList out
  | none => throw (.internal "edit ranges do not lie between characters")

end TextEdit

end Refactor
