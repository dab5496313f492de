import Refactor.Error
import Refactor.Impact
import Refactor.Operation

/-!
# Plans

A plan is a bundle of edits with the checksums of the files it was computed against. Planning ends with
a plan, or with the symbols between which the caller has to choose.

* `PlanId` — the name of a plan, and its text
* `Moment` — the moments of planning
* `Plan`, `Plan.ofEdit` — plans
* `PlanOutcome` — how planning ends
-/

namespace Refactor

open Decoder

/-! ## Names of plans -/

/-- A number of 128 bits that names a plan. -/
structure PlanId where
  value : Nat
deriving DecidableEq, Repr, Inhabited

namespace PlanId

/-- The lowest `n` hexadecimal digits of a number. -/
def digits : Nat → Nat → List Char
  | 0, _ => []
  | n + 1, v => digits n (v / 16) ++ [Json.hexDigit (v % 16)]

/-- 32 hexadecimal digits in five groups. -/
def text (i : PlanId) : String :=
  let ds := digits 32 i.value
  joinWith "-" ([ds.take 8, (ds.drop 8).take 4, (ds.drop 12).take 4, (ds.drop 16).take 4, ds.drop 20].map String.ofList)

/-- The value of hexadecimal digits. -/
def hexDigits? : List Char → Nat → Option Nat
  | [], acc => some acc
  | c :: cs, acc =>
    let n := c.toLower.toNat
    if c.isDigit then hexDigits? cs (acc * 16 + (n - 48))
    else if 97 ≤ n && n ≤ 102 then hexDigits? cs (acc * 16 + (n - 87))
    else none

/-- A name from 32 digits, with or without the groups. -/
def ofDigits? (cs : List Char) : Option PlanId :=
  let groups := cs.splitOn '-'
  let flat := groups.flatten
  if flat.length == 32 && (groups.length == 1 || groups.map List.length == [8, 4, 4, 4, 12]) then
    (hexDigits? flat 0).map (⟨·⟩)
  else none

/-- A name from its text; braces around it, or the lead of a resource name, may be written. -/
def ofText? (s : String) : Option PlanId :=
  match afterLead? s "urn:uuid:" with
  | some rest => if rest.toList.contains '-' then ofDigits? rest.toList else none
  | none =>
    match (Text.dropLead? ['{'] s.toList).bind (Text.dropTail? ['}']) with
    | some inner => if inner.contains '-' then ofDigits? inner else none
    | none => ofDigits? s.toList

def toJson (i : PlanId) : Json := .str i.text

def decode : Decoder PlanId
  | .str s =>
    match ofText? s with
    | some i => .ok i
    | none => .error "UUID parsing failed: invalid text"
  | j => wrongType j "a formatted UUID string"

end PlanId

/-! ## Warnings -/

/-- Something that does not stop a plan. -/
structure PlanWarning where
  code : String
  message : String
  /-- the paths or symbols concerned -/
  candidates : List String := []
deriving DecidableEq, Repr

namespace PlanWarning

def ambiguousReference (message : String) (candidates : List String) : PlanWarning :=
  ⟨"AMBIGUOUS_REFERENCE", message, candidates⟩

def danglingReferences (message : String) : PlanWarning := ⟨"DANGLING_REFERENCES", message, []⟩

def unresolvedReference (message : String) : PlanWarning := ⟨"UNRESOLVED_REFERENCE", message, []⟩

def skippedReference (message : String) : PlanWarning := ⟨"SKIPPED_REFERENCE", message, []⟩

def toJson (w : PlanWarning) : Json :=
  .ofSome [("code", some (.str w.code)), ("message", some (.str w.message)),
    ("candidates", if w.candidates.isEmpty then none else some (.list .str w.candidates))]

def decode : Decoder PlanWarning := fun j => do
  let fs ← record "struct PlanWarning" ["code", "message", "candidates"] j
  return ⟨← required fs "code" string, ← required fs "message" string, ← defaulted fs "candidates" [] (list string)⟩

end PlanWarning

/-! ## Plans -/

def RiskLevel.decode : Decoder RiskLevel := fun j => do
  match ← variant ["low", "medium", "high"] j with
  | "low" => return .low
  | "medium" => return .medium
  | _ => return .high

def Impact.decode : Decoder Impact := fun j => do
  let fs ← record "struct ImpactAnalysis" ["risk", "dependentFiles", "estimatedChanges", "recommendations"] j
  return { risk := ← required fs "risk" RiskLevel.decode
           dependentFiles := ← required fs "dependentFiles" (list path)
           estimatedChanges := ← required fs "estimatedChanges" size
           recommendations := ← required fs "recommendations" (list string) }

/-- Moments, as they are written into documents and read from them. -/
class Moment (τ : Type) where
  encode : τ → String
  parse : String → Except String τ

/-- Moments that are kept as their texts. -/
instance : Moment String := ⟨id, .ok⟩

/-- Reads a moment. -/
def Moment.decode {τ : Type} [Moment τ] : Decoder τ
  | .str s => parse s
  | j => wrongType j "an RFC 3339 formatted date and time string"

/-- Edits with the checksums they were computed against, made at some moment. -/
structure Plan (τ : Type := String) where
  id : PlanId
  operation : Operation
  edit : WorkspaceEdit
  warnings : List PlanWarning := []
  /-- every path that the edit concerns, sorted -/
  affectedFiles : List Path
  estimatedChanges : Nat
  impact : Impact := {}
  checksums : PathMap String := []
  createdAt : τ

namespace Plan

/-- The plan of an edit, before checksums and impact are known. -/
def ofEdit (id : PlanId) (operation : Operation) (edit : WorkspaceEdit) : Plan :=
  { id, operation, edit, affectedFiles := edit.touchedPaths
    estimatedChanges := edit.editCount + edit.operations.length, createdAt := "1970-01-01T00:00:00Z" }

def risk (p : Plan) : RiskLevel := p.impact.risk

def isEmpty (p : Plan) : Bool := p.edit.isEmpty

def toJson {τ : Type} [Moment τ] (p : Plan τ) : Json :=
  .ofFields [("id", p.id.toJson), ("operation", p.operation.toJson), ("edit", p.edit.toJson),
    ("warnings", .list PlanWarning.toJson p.warnings), ("affectedFiles", .list Path.toJson p.affectedFiles),
    ("estimatedChangeCount", .nat p.estimatedChanges), ("impact", p.impact.toJson),
    ("fileChecksums", p.checksums.toJson .str), ("createdAt", .str (Moment.encode p.createdAt))]

def decode {τ : Type} [Moment τ] : Decoder (Plan τ) := fun j => do
  let fs ← record "struct Plan" ["id", "operation", "edit", "warnings", "affectedFiles", "estimatedChangeCount",
    "impact", "fileChecksums", "createdAt"] j
  return { id := ← required fs "id" PlanId.decode, operation := ← required fs "operation" Operation.decode
           edit := ← required fs "edit" WorkspaceEdit.decode
           warnings := ← defaulted fs "warnings" [] (list PlanWarning.decode)
           affectedFiles := ← required fs "affectedFiles" (list path)
           estimatedChanges := ← required fs "estimatedChangeCount" size
           impact := ← required fs "impact" Impact.decode
           checksums := ← required fs "fileChecksums" (PathMap.decode string)
           createdAt := ← required fs "createdAt" Moment.decode }

end Plan

/-! ## Symbols -/

/-- A stretch of a file. -/
structure Location where
  path : Path
  range : Span
deriving Repr

namespace Location

def same (a b : Location) : Bool := a.path == b.path && a.range == b.range

def toJson (l : Location) : Json := .ofFields [("path", l.path.toJson), ("range", l.range.toJson)]

def decode : Decoder Location := fun j => do
  let fs ← record "struct Location" ["path", "range"] j
  return ⟨← required fs "path" Decoder.path, ← required fs "range" Span.decode⟩

end Location

/-- A symbol that a name may mean. -/
structure SymbolCandidate where
  name : String
  kind : String
  location : Location
  container : Option String := none
deriving Repr

namespace SymbolCandidate

def toJson (c : SymbolCandidate) : Json :=
  .ofSome [("name", some (.str c.name)), ("kind", some (.str c.kind)), ("location", some c.location.toJson),
    ("container", c.container.map .str)]

def decode : Decoder SymbolCandidate := fun j => do
  let fs ← record "struct SymbolCandidate" ["name", "kind", "location", "container"] j
  return { name := ← required fs "name" string, kind := ← required fs "kind" string
           location := ← required fs "location" Location.decode, container := ← optional fs "container" string }

end SymbolCandidate

/-- How planning ends. -/
inductive PlanOutcome where
  | ready (plan : Plan)
  | ambiguous (candidates : List SymbolCandidate)

def PlanOutcome.toJson : PlanOutcome → Json
  | .ready plan => .ofFields [("status", .str "ready"), ("plan", plan.toJson)]
  | .ambiguous cs =>
    .ofFields [("status", .str "needs_disambiguation"), ("candidates", .list SymbolCandidate.toJson cs)]

end Refactor
