import Refactor.Edit.Codec

/-!
# Impact of a change

How far a change reaches, judged by the number of files that depend on what it changes.

* `RiskLevel.ofCount` — the risk of a number of dependents
* `Impact.analyze` — risk and recommendations
-/

namespace Refactor

inductive RiskLevel where
  | low | medium | high
deriving DecidableEq, Repr

namespace RiskLevel

def text : RiskLevel → String
  | .low => "low"
  | .medium => "medium"
  | .high => "high"

/-- Up to three dependents are a low risk, up to ten a medium one. -/
def ofCount (n : Nat) : RiskLevel := if n ≤ 3 then .low else if n ≤ 10 then .medium else .high

end RiskLevel

/-- How far a change reaches. -/
structure Impact where
  risk : RiskLevel := .low
  dependentFiles : List Path := []
  estimatedChanges : Nat := 0
  recommendations : List String := []
deriving Repr, Inhabited

namespace Impact

/-- The advice for a number of dependents. -/
def adviceFor (count : Nat) (symbolRename : Bool) : List String :=
  (if RiskLevel.ofCount count = .high then ["Preview the plan before applying"] else []) ++
  (if count > 25 then ["Split the change into smaller batches"] else []) ++
  (if symbolRename && count > 0 then
    ["Review the generated edits for dynamic or string-based references"] else []) ++
  (if count = 0 then ["No dependent files found; the change is self-contained"] else [])

/-- The impact of a change on which the given files depend. -/
def analyze (dependents : List Path) (estimatedChanges : Nat) (symbolRename : Bool) : Impact :=
  let files := PathSet.collect dependents
  { risk := .ofCount files.length, dependentFiles := files, estimatedChanges,
    recommendations := adviceFor files.length symbolRename }

def toJson (i : Impact) : Json :=
  .ofFields [("risk", .str i.risk.text), ("dependentFiles", .list Path.toJson i.dependentFiles),
    ("estimatedChanges", .nat i.estimatedChanges), ("recommendations", .list .str i.recommendations)]

end Impact

end Refactor
