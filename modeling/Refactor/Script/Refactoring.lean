import Refactor.Script.Delete
import Refactor.Script.ExtractFunction
import Refactor.Script.ExtractValue
import Refactor.Script.Inline

/-!
# Refactorings of a module

* `Refactoring` — what can be asked for
* `Refactoring.edits` — its edits, given how the source reads
* `Refactoring.plan` — its edits in a file
-/

namespace Refactor.Script

/-- A request to refactor a module. -/
inductive Refactoring where
  | extractVariable (range : Span) (name : String)
  | extractConstant (range : Span) (name : String)
  | extractFunction (range : Span) (name : String)
  | inlineVariable (position : Position)
  | deleteSymbol (position : Position)
deriving DecidableEq, Repr

namespace Refactoring

/-- The edits of a request, given how the source reads. -/
def edits (s : Source) (reading : Service Parsed) : Refactoring → Service (List TextEdit)
  | .extractVariable range name => Script.extractVariable s reading range name
  | .extractConstant range name => Script.extractConstant s reading range name
  | .extractFunction range name => Script.extractFunction s reading range name
  | .inlineVariable position => Script.inlineVariable s reading position
  | .deleteSymbol position => Script.deleteSymbol s reading position

/-- The edits of a request in a file, whose extension tells how its source reads. -/
def plan (s : Source) (path : Path) (r : Refactoring) : Service (List TextEdit) := r.edits s (s.parsed path)

end Refactoring

end Refactor.Script
