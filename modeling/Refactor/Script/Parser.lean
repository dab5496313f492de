import Refactor.Script.Parser.Statement
import Refactor.Path.Basic

/-!
# Parsing script modules

* `Script.parseAs` — a module in one dialect
* `Script.parse?` — a module in the first dialect that fits, by the extension of its file
-/

namespace Refactor.Script

namespace P

/-- What a nonterminal stands for, given the parsers of all nonterminals. -/
def step (r : Goal → P Node) : Goal → P Node
  | .item => item r
  | .stmt decl => statement r decl
  | .expr => expression r
  | .assign => assign r
  | .binary least => binary r least
  | .unary => unary r
  | .callee => calleeChain r
  | .lhs => lhs r
  | .binding => binding r
  | .type => typeAt r
  | .typeOperand => typeOperand r
  | .markup => markup r

/-- The parser of a nonterminal, up to a depth of nesting. -/
def parser : Nat → Goal → P Node
  | 0, _ => failure
  | n + 1, goal => step (parser n) goal

/-- The items of a module up to the end of the source. -/
def moduleItems (depth : Nat) : P (List Node) := many do
  if (← token) == .eof then return none
  return some (← parser depth .item)

end P

/-- The state at the first token; a first line that names an interpreter is skipped. -/
def Cursor.initial (d : Dialect) (cs : List Char) : Cursor :=
  let line := if ['#', '!'].isPrefixOf cs then cs.takeWhile (!isLineEnd ·) else []
  P.Cursor.next
    { dialect := d, here := [], lo := 0, token := .eof, after := [], hi := 0, newline := true, lastHi := 0, comments := [] }
    (cs.drop line.length) (Text.utf8Size line)

/-- A module read in one dialect. -/
def parseAs (d : Dialect) (source : List Char) : Option Parsed := do
  -- every level of the grammar is at most a dozen nonterminals deep
  let (items, s) ← (P.moduleItems (16 * source.length + 64)).run (.initial d source)
  return ⟨.mk .plain .moduleRoot 0 (Text.utf8Size source) items, s.comments.reverse⟩

/-- The dialects to try for a file, in order. -/
def dialectsFor (path : Option Path) : List Dialect :=
  let ts : Dialect := ⟨true, false⟩
  let tsx : Dialect := ⟨true, true⟩
  let js : Dialect := ⟨false, true⟩
  match (path.bind Path.extension?).map lowered with
  | some "tsx" => [tsx, ts]
  | some "js" | some "jsx" | some "mjs" | some "cjs" => [js, tsx]
  | _ => [ts, tsx, js]

/-- A module read in the first dialect that fits its file. A leading byte order mark is taken off before the reading, and
places are counted from behind it. -/
def parse? (source : List Char) (path : Option Path) : Option Parsed :=
  let text := (Text.dropLead? ['\uFEFF'] source).getD source
  (dialectsFor path).findSome? fun d => parseAs d text

end Refactor.Script
