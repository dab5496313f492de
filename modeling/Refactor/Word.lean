/-!
# Words

Numbers that are kept in a fixed number of bits.

* `Word.count` — how many values a word has
* `Word.fitsSigned` — the numbers that a word with a sign holds
* `Word.next` — the number after another
-/

namespace Refactor.Word

/-- The number of values of a word. -/
def count (bits : Nat) : Nat := Nat.pow 2 bits

/-- Whether a number fits a word with a sign. -/
def fitsSigned (bits : Nat) (n : Int) : Bool := -(count (bits - 1) : Int) ≤ n && n < (count (bits - 1) : Int)

/-- The number after `n`, which is zero after the last one. -/
def next (bits n : Nat) : Nat := (n + 1) % count bits

end Refactor.Word
