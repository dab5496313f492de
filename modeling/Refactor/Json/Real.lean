import Refactor.Word

/-!
# Binary floating point numbers as decimal text

A double is held as its 64 bits. Its text has the fewest digits that read back as the same
double; of two such texts the nearer one is taken.

* `decode` — sign, mantissa and exponent of the bits
* `shortest` — the fewest digits that read back
* `render` — the text of a double
* `ofDecimal` — the double nearest to a decimal
-/

namespace Refactor.Json.Real

/-- A finite double as `mantissa * 2 ^ exponent`. -/
structure Parts where
  negative : Bool
  mantissa : Nat
  exponent : Int
deriving DecidableEq, Repr

/-- The parts of a double; the exponent field of infinities and NaNs is not treated apart. -/
def decode (bits : UInt64) : Parts :=
  let n : Nat := bits.toNat
  let negative := n / Word.count 63 == 1
  let field : Nat := n / Word.count 52 % Word.count 11
  let fraction : Nat := n % Word.count 52
  if field == 0 then ⟨negative, fraction, -1074⟩
  else ⟨negative, Word.count 52 + fraction, (field : Int) - 1075⟩

/-- `num / den` as a fraction `m * 2 ^ q`, scaled by ten to the minus `k`. -/
def scaled (m : Nat) (q k : Int) : Nat × Nat :=
  let num := m * (if q ≥ 0 then Nat.pow 2 q.toNat else 1) * (if k < 0 then Nat.pow 10 (-k).toNat else 1)
  let den := (if q < 0 then Nat.pow 2 (-q).toNat else 1) * (if k ≥ 0 then Nat.pow 10 k.toNat else 1)
  (num, den)

/-- Whether the point `d * 10 ^ k` lies in the interval of reals that round to `m * 2 ^ q`. -/
def roundsTo (m : Nat) (q : Int) (d : Nat) (k : Int) : Bool :=
  -- in quarters of the unit `2 ^ q`, so that the narrow lower gap below a power of two is exact
  let (nLo, den) := scaled (4 * m - (if m == Word.count 52 && q > -1074 then 1 else 2)) (q - 2) k
  let (nHi, _) := scaled (4 * m + 2) (q - 2) k
  let x := d * den
  if m % 2 == 0 then nLo ≤ x && x ≤ nHi else nLo < x && x < nHi

/-- Number of decimal digits. -/
def digitCount (n : Nat) : Nat := (Nat.toDigits 10 n).length

/-- Digits without trailing zeros, and the exponent of ten that keeps the value. -/
def stripZeros : Nat → Nat → Int → Nat × Int
  | 0, d, k => (d, k)
  | fuel + 1, d, k => if d != 0 && d % 10 == 0 then stripZeros fuel (d / 10) (k + 1) else (d, k)

/-- The neighbour of `m * 2 ^ q` on the grid of step `10 ^ k` that reads back, the nearer of
two. -/
def onGrid? (m : Nat) (q k : Int) : Option Nat :=
  let (num, den) := scaled m q k
  let low := num / den
  let high := low + 1
  let lowFits := low != 0 && roundsTo m q low k
  let highFits := roundsTo m q high k
  if lowFits && highFits then
    let r := num % den
    if 2 * r < den then some low
    else if 2 * r > den then some high
    else if low % 2 == 0 then some low else some high
  else if lowFits then some low
  else if highFits then some high
  else none

/-- The fewest digits `d` with `d * 10 ^ k` reading back as `m * 2 ^ q`, searched from the
coarsest grid on. -/
def shortest (m : Nat) (q : Int) : Nat × Int :=
  -- an upper bound of the decimal exponent of the value
  let top : Int := if q ≥ 0 then (digitCount (m * Nat.pow 2 q.toNat) : Int)
    else (digitCount m : Int) + 1 + q * 30103 / 100000
  let ks := (List.range 26).map fun (i : Nat) => top - (i : Int)
  match ks.findSome? fun k => (onGrid? m q k).map (·, k) with
  | some (d, k) => stripZeros 40 d k
  | none => (m, q)

/-- The text of positive digits `d * 10 ^ k`: positional up to sixteen places before the point and
five zeros after it, otherwise with an exponent. -/
def format (d : Nat) (k : Int) : String :=
  let digits := Nat.toDigits 10 d
  let point : Int := digits.length + k
  if 0 ≤ k && point ≤ 16 then String.ofList (digits ++ List.replicate k.toNat '0') ++ ".0"
  else if 0 < point && point ≤ 16 then
    String.ofList (digits.take point.toNat) ++ "." ++ String.ofList (digits.drop point.toNat)
  else if -5 < point && point ≤ 0 then
    "0." ++ String.ofList (List.replicate (-point).toNat '0' ++ digits)
  else
    let mantissa := match digits with
      | [] => ""
      | [c] => String.ofList [c]
      | c :: cs => String.ofList (c :: '.' :: cs)
    mantissa ++ "e" ++ toString (point - 1)

/-- The text of a double; what is not finite is written `null`. -/
def render (bits : UInt64) : String :=
  if bits.toNat / Word.count 52 % Word.count 11 == 2047 then "null"
  else
    let p := decode bits
    let body := if p.mantissa == 0 then "0.0"
      else let (d, k) := shortest p.mantissa p.exponent; format d k
    (if p.negative then "-" else "") ++ body

/-- The double nearest to `digits * 10 ^ exponent`, with a sign; `none` when it is out of range. -/
def ofDecimal (negative : Bool) (digits : Nat) (exponent : Int) : Option UInt64 :=
  -- beyond these bounds the result is infinite or zero whatever the digits
  let big : Int := digitCount digits + exponent
  let x : Float :=
    if digits == 0 then 0.0
    else if big > 400 then 1.0 / 0.0
    else if big < -400 then 0.0
    else if exponent < 0 then Float.ofScientific digits true (-exponent).toNat
    else Float.ofScientific digits false exponent.toNat
  if x.isInf then none else some (if negative then -x else x).toBits

end Refactor.Json.Real
