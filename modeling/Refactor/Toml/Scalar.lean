import Refactor.Json.Basic
import Refactor.Text.Basic

/-!
# TOML scalars

A bare word of a TOML document is a truth value, a number or a moment in time.

* `Toml.integer?`, `Toml.float?`, `Toml.moment?` — the three sorts of words with digits
* `Toml.scalar?` — any of them
-/

namespace Refactor.Toml

/-- The value of a digit of a base. -/
def digit? (base : Nat) (c : Char) : Option Nat :=
  let n := c.toLower.toNat
  let v := if c.isDigit then n - 48 else if 97 ≤ n && n ≤ 102 then n - 87 else 99
  if v < base then some v else none

/-- The digits of a number; an underscore may stand between two of them. -/
def digits? (base : Nat) : List Char → Option (List Nat)
  | [] => none
  | [c] => (digit? base c).map ([·])
  | c :: '_' :: cs => do return (← digit? base c) :: (← digits? base cs)
  | c :: cs => do return (← digit? base c) :: (← digits? base cs)

/-- The number that digits write. -/
def valueOf (base : Nat) (ds : List Nat) : Nat := ds.foldl (fun v d => base * v + d) 0

/-- Splits off a sign. -/
def signed (cs : List Char) : Bool × List Char :=
  match cs with
  | '-' :: rest => (true, rest)
  | '+' :: rest => (false, rest)
  | _ => (false, cs)

/-- Decimal digits without a needless zero in front. -/
def whole? (cs : List Char) : Option (List Nat) :=
  match digits? 10 cs with
  | some (0 :: _ :: _) => none
  | ds => ds

/-- A whole number of 64 bits with a sign. -/
def integer? (cs : List Char) : Option Int := do
  let n : Int ← match cs with
    | '0' :: 'x' :: ds => (digits? 16 ds).map fun ds => (valueOf 16 ds : Int)
    | '0' :: 'o' :: ds => (digits? 8 ds).map fun ds => (valueOf 8 ds : Int)
    | '0' :: 'b' :: ds => (digits? 2 ds).map fun ds => (valueOf 2 ds : Int)
    | _ =>
      let (negative, ds) := signed cs
      (whole? ds).map fun ds => if negative then -(valueOf 10 ds : Int) else (valueOf 10 ds : Int)
  if Word.fitsSigned 64 n then some n else none

/-- Splits a text at the first character of a class, which is dropped. -/
def splitAtFirst (p : Char → Bool) (cs : List Char) : List Char × Option (List Char) :=
  match cs.dropWhile (!p ·) with
  | [] => (cs, none)
  | _ :: rest => (cs.takeWhile (!p ·), some rest)

/-- A number with a fraction or an exponent; what is no number or infinite is `null`. -/
def float? (cs : List Char) : Option Json := do
  let (negative, body) := signed cs
  if body == ['i', 'n', 'f'] || body == ['n', 'a', 'n'] then return .null
  let (mantissa, exponent) := splitAtFirst (fun c => c == 'e' || c == 'E') body
  let (before, after) := splitAtFirst (· == '.') mantissa
  if after.isNone && exponent.isNone then none
  let front ← whole? before
  let back ← match after with
    | some ds => digits? 10 ds
    | none => some []
  let power : Int ← match exponent with
    | none => some 0
    | some ds =>
      let (minus, ds) := signed ds
      (digits? 10 ds).map fun ds => if minus then -(valueOf 10 ds : Int) else (valueOf 10 ds : Int)
  (Json.Real.ofDecimal negative (valueOf 10 (front ++ back)) (power - back.length)).map .real

/-! ## Moments -/

/-- A number of exactly `n` decimal digits, and the rest. -/
def fixed? (n : Nat) (cs : List Char) : Option (Nat × List Char) := do
  let ds ← (cs.take n).mapM (digit? 10)
  if ds.length == n then some (valueOf 10 ds, cs.drop n) else none

def expect? (c : Char) : List Char → Option (List Char)
  | d :: cs => if d == c then some cs else none
  | [] => none

/-- The number of days of a month. -/
def daysIn (year month : Nat) : Nat :=
  if month == 2 then
    if (year % 4 == 0 && year % 100 != 0) || year % 400 == 0 then 29 else 28
  else if [4, 6, 9, 11].contains month then 30
  else 31

/-- A date at the start of a text, and the rest. -/
def date? (cs : List Char) : Option (String × List Char) := do
  let (year, rest) ← fixed? 4 cs
  let (month, rest) ← fixed? 2 (← expect? '-' rest)
  let (day, rest) ← fixed? 2 (← expect? '-' rest)
  if 1 ≤ month && month ≤ 12 && 1 ≤ day && day ≤ daysIn year month then
    some (String.ofList (cs.take 10), rest)
  else none

/-- A time of day at the start of a text, and the rest. Fractions are cut to nine digits, and their last
zeros are dropped. -/
def time? (cs : List Char) : Option (String × List Char) := do
  let (hour, rest) ← fixed? 2 cs
  let (minute, rest) ← fixed? 2 (← expect? ':' rest)
  let (second, rest) ← fixed? 2 (← expect? ':' rest)
  if hour > 23 || minute > 59 || second > 60 then none
  let clock := String.ofList (cs.take 8)
  match rest with
  | '.' :: more =>
    let fraction := more.takeWhile Char.isDigit
    if fraction.isEmpty then none
    let kept := Text.dropWhileEnd (· == '0') (fraction.take 9)
    some (clock ++ (if kept.isEmpty then "" else "." ++ String.ofList kept), more.dropWhile Char.isDigit)
  | _ => some (clock, rest)

/-- The distance from universal time at the end of a text. -/
def offset? : List Char → Option String
  | [] => some ""
  | ['Z'] | ['z'] => some "Z"
  | c :: cs => do
    if c != '+' && c != '-' then none
    let (hours, rest) ← fixed? 2 cs
    let (minutes, rest) ← fixed? 2 (← expect? ':' rest)
    if hours > 24 || minutes > 59 || !rest.isEmpty then none
    some (String.ofList (c :: cs))

/-- The text of a date, a time of day, or both. -/
def momentText? (cs : List Char) : Option String :=
  match date? cs with
  | some (date, []) => some date
  | some (date, c :: rest) => do
    if c != 'T' && c != 't' && c != ' ' then none
    let (clock, rest) ← time? rest
    return date ++ "T" ++ clock ++ (← offset? rest)
  | none =>
    match time? cs with
    | some (clock, []) => some clock
    | _ => none

/-- A moment, as the record that stands for one among values without moments. -/
def moment? (cs : List Char) : Option Json :=
  (momentText? cs).map fun s => .ofFields [("$__toml_private_datetime", .str s)]

/-- The value of a bare word. -/
def scalar? (cs : List Char) : Option Json :=
  if cs == "true".toList then some (.bool true)
  else if cs == "false".toList then some (.bool false)
  else ((integer? cs).map .int).or ((float? cs).or (moment? cs))

end Refactor.Toml
