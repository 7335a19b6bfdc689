import TestProgram.Number.Decimal
import TestProgram.Number.Power

/-!
# Shortest decimals

Every decimal in a certain interval around a floating-point number reads
back as that number. `shortest` takes the interval's decimal with the fewest
digits, and of several such the one nearest to the number itself.

All arithmetic is exact: a number and the ends of its interval are whole
multiples of a quarter of its last binary place, and they are compared with
multiples of a power of ten by cross-multiplication.
-/

namespace TestProgram.Shortest

/-- A positive floating-point number `mantissa * 2 ^ exponent` in quarters of
its last place, with the interval of the reals that round to it. -/
structure Interval where
  value : Nat
  low : Nat
  high : Nat
  /-- Whether the ends round to the number as well. -/
  closed : Bool
  /-- The power of two that one quarter stands for. -/
  exponent : Int

/-- The neighbours of a number are one last place away, except that the lower
neighbour of a power of two is half as far. Ties round to even mantissas. -/
def interval (mantissa : Nat) (exponent : Int) : Interval where
  value := 4 * mantissa
  low := 4 * mantissa - if mantissa = twoTo 52 ∧ -1074 < exponent then 1 else 2
  high := 4 * mantissa + 2
  closed := mantissa % 2 == 0
  exponent := exponent - 2

/-- The number of decimal digits of a positive whole number. -/
def width (n : Nat) : Nat := (Nat.toDigits 10 n).length

/-- The number of digits before the decimal point of a positive quotient;
zero or negative when the quotient is below one. -/
def magnitude (num den : Nat) : Int :=
  if den ≤ num then width (num / den) else 1 - (width ((den - 1) / num) : Int)

/-- The nearer of the two multiples of a power of ten around the number that
lie in its interval, if any does. `left` and `right` bring quarters and the
power of ten to one unit. -/
def candidate? (i : Interval) (left right : Nat) : Option Nat :=
  let value := i.value * left
  let below := value / right
  let low := i.low * left
  let high := i.high * left
  let belowFits := low < below * right ∨ (i.closed ∧ low = below * right)
  let aboveFits := (below + 1) * right < high ∨ (i.closed ∧ (below + 1) * right = high)
  if belowFits ∧ aboveFits then
    some (if 2 * (value - below * right) < right then below else below + 1)
  else if belowFits then some below
  else if aboveFits then some (below + 1)
  else none

/-- Tries `count` digits, then more, for at most `left` rounds. Seventeen
digits always suffice. -/
def search (i : Interval) (point : Int) : (left count : Nat) → Decimal
  | 0, _ => ⟨0, 0⟩
  | left + 1, count =>
    let power := point - count
    let scale := twoTo i.exponent.toNat * tenTo (-power).toNat
    let unit := twoTo (-i.exponent).toNat * tenTo power.toNat
    match candidate? i scale unit with
    | some coefficient => ⟨coefficient, power⟩
    | none => search i point left (count + 1)

/-- Moves the zeros at the end of the coefficient into the exponent. -/
def strip : (fuel : Nat) → Decimal → Decimal
  | 0, d => d
  | fuel + 1, d =>
    if d.coefficient ≠ 0 ∧ d.coefficient % 10 = 0 then strip fuel ⟨d.coefficient / 10, d.exponent + 1⟩
    else d

/-- The shortest decimal that reads back as the positive floating-point
number `mantissa * 2 ^ exponent`. -/
def shortest (mantissa : Nat) (exponent : Int) : Decimal :=
  let i := interval mantissa exponent
  let point := magnitude (mantissa * twoTo exponent.toNat) (twoTo (-exponent).toNat)
  strip 20 (search i point 17 1)

end TestProgram.Shortest
