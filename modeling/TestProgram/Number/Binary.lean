import TestProgram.Number.Power
import TestProgram.Number.Word

/-!
# The exact value of a floating-point number

A finite `Float` is a binary fraction: a sign, a whole mantissa and a power
of two (`Binary.ofFloat?`). Whole parts, roundings and the test for a whole
number are computed on that fraction in `Nat`, so nothing here depends on
floating-point rounding.
-/

namespace TestProgram

/-- The number `± mantissa * 2 ^ exponent`. -/
structure Binary where
  negative : Bool
  mantissa : Nat
  exponent : Int
  deriving DecidableEq, Repr

namespace Binary

/-- The fields of the 64-bit interchange format: sign, 11 bits of exponent,
52 bits of fraction. Infinities and NaN have no value. -/
def ofFloat? (x : Float) : Option Binary :=
  let bits := x.toBits.toNat
  let negative := bits / twoTo 63 % 2 == 1
  let biased : Nat := bits / twoTo 52 % twoTo 11
  let fraction : Nat := bits % twoTo 52
  if biased = 2047 then none
  else if biased = 0 then some ⟨negative, fraction, -1074⟩
  else some ⟨negative, fraction + twoTo 52, (biased : Int) - 1075⟩

/-- The magnitude as a quotient of two whole numbers. -/
def ratio (b : Binary) : Nat × Nat :=
  (b.mantissa * twoTo b.exponent.toNat, twoTo (-b.exponent).toNat)

/-- The magnitude without its fraction. -/
def floor (b : Binary) : Nat := b.ratio.1 / b.ratio.2

/-- The whole number nearest to the magnitude; a half goes up. -/
def round (b : Binary) : Nat := (2 * b.ratio.1 + b.ratio.2) / (2 * b.ratio.2)

/-- Whether the number has no fraction. -/
def isWhole (b : Binary) : Bool := b.ratio.1 % b.ratio.2 == 0

end Binary

/-- The count in a floating-point number: its whole part, zero below zero
and for NaN, the largest count above the range. -/
def Word.truncate (x : Float) : Nat :=
  match Binary.ofFloat? x with
  | some b => if b.negative then 0 else Word.clamp b.floor
  | none => if x > 0 then Word.largest else 0

end TestProgram
