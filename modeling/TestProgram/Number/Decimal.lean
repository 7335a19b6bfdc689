/-!
# Decimal numbers

A decimal number is a coefficient and a power of ten. `Decimal.toFloat`
takes it to the nearest floating-point number; `Decimal.digits` and
`Decimal.point` say how it is laid out on paper.
-/

namespace TestProgram

/-- The number `coefficient * 10 ^ exponent`. -/
structure Decimal where
  coefficient : Nat
  exponent : Int
  deriving DecidableEq, Repr

namespace Decimal

/-- The nearest floating-point number; of two equally near ones the one with
the even mantissa. -/
def toFloat (d : Decimal) : Float :=
  if 0 ≤ d.exponent then Float.ofScientific d.coefficient false d.exponent.toNat
  else Float.ofScientific d.coefficient true (-d.exponent).toNat

/-- The digits of the coefficient, most significant first. -/
def digits (d : Decimal) : List Char := Nat.toDigits 10 d.coefficient

/-- How many digits of the number stand before the decimal point. Negative
when zeros follow the point. -/
def point (d : Decimal) : Int := d.digits.length + d.exponent

end Decimal

end TestProgram
