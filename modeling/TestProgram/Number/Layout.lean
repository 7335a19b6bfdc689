import TestProgram.Number.Binary
import TestProgram.Number.Shortest

/-!
# Numbers on paper

How a floating-point number is written: its shortest digits, laid out either
with a decimal point or with an exponent (`Layout.text`), or a fixed number
of places after the point (`fixedText`). Which layout is used where is a
decision of the formats that use them, recorded as a `Layout`.
-/

namespace TestProgram

/-- A choice of notation for floating-point numbers. -/
structure Layout where
  /-- Numbers whose decimal point falls outside this range (counted in digits
  before the point) are written with an exponent; without a range none is. -/
  positional : Option (Int × Int)
  /-- The least number of digits after the point in positional notation. -/
  fraction : Nat

namespace Layout

/-- Messages and listings: positional whatever the size, and no point after
a whole number. -/
def plain : Layout := ⟨none, 0⟩

/-- Dumps of data: a whole number ends in `.0`, and numbers below `1e-4` or
from `1e16` on have an exponent. -/
def data : Layout := ⟨some (-3, 16), 1⟩

def zeros (n : Nat) : List Char := List.replicate n '0'

/-- Digits with a decimal point after the first `point` of them. -/
def positionalText (fraction : Nat) (digits : List Char) (point : Int) : List Char :=
  let whole := if point ≤ 0 then ['0'] else digits.take point.toNat ++ zeros (point.toNat - digits.length)
  let rest := if point ≤ 0 then zeros (-point).toNat ++ digits else digits.drop point.toNat
  let rest := rest ++ zeros (fraction - rest.length)
  if rest.isEmpty then whole else whole ++ '.' :: rest

/-- Digits with a point after the first one and the power of ten after `e`. -/
def exponentText (digits : List Char) (point : Int) : List Char :=
  let rest := digits.drop 1
  digits.take 1 ++ (if rest.isEmpty then [] else '.' :: rest) ++ 'e' :: (toString (point - 1)).toList

/-- The digits of a magnitude in this notation. -/
def magnitudeText (layout : Layout) (mantissa : Nat) (exponent : Int) : List Char :=
  if mantissa = 0 then positionalText layout.fraction ['0'] 1
  else
    let d := Shortest.shortest mantissa exponent
    match layout.positional with
    | none => positionalText layout.fraction d.digits d.point
    | some (low, high) =>
      if low ≤ d.point ∧ d.point ≤ high then positionalText layout.fraction d.digits d.point
      else exponentText d.digits d.point

/-- A floating-point number in this notation. -/
def text (layout : Layout) (x : Float) : String :=
  match Binary.ofFloat? x with
  | some b => String.ofList ((if b.negative then ['-'] else []) ++ layout.magnitudeText b.mantissa b.exponent)
  | none => if x.isNaN then "NaN" else if x > 0 then "inf" else "-inf"

end Layout

/-- The nearest whole number to a quotient; a half goes to the even
neighbour. -/
def roundHalfEven (num den : Nat) : Nat :=
  let below := num / den
  let rest := 2 * (num % den)
  if rest < den then below
  else if den < rest then below + 1
  else if below % 2 = 0 then below else below + 1

/-- A number with exactly `places` digits after the point. -/
def fixedText (places : Nat) (x : Float) : String :=
  match Binary.ofFloat? x with
  | some b =>
    let scaled := roundHalfEven (b.ratio.1 * tenTo places) b.ratio.2
    let rest := Nat.toDigits 10 (scaled % tenTo places)
    let whole := Nat.toDigits 10 (scaled / tenTo places)
    String.ofList ((if b.negative then ['-'] else []) ++ whole
      ++ (if places = 0 then [] else '.' :: (Layout.zeros (places - rest.length) ++ rest)))
  | none => Layout.plain.text x

end TestProgram
