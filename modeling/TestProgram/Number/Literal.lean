import TestProgram.Number.Decimal

/-!
# Numeric literals

The written forms of numbers. `Literal.mantissa` and `Literal.exponent` split
off the parts of an unsigned literal (`12`, `12.5`, `12.5e-3`) from the front
of a text; `Literal.decimal` is the value of a whole literal. `Real.read?`
accepts the wider grammar of free-standing real numbers: a sign, a point
without digits on one side, and words for infinity and NaN.
-/

namespace TestProgram

namespace Literal

/-- The digits at the front of a text, and what follows them. -/
def digits (cs : List Char) : List Char × List Char :=
  (cs.takeWhile Char.isDigit, cs.dropWhile Char.isDigit)

/-- The value of a row of digits. -/
def value (ds : List Char) : Nat := ds.foldl (fun n c => 10 * n + (c.toNat - '0'.toNat)) 0

/-- The length of a point and the digits after it; zero where there are no
digits to follow the point. -/
def fractionLength : List Char → Nat
  | '.' :: cs => match (digits cs).1 with
    | [] => 0
    | ds => ds.length + 1
  | _ => 0

/-- The length of digits with an optional fraction. -/
def mantissaLength (cs : List Char) : Nat :=
  let whole := (digits cs).1.length
  if whole = 0 then 0 else whole + fractionLength (digits cs).2

/-- The length of an exponent: a mark, an optional sign and digits; zero
without digits. -/
def exponentLength : List Char → Nat
  | c :: cs =>
    if c = 'e' ∨ c = 'E' then
      let sign := match cs with
        | '+' :: _ | '-' :: _ => 1
        | _ => 0
      match (digits (cs.drop sign)).1 with
      | [] => 0
      | ds => ds.length + sign + 1
    else 0
  | [] => 0

/-- The power of ten that an exponent stands for. -/
def exponentValue : List Char → Int
  | _ :: '-' :: ds => -(value ds : Int)
  | _ :: '+' :: ds => value ds
  | _ :: ds => value ds
  | [] => 0

/-- The value of digits, an optional point with digits, and an optional
exponent. -/
def decimal (cs : List Char) : Decimal :=
  let (whole, rest) := digits cs
  let (fraction, rest) := match rest with
    | '.' :: rest => digits rest
    | rest => ([], rest)
  ⟨value (whole ++ fraction), exponentValue rest - fraction.length⟩

end Literal

namespace Real

/-- Whether a text is digits with at most one point, at least one digit, and
an optional exponent. -/
def isUnsigned (cs : List Char) : Bool :=
  let (whole, rest) := Literal.digits cs
  let (fraction, rest) := match rest with
    | '.' :: rest => Literal.digits rest
    | rest => ([], rest)
  (!whole.isEmpty || !fraction.isEmpty) && Literal.exponentLength rest == rest.length

/-- The value of an unsigned text: a number, or a word for infinity or NaN in
any letter case. -/
def readUnsigned? (cs : List Char) : Option Float :=
  if isUnsigned cs then some (Literal.decimal cs).toFloat
  else match String.ofList (cs.map Char.toLower) with
    | "inf" | "infinity" => some (1 / 0)
    | "nan" => some (0 / 0)
    | _ => none

/-- The value of a real number with an optional sign. -/
def read? (s : String) : Option Float :=
  match s.toList with
  | '+' :: cs => readUnsigned? cs
  | '-' :: cs => (readUnsigned? cs).map fun x => -x
  | cs => readUnsigned? cs

end Real

end TestProgram
