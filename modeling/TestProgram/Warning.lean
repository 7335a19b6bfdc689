import TestProgram.Timing.Frequency

/-!
# Warnings

The conditions that are reported and do not stop generation. Each has a code
that never changes its meaning, a message, and sometimes a hint.
-/

namespace TestProgram

/-- Codes of diagnostics: errors begin with `E` and warnings with `W`. -/
inductive Code where
  | E0001 | E0002 | E0100 | W0101 | W0102 | W0103 | W0201 | W0301
  deriving DecidableEq, Repr

namespace Code

def text : Code → String
  | E0001 => "E0001"
  | E0002 => "E0002"
  | E0100 => "E0100"
  | W0101 => "W0101"
  | W0102 => "W0102"
  | W0103 => "W0103"
  | W0201 => "W0201"
  | W0301 => "W0301"

def isError : Code → Bool
  | E0001 | E0002 | E0100 => true
  | _ => false

end Code

inductive Warning where
  /-- A clock's half period is not a whole number of cycles. -/
  | clockRounded (pin : String) (frequency : Frequency) (half : HalfPeriod) (period : Option Duration)
  | clockAcrossLoop (label : String)
  | repeatRounded (count rounded group : Nat)
  /-- A name is taken by another sheet of the same kind. -/
  | sharedName (kind name sheet owner : String)
  | unknownAttribute (line key : String)

namespace Warning

def code : Warning → Code
  | clockRounded .. => .W0101
  | clockAcrossLoop .. => .W0102
  | repeatRounded .. => .W0103
  | sharedName .. => .W0201
  | unknownAttribute .. => .W0301

def message : Warning → String
  | clockRounded pin frequency half period =>
    s!"clock on pin '{pin}' at {frequency.text} needs {fixedText 3 half.requested} cycles per half period "
      ++ "at " ++ (period.map Duration.text).getD "" ++ s!"; using {half.cycles}"
  | clockAcrossLoop label =>
    s!"clock running across loop '{label}'; its phase is only correct for the first iteration"
  | repeatRounded count rounded group =>
    s!"repeat {count} rounded up to {rounded} for vector group size {group}"
  | sharedName kind name sheet owner =>
    s!"{kind} '{name}' generated by sheet '{sheet}' was already generated by '{owner}'"
  | unknownAttribute line key => s!"flow line '{line}': unknown attribute '{key}' ignored"

def hint : Warning → Option String
  | clockRounded .. => some "choose a clock frequency that divides the timeset period evenly"
  | _ => none

end Warning

end TestProgram
