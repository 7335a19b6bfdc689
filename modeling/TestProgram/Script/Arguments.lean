import TestProgram.Diagnostic
import TestProgram.Script.Tree

/-!
# Arguments of statements

What a statement finds at its places: words, counts, bits, times, lists of
pins and blocks, each with the misuse that is reported when something else
is found.
-/

namespace TestProgram

namespace Statement

def misuse (span : Span) (m : Misuse) : Except Diagnostic α := .error ⟨.misuse m, some span⟩

/-- The word at a place that is known to hold a value or nothing. -/
def wordOf (s : Statement) (wanted : Wanted) : Option Value → Except Diagnostic String
  | some (.word w) => .ok w.text
  | some v => misuse v.span (.unfit s.name wanted v.cell)
  | none => misuse s.span (.missing s.name wanted)

def word (s : Statement) (i : Nat) (wanted : Wanted) : Except Diagnostic String :=
  s.wordOf wanted s.values[i]?

/-- The largest count up to which every whole number is a floating-point
number: `2 ^ 53`. -/
def largestCount : Nat := 9007199254740992

/-- The count that a value is. -/
def countOf (s : Statement) : Value → Except Diagnostic Nat
  | .number x span =>
    match Binary.ofFloat? x with
    | some b =>
      if !b.isWhole || (b.negative && b.mantissa ≠ 0) then misuse span (.notWhole s.name x)
      else if largestCount < b.floor then misuse span (.tooLarge s.name x)
      else .ok b.floor
    | none => misuse span (.notWhole s.name x)
  | v => misuse v.span (.unfit s.name .count v.cell)

def count (s : Statement) (i : Nat) : Except Diagnostic Nat :=
  match s.values[i]? with
  | some v => s.countOf v
  | none => misuse s.span (.missing s.name .count)

/-- A count that may be left out. -/
def count? (s : Statement) (i : Nat) : Except Diagnostic (Option Nat) :=
  match s.values[i]? with
  | some v => do
    let n ← s.countOf v
    pure (some n)
  | none => .ok none

def bit (s : Statement) (i : Nat) : Except Diagnostic Bool := do
  match ← s.count i with
  | 0 => pure false
  | 1 => pure true
  | n => misuse ((s.values[i]?.map Value.span).getD s.span) (.notBit s.name n)

def time (s : Statement) (i : Nat) : Except Diagnostic Duration :=
  match s.values[i]? with
  | some (.duration d _) => .ok d
  | some v => misuse v.span (.unfit s.name .time v.cell)
  | none => misuse s.span (.missing s.name .time)

/-- A time that may be left out. -/
def time? (s : Statement) (i : Nat) : Except Diagnostic (Option Duration) :=
  match s.values[i]? with
  | some _ => do
    let d ← s.time i
    pure (some d)
  | none => .ok none

/-- The words that the arguments without a key are, at least one. -/
def words (s : Statement) : Except Diagnostic (List String) :=
  match s.values with
  | [] => misuse s.span (.noPins s.name)
  | vs => vs.mapM fun v => s.wordOf .pinName (some v)

def needBlock (s : Statement) : Except Diagnostic (List Statement) :=
  match s.block with
  | some body => .ok body
  | none => misuse s.span (.needsBlock s.name)

def refuseBlock (s : Statement) : Except Diagnostic Unit :=
  match s.block with
  | some _ => misuse s.span (.takesNoBlock s.name)
  | none => .ok ()

end Statement

end TestProgram
