/-!
# Relations between lines

A line can depend on the outcome of an earlier one: on whether it passed,
failed or ran. The earlier line, or a line after it, sets a flag for that
outcome, and the later line tests the flag.
-/

namespace TestProgram

inductive TestOutcome where
  | passed
  | failed
  | ran
  deriving DecidableEq, Repr

structure Relation where
  outcome : TestOutcome
  /-- Whether the line runs where the outcome did not occur. -/
  negated : Bool
  deriving DecidableEq, Repr

namespace Relation

/-- The relation that an attribute expresses. -/
def ofKey? : String → Option Relation
  | "if_passed" => some ⟨.passed, false⟩
  | "unless_passed" => some ⟨.passed, true⟩
  | "if_failed" => some ⟨.failed, false⟩
  | "unless_failed" => some ⟨.failed, true⟩
  | "if_ran" => some ⟨.ran, false⟩
  | "unless_ran" => some ⟨.ran, true⟩
  | _ => none

/-- What the sense column of a condition holds. -/
def sense (r : Relation) : String := if r.negated then "not" else ""

/-- The flag for an outcome of a line. -/
def flag (r : Relation) (target : String) : String :=
  target ++ match r.outcome with
    | .passed => "_PASSED"
    | .failed => "_FAILED"
    | .ran => "_RAN"

end Relation

end TestProgram
