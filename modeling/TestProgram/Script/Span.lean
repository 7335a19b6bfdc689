/-!
# Places in a script

A place is a range of bytes of the script's text in UTF-8.
-/

namespace TestProgram

structure Span where
  start : Nat
  stop : Nat
  deriving DecidableEq, Repr

namespace Span

/-- From the start of one place to the end of another. -/
def through (s t : Span) : Span := ⟨s.start, t.stop⟩

/-- Whether a place lies inside another one. -/
def within (s t : Span) : Prop := t.start ≤ s.start ∧ s.stop ≤ t.stop

end Span

/-- The number of bytes of a text. -/
def byteLength : List Char → Nat
  | [] => 0
  | c :: cs => c.utf8Size + byteLength cs

end TestProgram
