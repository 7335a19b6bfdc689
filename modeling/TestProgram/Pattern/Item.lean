import TestProgram.Pin.State
import TestProgram.Timing.Timeset
import TestProgram.Warning

/-!
# Patterns

A pattern is a list of items: vectors that the tester holds for a number of
cycles, comments, and the ends of hardware loops.
-/

namespace TestProgram

/-- One vector, held for `count` cycles. -/
structure VectorRecord where
  states : List PinState
  count : Nat
  timeset : String
  /-- The subroutine called from this vector. -/
  call : Option String
  /-- Whether the tester captures the device's answer. -/
  store : Bool
  label : Option String
  /-- The number of cycles that belong together. -/
  group : Nat
  /-- The cycle at which the vector begins. -/
  start : Nat
  deriving DecidableEq, Repr

inductive Item where
  | vector (record : VectorRecord)
  | comment (text : String)
  | loopStart (label : String) (count : Nat)
  | loopEnd (label : String)
  deriving DecidableEq, Repr

/-- The vector that an item is. -/
def Item.vector? : Item → Option VectorRecord
  | .vector r => some r
  | _ => none

def Item.isVector (i : Item) : Bool := i.vector?.isSome

/-- A finished pattern. -/
structure Pattern where
  name : String
  pins : List String
  items : List Item
  /-- The timesets of the vectors in order of first use. -/
  timesets : List Timeset
  /-- The subroutines that are called and not defined. -/
  imported : List String
  defined : List String
  /-- The cycles written, each loop body counted once. -/
  cycles : Nat
  /-- The cycles the tester executes. -/
  executed : Nat
  warnings : List Warning

/-- The cycles that vectors are held for. -/
def totalCount : List VectorRecord → Nat
  | [] => 0
  | r :: records => r.count + totalCount records

namespace Pattern

def vectors (p : Pattern) : List VectorRecord := p.items.filterMap Item.vector?

/-- The cycles held by all vectors together. -/
def heldCycles (p : Pattern) : Nat := totalCount p.vectors

end Pattern

end TestProgram
