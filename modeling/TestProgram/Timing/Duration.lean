import TestProgram.Number.Layout

/-!
# Durations

A duration is a whole number of picoseconds in a 64-bit word. It is read from
a number and a unit (`Duration.ofUnits`), written in the largest unit that
leaves no fraction (`Duration.text`), and measured in periods (`cyclesIn`).
-/

namespace TestProgram

structure Duration where
  picoseconds : Nat
  deriving DecidableEq, Repr, Inhabited

/-- The units durations are written in. -/
inductive TimeUnit where
  | ps | ns | us | ms | s
  deriving DecidableEq, Repr

namespace TimeUnit

/-- The picoseconds in one unit. -/
def scale : TimeUnit → Nat
  | ps => 1
  | ns => 1000
  | us => 1000000
  | ms => 1000000000
  | s => 1000000000000

def text : TimeUnit → String
  | ps => "ps"
  | ns => "ns"
  | us => "us"
  | ms => "ms"
  | s => "s"

/-- The units from the largest to the smallest. -/
def descending : List TimeUnit := [s, ms, us, ns, ps]

end TimeUnit

namespace Duration

def zero : Duration := ⟨0⟩

def isZero (d : Duration) : Bool := d.picoseconds == 0

/-- The nearest whole number of picoseconds, a half going up. Numbers below
zero, infinities and NaN give the zero duration. -/
def ofPicoseconds (x : Float) : Duration :=
  match Binary.ofFloat? x with
  | some b => if b.negative then zero else ⟨Word.clamp b.round⟩
  | none => zero

/-- A duration of `x` units. -/
def ofUnits (unit : TimeUnit) (x : Float) : Duration :=
  match unit with
  | .ps => ofPicoseconds x
  | unit => ofPicoseconds (x * Float.ofNat unit.scale)

def nanoseconds (d : Duration) : Float := Float.ofNat d.picoseconds / 1000

/-- The length of `cycles` periods, stopped at the largest duration. -/
def times (d : Duration) (cycles : Nat) : Duration := ⟨Word.mul d.picoseconds cycles⟩

/-- The duration in the largest unit that divides it. -/
def text (d : Duration) : String :=
  if d.isZero then "0ns"
  else match TimeUnit.descending.find? fun u => d.picoseconds % u.scale == 0 with
    | some u => toString (d.picoseconds / u.scale) ++ u.text
    | none => "0ns"

end Duration

/-- What becomes of a cycle that a duration fills only in part. -/
inductive Rounding where
  /-- It counts: a wait is never cut short. -/
  | ceil
  /-- It is dropped. -/
  | truncate
  deriving DecidableEq, Repr, Inhabited

/-- The number of periods in a duration. -/
def cyclesIn (duration period : Duration) : Rounding → Nat
  | .ceil => Word.ceilDiv duration.picoseconds period.picoseconds
  | .truncate => duration.picoseconds / period.picoseconds

end TestProgram
