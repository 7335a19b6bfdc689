import TestProgram.Clock.Slices
import TestProgram.Pattern.Item

/-!
# Recording vectors

A `Tape` records the items of a pattern and counts its cycles. A `Bench` is a
tape together with the pins and clocks whose states it records.

`Bench.hold` holds the present vector for a number of cycles. The run is cut
at clock edges into slices, and each slice into pieces that respect the
largest repeat count of the platform and keep vector groups whole
(`pieces`). One-shot marks go to the first piece of the run; a stored first
piece is one vector group long. `Tape.markStore` marks a vector that has
been recorded already.
-/

namespace TestProgram

/-! ## Dividing a number of cycles -/

/-- The fewest parts of `n` that respect a ceiling, as equal as possible, the
larger ones first. -/
def splitEvenly (n : Nat) : Option Nat → List Nat
  | none => [n]
  | some ceiling =>
    let size := max ceiling 1
    if n ≤ size then [n]
    else
      let parts := Word.ceilDiv n size
      List.replicate (n % parts) (n / parts + 1) ++ List.replicate (parts - n % parts) (n / parts)

/-- The parts of `n` under a ceiling. They are made of whole vector groups
where `n` is and the ceiling has room for a group. -/
def chunks (ceiling : Option Nat) (group n : Nat) : List Nat :=
  if 1 < group ∧ n % group = 0 ∧ ceiling.all (group ≤ ·) then
    (splitEvenly (n / group) (ceiling.map (· / group))).map (· * group)
  else splitEvenly n ceiling

/-- The lengths of the records of a slice: the stored group first, if one is
to be stored, and then the chunks of the rest. -/
def pieces (ceiling : Option Nat) (store : Bool) (group n : Nat) : List Nat :=
  if store ∧ group < n then group :: chunks ceiling group (n - group) else chunks ceiling group n

/-! ## The tape -/

/-- What applies to a run besides its vector. All but the group size apply to
its first record only. -/
structure Marks where
  store : Bool
  label : Option String
  call : Option String
  group : Nat
  deriving DecidableEq, Repr

namespace Marks

/-- The marks left when the first record has taken its share. -/
def rest (m : Marks) : Marks := ⟨false, none, none, m.group⟩

/-- The size of vector groups, at least one. -/
def unit (m : Marks) : Nat := max m.group 1

end Marks

structure Tape where
  /-- The items, the latest one first. -/
  recent : List Item
  /-- The cycle at which the next record begins. -/
  cycle : Nat
  /-- The largest repeat count of a record. -/
  ceiling : Option Nat
  deriving DecidableEq, Repr

namespace Tape

def blank (ceiling : Option Nat) : Tape := ⟨[], 0, ceiling⟩

/-- The items in order. -/
def items (t : Tape) : List Item := t.recent.reverse

def vectorCount (t : Tape) : Nat := t.recent.countP Item.isVector

def push (t : Tape) (i : Item) : Tape := { t with recent := i :: t.recent }

/-- Records a vector for `count` cycles. -/
def record (t : Tape) (states : List PinState) (timeset : String) (m : Marks) (count : Nat) : Tape where
  recent := .vector ⟨states, count, timeset, m.call, m.store, m.label, m.group, t.cycle⟩ :: t.recent
  cycle := t.cycle + count
  ceiling := t.ceiling

/-- Records a vector piece by piece; the marks go to the first piece. -/
def recordPieces (t : Tape) (states : List PinState) (timeset : String) (m : Marks) : List Nat → Tape
  | [] => t
  | n :: ns => (t.record states timeset m n).recordPieces states timeset m.rest ns

/-- Records a vector for the `n` cycles of a slice. -/
def recordSlice (t : Tape) (states : List PinState) (timeset : String) (m : Marks) (n : Nat) : Tape :=
  t.recordPieces states timeset m (pieces t.ceiling m.store m.unit n)

/-- A record with a store mark on its last vector group, the latest part
first. A record that is longer than the group is cut in two. -/
def storeTail (r : VectorRecord) : List Item :=
  let tail := max r.group 1
  if r.count ≤ tail then [.vector { r with store := true }]
  else
    [.vector { r with
      count := tail, call := none, label := none, store := true, start := r.start + (r.count - tail) },
     .vector { r with count := r.count - tail }]

/-- Marks the vector that has `skip` vectors after it, if there is one. -/
def storeBack : List Item → (skip : Nat) → Option (List Item)
  | [], _ => none
  | .vector r :: rest, 0 => some (storeTail r ++ rest)
  | .vector r :: rest, skip + 1 => (storeBack rest skip).map (.vector r :: ·)
  | i :: rest, skip => (storeBack rest skip).map (i :: ·)

/-- Marks the vector `offset` records back for capture, the last one being
one record back. -/
def markStore (t : Tape) (offset : Nat) : Except Fault Tape :=
  let outOfRange : Except Fault Tape := .error (.storeOffset offset t.vectorCount)
  match offset with
  | 0 => outOfRange
  | skip + 1 => match storeBack t.recent skip with
    | some recent => .ok { t with recent }
    | none => outOfRange

end Tape

/-! ## The bench -/

/-- Pins, clocks and the tape that records them. -/
structure Bench where
  pins : Pinout
  clocks : ClockBank
  tape : Tape
  deriving DecidableEq

namespace Bench

/-- One clock edge: the pin toggles and its clock counts on. -/
def toggle (b : Bench) (pin : PinId) : Bench :=
  { b with pins := b.pins.toggle pin, clocks := b.clocks.advance pin }

/-- Records the slices of a run, with the edges at their ends. -/
def holdSlices (timeset : String) : Bench → Marks → List Slice → Bench
  | b, _, [] => b
  | b, m, s :: slices =>
    let b := { b with tape := b.tape.recordSlice b.pins.snapshot timeset m s.count }
    holdSlices timeset (s.toggles.foldl toggle b) m.rest slices

/-- The first clock edge of a run that falls inside a vector group. -/
def edgeInGroup? (group : Nat) : (now : Nat) → List Slice → Option Nat
  | now, s :: t :: slices =>
    if s.count % group ≠ 0 then some (now + s.count) else edgeInGroup? group (now + s.count) (t :: slices)
  | _, _ => none

/-- Holds the present vector for `count` cycles under a timeset. -/
def hold (b : Bench) (timeset : Timeset) (count : Nat) (m : Marks) : Except Fault Bench :=
  if count = 0 then .error (.invalidRepeat 0)
  else if timeset.period.isNone then .error (.noActiveTimeset "vector emission")
  else
    let slices := b.clocks.slices count b.tape.cycle
    match edgeInGroup? m.unit b.tape.cycle slices with
    | some cycle => .error (.clockInsideGroup cycle m.group)
    | none => .ok (holdSlices timeset.name b m slices)

end Bench

end TestProgram
