import TestProgram.Config
import TestProgram.Pattern.Item
import TestProgram.Text.Lines

/-!
# Vector tables

The pattern files of testers that read a table of vectors, one line a vector:
a field of microcode, the timeset, and a column of states for each pin.
-/

namespace TestProgram.VectorTable

/-- What the microcode field of a vector tells the tester. -/
inductive Microcode where
  | none
  | call (target : String)
  /-- Capture the device's answer. -/
  | store
  /-- Hold the vector for a number of cycles. -/
  | repeat (count : Nat)
  deriving DecidableEq, Repr

def Microcode.text : Microcode → String
  | .none => ""
  | .call target => "call " ++ target
  | .store => "stv"
  | .repeat count => s!"repeat {count}"

/-- The field holds one instruction: a call goes before a store, and a store
before a repeat. -/
def microcode (r : VectorRecord) : Microcode :=
  match r.call with
  | some target => .call target
  | none => if r.store then .store else if 1 < r.count then .repeat r.count else .none

/-- The states of a vector, a space between two pins. -/
def columns (states : List PinState) : String :=
  " ".intercalate (states.map fun s => s.symbol.toString)

def vectorLine (r : VectorRecord) : String :=
  Text.padRight 24 (microcode r).text ++ "> " ++ r.timeset ++ " " ++ columns r.states ++ " ;"

/-- The line before a labelled vector. -/
def labelLine (defined : List String) (label : String) : String :=
  if defined.contains label then "global subr " ++ label ++ ":" else label ++ ":"

def itemLines (limit : Option Nat) (defined : List String) : Item → Except RenderFault (List String)
  | .vector r =>
    match limit.filter (· < r.count) with
    | some limit => .error (.repeatTooLong r.count limit)
    | none => .ok ((r.label.map (labelLine defined)).toList ++ [vectorLine r])
  | .comment text => .ok ["// " ++ text]
  | .loopStart label count => .ok [s!"{label}: set_loop_a {count} ;"]
  | .loopEnd label => .ok ["end_loop_a " ++ label ++ " ;"]

/-- What stands before the vectors. -/
def opening (p : Pattern) : List String :=
  (if p.timesets.isEmpty then []
    else ["import tset " ++ ", ".intercalate (p.timesets.map Timeset.name) ++ ";"])
  ++ p.imported.map (fun name => "import svm_subr " ++ name ++ ";")
  ++ ["vector ($tset, " ++ ", ".intercalate p.pins ++ ")", "\x7b", "start_label " ++ p.name ++ "_st:"]

def lines (limit : Option Nat) (p : Pattern) : Except RenderFault (List String) := do
  let body ← p.items.mapM (itemLines limit p.defined)
  pure (opening p ++ body.flatten ++ ["\x7d"])

end TestProgram.VectorTable
