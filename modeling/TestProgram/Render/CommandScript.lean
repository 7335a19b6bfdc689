import TestProgram.Pattern.Item
import TestProgram.Text.Lines

/-!
# Command scripts

Debuggers have no vector memory. A pattern becomes a script that sets the
pins and sleeps for as long as a vector would have been held
(`CommandScript.commands`). Pins are set only where the driven states differ
from those of the vector before.
-/

namespace TestProgram.CommandScript

/-- What a debugger is told to do. -/
inductive Command where
  | comment (text : String)
  | label (name : String)
  | setPins (values : List (String × PinState))
  | call (target : String)
  | sleep (duration : Duration)
  | repeatStart (count : Nat)
  | repeatEnd
  deriving DecidableEq, Repr

/-- The words of a debugger's language. -/
structure Dialect where
  comment : String
  setPins : String
  sleep : String
  call : String

def Dialect.jlink : Dialect := ⟨"//", "SetPins", "Sleep", "exec"⟩

def Dialect.bdm : Dialect := ⟨"//", "pins", "delay", "call"⟩

/-- The pins that a vector drives, with their states. -/
def driven (names : List String) (states : List PinState) : List (String × PinState) :=
  (names.zip states).filter fun p => p.2.role = .drive ∧ p.2 ≠ .dontCare

/-- The period of a timeset of the pattern. -/
def period (timesets : List Timeset) (name : String) : Except RenderFault Duration :=
  match (timesets.find? fun t => t.name == name).bind Timeset.period with
  | some d => .ok d
  | none => .error (.noPeriod name)

/-- The commands of a vector, after a vector that drove `last`. -/
def vectorCommands (p : Pattern) (last : Option (List (String × PinState))) (r : VectorRecord) :
    Except RenderFault (List Command) := do
  let values := driven p.pins r.states
  let period ← period p.timesets r.timeset
  pure ((r.label.map Command.label).toList
    ++ (if last = some values ∨ values = [] then [] else [.setPins values])
    ++ (r.call.map Command.call).toList
    ++ [.sleep (period.times r.count)])

/-- The commands of the items of a pattern, after a vector that drove `last`. -/
def commands (p : Pattern) : Option (List (String × PinState)) → List Item → Except RenderFault (List Command)
  | _, [] => .ok []
  | last, .vector r :: items => do
    let first ← vectorCommands p last r
    let rest ← commands p (some (driven p.pins r.states)) items
    pure (first ++ rest)
  | last, .comment text :: items => do
    let rest ← commands p last items
    pure (.comment text :: rest)
  | last, .loopStart _ count :: items => do
    let rest ← commands p last items
    pure (.repeatStart count :: rest)
  | last, .loopEnd _ :: items => do
    let rest ← commands p last items
    pure (.repeatEnd :: rest)

/-- A command on one line. -/
def Command.text (d : Dialect) : Command → String
  | .comment text => d.comment ++ " " ++ text
  | .label name => d.comment ++ " " ++ name ++ ":"
  | .setPins values =>
    d.setPins ++ " " ++ " ".intercalate (values.map fun v => v.1 ++ "=" ++ v.2.symbol.toString)
  | .call target => d.call ++ " " ++ target
  | .sleep duration => d.sleep ++ " " ++ Layout.plain.text duration.nanoseconds
  | .repeatStart count => s!"repeat {count}"
  | .repeatEnd => "endrepeat"

def lines (d : Dialect) (p : Pattern) : Except RenderFault (List String) := do
  let script ← commands p none p.items
  pure (script.map (Command.text d))

end TestProgram.CommandScript
