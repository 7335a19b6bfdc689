import TestProgram.Sequencer.Vectors

/-!
# Scopes

A scope is a setting under which a body runs: a timeset, a hardware loop,
masks on pins, or recording switched off. A body is a function on the
sequencer. Whatever it answers is passed on, and the scope is closed in the
same way whether that is a success or not (`Sequencer.within`). A scope that
fails to open does not run its body.
-/

namespace TestProgram

namespace Sequencer

/-- Runs a body under a timeset, and then activates again the one before. -/
def withTimeset (c : Sequencer) (name : String) (period : Option Duration)
    (body : Sequencer → β × Sequencer) : Except Fault β × Sequencer :=
  match c.setTimeset name period with
  | (.error e, c') => (.error e, c')
  | (.ok (), c') =>
    let (b, c') := body c'
    (.ok b, { c' with timing := c'.timing.restore c.timing.active })

/-- Runs a body inside a hardware loop. The body is recorded once; the tester
executes it `count` times. -/
def loop (c : Sequencer) (label : String) (count : Nat) (body : Sequencer → β × Sequencer) :
    Except Fault β × Sequencer :=
  let c := c.touch
  if count = 0 then (.error (.invalidRepeat 0), c)
  else if count = 1 then
    let (b, c) := body c
    (.ok b, c)
  else
    let c := if c.clocks.anyRunning then c.warn (.clockAcrossLoop label) else c
    let recording : Bool := c.inhibitVectors = 0
    let saved := c.loopFactor
    let c := if recording then c.withTape (c.bench.tape.push (.loopStart label count)) else c
    let (b, c) := body { c with loopFactor := Word.mul saved count }
    let c := { c with loopFactor := saved }
    (.ok b, if recording then c.withTape (c.bench.tape.push (.loopEnd label)) else c)

/-- Runs a body with comparisons masked on some pins. -/
def ignoreFails (c : Sequencer) (pins : List String) (body : Sequencer → β × Sequencer) :
    Except Fault β × Sequencer :=
  let c := c.touch
  match c.pins.ids pins with
  | .error e => (.error e, c)
  | .ok ids =>
    let (b, c) := body (c.withPins (ids.foldl Pinout.mask c.pins))
    (.ok b, c.withPins (ids.foldl Pinout.unmask c.pins))

/-- Runs a body without recording vectors or comments. Pins still change. -/
def withoutVectors (c : Sequencer) (body : Sequencer → β × Sequencer) : β × Sequencer :=
  let c := c.touch
  let (b, c) := body { c with inhibitVectors := c.inhibitVectors + 1 }
  (b, { c with inhibitVectors := c.inhibitVectors - 1 })

/-- Runs a body without recording comments. -/
def withoutComments (c : Sequencer) (body : Sequencer → β × Sequencer) : β × Sequencer :=
  let c := c.touch
  let (b, c) := body { c with inhibitComments := c.inhibitComments + 1 }
  (b, { c with inhibitComments := c.inhibitComments - 1 })

end Sequencer

inductive Scope where
  | timeset (name : String) (period : Option Duration)
  | loop (label : String) (count : Nat)
  | ignoreFails (pins : List String)
  | withoutVectors
  | withoutComments
  deriving DecidableEq, Repr

/-- Runs a body in a scope: the body's answer, or why the scope cannot open. -/
def Sequencer.within (c : Sequencer) (s : Scope) (body : Sequencer → β × Sequencer) :
    Except Fault β × Sequencer :=
  match s with
  | .timeset name period => c.withTimeset name period body
  | .loop label count => c.loop label count body
  | .ignoreFails pins => c.ignoreFails pins body
  | .withoutVectors =>
    let (b, c) := c.withoutVectors body
    (.ok b, c)
  | .withoutComments =>
    let (b, c) := c.withoutComments body
    (.ok b, c)

end TestProgram
