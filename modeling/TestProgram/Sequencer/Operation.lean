import TestProgram.Render
import TestProgram.Sequencer.Finish
import TestProgram.Sequencer.Replay
import TestProgram.Sequencer.Scope

/-!
# Programs for the sequencer

An `Operation` is a request to a sequencer as data, scopes with their bodies
included, so that whole programs can be talked about. `Operation.perform`
carries one out and `Operation.performBody` a body, which ends at the first
operation that fails. Every step leaves an entry in a log; the entries of a
body come before the entry of its scope.
-/

namespace TestProgram

inductive Operation where
  | setPin (pin : String) (state : PinState)
  | pinState (pin : String)
  | setTimeset (name : String) (period : Option Duration)
  | addWave (timeset pin : String) (drive compare : Option String)
  | enableClock (pin : String) (frequency : Frequency)
  | startClock (pin : String)
  | stopClock (pin : String)
  | pauseClock (pin : String)
  | resumeClock (pin : String) (frequency : Option Frequency)
  | hold (count : Option Nat) (timeset : Option String)
  | delay (count : Nat)
  | wait (duration : Duration)
  | store (offset : Nat)
  | label (name : String)
  | comment (text : String)
  | call (name : String)
  | define (name : String)
  | imported
  | items
  | setGroup (group : Nat)
  | threads (threads : List Thread)
  /-- Closes the pattern, and writes it for some platforms. -/
  | finish (platforms : List Platform)
  | scope (s : Scope) (body : List Operation)
  /-- Runs a body as it stands. -/
  | block (body : List Operation)
  /-- Runs a body and goes on if it fails. -/
  | attempt (body : List Operation)

/-- What an operation answers. -/
inductive Answer where
  | done
  | state (s : PinState)
  | names (names : List String)
  | items (items : List Item)
  | finished (pattern : Pattern) (texts : List (Platform × Except Fault String))

/-- A step that was carried out. -/
structure LogEntry where
  operation : Operation
  answer : Except Fault Answer
  /-- The sequencer after the step. -/
  after : Sequencer

/-- The outcome of an operation or a body. -/
structure Performance (α : Type) where
  answer : Except Fault α
  log : List LogEntry
  after : Sequencer

namespace Performance

/-- A step that answers `answer` after the steps in `log`. -/
def step (op : Operation) (log : List LogEntry) (answer : Except Fault Answer) (after : Sequencer) :
    Performance Answer :=
  ⟨answer, log ++ [⟨op, answer, after⟩], after⟩

/-- A step without an answer of its own. -/
def plain (op : Operation) (r : Except Fault Unit × Sequencer) : Performance Answer :=
  step op [] (r.1.map fun _ => .done) r.2

/-- A step that cannot fail. -/
def sure (op : Operation) (c : Sequencer) : Performance Answer := step op [] (.ok .done) c

/-- What a body hands to its scope. -/
def inner (p : Performance Unit) : (Except Fault Unit × List LogEntry) × Sequencer :=
  ((p.answer, p.log), p.after)

/-- A scope that ran its body, or failed to open. -/
def closed (op : Operation) :
    Except Fault (Except Fault Unit × List LogEntry) × Sequencer → Performance Answer
  | (.error e, c) => step op [] (.error e) c
  | (.ok (r, log), c) => step op log (r.map fun _ => .done) c

end Performance

namespace Operation

open Performance (step plain sure inner closed)

mutual

def perform : Operation → Sequencer → Performance Answer
  | op@(.setPin pin s), c => plain op (c.setPin pin s)
  | op@(.pinState pin), c => step op [] ((c.pinState pin).map .state) c
  | op@(.setTimeset name period), c => plain op (c.setTimeset name period)
  | op@(.addWave timeset pin drive compare), c => plain op (c.addWave timeset pin drive compare)
  | op@(.enableClock pin f), c => plain op (c.enableClock pin f)
  | op@(.startClock pin), c => plain op (c.startClock pin)
  | op@(.stopClock pin), c => plain op (c.stopClock pin)
  | op@(.pauseClock pin), c => plain op (c.pauseClock pin)
  | op@(.resumeClock pin f), c => plain op (c.resumeClock pin f)
  | op@(.hold count timeset), c => plain op (c.hold count timeset)
  | op@(.delay count), c => plain op (c.delay count)
  | op@(.wait d), c => plain op (c.wait d)
  | op@(.store offset), c => plain op (c.store offset)
  | op@(.label name), c => sure op (c.label name)
  | op@(.comment text), c => sure op (c.comment text)
  | op@(.call name), c => plain op (c.call name)
  | op@(.define name), c => sure op (c.define name)
  | op@.imported, c => step op [] (.ok (.names c.imported)) c
  | op@.items, c => step op [] (.ok (.items c.items)) c
  | op@(.setGroup group), c => plain op (c.setGroup group)
  | op@(.threads ts), c => plain op (c.runThreads ts)
  | op@(.finish platforms), c =>
    let (p, c) := c.finish
    step op [] (.ok (.finished p (platforms.map fun t => (t, t.render ["of " ++ p.name] p)))) c
  | op@(.scope s body), c => closed op (c.within s fun c => (performBody body c).inner)
  | op@(.block body), c =>
    let p := performBody body c
    closed op (.ok (p.answer, p.log), p.after)
  | op@(.attempt body), c =>
    let p := performBody body c
    closed op (.ok (.ok (), p.log), p.after)

/-- Carries out operations up to the first one that fails. -/
def performBody : List Operation → Sequencer → Performance Unit
  | [], c => ⟨.ok (), [], c⟩
  | op :: ops, c =>
    let first := perform op c
    match first.answer with
    | .error e => ⟨.error e, first.log, first.after⟩
    | .ok _ =>
      let rest := performBody ops first.after
      ⟨rest.answer, first.log ++ rest.log, rest.after⟩

end

/-- Carries out operations one after the other, whether they fail or not. -/
def performAll : List Operation → Sequencer → List LogEntry × Sequencer
  | [], c => ([], c)
  | op :: ops, c =>
    let first := perform op c
    let (log, last) := performAll ops first.after
    (first.log ++ log, last)

end Operation

end TestProgram
