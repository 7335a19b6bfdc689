import TestProgram.Sequencer.Operation
import TestProgram.Script.Arguments

/-!
# Statements in patterns

What the statements in the body of a pattern ask of a sequencer: operations,
or a scope for their block (`Statement.action`). A statement that has no
meaning is misused, which is found out without running it.
-/

namespace TestProgram

/-- What a statement asks for. -/
inductive Action where
  | steps (ops : List Operation)
  /-- A scope in which the block of the statement runs. -/
  | scope (s : Scope)

namespace Statement

/-- The pin changes a statement stands for, where it is one that changes
pins. -/
def pinChanges? (s : Statement) : Option (Except Diagnostic (List (String × PinState))) :=
  let level (state : Bool → PinState) : Except Diagnostic (List (String × PinState)) := do
    let pin ← s.word 0 .pinName
    let high ← s.bit 1
    pure [(pin, state high)]
  let every (state : PinState) : Except Diagnostic (List (String × PinState)) := do
    let pins ← s.words
    pure (pins.map fun pin => (pin, state))
  match s.name with
  | "drive" => some (level .drive)
  | "compare" => some (level .compare)
  | "dont_care" => some (every .dontCare)
  | "drive_mem" => some (every .driveMemory)
  | "expect_mem" => some (every .expectMemory)
  | _ => none

/-! ## Single statements -/

/-- The edges of a wave given in pairs of a name and a formula. -/
def edges (s : Statement) : List Value → (drive compare : Option String) →
    Except Diagnostic (Option String × Option String)
  | [], drive, compare => .ok (drive, compare)
  | .word key :: formula :: vs, drive, compare =>
    if key.text = "drive" then s.edges vs (some formula.cell) compare
    else if key.text = "compare" then s.edges vs drive (some formula.cell)
    else misuse key.span .unknownEdge
  | [.word key], _, _ => misuse key.span (.needsFormula key.text)
  | v :: _, _, _ => misuse v.span .unknownEdge

def wave (s : Statement) : Except Diagnostic Operation := do
  let timeset ← s.word 0 .timesetName
  let pin ← s.word 1 .pinName
  let (drive, compare) ← s.edges (s.values.drop 2) ((s.pair? "drive").map Value.cell)
    ((s.pair? "compare").map Value.cell)
  pure (.addWave timeset pin drive compare)

/-- The repeat count and the timeset of a cycle; the last of each counts. -/
def cycleOptions (s : Statement) : List Value → (count : Option Nat) → (timeset : Option String) →
    Except Diagnostic (Option Nat × Option String)
  | [], count, timeset => .ok (count, timeset)
  | .number x span :: vs, _, timeset => do
    let n ← s.countOf (.number x span)
    s.cycleOptions vs (some n) timeset
  | .word w :: vs, count, _ =>
    if w.text = "timeset" then
      match vs with
      | .word name :: vs => s.cycleOptions vs count (some name.text)
      | vs => do
        let _ ← s.wordOf .timesetName vs.head?
        pure (count, none)
    else misuse w.span (.cycleArgument w.text)
  | v :: _, _, _ => misuse v.span (.cycleArgument v.cell)

def cycle (s : Statement) : Except Diagnostic Operation := do
  let (count, timeset) ← s.cycleOptions s.values none none
  pure (.hold count (((s.pair? "timeset").map Value.cell).or timeset))

def storeOffset (s : Statement) : Except Diagnostic Nat :=
  match s.pair? "offset", s.values with
  | some v, _ => s.countOf v
  | none, [] => .ok 0
  | none, .word w :: _ => if w.text = "offset" then s.count 1 else misuse w.span .storeArgument
  | none, v :: _ => misuse v.span .storeArgument

/-- The frequency at a place, which may be left out. -/
def frequency? (s : Statement) (i : Nat) : Except Diagnostic (Option Frequency) :=
  match s.values[i]? with
  | some (.frequency f _) => .ok (some f)
  | some v => misuse v.span (.notFrequency v.cell)
  | none => .ok none

def clock (s : Statement) : Except Diagnostic Operation := do
  let action ← s.word 0 .clockAction
  let pin ← s.word 1 .pinName
  let frequency ← s.frequency? 2
  match action, frequency with
  | "enable", some f => pure (.enableClock pin f)
  | "enable", none => misuse s.span .needsFrequency
  | "start", _ => pure (.startClock pin)
  | "stop", _ => pure (.stopClock pin)
  | "pause", _ => pure (.pauseClock pin)
  | "resume", f => pure (.resumeClock pin f)
  | action, _ => misuse ((s.values.head?.map Value.span).getD s.span) (.unknownClockAction action)

/-- A group size has to fit into 32 bits. -/
def groupSize (s : Statement) : Except Diagnostic Nat := do
  let size ← s.count 0
  if size ≤ Word.largestShort then pure size
  else .error ⟨.fault (.invalidGroupSize Word.largestShort), some s.span⟩

/-! ## Threads -/

/-- The steps that a statement adds to a thread. -/
def threadSteps (s : Statement) : Except Diagnostic (List ThreadStep) := do
  s.refuseBlock
  match s.pinChanges? with
  | some changes => do
    let changes ← changes
    pure (changes.map fun c => .set c.1 c.2)
  | none =>
    match s.name with
    | "cycle" | "cycles" | "delay" => do
      let n ← s.count? 0
      pure [.cycles (n.getD 1)]
    | "wait" => do
      let d ← s.time 0
      pure [.wait d]
    | "sync" => pure [.sync]
    | name => misuse s.head.span (.unknownStatement .thread name)

def thread (s : Statement) : Except Diagnostic Thread := do
  if s.name ≠ "thread" then misuse s.head.span (.notThread s.name)
  else
    let name ← s.word 0 .threadName
    let body ← s.needBlock
    let steps ← body.mapM threadSteps
    pure ⟨name, steps.flatten⟩

def threads (s : Statement) : Except Diagnostic (List Thread) := do
  let body ← s.needBlock
  body.mapM thread

/-! ## All statements -/

/-- Whether a statement of this name can have a block. -/
def canHaveBlock (name : String) : Bool :=
  ["timeset", "loop", "ignore_fails", "inhibit", "threads"].contains name

def step (r : Except Diagnostic Operation) : Except Diagnostic Action := do
  let op ← r
  pure (.steps [op])

/-- A statement that sets the active timeset, for its block if it has one. -/
def timeset (s : Statement) : Except Diagnostic Action := do
  let name ← s.word 0 .timesetName
  let period ← s.time? 1
  match s.block with
  | some _ => pure (.scope (.timeset name period))
  | none => pure (.steps [.setTimeset name period])

def loop (s : Statement) : Except Diagnostic Action := do
  let label ← s.word 0 .loopLabel
  let count ← s.count 1
  let _ ← s.needBlock
  pure (.scope (.loop label count))

def ignoreFails (s : Statement) : Except Diagnostic Action := do
  let pins ← s.words
  let _ ← s.needBlock
  pure (.scope (.ignoreFails pins))

def inhibit (s : Statement) : Except Diagnostic Action := do
  let what ← s.word 0 .inhibited
  let _ ← s.needBlock
  match what with
  | "vectors" => pure (.scope .withoutVectors)
  | "comments" => pure (.scope .withoutComments)
  | _ => misuse ((s.values.head?.map Value.span).getD s.span) .inhibitArgument

/-- The meaning of a statement in a pattern. -/
def action (s : Statement) : Except Diagnostic Action := do
  if !canHaveBlock s.name then s.refuseBlock
  match s.pinChanges? with
  | some changes => do
    let changes ← changes
    pure (.steps (changes.map fun c => .setPin c.1 c.2))
  | none =>
    match s.name with
    | "timeset" => s.timeset
    | "wave" => step s.wave
    | "cycle" => step s.cycle
    | "delay" => step ((s.count 0).map .delay)
    | "wait" => step ((s.time 0).map .wait)
    | "clock" => step s.clock
    | "label" => step ((s.word 0 .labelName).map .label)
    | "comment" => step (.ok (.comment (" ".intercalate (s.values.map Value.cell))))
    | "store" => step (s.storeOffset.map .store)
    | "call" => step ((s.word 0 .subroutineName).map .call)
    | "subroutine" => step ((s.word 0 .subroutineName).map .define)
    | "group_size" => step (s.groupSize.map .setGroup)
    | "loop" => s.loop
    | "ignore_fails" => s.ignoreFails
    | "inhibit" => s.inhibit
    | "threads" => step (s.threads.map .threads)
    | name => misuse s.head.span (.unknownStatement .pattern name)

end Statement

end TestProgram
