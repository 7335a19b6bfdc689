import TestProgram.Pattern.Threads
import TestProgram.Sequencer.Vectors

/-!
# Running threads

A set of threads is laid out as a plan first; its events are then replayed
one after the other, with the present vector held in between.
-/

namespace TestProgram

namespace Sequencer

/-- Replays events from the cycle `now` of a plan on, and then waits for its
end. -/
def replay (c : Sequencer) (total now : Nat) : List ThreadEvent → Except Fault Unit × Sequencer
  | [] => if now < total then c.delay (total - now) else (.ok (), c)
  | e :: events =>
    match (if now < e.cycle then c.delay (e.cycle - now) else (.ok (), c)) with
    | (.error fault, c) => (.error fault, c)
    | (.ok (), c) =>
      match c.setPin e.pin e.state with
      | (.error fault, c) => (.error fault, c)
      | (.ok (), c) => c.replay total (max now e.cycle) events

/-- The plan of a set of threads under the active timeset. -/
def planThreads (c : Sequencer) (threads : List Thread) : Except Fault ThreadPlan :=
  Threads.plan (fun d => c.timing.cyclesFor d c.config.rounding) threads

/-- Runs threads side by side until all have ended. -/
def runThreads (c : Sequencer) (threads : List Thread) : Except Fault Unit × Sequencer :=
  let c := c.touch
  match c.planThreads threads with
  | .error e => (.error e, c)
  | .ok plan => c.replay plan.total 0 plan.events

end Sequencer

end TestProgram
