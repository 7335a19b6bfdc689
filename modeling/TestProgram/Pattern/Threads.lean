import TestProgram.Fault
import TestProgram.Pin.State

/-!
# Threads

A thread is a timeline of pin changes and delays. Threads run side by side: a
sync is a barrier at which all threads wait for the slowest, and so is the
end. `Threads.plan` lays every thread out on the cycles from the common start
and merges the pin changes of all threads into one row of events, in order of
cycle, then thread, then program order.
-/

namespace TestProgram

inductive ThreadStep where
  | set (pin : String) (state : PinState)
  | cycles (n : Nat)
  | wait (duration : Duration)
  | sync
  deriving DecidableEq, Repr

structure Thread where
  name : String
  steps : List ThreadStep
  deriving DecidableEq, Repr

/-- A pin change at a cycle counted from the common start. -/
structure ThreadEvent where
  cycle : Nat
  /-- The position of the thread. -/
  thread : Nat
  /-- The position among all changes, barrier by barrier and thread by
  thread. -/
  seq : Nat
  pin : String
  state : PinState
  deriving DecidableEq, Repr

namespace ThreadEvent

/-- The order of events: by cycle, then thread, then position. -/
def le (a b : ThreadEvent) : Bool :=
  a.cycle < b.cycle || (a.cycle == b.cycle
    && (a.thread < b.thread || (a.thread == b.thread && a.seq ≤ b.seq)))

end ThreadEvent

structure ThreadPlan where
  events : List ThreadEvent
  /-- The cycle at which all threads have ended. -/
  total : Nat
  deriving DecidableEq, Repr

namespace Threads

/-- The steps between barriers. -/
def segments : List ThreadStep → List (List ThreadStep)
  | [] => [[]]
  | .sync :: steps => [] :: segments steps
  | s :: steps => match segments steps with
    | [] => [[s]]
    | first :: rest => (s :: first) :: rest

/-- What lies between two barriers, thread by thread. -/
def rounds (threads : List Thread) : List (List (List ThreadStep)) :=
  let parts := threads.map fun t => segments t.steps
  let count := (parts.map List.length).max?.getD 0
  (List.range count).map fun r => parts.map fun p => (p[r]?).getD []

variable (toCycles : Duration → Except Fault Nat)

/-- Lays out a segment from a cycle on: the cycle at its end, and its events,
numbered from `seq` on. -/
def laySegment (thread : Nat) : (cursor seq : Nat) → List ThreadStep →
    Except Fault (Nat × List ThreadEvent)
  | cursor, _, [] => .ok (cursor, [])
  | cursor, seq, .set pin state :: steps => do
    let (stop, events) ← laySegment thread cursor (seq + 1) steps
    pure (stop, ⟨cursor, thread, seq, pin, state⟩ :: events)
  | cursor, seq, .cycles n :: steps => laySegment thread (cursor + n) seq steps
  | cursor, seq, .wait d :: steps => do
    let n ← toCycles d
    laySegment thread (cursor + n) seq steps
  | cursor, seq, .sync :: steps => laySegment thread cursor seq steps

/-- Lays out the segments of one round: the latest end, and all events. -/
def layRound (base : Nat) : (thread seq : Nat) → List (List ThreadStep) →
    Except Fault (Nat × List ThreadEvent)
  | _, _, [] => .ok (base, [])
  | thread, seq, segment :: segments => do
    let (stop, events) ← laySegment toCycles thread base seq segment
    let (barrier, more) ← layRound base (thread + 1) (seq + events.length) segments
    pure (max stop barrier, events ++ more)

/-- Lays out round after round, each from the barrier before it on. -/
def layRounds : (base seq : Nat) → List (List (List ThreadStep)) →
    Except Fault (Nat × List ThreadEvent)
  | base, _, [] => .ok (base, [])
  | base, seq, round :: rounds => do
    let (barrier, events) ← layRound toCycles base 0 seq round
    let (total, more) ← layRounds barrier (seq + events.length) rounds
    pure (total, events ++ more)

/-- The merged layout of all threads. `toCycles` converts waits. -/
def plan (threads : List Thread) : Except Fault ThreadPlan := do
  let (total, events) ← layRounds toCycles 0 0 (rounds threads)
  pure ⟨events.mergeSort ThreadEvent.le, total⟩

end Threads

end TestProgram
