import TestProgram.Proofs.Sequencer.Scopes
import TestProgram.Proofs.Sequencer.Tiling

/-!
# What failed operations leave behind

An operation that fails leaves the records, the cycles and the definitions of
the pattern as they were (`perform_failed`). Two notes for the pattern are made
before it is known whether the operation succeeds: the subroutine of a call,
and the timeset of a vector, which stays in use if the vector turns out to have
a clock edge inside a vector group. So the pattern that can be finished after a
failure differs from the one that could be finished before it, warnings apart,
in the imports after a call of a new name and in the timesets after such a
vector under a new one, and in nothing else (`failure_traces`).
-/

namespace TestProgram

/-- Whether the fault is a clock edge inside a vector group. -/
def Fault.isInsideGroup : Fault → Bool
  | .clockInsideGroup _ _ => true
  | _ => false

namespace Operation

/-- Operations without a body that are not made up of others. -/
def isSingle : Operation → Bool
  | .threads _ => false
  | op => op.isLeaf

/-- The timeset that an operation names for the vector it records, if it
records one. -/
def timeset? : Operation → Option (Option String)
  | .hold _ timeset => some timeset
  | .delay _ | .wait _ | .call _ => some none
  | _ => none

end Operation

namespace Sequencer

/-! ## The states that operations begin in -/

theorem Occurs.ascending {c : Sequencer} (h : c.Occurs) : Names.Ascending c.called := by
  induction h with
  | new => exact List.Pairwise.nil
  | perform op _ ih => exact (op.path_perform _).ascending ih
  | opened _ h ih =>
    rw [(turns_of_opened h).names.called]
    exact ih

theorem Occurs.nodup {c : Sequencer} (h : c.Occurs) : c.timing.names.Nodup := by
  induction h with
  | new => exact List.nodup_nil
  | perform op _ ih => exact (op.steady_perform _).timing.nodup ih
  | opened _ h ih => exact (opens_of_opened h).timing.nodup ih

/-! ## Timesets in use -/

/-- The timesets in use with one more. -/
def including (used : List String) (timeset : String) : List String :=
  if used.contains timeset then used else used ++ [timeset]

/-- The timesets in use after a vector under a timeset that may be named. -/
def usedAfter (timing : Timing) (used : List String) (timeset : Option String) : List String :=
  match timing.resolve timeset "cycle" with
  | .ok t => including used t.name
  | .error _ => used

theorem use_eq (c : Sequencer) (timeset : String) :
    c.use timeset = { c with usedTimesets := including c.usedTimesets timeset } := by
  unfold use including
  split <;> rfl

/-- The timeset of a vector makes a difference to the pattern if it is new. -/
theorem filterMap_usedAfter_eq_iff {timing : Timing} (hnodup : timing.names.Nodup) {used : List String}
    {timeset : Option String} : (usedAfter timing used timeset).filterMap timing.get? = used.filterMap timing.get? ↔
      ∀ t, timing.resolve timeset "cycle" = .ok t → t.name ∈ used := by
  unfold usedAfter
  cases hresolve : timing.resolve timeset "cycle" with
  | error e => exact ⟨fun _ _ h => (nomatch h), fun _ => rfl⟩
  | ok t =>
    have hget : timing.get? t.name = some t := (Timing.get?_of_resolve hnodup hresolve).1
    dsimp only
    unfold including
    split
    · rename_i hused
      have hmem : t.name ∈ used := List.contains_iff_mem.mp hused
      exact ⟨fun _ t' ht' => by rwa [← Except.ok.inj ht'], fun _ => rfl⟩
    · rename_i hnew
      rw [List.filterMap_append, List.filterMap_cons_some hget, List.filterMap_nil]
      constructor
      · intro heq
        have hlength := congrArg List.length heq
        rw [List.length_append, List.length_singleton] at hlength
        omega
      · intro hused
        exact absurd (List.contains_iff_mem.mpr (hused t rfl)) hnew

/-! ## Failures -/

/-- `c'` is `c` but for a beginning and warnings, with these subroutines called
and these timesets in use. -/
def Failed (c : Sequencer) (called used : List String) (c' : Sequencer) : Prop :=
  c' = { c with started := c'.started, warnings := c'.warnings, called, usedTimesets := used }

namespace Failed

variable {c c₁ c' : Sequencer} {called used : List String}

theorem refl (c : Sequencer) : Failed c c.called c.usedTimesets c := rfl

theorem touch (c : Sequencer) : Failed c c.called c.usedTimesets c.touch := rfl

/-- An operation that is settled as a whole leaves only what it was begun
with. -/
theorem of_settle (hc : Failed c called used c₁) {r : Except Fault Sequencer} {e : Fault}
    (h : (c₁.settle r).1 = .error e) : Failed c called used (c₁.settle r).2 := by
  cases r with
  | error e => exact hc
  | ok c' => cases h

/-- The pattern is the same but for the imports and the timesets. -/
theorem pattern (h : Failed c called used c') : c'.pattern =
    { c.pattern with
      imported := Names.difference called c.defined
      timesets := used.filterMap c.timing.get?
      warnings := c'.warnings } := by
  rw [Failed] at h
  rw [h]
  rfl

end Failed

section

variable {c : Sequencer} {e : Fault}

/-- A run that has a period and fails has an edge inside a vector group. -/
theorem isInsideGroup_of_hold {b : Bench} {t : Timeset} {n : Nat} {m : Marks} (hn : 0 < n) (ht : t.period.isSome)
    (h : b.hold t n m = .error e) : e.isInsideGroup = true := by
  rw [Bench.hold_eq hn ht] at h
  split at h
  · obtain rfl := Except.error.inj h
    rfl
  · cases h

theorem emit_failed {count : Nat} (hcount : 0 < count) {timeset call : Option String}
    (h : (c.emit count timeset call).1 = .error e) :
    Failed c c.called (if e.isInsideGroup then usedAfter c.timing c.usedTimesets timeset else c.usedTimesets)
      (c.emit count timeset call).2 := by
  unfold emit at h ⊢
  dsimp only at h ⊢
  cases hresolve : c.touch.timing.resolve timeset "cycle" with
  | error e' =>
    have hresolve : c.timing.resolve timeset "cycle" = .error e' := hresolve
    have hused : usedAfter c.timing c.usedTimesets timeset = c.usedTimesets := by rw [usedAfter, hresolve]
    rw [hused, ite_self]
    exact .touch c
  | ok t =>
    rw [hresolve] at h
    dsimp only at h ⊢
    have ht : t.period.isSome := (Timing.resolve_eq_ok hresolve).1
    have hresolve : c.timing.resolve timeset "cycle" = .ok t := hresolve
    split at h
    · cases h
    · rename_i hi
      rw [if_neg hi]
      -- only the run itself can still fail
      have hinside : e.isInsideGroup = true := by
        rw [use_eq] at h
        cases hhold : c.bench.hold t count ⟨c.pendingStore, c.pendingLabel, call, c.group⟩ with
        | error e' =>
          simp only [touch, hhold] at h
          obtain rfl := Except.error.inj h
          exact isInsideGroup_of_hold hcount ht hhold
        | ok b =>
          simp only [touch, hhold] at h
          cases h
      have hused : usedAfter c.timing c.usedTimesets timeset = including c.usedTimesets t.name := by
        rw [usedAfter, hresolve]
      rw [if_pos hinside, hused]
      refine .of_settle ?_ h
      rw [use_eq]
      rfl

theorem le_align (c : Sequencer) (count : Nat) : count ≤ (c.align count).1 := by
  unfold align
  split
  · exact Nat.le_refl count
  · exact Word.ceilDiv_mul_ge count (by omega)

theorem hold_failed {count : Option Nat} {timeset : Option String} (h : (c.hold count timeset).1 = .error e) :
    Failed c c.called (if e.isInsideGroup then usedAfter c.timing c.usedTimesets timeset else c.usedTimesets)
      (c.hold count timeset).2 := by
  unfold hold at h ⊢
  dsimp only at h ⊢
  split at h
  · rename_i hzero
    obtain rfl := Except.error.inj h
    rw [if_pos hzero]
    exact .refl c
  · rename_i hcount
    rw [if_neg hcount]
    have hpos : 0 < (c.align (count.getD 1)).1 := Nat.lt_of_lt_of_le (Nat.pos_of_ne_zero hcount) (c.le_align _)
    have hfailed := emit_failed hpos h
    rw [align_eq] at hfailed ⊢
    exact hfailed

theorem delay_failed {count : Nat} (h : (c.delay count).1 = .error e) :
    Failed c c.called (if e.isInsideGroup then usedAfter c.timing c.usedTimesets none else c.usedTimesets)
      (c.delay count).2 := by
  unfold delay at h ⊢
  split at h
  · cases h
  · rename_i hcount
    rw [if_neg hcount]
    exact hold_failed h

theorem wait_failed {d : Duration} (h : (c.wait d).1 = .error e) :
    Failed c c.called (if e.isInsideGroup then usedAfter c.timing c.usedTimesets none else c.usedTimesets)
      (c.wait d).2 := by
  unfold wait at h ⊢
  dsimp only at h ⊢
  cases hcycles : c.touch.timing.cyclesFor d c.touch.config.rounding with
  | error e' =>
    rw [hcycles] at h
    obtain rfl := Except.error.inj h
    have hother : e'.isInsideGroup = false := by
      unfold Timing.cyclesFor Timing.currentPeriod at hcycles
      split at hcycles
      · cases hcycles
      · obtain rfl := Except.error.inj hcycles
        rfl
    rw [hother, if_neg Bool.false_ne_true]
    exact .touch c
  | ok count =>
    rw [hcycles] at h
    exact delay_failed (c := c.touch) h

theorem call_failed {name : String} (h : (c.call name).1 = .error e) :
    Failed c (Names.insert name c.called)
      (if e.isInsideGroup then usedAfter c.timing c.usedTimesets none else c.usedTimesets) (c.call name).2 :=
  emit_failed (c := { c with called := Names.insert name c.called }) Nat.one_pos h

theorem setGroup_failed {group : Nat} (h : (c.setGroup group).1 = .error e) :
    Failed c c.called c.usedTimesets (c.setGroup group).2 := by
  unfold setGroup at h ⊢
  split at h
  · rename_i hzero
    rw [if_pos hzero]
    exact .refl c
  · rename_i hpos
    rw [if_neg hpos]
    exact (Failed.touch c).of_settle h

theorem store_failed {offset : Nat} (h : (c.store offset).1 = .error e) :
    Failed c c.called c.usedTimesets (c.store offset).2 := by
  unfold store at h ⊢
  dsimp only at h ⊢
  split at h
  · cases h
  · split at h
    · cases h
    · rename_i hoffset hi
      rw [if_neg hoffset, if_neg hi]
      exact (Failed.touch c).of_settle h

end

end Sequencer

namespace Operation

open Sequencer

/-- The timesets in use after an operation that failed. -/
def usedAfter (c : Sequencer) (e : Fault) (op : Operation) : List String :=
  match op.timeset? with
  | some timeset =>
    if e.isInsideGroup then Sequencer.usedAfter c.timing c.usedTimesets timeset else c.usedTimesets
  | none => c.usedTimesets

theorem perform_failed {c : Sequencer} {op : Operation} (hop : op.isSingle = true) {e : Fault}
    (h : (op.perform c).answer = .error e) :
    Failed c (op.calledAfter c.called) (op.usedAfter c e) (op.perform c).after := by
  have of_plain {r : Except Fault Unit} (h : r.map (fun _ => Answer.done) = .error e) : r = .error e := by
    cases r with
    | error e' => exact congrArg Except.error (Except.error.inj h)
    | ok _ => cases h
  cases op with
  | setPin pin s => exact (Failed.touch c).of_settle (of_plain h)
  | setTimeset name period => exact (Failed.touch c).of_settle (of_plain h)
  | addWave timeset pin drive compare => exact (Failed.refl c).of_settle (of_plain h)
  | enableClock pin f => exact (Failed.touch c).of_settle (of_plain h)
  | startClock pin => exact (Failed.touch c).of_settle (of_plain h)
  | stopClock pin => exact (Failed.touch c).of_settle (of_plain h)
  | pauseClock pin => exact (Failed.touch c).of_settle (of_plain h)
  | resumeClock pin f => exact (Failed.touch c).of_settle (of_plain h)
  | hold count timeset => exact hold_failed (of_plain h)
  | delay count => exact delay_failed (of_plain h)
  | wait d => exact wait_failed (of_plain h)
  | store offset => exact store_failed (of_plain h)
  | call name => exact call_failed (of_plain h)
  | setGroup group => exact setGroup_failed (of_plain h)
  | pinState pin => exact .refl c
  | label name | comment text | define name | imported | items | finish platforms => cases h
  | threads ts | scope s body | block body | attempt body => cases hop

end Operation

namespace Sequencer

/-- The pattern after an operation that failed is the one before it, warnings
apart, in all but the imports and the timesets. The imports differ exactly if
the operation is a call of a subroutine that was neither called nor defined
before, and the timesets exactly if it failed with a clock edge inside a vector
group and the timeset of its vector was not in use before. -/
theorem failure_traces {c : Sequencer} (hc : c.Occurs) {op : Operation} (hop : op.isSingle = true) {e : Fault}
    (h : (op.perform c).answer = .error e) :
    let before := c.finish.1
    let after := (op.perform c).after.finish.1
    after = { before with imported := after.imported, timesets := after.timesets, warnings := after.warnings } ∧
      (after.imported = before.imported ↔ ∀ name, op = .call name → name ∈ c.called ∨ name ∈ c.defined) ∧
      (after.timesets = before.timesets ↔ ∀ timeset t, op.timeset? = some timeset → e.isInsideGroup = true →
        c.timing.resolve timeset "cycle" = .ok t → t.name ∈ c.usedTimesets) := by
  dsimp only [finish]
  rw [(Operation.perform_failed hop h).pattern]
  refine ⟨rfl, ?_, ?_⟩
  · show Names.difference (op.calledAfter c.called) c.defined = Names.difference c.called c.defined ↔ _
    cases op with
    | call name =>
      rw [Operation.calledAfter, Names.difference_insert_eq_iff hc.ascending]
      constructor
      · rintro hnew name' heq
        obtain rfl := Operation.call.inj heq
        exact hnew
      · exact fun hnew => hnew name rfl
    | finish platforms => cases h
    | _ => exact ⟨fun _ _ heq => (nomatch heq), fun _ => rfl⟩
  · show (op.usedAfter c e).filterMap c.timing.get? = c.usedTimesets.filterMap c.timing.get? ↔ _
    unfold Operation.usedAfter
    cases htimeset : op.timeset? with
    | none => exact ⟨fun _ _ _ heq => (nomatch heq), fun _ => rfl⟩
    | some timeset =>
      dsimp only
      split
      · rename_i hinside
        rw [filterMap_usedAfter_eq_iff hc.nodup]
        constructor
        · rintro hused timeset' t heq -
          obtain rfl := Option.some.inj heq
          exact hused t
        · exact fun hused t => hused timeset t rfl hinside
      · rename_i hother
        exact ⟨fun _ _ _ _ hinside => absurd hinside hother, fun _ => rfl⟩

/-- A clock has its next edge one cycle from now, vector groups have two cycles
by now, and a timeset is active under which no vector has been recorded yet. -/
def betweenEdgesProgram : List Operation :=
  [.setTimeset "tp" (some ⟨40000⟩), .enableClock "clk" (.ofMegahertz 2), .startClock "clk", .hold (some 5) none,
    .setGroup 2, .setTimeset "slow" (some ⟨80000⟩)]

def betweenEdges : Sequencer :=
  (Operation.performAll betweenEdgesProgram (new "between" ⟨[⟨"clk", .drive0, 0⟩]⟩ (.standard .v93k))).2

/-- A vector of four cycles fails there, and leaves its timeset behind. -/
theorem betweenEdges_traces :
    betweenEdges.Occurs ∧ (Operation.hold (some 4) none).isSingle = true ∧
      ((Operation.hold (some 4) none).perform betweenEdges).answer = .error (.clockInsideGroup 6 2) ∧
      ((Operation.hold (some 4) none).perform betweenEdges).after.finish.1.imported = betweenEdges.finish.1.imported ∧
      ((Operation.hold (some 4) none).perform betweenEdges).after.finish.1.timesets ≠ betweenEdges.finish.1.timesets := by
  have hoccurs : betweenEdges.Occurs := (Reachable.performAll betweenEdgesProgram).occurs
  have hfault : (betweenEdges.hold (some 4) none).1 = .error (.clockInsideGroup 6 2) := by decide +kernel
  have hanswer : ((Operation.hold (some 4) none).perform betweenEdges).answer = .error (.clockInsideGroup 6 2) := by
    have hplain (c : Sequencer) : ((Operation.hold (some 4) none).perform c).answer =
        (c.hold (some 4) none).1.map fun _ => .done := rfl
    rw [hplain, hfault]
    rfl
  have hslow : betweenEdges.timing.resolve none "cycle" = .ok ⟨"slow", some ⟨80000⟩, []⟩ := by decide +kernel
  have hunused : "slow" ∉ betweenEdges.usedTimesets := by decide +kernel
  obtain ⟨-, himported, htimesets⟩ := failure_traces hoccurs rfl hanswer
  refine ⟨hoccurs, rfl, hanswer, himported.mpr fun _ heq => (nomatch heq), fun heq => ?_⟩
  exact hunused (htimesets.mp heq none _ rfl rfl hslow)

/-- A call that fails because no timeset is active is imported all the same. -/
theorem not_forall_failure_untraced :
    ¬ ∀ c, Reachable "untimed" twoPins (.standard .v93k) c → ∀ op : Operation, op.isSingle = true →
      ∀ e, (op.perform c).answer = .error e →
        { (op.perform c).after.finish.1 with warnings := c.finish.1.warnings } = c.finish.1 := by
  intro hall
  have heq := hall (new "untimed" twoPins (.standard .v93k)) (.inl rfl) (.call "sub") rfl (.noActiveTimeset "cycle") rfl
  have himported : ["sub"] = [] := congrArg Pattern.imported heq
  cases himported

end Sequencer

end TestProgram
