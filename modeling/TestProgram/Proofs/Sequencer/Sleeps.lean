import TestProgram.Proofs.Sequencer.Emissions
import TestProgram.Proofs.Sequencer.Scripts

/-!
# How long scripts sleep

The script of a finished pattern sleeps once for each record, for the repeat
count times the period that the timeset of the record has when the pattern is
finished (`finished_sleeps`). The period that it had for the operation that
recorded the vector need not be the same: `retimed` is a program that changes
a period after a vector.
-/

namespace TestProgram

/-- The period of a timeset, if it is there and has one. -/
def Timing.period? (t : Timing) (name : String) : Option Duration := (t.get? name).bind Timeset.period

theorem Timing.HasPeriod.exists_period? {t : Timing} {name : String} (h : t.HasPeriod name) :
    ∃ d, t.period? name = some d := by
  obtain ⟨s, hs, hperiod⟩ := h
  obtain ⟨d, hd⟩ := Option.isSome_iff_exists.mp hperiod
  exact ⟨d, by rw [period?, hs, Option.bind_some, hd]⟩

/-- Two periods take the same time for a number of cycles only if they are the
same or both too long for the largest duration. -/
theorem Duration.times_eq_iff {a b : Duration} {n : Nat} (hn : 0 < n) : a.times n = b.times n ↔
    a = b ∨ Word.largest ≤ a.picoseconds * n ∧ Word.largest ≤ b.picoseconds * n := by
  obtain ⟨a⟩ := a
  obtain ⟨b⟩ := b
  have hsame : a = b ↔ a * n = b * n := ⟨fun h => by rw [h], Nat.eq_of_mul_eq_mul_right hn⟩
  simp only [times, Word.mul, Word.clamp, Duration.mk.injEq, hsame]
  omega

namespace CommandScript

/-! ## Sleeps -/

/-- How long a command sleeps. -/
def Command.sleep? : Command → Option Duration
  | .sleep d => some d
  | _ => none

/-- How long a script sleeps, time after time. -/
def sleeps (script : List Command) : List Duration := script.filterMap Command.sleep?

theorem sleeps_append (script script' : List Command) : sleeps (script ++ script') = sleeps script ++ sleeps script' :=
  List.filterMap_append

theorem sleeps_vectorCommands {p : Pattern} {last : Option (List (String × PinState))} {r : VectorRecord}
    {script : List Command} (h : vectorCommands p last r = .ok script) :
    ∃ d, period p.timesets r.timeset = .ok d ∧ sleeps script = [d.times r.count] := by
  obtain ⟨d, hd, h⟩ := bind_eq_ok.mp h
  obtain rfl := Except.ok.inj h
  refine ⟨d, hd, ?_⟩
  split <;> cases r.label <;> cases r.call <;> rfl

/-- There is one sleep for each vector. -/
theorem sleeps_commands {p : Pattern} {items : List Item} {last : Option (List (String × PinState))}
    {script : List Command} (h : commands p last items = .ok script) :
    (sleeps script).map some = (items.filterMap Item.vector?).map fun r =>
      (period p.timesets r.timeset).toOption.map fun d => d.times r.count := by
  induction items generalizing last script with
  | nil =>
    obtain rfl := Except.ok.inj h
    rfl
  | cons i items ih =>
    cases i with
    | vector r =>
      obtain ⟨first, hfirst, h⟩ := bind_eq_ok.mp h
      obtain ⟨rest, hrest, h⟩ := bind_eq_ok.mp h
      obtain rfl := Except.ok.inj h
      obtain ⟨d, hd, hsleep⟩ := sleeps_vectorCommands hfirst
      have hvector : Item.vector? (.vector r) = some r := rfl
      rw [sleeps_append, hsleep, List.singleton_append, List.map_cons, ih hrest, List.filterMap_cons_some hvector,
        List.map_cons, hd]
      rfl
    | comment text | loopStart label count | loopEnd label =>
      obtain ⟨rest, hrest, h⟩ := bind_eq_ok.mp h
      obtain rfl := Except.ok.inj h
      rw [List.filterMap_cons_none rfl, ← ih hrest]
      rfl

end CommandScript

namespace Sequencer

open CommandScript Operation

/-- In a pattern, timesets have the periods that they have in the sequencer. -/
theorem Timed.period_eq {c : Sequencer} (h : Timed c) {r : VectorRecord} (hr : r ∈ c.pattern.vectors) :
    (period c.pattern.timesets r.timeset).toOption = c.timing.period? r.timeset := by
  obtain ⟨hused, s, hs, hperiod⟩ := h.records r hr
  obtain ⟨d, hd⟩ := Option.isSome_iff_exists.mp hperiod
  rw [period, pattern, Timing.find?_used hs hused, Option.bind_some, hd, Timing.period?, hs, Option.bind_some, hd]
  rfl

/-- How long the operation that recorded a vector meant it to be held. -/
def recordedTime? (log : List LogEntry) (r : VectorRecord) : Option Duration :=
  (recorder? log r).bind fun f => (f.after.timing.period? r.timeset).map fun d => d.times r.count

/-- A vector is recorded under a timeset with a period. -/
theorem RecordedBy.exists_period? {e : LogEntry} {r : VectorRecord} (h : RecordedBy e r) {I : Sequencer → Prop}
    (he : ∃ c, (Timed c ∧ I c) ∧ e = e.operation.entry c) : ∃ d, e.after.timing.period? r.timeset = some d := by
  obtain ⟨c, ⟨htimed, -⟩, hentry⟩ := he
  have hafter : Timed e.after := by
    rw [hentry]
    exact htimed.perform e.operation
  obtain ⟨q, hq, hpart⟩ := h.record
  rw [hpart.timeset]
  exact (hafter.records q hq).2.exists_period?

/-- Where a pattern is finished, the script for a debugger sleeps once for every
record, for its repeat count times the period that its timeset has then. The
operation that recorded the vector did so under a period of the timeset, too.
The script sleeps for as long as was meant then exactly if the two periods are
the same, or both are too long for the largest duration. -/
theorem finished_sleeps (name : String) (pins : Pinout) (config : Config) (ops : List Operation)
    {past rest : List LogEntry} {e : LogEntry} {platforms : List Platform}
    (hlog : (performAll ops (new name pins config)).1 = past ++ e :: rest) (hfinish : e.operation = .finish platforms) :
    ∃ p texts script, e.answer = .ok (.finished p texts) ∧
      (∀ header, Platform.jlink.render header p = .ok (Text.unlines
        (header.map (fun line => Platform.jlink.comment ++ " " ++ line) ++ script.map (Command.text .jlink)))) ∧
      (∀ header, Platform.bdm.render header p = .ok (Text.unlines
        (header.map (fun line => Platform.bdm.comment ++ " " ++ line) ++ script.map (Command.text .bdm)))) ∧
      (sleeps script).map some =
        p.vectors.map (fun r => (e.after.timing.period? r.timeset).map fun d => d.times r.count) ∧
      ∀ r ∈ p.vectors, ∃ f emitted final, recorder? past r = some f ∧ RecordedBy f r ∧
        f.after.timing.period? r.timeset = some emitted ∧ e.after.timing.period? r.timeset = some final ∧
        (final.times r.count = emitted.times r.count ↔ final = emitted ∨
          Word.largest ≤ final.picoseconds * r.count ∧ Word.largest ≤ emitted.picoseconds * r.count) := by
  have he : e ∈ (performAll ops (new name pins config)).1 := hlog ▸ List.mem_append_right _ List.mem_cons_self
  obtain ⟨c, texts, htimed, -, hanswer, htiming⟩ := timed_of_finish name pins config ops e he platforms hfinish
  obtain ⟨c₀, texts₀, hpast, hanswer₀, -⟩ := (path_performAll ops _).exists_of_finish hlog hfinish
  -- Two views of the sequencer that finishes the pattern: the one on its
  -- timesets comes from nested states, the one on its records from a path.
  have hpattern : c.pattern = c₀.pattern :=
    (Answer.finished.inj (Except.ok.inj (hanswer.symm.trans hanswer₀))).1
  have hnew : Traced [] (new name pins config) := ⟨List.forall_mem_nil _, List.forall_mem_nil _⟩
  have htraced : Traced past c₀ := hpast.traced hnew
  obtain ⟨script, hscript⟩ := exists_commands none htimed.exists_period
  obtain ⟨hjlink, hbdm⟩ := Platform.patternLines_script hscript
  refine ⟨c.pattern, texts, script, hanswer, fun header => ?_, fun header => ?_, ?_, fun r hr => ?_⟩
  · rw [Platform.render, hjlink]
  · rw [Platform.render, hbdm]
  · rw [sleeps_commands hscript, htiming]
    exact List.map_congr_left fun r hr => by rw [htimed.period_eq hr]
  · have hr₀ : r ∈ c₀.records := by
      show r ∈ c₀.pattern.vectors
      rwa [← hpattern]
    have hpos : 0 < r.count := hpast.tiled.consecutive.pos r hr₀
    obtain ⟨f, hf, hrecorder, hby⟩ := htraced.exists_recorder hr₀ hpos
    have hentry := timed_of_mem_log name pins config ops f (hlog ▸ List.mem_append_left _ hf)
    obtain ⟨emitted, hemitted⟩ := hby.exists_period? hentry
    obtain ⟨final, hfinal⟩ := (htimed.records r hr).2.exists_period?
    exact ⟨f, emitted, final, hrecorder, hby, hemitted, htiming ▸ hfinal, Duration.times_eq_iff hpos⟩

/-- Vectors under one timeset and another, whose periods stay as they are. -/
def steadyPeriods : List LogEntry :=
  (performAll [.setTimeset "slow" (some ⟨80000⟩), .wait ⟨800000⟩,
    .scope (.timeset "fast" (some ⟨40000⟩)) [.hold (some 3) none, .hold none (some "slow")], .hold (some 2) none,
    .setTimeset "fast" none, .delay 5, .finish []] (new "steady" onePin (.standard .jlink))).1

theorem steadyPeriods_slept : ∃ past e p texts script, steadyPeriods = past ++ [e] ∧
    e.answer = .ok (.finished p texts) ∧ p.vectors.length = 5 ∧
      Platform.jlink.render [] p = .ok (Text.unlines (script.map (Command.text .jlink))) ∧
        (sleeps script).map some = p.vectors.map (recordedTime? past) := by
  obtain ⟨e, hlast⟩ : ∃ e, steadyPeriods.getLast? = some e := ⟨_, rfl⟩
  have hlog : steadyPeriods = steadyPeriods.dropLast ++ [e] := (List.dropLast_append_getLast? e hlast).symm
  have htest : steadyPeriods.getLast?.all (fun e => e.operation.closes && e.pattern?.all fun p =>
      decide (p.vectors.length = 5 ∧ ∀ r ∈ p.vectors, ((recorder? steadyPeriods.dropLast r).bind fun f =>
        f.after.timing.period? r.timeset) = e.after.timing.period? r.timeset)) = true := by
    decide +kernel
  rw [hlast, Option.all_some, Bool.and_eq_true] at htest
  obtain ⟨platforms, hfinish⟩ := eq_finish_of_closes htest.1
  obtain ⟨p, texts, script, hanswer, hjlink, -, hsleeps, hrecords⟩ := finished_sleeps _ _ _ _ hlog hfinish
  rw [LogEntry.pattern?, hanswer] at htest
  obtain ⟨hlength, hsame⟩ := of_decide_eq_true htest.2
  refine ⟨_, e, p, texts, script, hlog, hanswer, hlength, hjlink [], ?_⟩
  refine hsleeps.trans (List.map_congr_left fun r hr => ?_)
  obtain ⟨f, emitted, final, hf, -, hemitted, hfinal, hexact⟩ := hrecords r hr
  have hperiod : final = emitted := by
    have heq := hsame r hr
    rw [hf, hfinal, Option.bind_some, hemitted] at heq
    exact (Option.some.inj heq).symm
  rw [recordedTime?, hf, hfinal, Option.bind_some, hemitted, Option.map_some, Option.map_some,
    hexact.mpr (.inl hperiod)]

/-- Ten vectors, and then one after the period of their timeset is halved. -/
def retimed : List LogEntry :=
  (performAll [.setTimeset "tp" (some ⟨80000⟩), .wait ⟨800000⟩, .setTimeset "tp" (some ⟨40000⟩), .hold none none,
    .finish [.jlink, .bdm]] (new "retimed" onePin (.standard .jlink))).1

/-- The script sleeps for half of the time that it was told to wait. -/
theorem retimed_slept : ∃ past e p texts script, retimed = past ++ [e] ∧ e.answer = .ok (.finished p texts) ∧
    Platform.jlink.render [] p = .ok (Text.unlines (script.map (Command.text .jlink))) ∧
    sleeps script = [⟨400000⟩, ⟨40000⟩] ∧
    p.vectors.map (recordedTime? past) = [some ⟨800000⟩, some ⟨40000⟩] := by
  obtain ⟨e, hlast⟩ : ∃ e, retimed.getLast? = some e := ⟨_, rfl⟩
  have hlog : retimed = retimed.dropLast ++ [e] := (List.dropLast_append_getLast? e hlast).symm
  have htest : retimed.getLast?.toList.any (fun e => e.pattern?.any fun p =>
      (commands p none p.items).toOption.any fun script => decide (sleeps script = [⟨400000⟩, ⟨40000⟩] ∧
        p.vectors.map (recordedTime? retimed.dropLast) = [some ⟨800000⟩, some ⟨40000⟩])) = true := by
    decide +kernel
  rw [hlast] at htest
  obtain ⟨_, he, p, texts, hanswer, h⟩ := LogEntry.exists_of_any_pattern? htest
  obtain rfl := List.mem_singleton.mp he
  cases hscript : commands p none p.items with
  | error fault =>
    rw [hscript] at h
    cases h
  | ok script =>
    rw [hscript] at h
    have hrender : Platform.jlink.render [] p = .ok (Text.unlines (script.map (Command.text .jlink))) := by
      rw [Platform.render, (Platform.patternLines_script hscript).1]
      rfl
    exact ⟨_, _, p, texts, script, hlog, hanswer, hrender, of_decide_eq_true h⟩

end Sequencer

end TestProgram
