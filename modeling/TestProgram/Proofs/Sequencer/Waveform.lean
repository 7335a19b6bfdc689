import TestProgram.Proofs.Bench.SquareWave
import TestProgram.Proofs.Sequencer.Ticking

/-!
# The waveform of a clock over a run

A clock that was started shows on its pin from then on, cycle by cycle, the
`SquareWave` of its half period, counted over the cycles for which it ran
(`startClock_waveform`): through all operations that leave the pin and its
clock alone, and through pauses. `Bench.Follows` is what these operations keep
(`Move.follows`, `Move.follows_own`); `runningCycles` counts the cycles of a
log.
-/

namespace TestProgram

/-- Whether the clock on a pin is running. -/
def ClockBank.isRunning (b : ClockBank) (pin : PinId) : Bool := (b.next? pin).isSome

theorem SquareWave.Swing.isRunning {w : SquareWave} {run : Bool} {ran : Nat} {s : Moment} (h : w.Swing run ran s) :
    s.clocks.isRunning w.pin = run := by
  obtain ⟨k, hk, -, hstatus⟩ := h.clock
  rw [ClockBank.isRunning, ClockBank.next?, hk, Option.bind_some, Clock.next?, hstatus]
  cases run <;> rfl

/-! ## A bench that shows a wave -/

namespace Bench

/-- From the cycle `start` on, the bench shows the wave `w` on the pin `name`.
The clock has run for `ran x` cycles before the cycle `x`, and `run` says
whether it is running now. -/
structure Follows (w : SquareWave) (name : String) (start : Nat) (ran : Nat → Nat) (run : Bool) (b : Bench) :
    Prop where
  id : b.pins.id name = .ok w.pin
  swing : w.Swing run (ran b.tape.cycle) b.moment
  shown : ∀ t ∈ b.tape.records.flatMap VectorRecord.cycles, start ≤ t.cycle →
    t.states[w.pin]? = some (w.levelAt (ran t.cycle))

variable {w : SquareWave} {name : String} {start : Nat} {ran : Nat → Nat} {run : Bool} {b b' : Bench}

/-- A change to other pins, other clocks and what else is on the tape. -/
theorem Follows.frame (h : b.Follows w name start ran run) (hnames : b'.pins.names = b.pins.names)
    (hclock : b'.clocks.find? w.pin = b.clocks.find? w.pin) (hstate : b'.pins.state w.pin = b.pins.state w.pin)
    (hcycle : b'.tape.cycle = b.tape.cycle)
    (hcycles : b'.tape.records.flatMap VectorRecord.cycles = b.tape.records.flatMap VectorRecord.cycles) :
    b'.Follows w name start ran run where
  id := (Pinout.id_congr hnames name).trans h.id
  swing := by
    obtain ⟨⟨k, hk, hhalf, hstatus⟩, hlevel, hpin⟩ := h.swing
    rw [hcycle]
    refine ⟨⟨k, hclock.trans hk, hhalf, ?_⟩, hstate.trans hlevel, ?_⟩
    · rw [moment, hcycle]
      exact hstatus
    · rw [moment, Pinout.length_of_names hnames]
      exact hpin
  shown := by
    rw [hcycles]
    exact h.shown

theorem Follows.hold (h : b.Follows w name start ran run) {t : Timeset} {n : Nat} {m : Marks}
    (hb : b.hold t n m = .ok b')
    (hran : ∀ k ≤ n, ran (b.tape.cycle + k) = SquareWave.count run (ran b.tape.cycle) k) :
    b'.Follows w name start ran run := by
  obtain ⟨hn, hmoment, -⟩ := hold_eq_ok hb
  have hcycle := cycle_of_hold hb
  refine ⟨(Pinout.id_congr (names_of_hold hb) name).trans h.id, ?_, ?_⟩
  · rw [hmoment, hcycle, hran n (Nat.le_refl n)]
    exact h.swing.iterate n
  · rw [records_of_hold hb, List.flatMap_append, Moment.flatMap_cycles_records _ _ _ _ hn]
    intro t ht hstart
    rcases List.mem_append.mp ht with ht | ht
    · exact h.shown t ht hstart
    · obtain ⟨k, hk, hcyc, hlevel⟩ := h.swing.film ht
      have hcyc : t.cycle = b.tape.cycle + k := hcyc
      rw [hcyc, hran k (Nat.le_of_lt hk)]
      exact hlevel

/-- All cycles of the records are over. -/
theorem Tiled.cycle_lt {width : Nat} (h : Tiled width b) : ∀ t ∈ b.tape.records.flatMap VectorRecord.cycles,
    t.cycle < b.tape.cycle := by
  intro t ht
  obtain ⟨r, hr, ht⟩ := List.mem_flatMap.mp ht
  obtain ⟨k, hk, rfl⟩ := List.mem_map.mp ht
  have hend := (h.consecutive.end_le r hr).2
  rw [h.total] at hend
  have hk := List.mem_range.mp hk
  show r.start + k < b.tape.cycle
  omega

end Bench

/-! ## Moves -/

/-- Acts that leave a pin and its clock alone, but for the edges. -/
def Act.Leaves (name : String) : Act → Prop
  | .setPin pin | .enable pin | .start pin | .stop pin | .pause pin | .resume pin _ => pin ≠ name
  | .finish => False
  | _ => True

namespace Sequencer

section

variable {w : SquareWave} {name : String} {start : Nat} {ran : Nat → Nat} {run : Bool} {c c' : Sequencer}

open Bench (Follows)

/-- While the clock is left alone, its cycles count from `c` to `c'` if it is
running. -/
def Counts (ran : Nat → Nat) (run : Bool) (c c' : Sequencer) : Prop :=
  ∀ x, c.cycle ≤ x → x ≤ c'.cycle → ran x = SquareWave.count run (ran c.cycle) (x - c.cycle)

theorem Counts.of_cycle_eq (h : c'.cycle = c.cycle) : Counts ran run c c' := by
  intro x h₁ h₂
  rw [h] at h₂
  rw [Nat.le_antisymm h₂ h₁, Nat.sub_self, SquareWave.count, Nat.add_zero, ite_self]

theorem Move.follows {a : Act} (hm : Move c c' a) (ha : a.Leaves name) (hran : Counts ran run c c')
    (h : c.bench.Follows w name start ran run) : c'.bench.Follows w name start ran run := by
  have hnames : c'.pins.names = c.pins.names := hm.names
  -- another pin is at another position
  have hother {pin : String} {i : PinId} (hne : pin ≠ name) (hi : c.pins.id pin = .ok i) : i ≠ w.pin := by
    rintro rfl
    exact hne (Pinout.eq_of_id_eq_ok hi h.id)
  cases hm with
  | note hb =>
    rw [hb.bench]
    exact h
  | @setPin pin i s hi hb =>
    rw [pins, hb.bench] at hnames
    rw [hb.bench]
    exact h.frame hnames rfl (Pinout.state_set_ne _ (hother ha hi) s) rfl rfl
  | mask ids hb =>
    rw [pins, hb.bench] at hnames
    rw [hb.bench]
    exact h.frame hnames rfl (Pinout.state_foldl (fun p i _ => p.state_mask i w.pin) _) rfl rfl
  | unmask ids hb =>
    rw [pins, hb.bench] at hnames
    rw [hb.bench]
    exact h.frame hnames rfl (Pinout.state_foldl (fun p i _ => p.state_unmask i w.pin) _) rfl rfl
  | enable hi he hb =>
    obtain ⟨k, hpin, -, -, rfl⟩ := ClockBank.enable_eq_ok he
    rw [hb.bench]
    exact h.frame rfl (ClockBank.find?_put_ne (by rw [hpin]; exact hother ha hi)) rfl rfl rfl
  | start hi hg hs hb =>
    obtain ⟨k, hk, rfl⟩ := ClockBank.start_eq_ok hs
    obtain rfl := (c.clocks.find?_eq_some_iff.mp hk).2
    rw [pins, hb.bench] at hnames
    rw [hb.bench]
    refine h.frame hnames (ClockBank.find?_put_ne (hother ha hi)) ?_ rfl rfl
    dsimp only
    split
    · rfl
    · exact Pinout.state_set_ne _ (hother ha hi) _
  | stop hi hs hb =>
    obtain ⟨k, hk, rfl⟩ := ClockBank.stop_eq_ok hs
    obtain rfl := (c.clocks.find?_eq_some_iff.mp hk).2
    rw [hb.bench]
    exact h.frame rfl (ClockBank.find?_put_ne (hother ha hi)) rfl rfl rfl
  | pause hi hp hb =>
    obtain ⟨k, _, hk, -, rfl⟩ := ClockBank.pause_eq_ok hp
    obtain rfl := (c.clocks.find?_eq_some_iff.mp hk).2
    rw [hb.bench]
    exact h.frame rfl (ClockBank.find?_put_ne (hother ha hi)) rfl rfl rfl
  | resume hi hr hb =>
    obtain ⟨k, hk, hput⟩ := ClockBank.resume_eq_ok hr
    have hpin := (c.clocks.find?_eq_some_iff.mp hk).2
    rw [hb.bench]
    refine h.frame rfl ?_ rfl rfl rfl
    rcases hput with ⟨-, _, -, rfl⟩ | ⟨-, d, hd, -, -, rfl⟩
    · exact ClockBank.find?_put_ne (by rw [hpin]; exact hother ha hi)
    · exact ClockBank.find?_put_ne (by rw [hd]; exact hother ha hi)
  | group hpos hg hb hcfg =>
    rw [hb]
    exact h
  | @emit t n call b hi hb hafter =>
    have hcycle : c'.cycle = c.cycle + n := by rw [cycle, hafter.bench, Bench.cycle_of_hold hb, cycle]
    rw [hafter.bench]
    refine h.hold hb fun k hk => ?_
    have hcount := hran (c.cycle + k) (Nat.le_add_right _ _) (by rw [hcycle]; exact Nat.add_le_add_left hk _)
    rwa [Nat.add_sub_cancel_left] at hcount
  | store ht hb =>
    obtain ⟨hcycle, -, before, r, after, hold, hnew, -⟩ := Tape.records_markStore ht
    rw [hb.bench]
    refine h.frame rfl rfl rfl hcycle ?_
    dsimp only
    rw [hnew, hold, List.flatMap_append, List.flatMap_append, List.flatMap_append, List.flatMap_cons,
      Tape.flatMap_cycles_storedParts, List.append_assoc]
  | item i hi hb =>
    have hrecords : (c.bench.tape.push i).records = c.bench.tape.records := Tape.records_push hi
    rw [hb.bench]
    exact h.frame rfl rfl rfl rfl (by dsimp only; rw [hrecords])
  | finish hb => exact absurd ha id

theorem Moves.follows {A : Act → Prop} (hA : ∀ a, A a → a.Leaves name) (hm : Moves A c c') :
    Counts ran run c c' → c.bench.Follows w name start ran run → c'.bench.Follows w name start ran run := by
  have hfinish : ¬ A .finish := fun h => hA _ h
  induction hm using Relation.ReflTransGen.head_induction_on with
  | refl => exact fun _ h => h
  | @head c c₁ hm hrest ih =>
    intro hran h
    obtain ⟨a, ha, hm⟩ := hm
    have hleaves : a.Leaves name := by
      rcases ha with rfl | ha
      · trivial
      · exact hA a ha
    have hle : c.cycle ≤ c₁.cycle := hm.cycle_le fun heq => by rw [heq] at hleaves; exact hleaves
    have hle' : c₁.cycle ≤ c'.cycle := Moves.cycle_le hfinish hrest
    have hfirst : Counts ran run c c₁ := fun x h₁ h₂ => hran x h₁ (Nat.le_trans h₂ hle')
    refine ih (fun x h₁ h₂ => ?_) (hm.follows hleaves hfirst h)
    rw [hran x (Nat.le_trans hle h₁) h₂, hran c₁.cycle hle hle']
    unfold SquareWave.count
    split
    · omega
    · rfl

/-- The clock of the wave put in its place with a status that suits the wave. -/
theorem follows_put {k : Clock} (h : c.bench.Follows w name start ran run) (hk : c.clocks.find? w.pin = some k)
    (hhalf : k.half = w.half) (run' : Bool) : Follows w name start ran run' { c.bench with
      clocks := c.clocks.put { k with status := w.status run' c.cycle (ran c.cycle) } } := by
  have hpin : k.pin = w.pin := (c.clocks.find?_eq_some_iff.mp hk).2
  have hfind : (c.clocks.put { k with status := w.status run' c.cycle (ran c.cycle) }).find? w.pin =
      some { k with status := w.status run' c.cycle (ran c.cycle) } := by
    rw [← hpin]
    exact ClockBank.find?_put_self _
  exact ⟨h.id, ⟨⟨_, hfind, hhalf, rfl⟩, h.swing.state, h.swing.pin⟩, h.shown⟩

/-- A clock that pauses or goes on without a new frequency stays in phase. -/
theorem Move.follows_own {a : Act} (hm : Move c c' a) (ha : a = .pause name ∨ a = .resume name false)
    (h : c.bench.Follows w name start ran run) :
    c'.cycle = c.cycle ∧ ∃ run', c'.bench.Follows w name start ran run' := by
  obtain ⟨k, hk, hhalf, hstatus⟩ := h.swing.clock
  have hput := follows_put h hk hhalf
  have hsame {pin : String} {i : PinId} (hpin : pin = name) (hi : c.pins.id pin = .ok i) : i = w.pin := by
    rw [hpin] at hi
    exact Except.ok.inj (hi.symm.trans h.id)
  have hkeep : c'.cycle = c.cycle := hm.cycle_eq (by rcases ha with rfl | rfl <;> exact nofun)
    (by rcases ha with rfl | rfl <;> exact nofun)
  refine ⟨hkeep, ?_⟩
  cases hm with
  | pause hi hp hb =>
    obtain rfl := hsame (by simpa using ha) hi
    obtain ⟨k', next, hk', hrunning, rfl⟩ := ClockBank.pause_eq_ok hp
    obtain rfl := Option.some.inj (hk'.symm.trans hk)
    have hnext : next = c.cycle + w.left (ran c.cycle) := by
      rw [hrunning] at hstatus
      cases run with
      | true => exact ClockStatus.running.inj hstatus
      | false => exact nomatch hstatus
    have hleft : max (next - c.cycle) 1 = w.left (ran c.cycle) := by
      rw [hnext, Nat.add_sub_cancel_left]
      exact Nat.max_eq_left (w.left_pos _)
    refine ⟨false, ?_⟩
    rw [hb.bench, hleft]
    exact hput false
  | @resume pin i retune half clocks hi hr hb =>
    have ha : pin = name ∧ retune.isSome = false := by simpa using ha
    obtain rfl := hsame ha.1 hi
    obtain ⟨k', hk', ⟨-, remaining, hpaused, rfl⟩ | ⟨hsome, -⟩⟩ := ClockBank.resume_eq_ok hr
    · obtain rfl := Option.some.inj (hk'.symm.trans hk)
      have hremaining : remaining = w.left (ran c.cycle) := by
        rw [hpaused] at hstatus
        cases run with
        | true => exact nomatch hstatus
        | false => exact ClockStatus.paused.inj hstatus
      refine ⟨true, ?_⟩
      rw [hb.bench, hremaining]
      exact hput true
    · rw [ha.2] at hsome
      exact nomatch hsome
  | _ => exact absurd ha (by simp)

end

end Sequencer

/-! ## Runs -/

/-- Operations that leave a pin and its clock alone, but for pauses. -/
def Operation.Spares (name : String) : Operation → Prop
  | .setPin pin _ | .enableClock pin _ | .startClock pin | .stopClock pin | .resumeClock pin (some _) => pin ≠ name
  | .threads ts => ∀ t ∈ ts, ∀ s, .set name s ∉ t.steps
  | .finish _ => False
  | _ => True

/-- They leave the pin and the clock alone, or do nothing but to pause the
clock or let it go on. -/
theorem Operation.does_of_spares {name : String} : ∀ {op : Operation}, op.Spares name →
    (∀ a, op.Does a → a.Leaves name) ∨ ∀ a, op.Does a → a = .pause name ∨ a = .resume name false
  | .setPin _ _, h | .enableClock _ _, h | .startClock _, h | .stopClock _, h | .resumeClock _ (some _), h =>
    .inl fun _ ha => by
      rw [show _ = _ from ha]
      exact h
  | .pauseClock pin, _ | .resumeClock pin none, _ => by
    by_cases hpin : pin = name
    · subst hpin
      exact .inr fun _ ha => by first | exact .inl ha | exact .inr ha
    · refine .inl fun _ ha => ?_
      rw [show _ = _ from ha]
      exact hpin
  | .threads ts, h => by
    refine .inl fun a ha => ?_
    rcases ha with rfl | ⟨t, ht, pin, s, hstep, rfl⟩
    · trivial
    · rintro rfl
      exact h t ht s hstep
  | .hold _ _, _ | .delay _, _ | .wait _, _ | .call _, _ | .store _, _ | .comment _, _ | .setGroup _, _ =>
    .inl fun _ ha => by
      rw [show _ = _ from ha]
      trivial
  | .pinState _, _ | .setTimeset _ _, _ | .addWave _ _ _ _, _ | .label _, _ | .define _, _ | .imported, _
  | .items, _ | .scope _ _, _ | .block _, _ | .attempt _, _ => .inl fun _ ha => absurd ha id

theorem Operation.not_finish_of_spares {name : String} {op : Operation} (h : op.Spares name) : ¬ op.Does .finish := by
  intro hdoes
  rcases op.does_of_spares h with hleaves | hown
  · exact hleaves _ hdoes
  · exact (hown _ hdoes).elim nofun nofun

namespace Sequencer

/-- The cycles before `stop` that a log adds to the sequencer `c` while the
clock on a pin is running. -/
def runningCycles (pin : PinId) (stop : Nat) : Sequencer → List LogEntry → Nat
  | _, [] => 0
  | c, e :: log =>
    (if c.clocks.isRunning pin then min stop e.after.cycle - c.cycle else 0) + runningCycles pin stop e.after log

theorem runningCycles_congr {pin : PinId} {stop : Nat} {c c' : Sequencer} (hclocks : c'.clocks = c.clocks)
    (hcycle : c'.cycle = c.cycle) : ∀ log, runningCycles pin stop c' log = runningCycles pin stop c log
  | [] => rfl
  | e :: log => by rw [runningCycles, runningCycles, hclocks, hcycle]

/-- The beginning and the end of a scope do not change clocks and take no
cycles. -/
theorem Moves.turn_keeps {c c' : Sequencer} (h : Moves ScopeActs c c') :
    c'.clocks = c.clocks ∧ c'.cycle = c.cycle := by
  refine h.keep (P := fun c' => c'.clocks = c.clocks ∧ c'.cycle = c.cycle) ?_ ⟨rfl, rfl⟩
  rintro a c₁ c₂ ha hm ⟨hclocks₁, hcycle₁⟩
  rw [← hclocks₁, ← hcycle₁]
  cases hm with
  | note h | mask ids h | unmask ids h | item i hi h =>
    have hclocks : c₂.clocks = c₁.clocks := by
      rw [clocks, h.bench]
      rfl
    have hcycle : c₂.cycle = c₁.cycle := by
      rw [cycle, h.bench]
      rfl
    exact ⟨hclocks, hcycle⟩
  | _ => exact absurd ha (by simp [ScopeActs])

variable {w : SquareWave} {name : String} {start : Nat} {ran : Nat → Nat} {c c' : Sequencer} {log : List LogEntry}

/-- A path counts nothing before its first cycle. -/
theorem Path.runningCycles_eq_zero {pin : PinId} {stop : Nat} (h : Path c log c')
    (hspares : ∀ e ∈ log, e.operation.Spares name) : stop ≤ c.cycle → runningCycles pin stop c log = 0 := by
  induction h with
  | done => exact fun _ => rfl
  | @leaf c c' op log hop hrest ih =>
    intro hstop
    obtain ⟨hop', hlog⟩ := List.forall_mem_cons.mp hspares
    have hle := (op.perform_does c hop).cycle_le (op.not_finish_of_spares hop')
    rw [runningCycles, ih hlog (Nat.le_trans hstop hle), Nat.sub_eq_zero_of_le (by omega), ite_self]
  | turn ht _ ih =>
    intro hstop
    obtain ⟨hclocks, hcycle⟩ := ht.moves.turn_keeps
    rw [← runningCycles_congr hclocks hcycle]
    exact ih hspares (by rw [hcycle]; exact hstop)
  | @closed c c' op answer log hop hrest ih =>
    intro hstop
    rw [runningCycles, ih (List.forall_mem_cons.mp hspares).2 hstop, Nat.sub_eq_zero_of_le (Nat.min_le_right _ _),
      ite_self]

/-- A bench that shows a wave keeps showing it. -/
theorem Path.follows (h : Path c log c') (hspares : ∀ e ∈ log, e.operation.Spares name) : ∀ {run : Bool},
    (∀ x, c.cycle ≤ x → ran x = ran c.cycle + runningCycles w.pin x c log) →
      c.bench.Follows w name start ran run → ∃ run', c'.bench.Follows w name start ran run' := by
  induction h with
  | done => exact fun _ h => ⟨_, h⟩
  | @leaf c c' op log hop hrest ih =>
    intro run hran h
    obtain ⟨hop', hlog⟩ := List.forall_mem_cons.mp hspares
    have hdoes := op.perform_does c hop
    have hle := hdoes.cycle_le (op.not_finish_of_spares hop')
    have hzero (x : Nat) (hx : x ≤ (op.perform c).after.cycle) :
        runningCycles w.pin x (op.perform c).after log = 0 := hrest.runningCycles_eq_zero hlog hx
    have hrun : c.clocks.isRunning w.pin = run := h.swing.isRunning
    simp only [runningCycles, hrun] at hran
    obtain ⟨run', hafter⟩ : ∃ run', (op.perform c).after.bench.Follows w name start ran run' := by
      rcases op.does_of_spares hop' with hleaves | hown
      · refine ⟨run, hdoes.follows hleaves (fun x h₁ h₂ => ?_) h⟩
        rw [hran x h₁, hzero x h₂, Nat.min_eq_left h₂]
        cases run <;> rfl
      · refine hdoes.keep (P := fun c' => ∃ run', c'.bench.Follows w name start ran run') ?_ ⟨run, h⟩
        rintro a c₁ c₂ (rfl | ha) hm ⟨run₁, h₁⟩
        · exact ⟨run₁, hm.follows trivial (.of_cycle_eq (hm.cycle_eq nofun nofun)) h₁⟩
        · exact (hm.follows_own (hown a ha) h₁).2
    refine ih hlog (fun x hx => ?_) hafter
    rw [hran x (Nat.le_trans hle hx), hran _ hle, hzero _ (Nat.le_refl _), Nat.min_eq_right hx, Nat.min_self]
    rw [Nat.add_zero, Nat.add_assoc]
  | turn ht _ ih =>
    intro run hran h
    obtain ⟨hclocks, hcycle⟩ := ht.moves.turn_keeps
    have hleaves : ∀ a, ScopeActs a → a.Leaves name := by
      rintro a (rfl | rfl) <;> trivial
    refine ih hspares (fun x hx => ?_) (ht.moves.follows hleaves (.of_cycle_eq hcycle) h)
    rw [hcycle] at hx ⊢
    rw [runningCycles_congr hclocks hcycle]
    exact hran x hx
  | @closed c c' op answer log hop hrest ih =>
    intro run hran h
    refine ih (List.forall_mem_cons.mp hspares).2 (fun x hx => ?_) h
    rw [hran x hx, runningCycles, Nat.sub_eq_zero_of_le (Nat.min_le_right _ _), ite_self, Nat.zero_add]

/-! ## From the start of a clock on -/

/-- A clock that was just started, as a wave. -/
theorem Move.follows_start (hm : Move c c' (.start name)) (hc : c.clocks.Sound) {width : Nat}
    (htiled : c'.bench.Tiled width) :
    ∃ w : SquareWave, ∃ k, c'.clocks.find? w.pin = some k ∧ w.half = k.half ∧ w.initial = c'.pins.state w.pin ∧
      ∀ ran : Nat → Nat, ran c'.cycle = 0 → c'.bench.Follows w name c'.cycle ran true := by
  have hnames := hm.names
  cases hm with
  | @start pin i clocks hi hg hs h =>
    obtain ⟨k, hk, hclocks⟩ := ClockBank.start_eq_ok hs
    obtain rfl := (c.clocks.find?_eq_some_iff.mp hk).2
    have hfind : c'.clocks.find? k.pin = some { k with status := .running (c.cycle + k.half) } := by
      rw [Sequencer.clocks, h.bench, hclocks]
      exact ClockBank.find?_put_self _
    have hid : c'.pins.id name = .ok k.pin := (Pinout.id_congr hnames name).trans hi
    have hlevel : (c'.pins.state k.pin).isLevel = true := by
      rw [pins, h.bench]
      dsimp only
      split
      · assumption
      · rw [Pinout.state_set_self _ (Pinout.lt_of_id_eq_ok hi)]
        rfl
    have hcycle : c'.cycle = c.cycle := by rw [cycle, h.bench]; rfl
    refine ⟨⟨k.pin, k.half, hc.of_find? hk, c'.pins.state k.pin, hlevel⟩, _, hfind, rfl, rfl, fun ran hran => ?_⟩
    have hran : ran c'.bench.tape.cycle = 0 := hran
    refine ⟨hid, ?_, fun t ht hstart => absurd (htiled.cycle_lt t ht) (Nat.not_lt.mpr hstart)⟩
    rw [hran]
    refine ⟨⟨_, hfind, rfl, ?_⟩, ?_, Pinout.lt_of_id_eq_ok hid⟩
    · rw [← hcycle, SquareWave.status, SquareWave.left_zero]
      rfl
    · rw [SquareWave.levelAt_zero]
      rfl

/-- What programs make of a new sequencer keeps its records in one piece, and
its clocks sound. -/
theorem Path.keeps_sound {pattern : String} {declared : Pinout} {config : Config}
    (h : Path (new pattern declared config) log c) :
    c.clocks.Sound ∧ c.bench.Tiled declared.pins.length := by
  have hkeep := (h.keep (P := fun c => c.bench.moment.Ticking ∧ c.bench.Tiled declared.pins.length)
    (fun hm hc => ⟨hm.ticking hc.1, hm.tiled hc.2⟩)
    ⟨ticking_new pattern declared config, tiled_new pattern declared config⟩).2
  exact ⟨hkeep.1.ahead.sound, hkeep.2⟩

theorem answer_startClock_eq_done_iff {c : Sequencer} {pin : String} :
    ((Operation.startClock pin).perform c).answer = .ok .done ↔ (c.startClock pin).1 = .ok () := by
  show (c.startClock pin).1.map (fun _ => Answer.done) = .ok .done ↔ (c.startClock pin).1 = .ok ()
  cases (c.startClock pin).1 with
  | error fault =>
    constructor <;>
    · intro h
      cases h
  | ok _ => exact ⟨fun _ => rfl, fun _ => rfl⟩

/-- From a successful start on, every cycle that is recorded shows on the pin
of the clock the level it had at the start, inverted as often as the half
period goes into the cycles for which the clock has run since then. That is so
through all operations that spare the pin, in the records that any of them
leaves behind. -/
theorem startClock_waveform {pattern : String} {declared : Pinout} {config : Config} {ops : List Operation}
    {past between later : List LogEntry} {started last : LogEntry} {pin : String}
    (hlog : (Operation.performAll ops (new pattern declared config)).1 =
      past ++ started :: (between ++ last :: later))
    (hop : started.operation = .startClock pin) (hok : started.answer = .ok .done)
    (hspares : ∀ e ∈ between ++ [last], e.operation.Spares pin) :
    ∃ i k, started.after.pins.id pin = .ok i ∧ started.after.clocks.find? i = some k ∧ 0 < k.half ∧
      (started.after.pins.state i).isLevel = true ∧
      ∀ r ∈ last.after.records, ∀ x, started.after.cycle ≤ x → r.start ≤ x → x < r.start + r.count →
        r.states[i]? = some (PinState.toggled^[runningCycles i x started.after (between ++ [last]) / k.half]
          (started.after.pins.state i)) := by
  obtain ⟨c₀, hpast, hentry, hrest⟩ := (Operation.path_performAll ops _).split hlog
  obtain ⟨c₁, hbetween, hlast, -⟩ := hrest.split rfl
  have hpath : Path started.after (between ++ [last]) last.after := hbetween.append (.of_entry hlast)
  have hstart : Move c₀ started.after (.start pin) := by
    rw [Path.Entry, hop] at hentry
    obtain ⟨-, hanswer, hafter⟩ | ⟨hleaf, -⟩ := hentry
    · rw [hafter]
      exact (c₀.startClock_settles pin).move (answer_startClock_eq_done_iff.mp (hanswer.symm.trans hok))
    · cases hleaf
  obtain ⟨w, k, hfind, hhalf, hinitial, hfollows⟩ := hstart.follows_start hpast.keeps_sound.1
    (hpast.append (.of_entry hentry)).keeps_sound.2
  have hzero : runningCycles w.pin started.after.cycle started.after (between ++ [last]) = 0 :=
    hpath.runningCycles_eq_zero hspares (Nat.le_refl _)
  have hstarted := hfollows (fun x => runningCycles w.pin x started.after (between ++ [last])) hzero
  obtain ⟨run, hshown⟩ := hpath.follows hspares (fun x _ => by rw [hzero, Nat.zero_add]) hstarted
  refine ⟨w.pin, k, hstarted.id, hfind, hhalf ▸ w.half_pos, hinitial ▸ w.isLevel, fun r hr x h₁ h₂ h₃ => ?_⟩
  have hmem : (⟨x, r.states, r.timeset, r.group⟩ : TesterCycle) ∈
      last.after.bench.tape.records.flatMap VectorRecord.cycles :=
    List.mem_flatMap.mpr ⟨r, hr, r.mem_cycles h₂ h₃⟩
  rw [← hhalf, ← hinitial]
  exact hshown.shown _ hmem h₁

/-- A clock with six cycles between its edges. It runs for eight cycles, pauses
for three and runs on for fourteen. -/
def pausedProgram : List Operation :=
  [.setTimeset "tp" (some ⟨40000⟩), .enableClock "clk" (.ofMegahertz 2), .startClock "clk", .hold (some 8) none,
    .pauseClock "clk", .hold (some 3) none, .resumeClock "clk" none, .hold (some 14) none]

def clockPin : Pinout := ⟨[⟨"clk", .dontCare, 0⟩]⟩

theorem paused_waveform : ∃ past started between last,
    (Operation.performAll pausedProgram (new "paused" clockPin (.standard .v93k))).1 =
        past ++ started :: (between ++ [last]) ∧
      started.operation = .startClock "clk" ∧ started.answer = .ok .done ∧
      (∀ e ∈ between ++ [last], e.operation.Spares "clk") ∧
      ∃ i k, started.after.clocks.find? i = some k ∧
        ∀ r ∈ last.after.records, ∀ x, started.after.cycle ≤ x → r.start ≤ x → x < r.start + r.count →
          r.states[i]? = some (PinState.toggled^[runningCycles i x started.after (between ++ [last]) / k.half]
            (started.after.pins.state i)) := by
  obtain ⟨past, started, between, last, hlog, hop, hok, hspares⟩ : ∃ past started between last,
      (Operation.performAll pausedProgram (new "paused" clockPin (.standard .v93k))).1 =
          past ++ started :: (between ++ [last]) ∧
        started.operation = .startClock "clk" ∧ started.answer = .ok .done ∧
        ∀ e ∈ between ++ [last], e.operation.Spares "clk" := by
    refine ⟨[_, _], _, [_, _, _, _], _, rfl, rfl, answer_startClock_eq_done_iff.mpr (by decide +kernel), ?_⟩
    simp only [List.cons_append, List.nil_append, List.forall_mem_cons]
    exact ⟨trivial, trivial, trivial, trivial, trivial, List.forall_mem_nil _⟩
  obtain ⟨i, k, _, hk, _, _, hwave⟩ := startClock_waveform hlog hop hok hspares
  exact ⟨past, started, between, last, hlog, hop, hok, hspares, i, k, hk, hwave⟩

end Sequencer

end TestProgram
