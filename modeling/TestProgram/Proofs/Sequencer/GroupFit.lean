import TestProgram.Proofs.Sequencer.Waveform

/-!
# Clocks that do not fit the vector groups

Starting a clock and setting the group size check that running clocks have
their edges between vector groups. Giving a running clock another frequency and
letting a paused clock go on do not. A running clock that is a `Misfit` has
therefore become one when it was tuned or let go on, and it has been the same
misfit ever since (`misfit_since_tuned`). `resumed_misfit` is such a clock.
-/

namespace TestProgram

/-- Whether the act tunes the clock on a pin or lets it go on. -/
def Act.Tunes (name : String) : Act → Prop
  | .enable pin | .resume pin _ => pin = name
  | _ => False

def Operation.Tunes (name : String) : Operation → Prop
  | .enableClock pin _ | .resumeClock pin _ => pin = name
  | _ => False

theorem Operation.tunes_of_does {name : String} : ∀ {op : Operation} {a : Act}, op.Does a → a.Tunes name → op.Tunes name
  | .enableClock _ _, _, rfl, h | .resumeClock _ _, _, rfl, h => h
  | .threads _, _, hdoes, h => by
    rcases hdoes with rfl | ⟨_, _, _, _, _, rfl⟩ <;> exact absurd h id
  | .setPin _ _, _, rfl, h | .startClock _, _, rfl, h | .stopClock _, _, rfl, h | .pauseClock _, _, rfl, h
  | .hold _ _, _, rfl, h | .delay _, _, rfl, h | .wait _, _, rfl, h | .call _, _, rfl, h | .store _, _, rfl, h
  | .comment _, _, rfl, h | .setGroup _, _, rfl, h | .finish _, _, rfl, h => absurd h id

/-- The clock on the pin is running with this half period. -/
def ClockBank.Ticks (b : ClockBank) (pin : PinId) (half : Nat) : Prop :=
  ∃ k ∈ b.running, k.pin = pin ∧ k.half = half

namespace ClockBank

variable {b : ClockBank} {pin : PinId} {half : Nat}

theorem ticks_iff : b.Ticks pin half ↔ ∃ k ∈ b.clocks, k.isRunning = true ∧ k.pin = pin ∧ k.half = half := by
  simp only [Ticks, running, List.mem_filter, and_assoc]

/-- A clock put in its place ticks, or another one does. -/
theorem Ticks.of_put {k : Clock} (h : (b.put k).Ticks pin half) :
    (k.isRunning = true ∧ k.pin = pin ∧ k.half = half) ∨ b.Ticks pin half := by
  obtain ⟨d, hd, hdticks⟩ := ticks_iff.mp h
  rcases mem_put.mp hd with rfl | ⟨hd, -⟩
  · exact .inl hdticks
  · exact .inr (ticks_iff.mpr ⟨d, hd, hdticks⟩)

theorem Ticks.of_next {s : Moment} (h : s.next.clocks.Ticks pin half) : s.clocks.Ticks pin half := by
  obtain ⟨k, hk, hrunning, hpin, hhalf⟩ := ticks_iff.mp h
  rw [Moment.clocks_next] at hk
  obtain ⟨d, hd, hdpin, hdhalf, hdrunning⟩ := Slice.exists_of_mem_pass hk
  exact ticks_iff.mpr ⟨d, hd, hdrunning.trans hrunning, hdpin.trans hpin, hdhalf.trans hhalf⟩

theorem Ticks.of_iterate {s : Moment} : ∀ {n : Nat}, (Moment.next^[n] s).clocks.Ticks pin half → s.clocks.Ticks pin half
  | 0, h => h
  | n + 1, h => by
    rw [Function.iterate_succ_apply'] at h
    exact Ticks.of_iterate h.of_next

end ClockBank

theorem Bench.ticks_of_hold {b b' : Bench} {t : Timeset} {n : Nat} {m : Marks} (hb : b.hold t n m = .ok b') {pin : PinId}
    {half : Nat} (h : b'.clocks.Ticks pin half) : b.clocks.Ticks pin half := by
  have hclocks : b'.clocks = (Moment.next^[n] b.moment).clocks := congrArg Moment.clocks (hold_eq_ok hb).2.1
  rw [hclocks] at h
  exact h.of_iterate

namespace Sequencer

/-! ## Checks -/

theorem checkGroup_eq_ok {c : Sequencer} {pin : PinId} {group : Nat} (h : c.checkGroup pin group = .ok ()) {k : Clock}
    (hk : k ∈ c.clocks.clocks) (hpin : k.pin = pin) (hgroup : 1 < group) : group ∣ k.half := by
  have hfind : c.clocks.find? pin = some k := c.clocks.find?_eq_some_iff.mpr ⟨hk, hpin⟩
  unfold checkGroup at h
  rw [hfind] at h
  dsimp only at h
  split at h
  · exact nomatch h
  · rename_i hfits
    exact Nat.dvd_of_mod_eq_zero (by_contra fun hne => hfits ⟨hgroup, hne⟩)

theorem checkGroups_eq_ok {c : Sequencer} {group : Nat} : ∀ {pins : List PinId}, c.checkGroups group pins = .ok () →
    ∀ pin ∈ pins, c.checkGroup pin group = .ok ()
  | [], _ => List.forall_mem_nil _
  | pin :: pins, h => by
    obtain ⟨⟨⟩, hpin, hpins⟩ := bind_eq_ok.mp h
    exact List.forall_mem_cons.mpr ⟨hpin, checkGroups_eq_ok hpins⟩

/-! ## Misfits -/

/-- The clock on the pin is running, and its edges do not all lie between the
vector groups. -/
structure Misfit (pin : PinId) (half group : Nat) (c : Sequencer) : Prop where
  size : c.group = group
  large : 1 < group
  ticks : c.clocks.Ticks pin half
  uneven : ¬ group ∣ half

variable {pin : PinId} {half group : Nat} {c c' : Sequencer}

theorem Misfit.back (h : Misfit pin half group c') (hgroup : c'.group = c.group)
    (hticks : c'.clocks.Ticks pin half → c.clocks.Ticks pin half) : Misfit pin half group c :=
  ⟨hgroup.symm.trans h.size, h.large, hticks h.ticks, h.uneven⟩

theorem Misfit.of_atBench (h : Misfit pin half group c') (hb : AtBench c c.bench c') : Misfit pin half group c :=
  h.back hb.group fun ht => by rwa [clocks, hb.bench] at ht

/-- A clock put in its place is the misfit, or another one was before. -/
theorem Misfit.of_put (h : Misfit pin half group c') {b : Bench} (hb : AtBench c b c') {k : Clock}
    (hclocks : b.clocks = c.clocks.put k) :
    (k.isRunning = true ∧ k.pin = pin ∧ k.half = half) ∨ Misfit pin half group c := by
  have hticks : b.clocks.Ticks pin half := hb.bench ▸ h.ticks
  rw [hclocks] at hticks
  exact hticks.of_put.imp_right fun hold => h.back hb.group fun _ => hold

/-- No move makes a misfit of a clock but those that tune it. -/
theorem Move.misfit {a : Act} (hm : Move c c' a) (h : Misfit pin half group c') :
    Misfit pin half group c ∨ ∃ name, a.Tunes name ∧ c.pins.id name = .ok pin := by
  cases hm with
  | note hb | setPin s hi hb | mask ids hb | unmask ids hb | store ht hb | item i hi hb =>
    exact .inl (h.back hb.group fun ht => by rwa [clocks, hb.bench] at ht)
  | @enable name i f period half' clocks' hi he hb =>
    obtain ⟨k, hk, -, -, rfl⟩ := ClockBank.enable_eq_ok he
    rcases h.of_put hb rfl with ⟨-, rfl, -⟩ | hold
    · exact .inr ⟨name, rfl, hi.trans (congrArg Except.ok hk.symm)⟩
    · exact .inl hold
  | @resume name i retune half' clocks' hi hr hb =>
    obtain ⟨k, hk, hput⟩ := ClockBank.resume_eq_ok hr
    have hkpin := (c.clocks.find?_eq_some_iff.mp hk).2
    obtain ⟨d, hd, rfl⟩ : ∃ d : Clock, d.pin = i ∧ clocks' = c.clocks.put d := by
      rcases hput with ⟨-, remaining, -, rfl⟩ | ⟨-, d, hd, -, -, rfl⟩
      · exact ⟨{ k with status := .running (c.cycle + remaining) }, hkpin, rfl⟩
      · exact ⟨d, hd, rfl⟩
    rcases h.of_put hb rfl with ⟨-, rfl, -⟩ | hold
    · exact .inr ⟨name, rfl, hi.trans (congrArg Except.ok hd.symm)⟩
    · exact .inl hold
  | start hi hg hs hb =>
    obtain ⟨k, hk, rfl⟩ := ClockBank.start_eq_ok hs
    obtain ⟨hmem, hkpin⟩ := c.clocks.find?_eq_some_iff.mp hk
    rcases h.of_put hb rfl with ⟨-, -, rfl⟩ | hold
    · -- the clock was checked against the group
      have hgroup : c.group = group := hb.group.symm.trans h.size
      rw [hgroup] at hg
      exact absurd (checkGroup_eq_ok hg hmem hkpin h.large) h.uneven
    · exact .inl hold
  | stop hi hs hb =>
    obtain ⟨k, hk, rfl⟩ := ClockBank.stop_eq_ok hs
    rcases h.of_put hb rfl with ⟨hrunning, -, -⟩ | hold
    · exact absurd hrunning Bool.false_ne_true
    · exact .inl hold
  | pause hi hp hb =>
    obtain ⟨k, next, hk, -, rfl⟩ := ClockBank.pause_eq_ok hp
    rcases h.of_put hb rfl with ⟨hrunning, -, -⟩ | hold
    · exact absurd hrunning Bool.false_ne_true
    · exact .inl hold
  | group hpos hg hb hcfg =>
    -- all running clocks were checked against the new group
    obtain ⟨k, hk, rfl, rfl⟩ := h.ticks
    rw [clocks, hb] at hk
    have hcheck := checkGroups_eq_ok hg k.pin (List.mem_map_of_mem hk)
    rw [h.size] at hcheck
    exact absurd (checkGroup_eq_ok hcheck (List.mem_filter.mp hk).1 rfl h.large) h.uneven
  | emit hi hemit hb =>
    exact .inl (h.back hb.group fun ht => Bench.ticks_of_hold hemit (by rwa [clocks, hb.bench] at ht))
  | finish hb =>
    obtain ⟨k, hk, -⟩ := h.ticks
    rw [clocks, hb.bench] at hk
    exact absurd hk List.not_mem_nil

theorem Moves.misfit {A : Act → Prop} (hm : Moves A c c') :
    Misfit pin half group c' →
      Misfit pin half group c ∨ ∃ name a, A a ∧ a.Tunes name ∧ c'.pins.id name = .ok pin := by
  induction hm with
  | refl => exact .inl
  | @tail c₁ c₂ _ hm ih =>
    intro h
    obtain ⟨a, ha, hm⟩ := hm
    have hid (name : String) : c₂.pins.id name = c₁.pins.id name := Pinout.id_congr hm.names name
    rcases hm.misfit h with h | ⟨name, htunes, hname⟩
    · refine (ih h).imp_right fun ⟨name, a, ha, htunes, hname⟩ => ⟨name, a, ha, htunes, (hid name).trans hname⟩
    · rcases ha with rfl | ha
      · exact absurd htunes id
      · exact .inr ⟨name, a, ha, htunes, (hid name).trans hname⟩

end Sequencer

/-- The operation tuned the clock on a pin, or let it go on. -/
structure LogEntry.Tunes (pin : PinId) (e : LogEntry) : Prop where
  operation : ∃ name, e.operation.Tunes name ∧ e.after.pins.id name = .ok pin
  done : e.answer = .ok .done

namespace Sequencer

variable {pin : PinId} {half group : Nat} {c c' : Sequencer}

/-- An operation that is settled is done, or it did nothing. -/
theorem Settles.done_or {a : Act} {p : Except Fault Unit × Sequencer} (h : Settles a c p) :
    p.1.map (fun _ => Answer.done) = .ok .done ∨ AtBench c c.bench p.2 := by
  unfold Settles at h
  split at h
  · rename_i hok
    rw [hok]
    exact .inl rfl
  · exact .inr h

/-- An operation that tunes a clock is done, or it did nothing. -/
theorem done_or_of_tunes {name : String} : ∀ {op : Operation}, op.Tunes name →
    (op.perform c).answer = .ok .done ∨ AtBench c c.bench (op.perform c).after
  | .enableClock pin f, _ => (c.enableClock_settles pin f).done_or
  | .resumeClock pin f, _ => (c.resumeClock_settles pin f).done_or

theorem misfit_of_perform {op : Operation} (hop : op.isLeaf = true) (h : Misfit pin half group (op.perform c).after) :
    Misfit pin half group c ∨ LogEntry.Tunes pin ⟨op, (op.perform c).answer, (op.perform c).after⟩ := by
  rcases (op.perform_does c hop).misfit h with h | ⟨name, a, hdoes, htunes, hid⟩
  · exact .inl h
  · have hop' := Operation.tunes_of_does hdoes htunes
    rcases done_or_of_tunes (c := c) hop' with hdone | hnothing
    · exact .inr ⟨⟨name, hop', hid⟩, hdone⟩
    · exact .inl (h.of_atBench hnothing)

/-- At the end of a path a misfit has been there all along, or since it was
tuned. -/
theorem Path.misfit {log : List LogEntry} (hpath : Path c log c') : Misfit pin half group c' →
    (Misfit pin half group c ∧ ∀ e ∈ log, Misfit pin half group e.after) ∨
      ∃ before tuned since, log = before ++ tuned :: since ∧ tuned.Tunes pin ∧
        ∀ e ∈ tuned :: since, Misfit pin half group e.after := by
  induction hpath with
  | done => exact fun h => .inl ⟨h, List.forall_mem_nil _⟩
  | @leaf c c' op log hop hrest ih =>
    intro h
    rcases ih h with ⟨hafter, hlog⟩ | ⟨before, tuned, since, rfl, htuned⟩
    · have hall : ∀ e ∈ ⟨op, (op.perform c).answer, (op.perform c).after⟩ :: log, Misfit pin half group e.after :=
        List.forall_mem_cons.mpr ⟨hafter, hlog⟩
      rcases misfit_of_perform hop hafter with hc | htunes
      · exact .inl ⟨hc, hall⟩
      · exact .inr ⟨[], _, log, rfl, htunes, hall⟩
    · exact .inr ⟨_ :: before, tuned, since, rfl, htuned⟩
  | turn ht _ ih =>
    intro h
    refine (ih h).imp_left fun ⟨hc, hlog⟩ => ⟨?_, hlog⟩
    rcases ht.moves.misfit hc with hc | ⟨name, a, rfl | rfl, htunes, -⟩
    · exact hc
    · exact absurd htunes id
    · exact absurd htunes id
  | closed hop _ ih =>
    intro h
    rcases ih h with ⟨hc, hlog⟩ | ⟨before, tuned, since, rfl, htuned⟩
    · exact .inl ⟨hc, List.forall_mem_cons.mpr ⟨hc, hlog⟩⟩
    · exact .inr ⟨_ :: before, tuned, since, rfl, htuned⟩

/-! ## Runs -/

/-- All running clocks have their edges between vector groups. -/
def GroupsFit (c : Sequencer) : Prop := 1 < c.group → ∀ k ∈ c.clocks.running, c.group ∣ k.half

instance (c : Sequencer) : Decidable c.GroupsFit := inferInstanceAs (Decidable (_ → _))

theorem not_groupsFit_iff : ¬ c.GroupsFit ↔ ∃ pin half, Misfit pin half c.group c := by
  unfold GroupsFit
  push Not
  constructor
  · rintro ⟨hlarge, k, hk, huneven⟩
    exact ⟨k.pin, k.half, rfl, hlarge, ⟨k, hk, rfl, rfl⟩, huneven⟩
  · rintro ⟨_, _, -, hlarge, ⟨k, hk, rfl, rfl⟩, huneven⟩
    exact ⟨hlarge, k, hk, huneven⟩

/-- A misfit was tuned or let go on with its half period in groups of this size,
and no step since then has stopped it. -/
theorem misfit_since_tuned {name : String} {pins : Pinout} {config : Config} {ops : List Operation}
    {past rest : List LogEntry} {e : LogEntry}
    (hlog : (Operation.performAll ops (new name pins config)).1 = past ++ e :: rest)
    (h : Misfit pin half group e.after) :
    ∃ before tuned since, past ++ [e] = before ++ tuned :: since ∧ tuned.Tunes pin ∧
      ∀ d ∈ tuned :: since, Misfit pin half group d.after := by
  obtain ⟨c₀, hpast, hentry, -⟩ := (Operation.path_performAll ops _).split hlog
  rcases (hpast.append (.of_entry hentry)).misfit h with ⟨hnew, -⟩ | htuned
  · obtain ⟨k, hk, -⟩ := hnew.ticks
    exact absurd hk List.not_mem_nil
  · exact htuned

/-- After a step of a program all running clocks have their edges between vector
groups, unless one of them was tuned or let go on without fitting the groups, and
has been running in groups of this size since then. -/
theorem groupsFit_iff_forall_tuned {name : String} {pins : Pinout} {config : Config} {ops : List Operation}
    {past rest : List LogEntry} {e : LogEntry}
    (hlog : (Operation.performAll ops (new name pins config)).1 = past ++ e :: rest) :
    e.after.GroupsFit ↔ ∀ pin half before tuned since, past ++ [e] = before ++ tuned :: since → tuned.Tunes pin →
      ∃ d ∈ tuned :: since, ¬ Misfit pin half e.after.group d.after := by
  rw [← not_iff_not, not_groupsFit_iff]
  push Not
  constructor
  · rintro ⟨pin, half, h⟩
    obtain ⟨before, tuned, since, hsplit, htuned, hall⟩ := misfit_since_tuned hlog h
    exact ⟨pin, half, before, tuned, since, hsplit, htuned, hall⟩
  · rintro ⟨pin, half, before, tuned, since, hsplit, -, hall⟩
    have hlast : e ∈ tuned :: since := by
      have hmem := congrArg List.getLast? hsplit
      rw [List.getLast?_concat, List.getLast?_append_cons] at hmem
      exact List.mem_of_getLast? hmem.symm
    exact ⟨pin, half, hall e hlast⟩

/-- A clock with five cycles between its edges is paused, and goes on in groups
of two cycles. -/
def resumedProgram : List Operation :=
  [.setTimeset "tp" (some ⟨40000⟩), .enableClock "clk" ⟨2500000⟩, .startClock "clk", .pauseClock "clk", .setGroup 2,
    .resumeClock "clk" none]

/-- It runs out of step with the groups from then on. -/
theorem resumed_misfit : ∃ past e,
    (Operation.performAll resumedProgram (new "resumed" clockPin (.standard .v93k))).1 = past ++ e :: [] ∧
      ¬ e.after.GroupsFit ∧ ∃ pin half before tuned since, past ++ [e] = before ++ tuned :: since ∧ tuned.Tunes pin ∧
        ∀ d ∈ tuned :: since, Misfit pin half 2 d.after := by
  obtain ⟨past, e, hlog, hgroup, hodd⟩ : ∃ past e,
      (Operation.performAll resumedProgram (new "resumed" clockPin (.standard .v93k))).1 = past ++ e :: [] ∧
        e.after.group = 2 ∧ ¬ e.after.GroupsFit :=
    ⟨[_, _, _, _, _], _, rfl, by decide +kernel, by decide +kernel⟩
  have htuned := (not_congr (groupsFit_iff_forall_tuned hlog)).mp hodd
  push Not at htuned
  rw [hgroup] at htuned
  exact ⟨past, e, hlog, hodd, htuned⟩

theorem not_forall_groupsFit : ¬ ∀ c, Reachable "resumed" clockPin (.standard .v93k) c → c.GroupsFit := by
  intro hall
  have hodd : ¬ (Operation.performAll resumedProgram (new "resumed" clockPin (.standard .v93k))).2.GroupsFit := by
    decide +kernel
  exact hodd (hall _ (.performAll resumedProgram))

end Sequencer

end TestProgram
