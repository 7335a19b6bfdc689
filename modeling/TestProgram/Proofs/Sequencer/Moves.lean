import Mathlib.Logic.Relation
import TestProgram.Proofs.Pattern.Events
import TestProgram.Sequencer.Operation

/-!
# Moves

All that operations do to the pins, the clocks and the tape of a sequencer is
made up of a few kinds of `Move`. An `Act` names the kind, and the pin where it
is about one; `Operation.Does` says which acts an operation without a body may
consist of, and `perform_does` that it consists of no others. What each move
keeps is therefore kept by all operations.

Holding a vector, delays, waits and threads are all emissions with notes in
between: a relation that is `AcrossVectors` holds across each of them.
-/

namespace TestProgram

/-- The kinds of moves. -/
inductive Act where
  /-- Nothing that pins, clocks or records depend on. -/
  | note
  | setPin (pin : String)
  | masks
  | enable (pin : String)
  | start (pin : String)
  | stop (pin : String)
  | pause (pin : String)
  | resume (pin : String) (retuned : Bool)
  | group
  | emit
  | store
  | item
  | finish
  deriving DecidableEq, Repr

namespace Sequencer

/-- `c'` is at work on the bench `b` under the settings of `c`. -/
structure AtBench (c : Sequencer) (b : Bench) (c' : Sequencer) : Prop where
  bench : c'.bench = b
  config : c'.config = c.config
  group : c'.group = c.group

theorem AtBench.rfl {c : Sequencer} : AtBench c c.bench c := ⟨.refl _, .refl _, .refl _⟩

/-- One change to a sequencer. What a move does not mention may change freely,
the timesets among it. -/
inductive Move (c c' : Sequencer) : Act → Prop where
  | note (h : AtBench c c.bench c') : Move c c' .note
  | setPin {pin : String} {i : PinId} (s : PinState) (hi : c.pins.id pin = .ok i)
      (h : AtBench c { c.bench with pins := c.pins.set i s } c') : Move c c' (.setPin pin)
  | mask (ids : List PinId) (h : AtBench c { c.bench with pins := ids.foldl Pinout.mask c.pins } c') :
      Move c c' .masks
  | unmask (ids : List PinId) (h : AtBench c { c.bench with pins := ids.foldl Pinout.unmask c.pins } c') :
      Move c c' .masks
  | enable {pin : String} {i : PinId} {f : Frequency} {period : Duration} {half : HalfPeriod} {clocks : ClockBank}
      (hi : c.pins.id pin = .ok i) (he : c.clocks.enable i f period = .ok (half, clocks))
      (h : AtBench c { c.bench with clocks } c') : Move c c' (.enable pin)
  | start {pin : String} {i : PinId} {clocks : ClockBank} (hi : c.pins.id pin = .ok i)
      (hg : c.checkGroup i c.group = .ok ()) (hs : c.clocks.start i c.cycle = .ok clocks)
      (h : AtBench c { c.bench with
        clocks, pins := if (c.pins.state i).isLevel then c.pins else c.pins.set i .drive0 } c') :
      Move c c' (.start pin)
  | stop {pin : String} {i : PinId} {clocks : ClockBank} (hi : c.pins.id pin = .ok i)
      (hs : c.clocks.stop i = .ok clocks) (h : AtBench c { c.bench with clocks } c') : Move c c' (.stop pin)
  | pause {pin : String} {i : PinId} {clocks : ClockBank} (hi : c.pins.id pin = .ok i)
      (hp : c.clocks.pause i c.cycle = .ok clocks) (h : AtBench c { c.bench with clocks } c') :
      Move c c' (.pause pin)
  | resume {pin : String} {i : PinId} {retune : Option (Frequency × Duration)} {half : Option HalfPeriod}
      {clocks : ClockBank} (hi : c.pins.id pin = .ok i)
      (hr : c.clocks.resume i c.cycle retune = .ok (half, clocks)) (h : AtBench c { c.bench with clocks } c') :
      Move c c' (.resume pin retune.isSome)
  | group (hpos : c'.group ≠ 0) (hg : c.checkGroups c'.group c.clocks.runningPins = .ok ())
      (hb : c'.bench = c.bench) (hc : c'.config = c.config) : Move c c' .group
  | emit {t : Timeset} {n : Nat} {call : Option String} {b : Bench} (hi : c.inhibitVectors = 0)
      (hb : c.bench.hold t n ⟨c.pendingStore, c.pendingLabel, call, c.group⟩ = .ok b) (h : AtBench c b c') :
      Move c c' .emit
  | store {offset : Nat} {tape : Tape} (ht : c.bench.tape.markStore offset = .ok tape)
      (h : AtBench c { c.bench with tape } c') : Move c c' .store
  | item (i : Item) (hi : i.isVector = false) (h : AtBench c { c.bench with tape := c.bench.tape.push i } c') :
      Move c c' .item
  | finish (h : AtBench c ⟨c.pins, .empty, .blank c.config.ceiling⟩ c') : Move c c' .finish

/-- Nothing changes the settings of a run. -/
theorem Move.config {a : Act} {c c' : Sequencer} (hm : Move c c' a) : c'.config = c.config := by
  cases hm with
  | group hpos hg hb hcfg => exact hcfg
  | note h | setPin s hi h | mask ids h | unmask ids h | enable hi he h | start hi hg hs h | stop hi hs h
  | pause hi hp h | resume hi hr h | emit hi hb h | store ht h | item i hi h | finish h => exact h.config

/-- Moves one after the other, each of them a note or of one of the kinds in
`A`. -/
def Moves (A : Act → Prop) : Sequencer → Sequencer → Prop :=
  Relation.ReflTransGen fun c c' => ∃ a, (a = .note ∨ A a) ∧ Move c c' a

namespace Moves

variable {A B : Act → Prop} {c c' c'' : Sequencer}

theorem refl : Moves A c c := Relation.ReflTransGen.refl

theorem trans (h : Moves A c c') (h' : Moves A c' c'') : Moves A c c'' := Relation.ReflTransGen.trans h h'

theorem one {a : Act} (ha : a = .note ∨ A a) (h : Move c c' a) : Moves A c c' :=
  Relation.ReflTransGen.single ⟨a, ha, h⟩

theorem note (h : AtBench c c.bench c') : Moves A c c' := one (.inl rfl) (.note h)

theorem mono (hAB : ∀ a, A a → B a) (h : Moves A c c') : Moves B c c' :=
  Relation.ReflTransGen.mono (fun _ _ ⟨a, ha, hm⟩ => ⟨a, ha.imp_right (hAB a), hm⟩) _ _ h

/-- What every move keeps, moves keep. -/
theorem keep {P : Sequencer → Prop} (hP : ∀ {a c c'}, a = .note ∨ A a → Move c c' a → P c → P c')
    (h : Moves A c c') (hc : P c) : P c' := by
  induction h with
  | refl => exact hc
  | tail _ hm ih =>
    obtain ⟨a, ha, hm⟩ := hm
    exact hP ha hm ih

end Moves

/-! ## Operations in moves -/

theorem onPin_eq_ok {α : Type} {pin : String} {r : Except ClockFault α} {a : α} :
    onPin pin r = .ok a ↔ r = .ok a := by
  cases r with
  | error e => simp only [onPin, reduceCtorEq]
  | ok b => simp only [onPin, Except.ok.injEq]

/-- An operation that is settled as a whole: a move if it succeeds, and a note
if it fails. -/
def Settles (a : Act) (c : Sequencer) (p : Except Fault Unit × Sequencer) : Prop :=
  match p.1 with
  | .ok _ => Move c p.2 a
  | .error _ => AtBench c c.bench p.2

namespace Settles

variable {a : Act} {c : Sequencer} {p : Except Fault Unit × Sequencer}

theorem of_settle {c₁ : Sequencer} {r : Except Fault Sequencer} (hc : AtBench c c.bench c₁)
    (hr : ∀ c', r = .ok c' → Move c c' a) : Settles a c (c₁.settle r) := by
  cases r with
  | error e => exact hc
  | ok c' => exact hr c' rfl

theorem move (h : Settles a c p) (hp : p.1 = .ok ()) : Move c p.2 a := by
  rw [Settles, hp] at h
  exact h

theorem moves {A : Act → Prop} (ha : a = .note ∨ A a) (h : Settles a c p) : Moves A c p.2 := by
  unfold Settles at h
  split at h
  · exact .one ha h
  · exact .note h

end Settles

section

variable (c : Sequencer)

theorem atBench_noteRounding (pin : String) (f : Frequency) (half : HalfPeriod) :
    AtBench c c.bench (c.noteRounding pin f half) := by
  unfold noteRounding
  split
  · exact .rfl
  · exact ⟨rfl, rfl, rfl⟩

theorem setPin_settles (pin : String) (s : PinState) : Settles (.setPin pin) c (c.setPin pin s) := by
  refine .of_settle ⟨rfl, rfl, rfl⟩ fun c' h => ?_
  obtain ⟨i, hi, h⟩ := bind_eq_ok.mp h
  obtain rfl := Except.ok.inj h
  exact .setPin s hi ⟨rfl, rfl, rfl⟩

theorem setTimeset_settles (name : String) (period : Option Duration) :
    Settles .note c (c.setTimeset name period) := by
  refine .of_settle ⟨rfl, rfl, rfl⟩ fun c' h => ?_
  obtain ⟨timing, -, h⟩ := bind_eq_ok.mp h
  obtain rfl := Except.ok.inj h
  exact .note ⟨rfl, rfl, rfl⟩

theorem addWave_settles (timeset pin : String) (drive compare : Option String) :
    Settles .note c (c.addWave timeset pin drive compare) := by
  refine .of_settle .rfl fun c' h => ?_
  obtain ⟨i, -, h⟩ := bind_eq_ok.mp h
  obtain ⟨timing, -, h⟩ := bind_eq_ok.mp h
  obtain rfl := Except.ok.inj h
  exact .note ⟨rfl, rfl, rfl⟩

theorem enableClock_settles (pin : String) (f : Frequency) : Settles (.enable pin) c (c.enableClock pin f) := by
  refine .of_settle ⟨rfl, rfl, rfl⟩ fun c' h => ?_
  obtain ⟨i, hi, h⟩ := bind_eq_ok.mp h
  obtain ⟨period, -, h⟩ := bind_eq_ok.mp h
  obtain ⟨⟨half, clocks⟩, he, h⟩ := bind_eq_ok.mp h
  obtain rfl := Except.ok.inj h
  have hnote := atBench_noteRounding (c.touch.withClocks clocks) pin f half
  exact .enable hi (onPin_eq_ok.mp he) ⟨hnote.bench, hnote.config, hnote.group⟩

theorem startClock_settles (pin : String) : Settles (.start pin) c (c.startClock pin) := by
  refine .of_settle ⟨rfl, rfl, rfl⟩ fun c' h => ?_
  obtain ⟨i, hi, h⟩ := bind_eq_ok.mp h
  obtain ⟨_, hg, h⟩ := bind_eq_ok.mp h
  obtain ⟨clocks, hs, h⟩ := bind_eq_ok.mp h
  obtain rfl := Except.ok.inj h
  exact .start hi hg (onPin_eq_ok.mp hs) ⟨rfl, rfl, rfl⟩

theorem stopClock_settles (pin : String) : Settles (.stop pin) c (c.stopClock pin) := by
  refine .of_settle ⟨rfl, rfl, rfl⟩ fun c' h => ?_
  obtain ⟨i, hi, h⟩ := bind_eq_ok.mp h
  obtain ⟨clocks, hs, h⟩ := bind_eq_ok.mp h
  obtain rfl := Except.ok.inj h
  exact .stop hi (onPin_eq_ok.mp hs) ⟨rfl, rfl, rfl⟩

theorem pauseClock_settles (pin : String) : Settles (.pause pin) c (c.pauseClock pin) := by
  refine .of_settle ⟨rfl, rfl, rfl⟩ fun c' h => ?_
  obtain ⟨i, hi, h⟩ := bind_eq_ok.mp h
  obtain ⟨clocks, hp, h⟩ := bind_eq_ok.mp h
  obtain rfl := Except.ok.inj h
  exact .pause hi (onPin_eq_ok.mp hp) ⟨rfl, rfl, rfl⟩

/-- A clock that goes on is retuned if a frequency is given. -/
theorem isSome_of_retuning {frequency : Option Frequency} {retune : Option (Frequency × Duration)}
    (h : c.retuning frequency = .ok retune) : retune.isSome = frequency.isSome := by
  cases frequency with
  | none =>
    obtain rfl := Except.ok.inj h
    rfl
  | some f =>
    obtain ⟨period, -, h⟩ := bind_eq_ok.mp h
    obtain rfl := Except.ok.inj h
    rfl

theorem resumeClock_settles (pin : String) (frequency : Option Frequency) :
    Settles (.resume pin frequency.isSome) c (c.resumeClock pin frequency) := by
  refine .of_settle ⟨rfl, rfl, rfl⟩ fun c' h => ?_
  obtain ⟨i, hi, h⟩ := bind_eq_ok.mp h
  obtain ⟨retune, ht, h⟩ := bind_eq_ok.mp h
  obtain ⟨⟨half, clocks⟩, hr, h⟩ := bind_eq_ok.mp h
  have hc' : AtBench c { c.bench with clocks } c' := by
    dsimp only at h
    split at h
    · obtain rfl := Except.ok.inj h
      have hnote := atBench_noteRounding (c.touch.withClocks clocks) pin
      exact ⟨(hnote _ _).bench, (hnote _ _).config, (hnote _ _).group⟩
    · obtain rfl := Except.ok.inj h
      exact ⟨rfl, rfl, rfl⟩
  rw [← isSome_of_retuning c.touch ht]
  exact .resume hi (onPin_eq_ok.mp hr) hc'

/-- Only the bench matters for a check of groups. -/
theorem checkGroups_congr {c c' : Sequencer} (h : c.bench = c'.bench) (group : Nat) :
    ∀ pins : List PinId, c.checkGroups group pins = c'.checkGroups group pins
  | [] => rfl
  | pin :: pins => by
    rw [checkGroups, checkGroups, checkGroups_congr h group pins, checkGroup, checkGroup, clocks, clocks,
      Sequencer.pins, Sequencer.pins, h]

theorem setGroup_settles (group : Nat) : Settles .group c (c.setGroup group) := by
  unfold setGroup
  split
  · exact AtBench.rfl
  · rename_i hpos
    refine .of_settle ⟨rfl, rfl, rfl⟩ fun c' h => ?_
    obtain ⟨_, hg, h⟩ := bind_eq_ok.mp h
    obtain rfl := Except.ok.inj h
    exact .group hpos ((checkGroups_congr (by rfl) group _).trans hg) rfl rfl

theorem store_settles {offset : Nat} (hi : c.inhibitVectors = 0) (ho : offset ≠ 0) :
    Settles .store c (c.store offset) := by
  rw [store, if_neg ho, if_neg (by exact Nat.not_lt.mpr (Nat.le_of_eq hi))]
  refine .of_settle ⟨rfl, rfl, rfl⟩ fun c' h => ?_
  obtain ⟨tape, ht, h⟩ := bind_eq_ok.mp h
  obtain rfl := Except.ok.inj h
  exact .store ht ⟨rfl, rfl, rfl⟩

theorem store_moves (offset : Nat) : Moves (· = .store) c (c.store offset).2 := by
  by_cases ho : offset = 0
  · rw [store, if_pos ho]
    exact .note ⟨rfl, rfl, rfl⟩
  · rcases Nat.eq_zero_or_pos c.inhibitVectors with hi | hi
    · exact (c.store_settles hi ho).moves (.inr rfl)
    · rw [store, if_neg ho, if_pos (by exact hi)]
      exact .note ⟨rfl, rfl, rfl⟩

theorem comment_moves (text : String) : Moves (· = .item) c (c.comment text) := by
  unfold comment
  dsimp only
  split
  · exact .one (.inr rfl) (.item (.comment text) rfl ⟨rfl, rfl, rfl⟩)
  · exact .note ⟨rfl, rfl, rfl⟩

theorem finish_moves : Moves (· = .finish) c c.finish.2 := .one (.inr rfl) (.finish ⟨rfl, rfl, rfl⟩)

/-! ## Vectors in moves -/

theorem use_fields (timeset : String) : (c.use timeset).bench = c.bench ∧
    (c.use timeset).pendingStore = c.pendingStore ∧ (c.use timeset).pendingLabel = c.pendingLabel ∧
      (c.use timeset).group = c.group ∧ (c.use timeset).config = c.config := by
  unfold use
  split <;> exact ⟨rfl, rfl, rfl, rfl, rfl⟩

/-- A vector is held at the bench, with the marks that are pending, or it
leaves the bench alone: if it fails, or if vectors are inhibited. -/
theorem emit_cases (count : Nat) (timeset call : Option String) :
    (AtBench c c.bench (c.emit count timeset call).2 ∧
        (c.inhibitVectors = 0 → (c.emit count timeset call).1 ≠ .ok ())) ∨
      (c.inhibitVectors = 0 ∧ ∃ t b,
        c.bench.hold t count ⟨c.pendingStore, c.pendingLabel, call, c.group⟩ = .ok b ∧
          AtBench c b (c.emit count timeset call).2 ∧ (c.emit count timeset call).1 = .ok ()) := by
  unfold emit
  dsimp only
  split
  · exact .inl ⟨⟨rfl, rfl, rfl⟩, fun _ => nofun⟩
  · rename_i t _
    split
    · rename_i hi
      exact .inl ⟨⟨rfl, rfl, rfl⟩, fun hi' => absurd hi (by exact Nat.not_lt.mpr (Nat.le_of_eq hi'))⟩
    · rename_i hi
      have hi : c.inhibitVectors = 0 := Nat.eq_zero_of_not_pos hi
      obtain ⟨hbench, hstore, hlabel, hgroup, hconfig⟩ := c.touch.use_fields t.name
      rw [hbench, hstore, hlabel, hgroup]
      cases hb : c.touch.bench.hold t count ⟨c.touch.pendingStore, c.touch.pendingLabel, call, c.touch.group⟩ with
      | error e => exact .inl ⟨⟨hbench, hconfig, hgroup⟩, fun _ => nofun⟩
      | ok b => exact .inr ⟨hi, t, b, hb, ⟨rfl, hconfig, rfl⟩, rfl⟩

theorem emit_moves (count : Nat) (timeset call : Option String) :
    Moves (· = .emit) c (c.emit count timeset call).2 := by
  rcases c.emit_cases count timeset call with ⟨h, -⟩ | ⟨hi, t, b, hb, h, -⟩
  · exact .note h
  · exact .one (.inr rfl) (.emit hi hb h)

/-- A successful emission is held at the bench. -/
theorem hold_of_emit {c c' : Sequencer} {count : Nat} {timeset call : Option String} (hi : c.inhibitVectors = 0)
    (h : c.emit count timeset call = (.ok (), c')) :
    ∃ t b, c.bench.hold t count ⟨c.pendingStore, c.pendingLabel, call, c.group⟩ = .ok b ∧ AtBench c b c' := by
  rcases c.emit_cases count timeset call with ⟨-, hok⟩ | ⟨-, t, b, hb, hafter, -⟩
  · exact absurd (congrArg Prod.fst h) (hok hi)
  · rw [h] at hafter
    exact ⟨t, b, hb, hafter⟩

/-- Rounding up to whole groups does nothing but warn. -/
theorem align_eq (count : Nat) : (c.align count).2 = { c with warnings := (c.align count).2.warnings } := by
  unfold align
  split <;> rfl

/-- Rounding up leads to a number of whole groups. -/
theorem dvd_align (count : Nat) : max c.group 1 ∣ (c.align count).1 := by
  unfold align
  split
  · rename_i h
    rcases Nat.lt_or_ge 1 c.group with hg | hg
    · rw [Nat.max_eq_left (Nat.le_of_lt hg)]
      exact Nat.dvd_of_mod_eq_zero (h.resolve_left (Nat.not_le.mpr hg))
    · rw [Nat.max_eq_right hg]
      exact Nat.one_dvd count
  · rename_i h
    have hg : 1 ≤ c.group := by omega
    rw [Nat.max_eq_left hg]
    exact Nat.dvd_mul_left _ _

theorem call_moves (name : String) : Moves (· = .emit) c (c.call name).2 := by
  have hcalled : Moves (· = .emit) c { c with called := Names.insert name c.called } := .note ⟨rfl, rfl, rfl⟩
  exact hcalled.trans (emit_moves _ 1 none (some name))

end

/-! ## Waiting

An operation that waits notes that the pattern has begun, warns of a count that
it rounds up, and emits vectors in whole groups. -/

/-- `R` relates what was before to what comes after, whatever waits in between. -/
structure AcrossVectors (R : Sequencer → Sequencer → Prop) : Prop where
  trans : ∀ {c c' c''}, R c c' → R c' c'' → R c c''
  note : ∀ (c : Sequencer) (started : Bool) (warnings : List Warning), R c { c with started, warnings }
  emit : ∀ (c : Sequencer) {count : Nat} (timeset : Option String), max c.group 1 ∣ count →
    R c (c.emit count timeset none).2

namespace AcrossVectors

variable {R : Sequencer → Sequencer → Prop} (h : AcrossVectors R) (c : Sequencer)
include h

theorem refl : R c c := h.note c c.started c.warnings

theorem touch : R c c.touch := h.note c true c.warnings

theorem hold (count : Option Nat) (timeset : Option String) : R c (c.hold count timeset).2 := by
  unfold Sequencer.hold
  dsimp only
  split
  · exact h.refl c
  · have hwhole := c.dvd_align (count.getD 1)
    rw [align_eq]
    exact h.trans (h.note c c.started _) (h.emit _ timeset hwhole)

theorem delay (count : Nat) : R c (c.delay count).2 := by
  unfold Sequencer.delay
  split
  · exact h.touch c
  · exact h.hold c _ _

theorem wait (d : Duration) : R c (c.wait d).2 := by
  unfold Sequencer.wait
  dsimp only
  split
  · exact h.touch c
  · exact h.trans (h.touch c) (h.delay c.touch _)

/-- Events set their pins, with vectors in between. -/
theorem replay (total : Nat) : ∀ {events : List ThreadEvent},
    (∀ c : Sequencer, ∀ e ∈ events, R c (c.setPin e.pin e.state).2) → ∀ (c : Sequencer) (now : Nat),
    R c (c.replay total now events).2
  | [], _, c, now => by
    unfold Sequencer.replay
    split
    · exact h.delay c _
    · exact h.refl c
  | e :: events, hset, c, now => by
    have hwait : R c (if now < e.cycle then c.delay (e.cycle - now) else (.ok (), c)).2 := by
      split
      · exact h.delay c _
      · exact h.refl c
    unfold Sequencer.replay
    split
    · rename_i heq
      rwa [heq] at hwait
    · rename_i c₁ heq
      rw [heq] at hwait
      have hpin := hset c₁ e List.mem_cons_self
      split
      · rename_i heq
        rw [heq] at hpin
        exact h.trans hwait hpin
      · rename_i c₂ heq
        rw [heq] at hpin
        have hrest := replay total (fun c e he => hset c e (List.mem_cons_of_mem _ he)) c₂ (max now e.cycle)
        exact h.trans (h.trans hwait hpin) hrest

/-- Threads set the pins that they name, with vectors in between. -/
theorem runThreads {threads : List Thread}
    (hset : ∀ c : Sequencer, ∀ t ∈ threads, ∀ pin s, .set pin s ∈ t.steps → R c (c.setPin pin s).2) :
    R c (c.runThreads threads).2 := by
  unfold Sequencer.runThreads
  dsimp only
  split
  · exact h.touch c
  · rename_i plan hplan
    refine h.trans (h.touch c) (h.replay _ (fun c e he => ?_) c.touch 0)
    obtain ⟨t, ht, hstep⟩ := Threads.exists_of_mem_plan hplan e he
    exact hset c t ht e.pin e.state hstep

end AcrossVectors

theorem moves_acrossVectors {A : Act → Prop} (hA : A .emit) : AcrossVectors (Moves A) where
  trans := .trans
  note c _ _ := .note ⟨rfl, rfl, rfl⟩
  emit c _ timeset _ := (emit_moves c _ timeset none).mono <| by
    rintro _ rfl
    exact hA

theorem emits_acrossVectors : AcrossVectors (Moves (· = .emit)) := moves_acrossVectors rfl

/-- What threads do: they set pins that they name, with vectors in between. -/
def ThreadActs (threads : List Thread) (a : Act) : Prop :=
  a = .emit ∨ ∃ t ∈ threads, ∃ pin s, .set pin s ∈ t.steps ∧ a = .setPin pin

theorem runThreads_moves (c : Sequencer) (threads : List Thread) :
    Moves (ThreadActs threads) c (c.runThreads threads).2 :=
  (moves_acrossVectors (.inl rfl)).runThreads c fun c t ht pin s hstep =>
    (c.setPin_settles pin s).moves (.inr (.inr ⟨t, ht, pin, s, hstep, rfl⟩))

end Sequencer

/-! ## All operations in moves -/

namespace Operation

/-- Operations without a body. -/
def isLeaf : Operation → Bool
  | .scope _ _ | .block _ | .attempt _ => false
  | _ => true

/-- What an operation without a body may do. -/
def Does : Operation → Act → Prop
  | .setPin pin _, a => a = .setPin pin
  | .enableClock pin _, a => a = .enable pin
  | .startClock pin, a => a = .start pin
  | .stopClock pin, a => a = .stop pin
  | .pauseClock pin, a => a = .pause pin
  | .resumeClock pin frequency, a => a = .resume pin frequency.isSome
  | .hold _ _, a | .delay _, a | .wait _, a | .call _, a => a = .emit
  | .store _, a => a = .store
  | .comment _, a => a = .item
  | .setGroup _, a => a = .group
  | .threads ts, a => Sequencer.ThreadActs ts a
  | .finish _, a => a = .finish
  | _, _ => False

open Sequencer

theorem perform_does (c : Sequencer) : ∀ {op : Operation}, op.isLeaf → Moves op.Does c (op.perform c).after
  | .setPin pin s, _ => (c.setPin_settles pin s).moves (.inr rfl)
  | .pinState _, _ => .refl
  | .setTimeset name period, _ => (c.setTimeset_settles name period).moves (.inl rfl)
  | .addWave timeset pin drive compare, _ => (c.addWave_settles timeset pin drive compare).moves (.inl rfl)
  | .enableClock pin f, _ => (c.enableClock_settles pin f).moves (.inr rfl)
  | .startClock pin, _ => (c.startClock_settles pin).moves (.inr rfl)
  | .stopClock pin, _ => (c.stopClock_settles pin).moves (.inr rfl)
  | .pauseClock pin, _ => (c.pauseClock_settles pin).moves (.inr rfl)
  | .resumeClock pin f, _ => (c.resumeClock_settles pin f).moves (.inr rfl)
  | .hold count timeset, _ => emits_acrossVectors.hold c count timeset
  | .delay count, _ => emits_acrossVectors.delay c count
  | .wait d, _ => emits_acrossVectors.wait c d
  | .store offset, _ => c.store_moves offset
  | .label _, _ => .note ⟨rfl, rfl, rfl⟩
  | .comment text, _ => c.comment_moves text
  | .call name, _ => c.call_moves name
  | .define _, _ => .note ⟨rfl, rfl, rfl⟩
  | .imported, _ => .refl
  | .items, _ => .refl
  | .setGroup group, _ => (c.setGroup_settles group).moves (.inr rfl)
  | .threads ts, _ => c.runThreads_moves ts
  | .finish _, _ => c.finish_moves

end Operation

end TestProgram
