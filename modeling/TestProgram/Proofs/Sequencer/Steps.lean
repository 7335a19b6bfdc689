import TestProgram.Proofs.Bench.Emission
import TestProgram.Proofs.Sequencer.Paths
import TestProgram.Proofs.Timing.Names

/-!
# Steps

A `Move` says what an operation does to the bench. A `Step` says besides what
it does to the rest that a finished pattern depends on:

* `Steady`: the masks, the depths of inhibition and the loop factor, which no
  operation without a body changes;
* the cycles executed, which only vectors add to;
* the timesets in use, to which a vector adds its own;
* the length of a vector, which is one cycle for a call and a number of whole
  vector groups otherwise.

`perform_steps` says that operations without a body consist of such steps, but
for the one that closes the pattern. What bodies keep follows from what steps
and scopes keep.
-/

namespace TestProgram

/-- Moves that record nothing and mask nothing. -/
def Act.Silent : Act → Prop
  | .masks | .emit | .store | .item | .finish => False
  | _ => True

namespace Sequencer

/-- `c'` has the masks, the depths of inhibition and the loop factor of `c`,
and its timesets, with perhaps others after them. -/
structure Steady (c c' : Sequencer) : Prop where
  depths : c'.pins.depths = c.pins.depths
  inhibitVectors : c'.inhibitVectors = c.inhibitVectors
  inhibitComments : c'.inhibitComments = c.inhibitComments
  loopFactor : c'.loopFactor = c.loopFactor
  timing : c.timing.Grows c'.timing

theorem Steady.refl (c : Sequencer) : Steady c c := ⟨rfl, rfl, rfl, rfl, .refl _⟩

theorem Steady.trans {c c' c'' : Sequencer} (h : Steady c c') (h' : Steady c' c'') : Steady c c'' where
  depths := h'.depths.trans h.depths
  inhibitVectors := h'.inhibitVectors.trans h.inhibitVectors
  inhibitComments := h'.inhibitComments.trans h.inhibitComments
  loopFactor := h'.loopFactor.trans h.loopFactor
  timing := h.timing.trans h'.timing

/-- The length of a vector in groups of `group` cycles. -/
def Whole (group : Nat) (call : Option String) (n : Nat) : Prop :=
  (call = none ∧ max group 1 ∣ n) ∨ (call.isSome = true ∧ n = 1)

/-- One change to a sequencer, by an operation without a body. -/
inductive Step (c c' : Sequencer) : Prop where
  /-- The tape stays as it is. -/
  | quiet (hs : Steady c c') (hx : c'.executed = c.executed) (hu : c.usedTimesets ⊆ c'.usedTimesets)
      (ht : c'.bench.tape = c.bench.tape)
  | comment (text : String) (hs : Steady c c') (hx : c'.executed = c.executed)
      (hu : c.usedTimesets ⊆ c'.usedTimesets) (ht : c'.bench.tape = c.bench.tape.push (.comment text))
  | store {offset : Nat} (hs : Steady c c') (hx : c'.executed = c.executed)
      (hu : c.usedTimesets ⊆ c'.usedTimesets) (ht : c.bench.tape.markStore offset = .ok c'.bench.tape)
  | emit {timeset : Option String} {t : Timeset} {n : Nat} {call : Option String} (hs : Steady c c')
      (hi : c.inhibitVectors = 0) (hn : Whole c.group call n) (hr : c.timing.resolve timeset "cycle" = .ok t)
      (hx : c'.executed = Word.add c.executed (Word.mul n c.loopFactor))
      (hu : c.usedTimesets ⊆ c'.usedTimesets) (ht : t.name ∈ c'.usedTimesets)
      (hb : c.bench.hold t n ⟨c.pendingStore, c.pendingLabel, call, c.group⟩ = .ok c'.bench)

/-- Steps one after the other. -/
def Steps : Sequencer → Sequencer → Prop := Relation.ReflTransGen Step

theorem Step.steady {c c' : Sequencer} : Step c c' → Steady c c'
  | .quiet hs _ _ _ | .comment _ hs _ _ _ | .store hs _ _ _ | .emit hs _ _ _ _ _ _ _ => hs

theorem Step.used {c c' : Sequencer} : Step c c' → c.usedTimesets ⊆ c'.usedTimesets
  | .quiet _ _ hu _ | .comment _ _ _ hu _ | .store _ _ hu _ | .emit _ _ _ _ _ hu _ _ => hu

namespace Steps

variable {c c' c'' : Sequencer}

theorem refl : Steps c c := Relation.ReflTransGen.refl

theorem one (h : Step c c') : Steps c c' := Relation.ReflTransGen.single h

theorem trans (h : Steps c c') (h' : Steps c' c'') : Steps c c'' := Relation.ReflTransGen.trans h h'

/-- What every step keeps, steps keep. -/
theorem keep {P : Sequencer → Prop} (hP : ∀ {c c'}, Step c c' → P c → P c') (h : Steps c c') (hc : P c) :
    P c' := by
  induction h with
  | refl => exact hc
  | tail _ hstep ih => exact hP hstep ih

theorem steady (h : Steps c c') : Steady c c' :=
  h.keep (P := Steady c) (fun hstep hc => hc.trans hstep.steady) (.refl c)

end Steps

/-! ## The account of an operation -/

/-- `c'` has what `c` has apart from the bench: what scopes set, the cycles
executed and the timesets in use, with perhaps others. -/
structure SameAccount (c c' : Sequencer) : Prop where
  inhibitVectors : c'.inhibitVectors = c.inhibitVectors
  inhibitComments : c'.inhibitComments = c.inhibitComments
  loopFactor : c'.loopFactor = c.loopFactor
  executed : c'.executed = c.executed
  used : c.usedTimesets ⊆ c'.usedTimesets
  timing : c.timing.Grows c'.timing

theorem SameAccount.of_settle {c c₁ : Sequencer} {r : Except Fault Sequencer} (hc : SameAccount c c₁)
    (hr : ∀ c', r = .ok c' → SameAccount c c') : SameAccount c (c₁.settle r).2 := by
  cases r with
  | error e => exact hc
  | ok c' => exact hr c' rfl

section

variable (c : Sequencer)

theorem touch_account : SameAccount c c.touch := ⟨rfl, rfl, rfl, rfl, List.Subset.refl _, .refl _⟩

theorem noteRounding_account (pin : String) (f : Frequency) (half : HalfPeriod) :
    SameAccount c (c.noteRounding pin f half) := by
  unfold noteRounding
  split <;> exact ⟨rfl, rfl, rfl, rfl, List.Subset.refl _, .refl _⟩

theorem setPin_account (pin : String) (s : PinState) : SameAccount c (c.setPin pin s).2 := by
  refine .of_settle c.touch_account fun c' h => ?_
  obtain ⟨i, -, h⟩ := bind_eq_ok.mp h
  obtain rfl := Except.ok.inj h
  exact ⟨rfl, rfl, rfl, rfl, List.Subset.refl _, .refl _⟩

theorem setTimeset_account (name : String) (period : Option Duration) :
    SameAccount c (c.setTimeset name period).2 := by
  refine .of_settle c.touch_account fun c' h => ?_
  obtain ⟨timing, htiming, h⟩ := bind_eq_ok.mp h
  obtain rfl := Except.ok.inj h
  exact ⟨rfl, rfl, rfl, rfl, List.Subset.refl _, Timing.grows_select htiming⟩

theorem addWave_account (timeset pin : String) (drive compare : Option String) :
    SameAccount c (c.addWave timeset pin drive compare).2 := by
  refine .of_settle ⟨rfl, rfl, rfl, rfl, List.Subset.refl _, .refl _⟩ fun c' h => ?_
  obtain ⟨i, -, h⟩ := bind_eq_ok.mp h
  obtain ⟨timing, htiming, h⟩ := bind_eq_ok.mp h
  obtain rfl := Except.ok.inj h
  exact ⟨rfl, rfl, rfl, rfl, List.Subset.refl _, Timing.grows_addWave htiming⟩

theorem enableClock_account (pin : String) (f : Frequency) : SameAccount c (c.enableClock pin f).2 := by
  refine .of_settle c.touch_account fun c' h => ?_
  obtain ⟨i, -, h⟩ := bind_eq_ok.mp h
  obtain ⟨period, -, h⟩ := bind_eq_ok.mp h
  obtain ⟨⟨half, clocks⟩, -, h⟩ := bind_eq_ok.mp h
  obtain rfl := Except.ok.inj h
  have hnote := noteRounding_account (c.touch.withClocks clocks) pin f half
  exact ⟨hnote.inhibitVectors, hnote.inhibitComments, hnote.loopFactor, hnote.executed,
    hnote.used, hnote.timing⟩

theorem startClock_account (pin : String) : SameAccount c (c.startClock pin).2 := by
  refine .of_settle c.touch_account fun c' h => ?_
  obtain ⟨i, -, h⟩ := bind_eq_ok.mp h
  obtain ⟨_, -, h⟩ := bind_eq_ok.mp h
  obtain ⟨clocks, -, h⟩ := bind_eq_ok.mp h
  obtain rfl := Except.ok.inj h
  exact ⟨rfl, rfl, rfl, rfl, List.Subset.refl _, .refl _⟩

theorem stopClock_account (pin : String) : SameAccount c (c.stopClock pin).2 := by
  refine .of_settle c.touch_account fun c' h => ?_
  obtain ⟨i, -, h⟩ := bind_eq_ok.mp h
  obtain ⟨clocks, -, h⟩ := bind_eq_ok.mp h
  obtain rfl := Except.ok.inj h
  exact ⟨rfl, rfl, rfl, rfl, List.Subset.refl _, .refl _⟩

theorem pauseClock_account (pin : String) : SameAccount c (c.pauseClock pin).2 := by
  refine .of_settle c.touch_account fun c' h => ?_
  obtain ⟨i, -, h⟩ := bind_eq_ok.mp h
  obtain ⟨clocks, -, h⟩ := bind_eq_ok.mp h
  obtain rfl := Except.ok.inj h
  exact ⟨rfl, rfl, rfl, rfl, List.Subset.refl _, .refl _⟩

theorem resumeClock_account (pin : String) (frequency : Option Frequency) :
    SameAccount c (c.resumeClock pin frequency).2 := by
  refine .of_settle c.touch_account fun c' h => ?_
  obtain ⟨i, -, h⟩ := bind_eq_ok.mp h
  obtain ⟨retune, -, h⟩ := bind_eq_ok.mp h
  obtain ⟨⟨half, clocks⟩, -, h⟩ := bind_eq_ok.mp h
  dsimp only at h
  split at h
  · obtain rfl := Except.ok.inj h
    have hnote := noteRounding_account (c.touch.withClocks clocks) pin
    exact ⟨(hnote _ _).inhibitVectors, (hnote _ _).inhibitComments, (hnote _ _).loopFactor,
      (hnote _ _).executed, (hnote _ _).used, (hnote _ _).timing⟩
  · obtain rfl := Except.ok.inj h
    exact ⟨rfl, rfl, rfl, rfl, List.Subset.refl _, .refl _⟩

theorem setGroup_account (group : Nat) : SameAccount c (c.setGroup group).2 := by
  unfold setGroup
  split
  · exact ⟨rfl, rfl, rfl, rfl, List.Subset.refl _, .refl _⟩
  · refine .of_settle c.touch_account fun c' h => ?_
    obtain ⟨_, -, h⟩ := bind_eq_ok.mp h
    obtain rfl := Except.ok.inj h
    exact ⟨rfl, rfl, rfl, rfl, List.Subset.refl _, .refl _⟩

theorem use_account (timeset : String) : SameAccount c (c.use timeset) := by
  unfold use
  split
  · exact ⟨rfl, rfl, rfl, rfl, List.Subset.refl _, .refl _⟩
  · exact ⟨rfl, rfl, rfl, rfl, List.subset_append_left _ _, .refl _⟩

theorem mem_use (timeset : String) : timeset ∈ (c.use timeset).usedTimesets := by
  unfold use
  split
  · rename_i h
    exact List.contains_iff_mem.mp h
  · exact List.mem_append_right _ (List.mem_singleton.mpr rfl)

end

/-! ## Operations in steps -/

section

variable {c c' : Sequencer}

/-- A move that neither records nor masks anything leaves the tape and the
masks alone. -/
theorem Move.silent {a : Act} (hm : Move c c' a) (ha : a.Silent) :
    c'.bench.tape = c.bench.tape ∧ c'.pins.depths = c.pins.depths := by
  cases hm with
  | note h | enable hi he h | stop hi hs h | pause hi hp h | resume hi hr h =>
    rw [pins, h.bench]
    exact ⟨rfl, rfl⟩
  | group hpos hg hb hc =>
    rw [pins, hb]
    exact ⟨rfl, rfl⟩
  | setPin s hi h =>
    rw [pins, h.bench]
    exact ⟨rfl, Pinout.depths_set _ _ _⟩
  | start hi hg hs h =>
    rw [pins, h.bench]
    refine ⟨rfl, ?_⟩
    dsimp only
    split
    · rfl
    · exact Pinout.depths_set _ _ _
  | mask ids h | unmask ids h | emit hi hb h | store ht h | item i hi h | finish h => exact absurd ha id

theorem Step.silent {a : Act} (hm : Move c c' a) (ha : a.Silent) (hacc : SameAccount c c') : Step c c' := by
  obtain ⟨htape, hdepths⟩ := hm.silent ha
  exact .quiet ⟨hdepths, hacc.inhibitVectors, hacc.inhibitComments, hacc.loopFactor, hacc.timing⟩ hacc.executed
    hacc.used htape

/-- An operation that is settled as a whole and records nothing is a step,
whether it fails or not. -/
theorem Settles.step {a : Act} {p : Except Fault Unit × Sequencer} (h : Settles a c p) (ha : a.Silent)
    (hacc : SameAccount c p.2) : Step c p.2 := by
  unfold Settles at h
  split at h
  · exact .silent h ha hacc
  · exact .silent (.note h) trivial hacc

/-- What changes nothing of the bench is a step. -/
theorem Step.of_account (hb : AtBench c c.bench c') (hacc : SameAccount c c') : Step c c' :=
  .silent (.note hb) trivial hacc

end

section

variable (c : Sequencer)

theorem store_steps (offset : Nat) : Steps c (c.store offset).2 := by
  unfold store
  dsimp only
  split
  · exact .one (.of_account ⟨rfl, rfl, rfl⟩ ⟨rfl, rfl, rfl, rfl, List.Subset.refl _, .refl _⟩)
  · split
    · exact .one (.of_account ⟨rfl, rfl, rfl⟩ c.touch_account)
    · cases ht : c.touch.bench.tape.markStore offset with
      | error e => exact .one (.of_account ⟨rfl, rfl, rfl⟩ c.touch_account)
      | ok tape => exact .one (@Step.store _ _ offset ⟨rfl, rfl, rfl, rfl, .refl _⟩ rfl (List.Subset.refl _) ht)

theorem comment_steps (text : String) : Steps c (c.comment text) := by
  unfold comment
  dsimp only
  split
  · exact .one (.comment text ⟨rfl, rfl, rfl, rfl, .refl _⟩ rfl (List.Subset.refl _) rfl)
  · exact .one (.of_account ⟨rfl, rfl, rfl⟩ c.touch_account)

theorem emit_step {count : Nat} {call : Option String} (timeset : Option String) (hn : Whole c.group call count) :
    Step c (c.emit count timeset call).2 := by
  unfold emit
  dsimp only
  split
  · exact .of_account ⟨rfl, rfl, rfl⟩ c.touch_account
  · rename_i t hresolve
    split
    · exact .of_account ⟨rfl, rfl, rfl⟩ c.touch_account
    · rename_i hi
      obtain ⟨hbench, hstore, hlabel, hgroup, hconfig⟩ := c.touch.use_fields t.name
      have hacc := c.touch.use_account t.name
      rw [hbench, hstore, hlabel, hgroup]
      cases hb : c.touch.bench.hold t count ⟨c.touch.pendingStore, c.touch.pendingLabel, call, c.touch.group⟩ with
      | error e =>
        exact .of_account ⟨hbench, hconfig, hgroup⟩
          ⟨hacc.inhibitVectors, hacc.inhibitComments, hacc.loopFactor, hacc.executed, hacc.used, hacc.timing⟩
      | ok b =>
        have hdepths : b.pins.depths = c.pins.depths := Bench.depths_of_hold hb
        refine .emit ⟨hdepths, hacc.inhibitVectors, hacc.inhibitComments, hacc.loopFactor, hacc.timing⟩
          (Nat.eq_zero_of_not_pos hi) hn hresolve ?_ hacc.used (c.touch.mem_use t.name) hb
        show Word.add (c.touch.use t.name).executed (Word.mul count (c.touch.use t.name).loopFactor) = _
        rw [hacc.executed, hacc.loopFactor]
        rfl

theorem steps_acrossVectors : AcrossVectors Steps where
  trans := .trans
  note _ _ _ := .one (.of_account ⟨rfl, rfl, rfl⟩ ⟨rfl, rfl, rfl, rfl, List.Subset.refl _, .refl _⟩)
  emit c _ timeset hwhole := .one (c.emit_step timeset (.inl ⟨rfl, hwhole⟩))

theorem call_steps (name : String) : Steps c (c.call name).2 := by
  have hcalled : Steps c { c with called := Names.insert name c.called } :=
    .one (.of_account ⟨rfl, rfl, rfl⟩ ⟨rfl, rfl, rfl, rfl, List.Subset.refl _, .refl _⟩)
  exact hcalled.trans (.one (emit_step _ none (.inr ⟨rfl, rfl⟩)))

end

end Sequencer

namespace Operation

open Sequencer

/-- The operation that closes the pattern. -/
def closes : Operation → Bool
  | .finish _ => true
  | _ => false

theorem eq_finish_of_closes : ∀ {op : Operation}, op.closes = true → ∃ platforms, op = .finish platforms
  | .finish platforms, _ => ⟨platforms, rfl⟩

/-- All operations without a body are made up of steps, but for the one that
closes the pattern. -/
theorem perform_steps (c : Sequencer) : ∀ {op : Operation}, op.isLeaf = true → op.closes = false →
    Steps c (op.perform c).after
  | .setPin pin s, _, _ => .one ((c.setPin_settles pin s).step trivial (c.setPin_account pin s))
  | .setTimeset name period, _, _ =>
    .one ((c.setTimeset_settles name period).step trivial (c.setTimeset_account name period))
  | .addWave timeset pin drive compare, _, _ =>
    .one ((c.addWave_settles timeset pin drive compare).step trivial (c.addWave_account timeset pin drive compare))
  | .enableClock pin f, _, _ => .one ((c.enableClock_settles pin f).step trivial (c.enableClock_account pin f))
  | .startClock pin, _, _ => .one ((c.startClock_settles pin).step trivial (c.startClock_account pin))
  | .stopClock pin, _, _ => .one ((c.stopClock_settles pin).step trivial (c.stopClock_account pin))
  | .pauseClock pin, _, _ => .one ((c.pauseClock_settles pin).step trivial (c.pauseClock_account pin))
  | .resumeClock pin f, _, _ => .one ((c.resumeClock_settles pin f).step trivial (c.resumeClock_account pin f))
  | .setGroup group, _, _ => .one ((c.setGroup_settles group).step trivial (c.setGroup_account group))
  | .hold count timeset, _, _ => steps_acrossVectors.hold c count timeset
  | .delay count, _, _ => steps_acrossVectors.delay c count
  | .wait d, _, _ => steps_acrossVectors.wait c d
  | .store offset, _, _ => c.store_steps offset
  | .comment text, _, _ => c.comment_steps text
  | .call name, _, _ => c.call_steps name
  | .threads _, _, _ =>
    steps_acrossVectors.runThreads c fun c _ _ pin s _ =>
      .one ((c.setPin_settles pin s).step trivial (c.setPin_account pin s))
  | .label _, _, _ | .define _, _, _ =>
    .one (.of_account ⟨rfl, rfl, rfl⟩ ⟨rfl, rfl, rfl, rfl, List.Subset.refl _, .refl _⟩)
  | .pinState _, _, _ | .imported, _, _ | .items, _, _ => .refl

end Operation

end TestProgram
