import TestProgram.Proofs.Sequencer.Covers
import TestProgram.Proofs.Sequencer.Replays

/-!
# Two sequencers side by side

Two sequencers that are the same in what operations look at may differ in all else,
and operations may carry the difference on. `Twins` says of such a relation what it
takes: both look the same to operations, and it is kept by the few changes that
operations are made up of. Then setting up vectors answers the same in both, and leaves
related sequencers (`Twins.setPin` and the like). If vectors are emitted side by side as
well, so is all that holds vectors (`Twins.hold`, `delay`, `wait`, `runThreads`), and
scopes that hide nothing begin and end side by side (`LoopTwins.opened`, `closing`).
-/

namespace TestProgram

namespace Sequencer

/-- Both fail with the same fault, or succeed with results that `R` relates. -/
inductive Alike {α β : Type} (R : α → β → Prop) : Except Fault α → Except Fault β → Prop where
  | ok {a : α} {b : β} (h : R a b) : Alike R (.ok a) (.ok b)
  | error (e : Fault) : Alike R (.error e) (.error e)

/-- Both answer the same and leave sequencers that `R` relates. -/
structure Abreast {α : Type} (R : Sequencer → Sequencer → Prop) (p' p : α × Sequencer) : Prop where
  answer : p'.1 = p.1
  after : R p'.2 p.2

/-- What settles the same is settled the same. -/
theorem Abreast.settle {R : Sequencer → Sequencer → Prop} {c' c : Sequencer} (hc : R c' c)
    {r' r : Except Fault Sequencer} (hr : Alike R r' r) : Abreast R (c'.settle r') (c.settle r) := by
  cases hr with
  | ok h => exact ⟨rfl, h⟩
  | error e => exact ⟨rfl, hc⟩

namespace Alike

variable {α β : Type}

theorem of_map_eq {f : α → β} {x' x : Except Fault α} (h : x'.map f = x.map f) :
    Alike (fun a' a => x' = .ok a' ∧ x = .ok a ∧ f a' = f a) x' x := by
  cases x' with
  | error e =>
    cases x with
    | error e' =>
      obtain rfl := Except.error.inj h
      exact .error e
    | ok a => cases h
  | ok a' =>
    cases x with
    | error e => cases h
    | ok a => exact .ok ⟨rfl, rfl, Except.ok.inj h⟩

theorem of_eq_map {f : α → β} {x' : Except Fault β} {x : Except Fault α} (h : x' = x.map f) :
    Alike (fun b a => b = f a) x' x := by
  subst h
  cases x with
  | error e => exact .error e
  | ok a => exact .ok rfl

theorem ends {S : α → β → Prop} {x' : Except Fault α} {x : Except Fault β} (h : Alike S x' x) :
    (∃ e, x' = .error e ∧ x = .error e) ∨ ∃ a b, x' = .ok a ∧ x = .ok b ∧ S a b := by
  cases h with
  | error e => exact .inl ⟨e, rfl, rfl⟩
  | ok h => exact .inr ⟨_, _, rfl, rfl, h⟩

/-- One more step of an operation that is settled as a whole. -/
theorem next {S : α → α → Prop} {T : β → β → Prop} {x' x : Except Fault α} (hx : Alike S x' x)
    {f' f : α → Except Fault β} (hf : ∀ {a' a}, S a' a → Alike T (f' a') (f a)) : Alike T (x' >>= f') (x >>= f) := by
  cases hx with
  | ok h => exact hf h
  | error e => exact .error e

/-- A step that gives the same in both. -/
theorem bind {T : β → β → Prop} {x' x : Except Fault α} (hx : x' = x) {f' f : α → Except Fault β}
    (hf : ∀ a, Alike T (f' a) (f a)) : Alike T (x' >>= f') (x >>= f) := by
  subst hx
  cases x' with
  | error e => exact .error e
  | ok a => exact hf a

end Alike

/-- What relates two sequencers to which operations do the same. -/
structure Twins (R : Sequencer → Sequencer → Prop) : Prop where
  timing : ∀ {c' c}, R c' c → c'.timing = c.timing
  rounding : ∀ {c' c}, R c' c → c'.config.rounding = c.config.rounding
  clocks : ∀ {c' c}, R c' c → c'.clocks = c.clocks
  cycle : ∀ {c' c}, R c' c → c'.cycle = c.cycle
  group : ∀ {c' c}, R c' c → c'.group = c.group
  id : ∀ {c' c}, R c' c → ∀ pin, c'.pins.id pin = c.pins.id pin
  pinName : ∀ {c' c}, R c' c → ∀ i, c'.pins.name i = c.pins.name i
  state : ∀ {c' c}, R c' c → ∀ i, c'.pins.state i = c.pins.state i
  touched : ∀ {c' c}, R c' c → R c'.touch c.touch
  warned : ∀ {c' c}, R c' c → ∀ w, R (c'.warn w) (c.warn w)
  timed : ∀ {c' c}, R c' c → ∀ timing, R { c' with timing } { c with timing }
  clocked : ∀ {c' c}, R c' c → ∀ clocks, R (c'.withClocks clocks) (c.withClocks clocks)
  pinned : ∀ {c' c}, R c' c → ∀ i s, R (c'.withPins (c'.pins.set i s)) (c.withPins (c.pins.set i s))

namespace Twins

variable {R : Sequencer → Sequencer → Prop} (h : Twins R) {c' c : Sequencer} (hc : R c' c)

/-- What only depends on the cycle and the vector groups stays as it is. -/
theorem provided (h : Twins R) (P : (cycle group : Nat) → Prop) : Twins fun c' c => R c' c ∧ P c.cycle c.group where
  timing hc := h.timing hc.1
  rounding hc := h.rounding hc.1
  clocks hc := h.clocks hc.1
  cycle hc := h.cycle hc.1
  group hc := h.group hc.1
  id hc := h.id hc.1
  pinName hc := h.pinName hc.1
  state hc := h.state hc.1
  touched hc := ⟨h.touched hc.1, hc.2⟩
  warned hc w := ⟨h.warned hc.1 w, hc.2⟩
  timed hc timing := ⟨h.timed hc.1 timing, hc.2⟩
  clocked hc clocks := ⟨h.clocked hc.1 clocks, hc.2⟩
  pinned hc i s := ⟨h.pinned hc.1 i s, hc.2⟩

include h hc

theorem noteRounding (pin : String) (f : Frequency) (half : HalfPeriod) :
    R (c'.noteRounding pin f half) (c.noteRounding pin f half) := by
  unfold Sequencer.noteRounding
  rw [h.timing hc]
  split
  · exact hc
  · exact h.warned hc _

theorem checkGroup (i : PinId) (group : Nat) : c'.checkGroup i group = c.checkGroup i group := by
  unfold Sequencer.checkGroup
  rw [h.clocks hc, h.pinName hc]

theorem checkGroups (group : Nat) : ∀ pins : List PinId, c'.checkGroups group pins = c.checkGroups group pins
  | [] => rfl
  | pin :: pins => by
    rw [Sequencer.checkGroups, h.checkGroup hc, checkGroups group pins, Sequencer.checkGroups]

/-! ## Setting up vectors -/

theorem setPin (pin : String) (s : PinState) : Abreast R (c'.setPin pin s) (c.setPin pin s) :=
  have ht := h.touched hc
  .settle ht <| .bind (h.id ht pin) fun i => .ok (h.pinned ht i s)

theorem pinState (pin : String) : c'.pinState pin = c.pinState pin := by
  rw [Sequencer.pinState, h.id hc, Sequencer.pinState]
  simp only [h.state hc]

theorem setTimeset (name : String) (period : Option Duration) :
    Abreast R (c'.setTimeset name period) (c.setTimeset name period) :=
  have ht := h.touched hc
  .settle ht <| .bind (congrArg (Timing.select · name period) (h.timing ht)) fun timing => .ok (h.timed ht timing)

theorem addWave (timeset pin : String) (drive compare : Option String) :
    Abreast R (c'.addWave timeset pin drive compare) (c.addWave timeset pin drive compare) :=
  .settle hc <| .bind (h.id hc pin) fun i =>
    .bind (congrArg (Timing.addWave · timeset ⟨i, drive, compare⟩) (h.timing hc)) fun timing => .ok (h.timed hc timing)

theorem enableClock (pin : String) (f : Frequency) : Abreast R (c'.enableClock pin f) (c.enableClock pin f) := by
  have ht := h.touched hc
  refine .settle ht <| .bind (h.id ht pin) fun i => .bind (congrArg Timing.currentPeriod (h.timing ht)) fun period =>
    .bind ?_ fun (half, clocks) => .ok (h.noteRounding (h.clocked ht clocks) pin f half)
  rw [h.clocks ht]

theorem startClock (pin : String) : Abreast R (c'.startClock pin) (c.startClock pin) := by
  have ht := h.touched hc
  refine .settle ht <| .bind (h.id ht pin) fun i => .bind ?_ fun _ => .bind ?_ fun clocks => .ok ?_
  · rw [h.group ht]
    exact h.checkGroup ht i _
  · rw [h.clocks ht, h.cycle ht]
  · rw [h.state ht]
    split
    · exact h.clocked ht clocks
    · exact h.pinned (h.clocked ht clocks) i .drive0

theorem stopClock (pin : String) : Abreast R (c'.stopClock pin) (c.stopClock pin) := by
  have ht := h.touched hc
  refine .settle ht <| .bind (h.id ht pin) fun i => .bind ?_ fun clocks => .ok (h.clocked ht clocks)
  rw [h.clocks ht]

theorem pauseClock (pin : String) : Abreast R (c'.pauseClock pin) (c.pauseClock pin) := by
  have ht := h.touched hc
  refine .settle ht <| .bind (h.id ht pin) fun i => .bind ?_ fun clocks => .ok (h.clocked ht clocks)
  rw [h.clocks ht, h.cycle ht]

theorem retuning (frequency : Option Frequency) : c'.retuning frequency = c.retuning frequency := by
  cases frequency with
  | none => rfl
  | some f => rw [Sequencer.retuning, h.timing hc, Sequencer.retuning]

theorem resumeClock (pin : String) (frequency : Option Frequency) :
    Abreast R (c'.resumeClock pin frequency) (c.resumeClock pin frequency) := by
  have ht := h.touched hc
  refine .settle ht <| .bind (h.id ht pin) fun i => .bind (h.retuning ht frequency) fun retune =>
    .bind ?_ fun (half, clocks) => ?_
  · rw [h.clocks ht, h.cycle ht]
  · dsimp only
    split
    · rename_i half f
      exact .ok (h.noteRounding (h.clocked ht clocks) pin f half)
    · exact .ok (h.clocked ht clocks)

/-- The size of vector groups is not among the changes that all twins take. -/
theorem setGroup (group : Nat) (hgroup : group ≠ 0 → R { c'.touch with group } { c.touch with group }) :
    Abreast R (c'.setGroup group) (c.setGroup group) := by
  have ht := h.touched hc
  unfold Sequencer.setGroup
  split
  · exact ⟨rfl, hc⟩
  · rename_i hne
    refine .settle ht <| .bind ?_ fun _ => .ok (hgroup hne)
    rw [h.clocks ht]
    exact h.checkGroups ht group _

/-! ## Holding vectors -/

theorem align (count : Nat) : Abreast R (c'.align count) (c.align count) := by
  unfold Sequencer.align
  rw [h.group hc]
  split
  · exact ⟨rfl, hc⟩
  · exact ⟨rfl, h.warned hc _⟩

omit h hc in
theorem andThen {first' first : Except Fault Unit × Sequencer}
    {next' next : Sequencer → Except Fault Unit × Sequencer} (hfirst : Abreast R first' first)
    (hnext : ∀ {c' c}, R c' c → Abreast R (next' c') (next c)) :
    Abreast R (Sequencer.andThen first' next') (Sequencer.andThen first next) := by
  obtain ⟨answer', c'⟩ := first'
  obtain ⟨answer, c⟩ := first
  obtain ⟨rfl, hafter⟩ := hfirst
  cases answer' with
  | error e => exact ⟨rfl, hafter⟩
  | ok _ => exact hnext hafter

variable (hemit : ∀ {c' c}, R c' c → ∀ count timeset call, Abreast R (c'.emit count timeset call) (c.emit count timeset call))
include hemit

theorem hold (count : Option Nat) (timeset : Option String) :
    Abreast R (c'.hold count timeset) (c.hold count timeset) := by
  obtain ⟨hcount, haligned⟩ := h.align hc (count.getD 1)
  unfold Sequencer.hold
  dsimp only
  split
  · exact ⟨rfl, hc⟩
  · rw [hcount]
    exact hemit haligned _ timeset none

theorem delay (count : Nat) : Abreast R (c'.delay count) (c.delay count) := by
  unfold Sequencer.delay
  split
  · exact ⟨rfl, h.touched hc⟩
  · exact h.hold hc hemit _ none

theorem wait (d : Duration) : Abreast R (c'.wait d) (c.wait d) := by
  have ht := h.touched hc
  unfold Sequencer.wait
  dsimp only
  rw [h.timing ht, h.rounding ht]
  split
  · exact ⟨rfl, ht⟩
  · exact h.delay ht hemit _

theorem pass (now stop : Nat) : Abreast R (c'.pass now stop) (c.pass now stop) := by
  unfold Sequencer.pass
  split
  · exact h.delay hc hemit _
  · exact ⟨rfl, hc⟩

omit hc in
theorem replay (total : Nat) : ∀ (events : List ThreadEvent) {c' c : Sequencer}, R c' c → ∀ now : Nat,
    Abreast R (c'.replay total now events) (c.replay total now events)
  | [], _, _, hc, now => h.pass hc hemit now total
  | e :: events, c', c, hc, now => by
    rw [replay_cons, replay_cons]
    exact andThen (h.pass hc hemit now e.cycle) fun hc => andThen (h.setPin hc e.pin e.state) fun hc =>
      replay total events hc (max now e.cycle)

theorem runThreads (threads : List Thread) : Abreast R (c'.runThreads threads) (c.runThreads threads) := by
  have ht := h.touched hc
  have hplan : c'.touch.planThreads threads = c.touch.planThreads threads := by
    rw [planThreads, h.timing ht, h.rounding ht, planThreads]
  unfold Sequencer.runThreads
  dsimp only
  rw [hplan]
  split
  · exact ⟨rfl, ht⟩
  · exact h.replay hemit _ _ ht 0

end Twins

/-! ## Scopes -/

/-- Twins of which both are in the same loops, and both inside of scopes that record no
vectors or both outside of them. -/
structure LoopTwins (R : Sequencer → Sequencer → Prop) : Prop extends Twins R where
  inhibitVectors : ∀ {c' c}, R c' c → c'.inhibitVectors = c.inhibitVectors
  loopFactor : ∀ {c' c}, R c' c → c'.loopFactor = c.loopFactor
  inhibited : ∀ {c' c}, R c' c → ∀ inhibitVectors, R { c' with inhibitVectors } { c with inhibitVectors }
  repeated : ∀ {c' c}, R c' c → ∀ loopFactor, R { c' with loopFactor } { c with loopFactor }
  started : ∀ {c' c}, R c' c → ∀ label count, R (c'.withTape (c'.bench.tape.push (.loopStart label count)))
    (c.withTape (c.bench.tape.push (.loopStart label count)))
  ended : ∀ {c' c}, R c' c → ∀ label, R (c'.withTape (c'.bench.tape.push (.loopEnd label)))
    (c.withTape (c.bench.tape.push (.loopEnd label)))

namespace LoopTwins

variable {R : Sequencer → Sequencer → Prop} (h : LoopTwins R) {c' c : Sequencer} (hc : R c' c)

theorem provided (h : LoopTwins R) (P : (cycle group : Nat) → Prop) :
    LoopTwins fun c' c => R c' c ∧ P c.cycle c.group where
  toTwins := h.toTwins.provided P
  inhibitVectors hc := h.inhibitVectors hc.1
  loopFactor hc := h.loopFactor hc.1
  inhibited hc inhibitVectors := ⟨h.inhibited hc.1 inhibitVectors, hc.2⟩
  repeated hc loopFactor := ⟨h.repeated hc.1 loopFactor, hc.2⟩
  started hc label count := ⟨h.started hc.1 label count, hc.2⟩
  ended hc label := ⟨h.ended hc.1 label, hc.2⟩

include h hc

theorem beforeLoop (label : String) : R (c'.beforeLoop label) (c.beforeLoop label) := by
  have ht := h.touched hc
  unfold Sequencer.beforeLoop
  rw [h.clocks ht]
  split
  · exact h.warned ht _
  · exact ht

theorem enterLoop (label : String) (count : Nat) : R (c'.enterLoop label count) (c.enterLoop label count) := by
  have hloop (loopFactor : Nat) : R
      { if c'.inhibitVectors = 0 then c'.withTape (c'.bench.tape.push (.loopStart label count)) else c' with loopFactor }
      { if c.inhibitVectors = 0 then c.withTape (c.bench.tape.push (.loopStart label count)) else c with loopFactor } := by
    refine h.repeated ?_ loopFactor
    rw [h.inhibitVectors hc]
    split
    · exact h.started hc label count
    · exact hc
  unfold Sequencer.enterLoop
  rw [h.loopFactor hc]
  exact hloop _

/-- A scope that hides nothing begins in both, or in none. -/
theorem opened : ∀ {s : Scope}, s.hides = false → Alike R (c'.opened s) (c.opened s)
  | .timeset name period, _ => by
    obtain ⟨hanswer, hafter⟩ := h.setTimeset hc name period
    simp only [Sequencer.opened, Sequencer.within, Sequencer.withTimeset]
    generalize c'.setTimeset name period = p' at hanswer hafter
    generalize c.setTimeset name period = p at hanswer hafter
    obtain ⟨answer', c₁'⟩ := p'
    obtain ⟨answer, c₁⟩ := p
    obtain rfl : answer' = answer := hanswer
    cases answer' with
    | error e => exact .error e
    | ok _ => exact .ok hafter
  | .loop label 0, _ => .error _
  | .loop label 1, _ => .ok (h.touched hc)
  | .loop label (count + 2), _ => by
    have hcount : 2 ≤ count + 2 := Nat.le_add_left 2 count
    rw [opened_loop c' label hcount, opened_loop c label hcount]
    exact .ok (h.enterLoop (h.beforeLoop hc label) label (count + 2))
  | .withoutVectors, _ => by
    have ht := h.touched hc
    have hinhibited := h.inhibited ht (c.touch.inhibitVectors + 1)
    refine .ok ?_
    show R { c'.touch with inhibitVectors := c'.touch.inhibitVectors + 1 } _
    rw [h.inhibitVectors ht]
    exact hinhibited

/-- It ends in both, as its body leaves them. -/
theorem closing {R₁ : Sequencer → Sequencer → Prop} (h₁ : LoopTwins R₁) {c₁' c₁ : Sequencer} (hc₁ : R₁ c₁' c₁) :
    ∀ {s : Scope}, s.hides = false → R₁ (c'.closing s c₁') (c.closing s c₁)
  | .timeset name period, _ => by
    simp only [Sequencer.closing]
    rw [h.timing hc, h₁.timing hc₁]
    exact h₁.timed hc₁ _
  | .loop label count, _ => by
    have hbefore := h.beforeLoop hc label
    simp only [Sequencer.closing]
    split
    · exact hc₁
    · have hrepeated := h₁.repeated hc₁ (c.beforeLoop label).loopFactor
      unfold leaveLoop
      rw [h.loopFactor hbefore, h.inhibitVectors hbefore]
      dsimp only
      split
      · exact h₁.ended hrepeated label
      · exact hrepeated
  | .withoutVectors, _ => by
    have hinhibited := h₁.inhibited hc₁ (c₁.inhibitVectors - 1)
    simp only [Sequencer.closing]
    rw [h₁.inhibitVectors hc₁]
    exact hinhibited

end LoopTwins

end Sequencer

end TestProgram
