import TestProgram.Proofs.Sequencer.Moves

/-!
# What setting up vectors leaves alone

Operations that only set up the vectors to come, or that only ask for something,
change no more than the timesets, the pins and clocks, the size of vector groups
and the warnings, and note that the pattern has begun. All the rest is the `core`
of a sequencer, and it is the same before and after them, whether they fail or not
(`perform_core`). What is read off the core is therefore left alone by all of them.

So are the marks. A store or a label without a record of its own stays pending until a
vector is recorded, and only a recorded vector takes them: one that fails, or that is not
recorded because vectors are inhibited, leaves them pending (`emit_marks`).
-/

namespace TestProgram

namespace Sequencer

/-- A sequencer without what setting up vectors may change. -/
def core (c : Sequencer) : Sequencer :=
  { c with
    timing := .empty
    bench := ⟨.empty, .empty, c.bench.tape⟩
    started := false
    group := 0
    warnings := [] }

theorem core_of_settle {c c₁ : Sequencer} {r : Except Fault Sequencer} (hc : c₁.core = c.core)
    (hr : ∀ c', r = .ok c' → c'.core = c.core) : (c₁.settle r).2.core = c.core := by
  cases r with
  | error e => exact hc
  | ok c' => exact hr c' rfl

section

variable (c : Sequencer)

theorem noteRounding_core (pin : String) (f : Frequency) (half : HalfPeriod) :
    (c.noteRounding pin f half).core = c.core := by
  unfold noteRounding
  split <;> rfl

theorem setPin_core (pin : String) (s : PinState) : (c.setPin pin s).2.core = c.core := by
  refine core_of_settle rfl fun c' h => ?_
  obtain ⟨i, -, h⟩ := bind_eq_ok.mp h
  obtain rfl := Except.ok.inj h
  rfl

theorem setTimeset_core (name : String) (period : Option Duration) : (c.setTimeset name period).2.core = c.core := by
  refine core_of_settle rfl fun c' h => ?_
  obtain ⟨timing, -, h⟩ := bind_eq_ok.mp h
  obtain rfl := Except.ok.inj h
  rfl

theorem addWave_core (timeset pin : String) (drive compare : Option String) :
    (c.addWave timeset pin drive compare).2.core = c.core := by
  refine core_of_settle rfl fun c' h => ?_
  obtain ⟨i, -, h⟩ := bind_eq_ok.mp h
  obtain ⟨timing, -, h⟩ := bind_eq_ok.mp h
  obtain rfl := Except.ok.inj h
  rfl

theorem enableClock_core (pin : String) (f : Frequency) : (c.enableClock pin f).2.core = c.core := by
  refine core_of_settle rfl fun c' h => ?_
  obtain ⟨i, -, h⟩ := bind_eq_ok.mp h
  obtain ⟨period, -, h⟩ := bind_eq_ok.mp h
  obtain ⟨⟨half, clocks⟩, -, h⟩ := bind_eq_ok.mp h
  obtain rfl := Except.ok.inj h
  exact noteRounding_core _ pin f half

theorem startClock_core (pin : String) : (c.startClock pin).2.core = c.core := by
  refine core_of_settle rfl fun c' h => ?_
  obtain ⟨i, -, h⟩ := bind_eq_ok.mp h
  obtain ⟨_, -, h⟩ := bind_eq_ok.mp h
  obtain ⟨clocks, -, h⟩ := bind_eq_ok.mp h
  obtain rfl := Except.ok.inj h
  rfl

theorem stopClock_core (pin : String) : (c.stopClock pin).2.core = c.core := by
  refine core_of_settle rfl fun c' h => ?_
  obtain ⟨i, -, h⟩ := bind_eq_ok.mp h
  obtain ⟨clocks, -, h⟩ := bind_eq_ok.mp h
  obtain rfl := Except.ok.inj h
  rfl

theorem pauseClock_core (pin : String) : (c.pauseClock pin).2.core = c.core := by
  refine core_of_settle rfl fun c' h => ?_
  obtain ⟨i, -, h⟩ := bind_eq_ok.mp h
  obtain ⟨clocks, -, h⟩ := bind_eq_ok.mp h
  obtain rfl := Except.ok.inj h
  rfl

theorem resumeClock_core (pin : String) (frequency : Option Frequency) :
    (c.resumeClock pin frequency).2.core = c.core := by
  refine core_of_settle rfl fun c' h => ?_
  obtain ⟨i, -, h⟩ := bind_eq_ok.mp h
  obtain ⟨retune, -, h⟩ := bind_eq_ok.mp h
  obtain ⟨⟨half, clocks⟩, -, h⟩ := bind_eq_ok.mp h
  dsimp only at h
  split at h
  · obtain rfl := Except.ok.inj h
    exact noteRounding_core _ pin _ _
  · obtain rfl := Except.ok.inj h
    rfl

theorem setGroup_core (group : Nat) : (c.setGroup group).2.core = c.core := by
  unfold setGroup
  split
  · rfl
  · refine core_of_settle rfl fun c' h => ?_
    obtain ⟨_, -, h⟩ := bind_eq_ok.mp h
    obtain rfl := Except.ok.inj h
    rfl

end

/-! ## Marks that wait for the next vector -/

/-- The same marks are pending in `c` and `c'`. -/
structure SameMarks (c c' : Sequencer) : Prop where
  store : c'.pendingStore = c.pendingStore
  label : c'.pendingLabel = c.pendingLabel

namespace SameMarks

variable {c c' c'' : Sequencer}

theorem refl (c : Sequencer) : SameMarks c c := ⟨rfl, rfl⟩

theorem trans (h : SameMarks c c') (h' : SameMarks c' c'') : SameMarks c c'' :=
  ⟨h'.store.trans h.store, h'.label.trans h.label⟩

/-- What setting up vectors leaves alone has the marks. -/
theorem of_core (h : c'.core = c.core) : SameMarks c c' where
  store := (congrArg Sequencer.pendingStore h :)
  label := (congrArg Sequencer.pendingLabel h :)

end SameMarks

/-- A vector that is recorded takes the marks, and any other one leaves them. -/
theorem emit_marks (c : Sequencer) (count : Nat) (timeset call : Option String) :
    (SameMarks c (c.emit count timeset call).2 ∧ (c.inhibitVectors = 0 → (c.emit count timeset call).1 ≠ .ok ())) ∨
      (c.inhibitVectors = 0 ∧ (c.emit count timeset call).1 = .ok () ∧
        (c.emit count timeset call).2.pendingStore = false ∧ (c.emit count timeset call).2.pendingLabel = none) := by
  unfold emit
  dsimp only
  split
  · exact .inl ⟨⟨rfl, rfl⟩, fun _ => nofun⟩
  · rename_i t _
    split
    · rename_i hi
      exact .inl ⟨⟨rfl, rfl⟩, fun hi' => absurd hi (by exact Nat.not_lt.mpr (Nat.le_of_eq hi'))⟩
    · rename_i hi
      have hi : c.inhibitVectors = 0 := Nat.eq_zero_of_not_pos hi
      cases (c.touch.use t.name).bench.hold t count ⟨_, _, call, _⟩ with
      | error e =>
        obtain ⟨-, hstore, hlabel, -⟩ := c.touch.use_fields t.name
        exact .inl ⟨⟨hstore, hlabel⟩, fun _ => nofun⟩
      | ok b => exact .inr ⟨hi, rfl, rfl, rfl⟩

end Sequencer

namespace Operation

/-- Operations that only set up vectors to come, or ask for something. -/
def setsUp : Operation → Bool
  | .setPin _ _ | .pinState _ | .setTimeset _ _ | .addWave _ _ _ _ | .enableClock _ _ | .startClock _
  | .stopClock _ | .pauseClock _ | .resumeClock _ _ | .imported | .items | .setGroup _ => true
  | _ => false

theorem perform_core (c : Sequencer) : ∀ {op : Operation}, op.setsUp = true → (op.perform c).after.core = c.core
  | .setPin pin s, _ => c.setPin_core pin s
  | .setTimeset name period, _ => c.setTimeset_core name period
  | .addWave timeset pin drive compare, _ => c.addWave_core timeset pin drive compare
  | .enableClock pin f, _ => c.enableClock_core pin f
  | .startClock pin, _ => c.startClock_core pin
  | .stopClock pin, _ => c.stopClock_core pin
  | .pauseClock pin, _ => c.pauseClock_core pin
  | .resumeClock pin f, _ => c.resumeClock_core pin f
  | .setGroup group, _ => c.setGroup_core group
  | .pinState _, _ | .imported, _ | .items, _ => rfl

end Operation

end TestProgram
