import TestProgram.Sequencer.Operation

/-!
# Warnings of sequencers

A sequencer collects the warnings of its pattern. Until the pattern is finished no operation and no scope
takes one back, whether it succeeds or not (`Operation.perform_warned`, `Sequencer.within_warned`).
-/

namespace TestProgram

namespace Sequencer

/-- The second sequencer has all warnings of the first one, and perhaps further ones. -/
def Warned (c c' : Sequencer) : Prop := c.warnings <+: c'.warnings

theorem Warned.refl (c : Sequencer) : Warned c c := List.prefix_refl _

theorem Warned.trans {c c' c'' : Sequencer} (h : Warned c c') (h' : Warned c' c'') : Warned c c'' :=
  List.IsPrefix.trans h h'

theorem Warned.of_eq {c c' : Sequencer} (h : c'.warnings = c.warnings) : Warned c c' := by
  unfold Warned
  exact h ▸ List.prefix_refl c'.warnings

/-- What is done before and after a body raises no warnings. -/
theorem Warned.around {c c₁ c₂ c' : Sequencer} (h : Warned c₁ c₂) (hafter : c'.warnings = c₂.warnings)
    (hbefore : c₁.warnings = c.warnings) : Warned c c' := by
  rw [Warned, hafter, ← hbefore]
  exact h

/-- An operation that is settled as a whole changes nothing if it fails. -/
theorem Warned.of_settle {c : Sequencer} {r : Except Fault Sequencer} (h : ∀ c', r = .ok c' → Warned c c') :
    Warned c (c.settle r).2 := by
  cases r with
  | error e => exact .refl c
  | ok c' => exact h c' rfl

variable (c : Sequencer)

theorem touch_warned : Warned c c.touch := .refl c

theorem warn_warned (w : Warning) : Warned c (c.warn w) := List.prefix_append ..

/-! ## Setting up -/

theorem setPin_warned (pin : String) (s : PinState) : Warned c (c.setPin pin s).2 := by
  refine c.touch_warned.trans (.of_settle fun c' h => ?_)
  obtain ⟨i, -, h⟩ := bind_eq_ok.mp h
  obtain rfl := Except.ok.inj h
  exact .of_eq rfl

theorem setTimeset_warned (name : String) (period : Option Duration) : Warned c (c.setTimeset name period).2 := by
  refine c.touch_warned.trans (.of_settle fun c' h => ?_)
  obtain ⟨timing, -, h⟩ := bind_eq_ok.mp h
  obtain rfl := Except.ok.inj h
  exact .of_eq rfl

theorem addWave_warned (timeset pin : String) (drive compare : Option String) :
    Warned c (c.addWave timeset pin drive compare).2 := by
  refine .of_settle fun c' h => ?_
  obtain ⟨i, -, h⟩ := bind_eq_ok.mp h
  obtain ⟨timing, -, h⟩ := bind_eq_ok.mp h
  obtain rfl := Except.ok.inj h
  exact .of_eq rfl

theorem noteRounding_warned (pin : String) (f : Frequency) (half : HalfPeriod) :
    Warned c (c.noteRounding pin f half) := by
  unfold noteRounding
  split
  · exact .refl c
  · exact c.warn_warned _

theorem enableClock_warned (pin : String) (f : Frequency) : Warned c (c.enableClock pin f).2 := by
  refine c.touch_warned.trans (.of_settle fun c' h => ?_)
  obtain ⟨i, -, h⟩ := bind_eq_ok.mp h
  obtain ⟨period, -, h⟩ := bind_eq_ok.mp h
  obtain ⟨⟨half, clocks⟩, -, h⟩ := bind_eq_ok.mp h
  obtain rfl := Except.ok.inj h
  exact (c.touch.withClocks clocks).noteRounding_warned pin f half

theorem startClock_warned (pin : String) : Warned c (c.startClock pin).2 := by
  refine c.touch_warned.trans (.of_settle fun c' h => ?_)
  obtain ⟨i, -, h⟩ := bind_eq_ok.mp h
  obtain ⟨_, -, h⟩ := bind_eq_ok.mp h
  obtain ⟨clocks, -, h⟩ := bind_eq_ok.mp h
  obtain rfl := Except.ok.inj h
  exact .of_eq rfl

theorem stopClock_warned (pin : String) : Warned c (c.stopClock pin).2 := by
  refine c.touch_warned.trans (.of_settle fun c' h => ?_)
  obtain ⟨i, -, h⟩ := bind_eq_ok.mp h
  obtain ⟨clocks, -, h⟩ := bind_eq_ok.mp h
  obtain rfl := Except.ok.inj h
  exact .of_eq rfl

theorem pauseClock_warned (pin : String) : Warned c (c.pauseClock pin).2 := by
  refine c.touch_warned.trans (.of_settle fun c' h => ?_)
  obtain ⟨i, -, h⟩ := bind_eq_ok.mp h
  obtain ⟨clocks, -, h⟩ := bind_eq_ok.mp h
  obtain rfl := Except.ok.inj h
  exact .of_eq rfl

theorem resumeClock_warned (pin : String) (frequency : Option Frequency) :
    Warned c (c.resumeClock pin frequency).2 := by
  refine c.touch_warned.trans (.of_settle fun c' h => ?_)
  obtain ⟨i, -, h⟩ := bind_eq_ok.mp h
  obtain ⟨retune, -, h⟩ := bind_eq_ok.mp h
  obtain ⟨⟨half, clocks⟩, -, h⟩ := bind_eq_ok.mp h
  dsimp only at h
  split at h
  · obtain rfl := Except.ok.inj h
    exact (c.touch.withClocks clocks).noteRounding_warned pin _ _
  · obtain rfl := Except.ok.inj h
    exact .of_eq rfl

theorem setGroup_warned (group : Nat) : Warned c (c.setGroup group).2 := by
  unfold setGroup
  split
  · exact .refl c
  · refine c.touch_warned.trans (.of_settle fun c' h => ?_)
    obtain ⟨_, -, h⟩ := bind_eq_ok.mp h
    obtain rfl := Except.ok.inj h
    exact .of_eq rfl

/-! ## Vectors -/

theorem use_warned (timeset : String) : Warned c (c.use timeset) := by
  unfold use
  split
  · exact .refl c
  · exact .of_eq rfl

theorem emit_warned (count : Nat) (timeset call : Option String) : Warned c (c.emit count timeset call).2 := by
  unfold emit
  dsimp only
  split
  · exact c.touch_warned
  · split
    · exact c.touch_warned
    · refine (c.touch.use_warned _).trans (.of_settle fun c' h => ?_)
      obtain ⟨bench, -, h⟩ := bind_eq_ok.mp h
      obtain rfl := Except.ok.inj h
      exact .of_eq rfl

theorem hold_warned (count : Option Nat) (timeset : Option String) : Warned c (c.hold count timeset).2 := by
  unfold hold align
  dsimp only
  split
  · exact .refl c
  · split
    · exact c.emit_warned _ timeset none
    · exact (c.warn_warned _).trans (emit_warned _ _ timeset none)

theorem delay_warned (count : Nat) : Warned c (c.delay count).2 := by
  unfold delay
  split
  · exact c.touch_warned
  · exact c.hold_warned (some count) none

theorem wait_warned (d : Duration) : Warned c (c.wait d).2 := by
  unfold wait
  dsimp only
  split
  · exact c.touch_warned
  · exact c.touch.delay_warned _

theorem store_warned (offset : Nat) : Warned c (c.store offset).2 := by
  unfold store
  dsimp only
  split
  · exact .of_eq rfl
  · split
    · exact c.touch_warned
    · refine c.touch_warned.trans (.of_settle fun c' h => ?_)
      obtain ⟨tape, -, h⟩ := bind_eq_ok.mp h
      obtain rfl := Except.ok.inj h
      exact .of_eq rfl

theorem comment_warned (text : String) : Warned c (c.comment text) := by
  unfold comment
  dsimp only
  split <;> exact .of_eq rfl

theorem call_warned (name : String) : Warned c (c.call name).2 :=
  emit_warned { c with called := Names.insert name c.called } 1 none (some name)

/-- Events are replayed with vectors in between. -/
theorem replay_warned (total : Nat) : ∀ (events : List ThreadEvent) (c : Sequencer) (now : Nat),
    Warned c (c.replay total now events).2
  | [], c, now => by
    unfold replay
    split
    · exact c.delay_warned _
    · exact .refl c
  | e :: events, c, now => by
    have hwait : Warned c (if now < e.cycle then c.delay (e.cycle - now) else (.ok (), c)).2 := by
      split
      · exact c.delay_warned _
      · exact .refl c
    unfold replay
    split
    · rename_i heq
      rwa [heq] at hwait
    · rename_i c₁ heq
      rw [heq] at hwait
      have hpin := c₁.setPin_warned e.pin e.state
      split
      · rename_i heq
        rw [heq] at hpin
        exact hwait.trans hpin
      · rename_i c₂ heq
        rw [heq] at hpin
        exact (hwait.trans hpin).trans (replay_warned total events c₂ (max now e.cycle))

theorem runThreads_warned (threads : List Thread) : Warned c (c.runThreads threads).2 := by
  unfold runThreads
  dsimp only
  split
  · exact c.touch_warned
  · exact c.touch_warned.trans (replay_warned _ _ c.touch 0)

/-! ## Scopes -/

theorem within_warned {β : Type} {body : Sequencer → β × Sequencer} (hbody : ∀ c, Warned c (body c).2) :
    ∀ s : Scope, Warned c (c.within s body).2
  | .timeset name period => by
    have hset := c.setTimeset_warned name period
    simp only [within, withTimeset]
    split
    · rename_i heq
      rwa [heq] at hset
    · rename_i c₁ heq
      rw [heq] at hset
      exact hset.trans (hbody c₁)
  | .loop label count => by
    simp only [within, loop]
    split
    · exact c.touch_warned
    · split
      · exact c.touch_warned.trans (hbody c.touch)
      · have hopen : Warned c (if c.touch.clocks.anyRunning then c.touch.warn (.clockAcrossLoop label) else c.touch) := by
          split
          · exact c.touch.warn_warned _
          · exact c.touch_warned
        generalize (if c.touch.clocks.anyRunning then c.touch.warn (.clockAcrossLoop label) else c.touch) = c₁ at hopen ⊢
        split <;> exact hopen.trans ((hbody _).around rfl rfl)
  | .ignoreFails pins => by
    simp only [within, ignoreFails]
    split
    · exact c.touch_warned
    · exact (hbody _).around rfl rfl
  | .withoutVectors | .withoutComments => (hbody _).around rfl rfl

end Sequencer

/-! ## Operations -/

namespace Operation

open Sequencer

/-- Neither has a body nor ends the pattern. -/
def isStep : Operation → Bool
  | scope .. | block _ | attempt _ | finish _ => false
  | _ => true

theorem perform_warned {op : Operation} (hop : op.isStep = true) (c : Sequencer) : Warned c (op.perform c).after := by
  cases op with
  | setPin pin s => exact c.setPin_warned pin s
  | setTimeset name period => exact c.setTimeset_warned name period
  | addWave timeset pin drive compare => exact c.addWave_warned timeset pin drive compare
  | enableClock pin f => exact c.enableClock_warned pin f
  | startClock pin => exact c.startClock_warned pin
  | stopClock pin => exact c.stopClock_warned pin
  | pauseClock pin => exact c.pauseClock_warned pin
  | resumeClock pin f => exact c.resumeClock_warned pin f
  | hold count timeset => exact c.hold_warned count timeset
  | delay count => exact c.delay_warned count
  | wait d => exact c.wait_warned d
  | store offset => exact c.store_warned offset
  | comment text => exact c.comment_warned text
  | call name => exact c.call_warned name
  | setGroup group => exact c.setGroup_warned group
  | threads ts => exact c.runThreads_warned ts
  | label _ | define _ | pinState _ | imported | items => exact .of_eq rfl
  | scope _ _ | block _ | attempt _ | finish _ => cases hop

end Operation

end TestProgram
