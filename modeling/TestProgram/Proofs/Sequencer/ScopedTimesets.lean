import TestProgram.Proofs.Sequencer.Emissions
import TestProgram.Proofs.Sequencer.Failures
import TestProgram.Proofs.Timing.Switches

/-!
# Scopes with a timeset of their own

While vectors are recorded and nothing else is done, the timesets stay as they
are (`Emits.timing`). So all that is left of a scope with a timeset of its own
is the period that it gave the timeset. The timeset that was active is so again;
it keeps its period, and every duration its number of cycles, exactly if the
scope did not give this very timeset another one (`scoped_period`).
-/

namespace TestProgram

namespace Operation

/-- Operations that record vectors and do nothing else, in any number and
whether they fail or not. -/
inductive Emits : Operation → Prop where
  | hold (count : Option Nat) (timeset : Option String) : Emits (.hold count timeset)
  | delay (count : Nat) : Emits (.delay count)
  | wait (d : Duration) : Emits (.wait d)
  | call (name : String) : Emits (.call name)
  | block {body : List Operation} (h : ∀ op ∈ body, Emits op) : Emits (.block body)
  | attempt {body : List Operation} (h : ∀ op ∈ body, Emits op) : Emits (.attempt body)

open Sequencer

/-- A body keeps the timesets if its operations do. -/
theorem performBody_timing {ops : List Operation} (h : ∀ op ∈ ops, ∀ c, (op.perform c).after.timing = c.timing)
    (c : Sequencer) : (performBody ops c).after.timing = c.timing :=
  (performBody_keep (I := fun c' => c'.timing = c.timing) (fun op hop c' hc' => (h op hop c').trans hc') rfl).1

theorem Emits.timing {op : Operation} (h : op.Emits) (c : Sequencer) : (op.perform c).after.timing = c.timing := by
  induction h generalizing c with
  | hold count timeset => exact timing_acrossVectors.hold c count timeset
  | delay count => exact timing_acrossVectors.delay c count
  | wait d => exact timing_acrossVectors.wait c d
  | call name => exact emit_timing _ 1 none (some name)
  | block _ ih | attempt _ ih => exact performBody_timing ih c

end Operation

namespace Sequencer

section

variable {β : Type} {body : Sequencer → β × Sequencer} {c : Sequencer} {name : String} {period : Option Duration}

theorem withTimeset_of_error {fault : Fault} (h : c.timing.select name period = .error fault) :
    c.withTimeset name period body = (.error fault, c.touch) := by
  have hset : c.setTimeset name period = (.error fault, c.touch) := by
    show c.touch.settle (c.timing.select name period >>= fun timing => pure { c.touch with timing }) = _
    rw [h]
    rfl
  rw [withTimeset, hset]

theorem withTimeset_of_ok {t : Timing} (h : c.timing.select name period = .ok t) :
    c.withTimeset name period body = (.ok (body { c.touch with timing := t }).1,
      { (body { c.touch with timing := t }).2 with
        timing := (body { c.touch with timing := t }).2.timing.restore c.timing.active }) := by
  have hset : c.setTimeset name period = (.ok (), { c.touch with timing := t }) := by
    show c.touch.settle (c.timing.select name period >>= fun timing => pure { c.touch with timing }) = _
    rw [h]
    rfl
  rw [withTimeset, hset]

/-- A scope with a timeset of its own switches to it and back, unless it fails to
open: that happens to a period of zero only. -/
theorem timing_withTimeset (hbody : ∀ c, (body c).2.timing = c.timing) (c : Sequencer) (name : String)
    (period : Option Duration) :
    ((c.withTimeset name period body).2.timing = c.timing ∧ ∃ p, period = some p ∧ p.isZero = true) ∨
      ∃ t, c.timing.select name period = .ok t ∧
        (c.withTimeset name period body).2.timing = t.restore c.timing.active := by
  cases hselect : c.timing.select name period with
  | error fault =>
    refine .inl ⟨by rw [withTimeset_of_error hselect]; rfl, ?_⟩
    unfold Timing.select at hselect
    split at hselect
    · rename_i hzero
      cases period with
      | none => cases hzero
      | some p => exact ⟨p, rfl, hzero⟩
    · cases hselect
  | ok t =>
    refine .inr ⟨t, rfl, ?_⟩
    rw [withTimeset_of_ok hselect]
    dsimp only
    rw [hbody]

end

variable {body : List Operation}

theorem scoped_currentPeriod? {c : Sequencer} (hc : c.Occurs) {before : Duration}
    (hbefore : c.timing.currentPeriod? = some before) (name : String) (period : Option Duration)
    (hbody : ∀ op ∈ body, op.Emits) :
    ((Operation.scope (.timeset name period) body).perform c).after.timing.currentPeriod? =
      some (c.timing.periodAfter name period before) := by
  have htiming (c : Sequencer) : (Operation.performBody body c).inner.2.timing = c.timing :=
    Operation.performBody_timing (fun op hop => (hbody op hop).timing) c
  rw [Operation.perform, Performance.after_closed, within]
  rcases timing_withTimeset htiming c name period with ⟨heq, p, rfl, hzero⟩ | ⟨t, hselect, heq⟩
  · rw [heq, hbefore, Timing.periodAfter_eq_iff.mpr fun q hq hpos => ?_]
    rw [← Option.some.inj hq, hzero] at hpos
    cases hpos
  · rw [heq]
    exact Timing.currentPeriod?_restore_select hc.nodup hbefore hselect

/-- After a scope with a timeset of its own in which nothing is done but that
vectors are recorded, the timeset from before it is active again, and it has a
period. This is the one from before exactly if the scope did not give this very
timeset another one. The number of cycles is as before for all durations exactly
if the period is, whichever way they are rounded. -/
theorem scoped_period {c : Sequencer} (hc : c.Occurs) {before : Duration}
    (hbefore : c.timing.currentPeriod? = some before) (name : String) (period : Option Duration)
    (hbody : ∀ op ∈ body, op.Emits) :
    ∃ c', ((Operation.scope (.timeset name period) body).perform c).after = c' ∧
      c'.timing.activeName? = c.timing.activeName? ∧
      c'.timing.currentPeriod? = some (c.timing.periodAfter name period before) ∧
      (c'.timing.currentPeriod? = c.timing.currentPeriod? ↔
        ∀ p, period = some p → p.isZero = false → c.timing.activeName? = some name → p = before) ∧
      ∀ rounding, (∀ d, c'.timing.cyclesFor d rounding = c.timing.cyclesFor d rounding) ↔
        c'.timing.currentPeriod? = c.timing.currentPeriod? := by
  have hname : ((Operation.scope (.timeset name period) body).perform c).after.timing.activeName? =
      c.timing.activeName? := by
    rw [Operation.perform, Performance.after_closed]
    exact activeName?_withTimeset (steady_kept.performBody fun op _ => op.steady_perform) hc.valid name period
  have hperiod := scoped_currentPeriod? hc hbefore name period hbody
  generalize ((Operation.scope (.timeset name period) body).perform c).after = c' at hname hperiod
  refine ⟨c', rfl, hname, hperiod, ?_, fun rounding => ⟨fun hall => ?_, fun heq d => ?_⟩⟩
  · rw [hperiod, hbefore, Option.some_inj, Timing.periodAfter_eq_iff]
  · rw [hperiod, hbefore]
    by_contra hne
    have hne : c.timing.periodAfter name period before ≠ before := fun heq => hne (congrArg some heq)
    exact hne (Timing.currentPeriod?_inj hbefore hperiod (Timing.isZero_periodAfter hne) rounding hall)
  · rw [hbefore] at heq
    rw [Timing.cyclesFor_of_currentPeriod? heq, Timing.cyclesFor_of_currentPeriod? hbefore]

/-- A sequencer with a timeset of 40 ns. -/
def switched : Sequencer :=
  (Operation.performAll [.setTimeset "tp" (some ⟨40000⟩)] (new "switched" twoPins (.standard .v93k))).2

theorem switched_reachable : Reachable "switched" twoPins (.standard .v93k) switched := .performAll _

theorem switched_scoped_period : switched.Occurs ∧ switched.timing.currentPeriod? = some ⟨40000⟩ ∧
    ∃ c', ((Operation.scope (.timeset "fast" (some ⟨20000⟩))
        [.hold none none, .call "sub"]).perform switched).after = c' ∧
      c'.timing.activeName? = some "tp" ∧ c'.timing.currentPeriod? = some ⟨40000⟩ := by
  have hoccurs : switched.Occurs := switched_reachable.occurs
  have hperiod : switched.timing.currentPeriod? = some ⟨40000⟩ := by decide +kernel
  have hemits : ∀ op ∈ [Operation.hold none none, .call "sub"], op.Emits :=
    List.forall_mem_cons.mpr ⟨.hold _ _, List.forall_mem_cons.mpr ⟨.call _, List.forall_mem_nil _⟩⟩
  have hname : switched.timing.activeName? = some "tp" := by decide +kernel
  obtain ⟨c', hafter, hactive, -, hsame, -⟩ := scoped_period hoccurs hperiod "fast" (some ⟨20000⟩) hemits
  refine ⟨hoccurs, hperiod, c', hafter, hactive.trans hname, (hsame.mpr fun p _ _ hfast => ?_).trans hperiod⟩
  rw [hname] at hfast
  exact absurd hfast (by decide)

/-- A scope that gives the active timeset another period does not give the old
one back. -/
theorem not_forall_period_restored : ¬ ∀ c : Sequencer, Reachable "switched" twoPins (.standard .v93k) c →
    ∀ before, c.timing.currentPeriod? = some before → ∀ name period body, (∀ op ∈ body, op.Emits) →
      ((Operation.scope (.timeset name period) body).perform c).after.timing.currentPeriod? = some before := by
  intro hall
  have hemits : ∀ op ∈ [Operation.hold none none], op.Emits :=
    List.forall_mem_cons.mpr ⟨.hold _ _, List.forall_mem_nil _⟩
  have hkept := hall switched switched_reachable ⟨40000⟩ (by decide +kernel) "tp" (some ⟨80000⟩) _ hemits
  have hchanged : ((Operation.scope (.timeset "tp" (some ⟨80000⟩)) [.hold none none]).perform
      switched).after.timing.currentPeriod? = some ⟨80000⟩ := by decide +kernel
  rw [hkept] at hchanged
  exact absurd hchanged (by decide)

end Sequencer

end TestProgram
