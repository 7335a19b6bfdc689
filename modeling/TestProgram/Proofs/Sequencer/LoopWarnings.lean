import TestProgram.Proofs.Sequencer.Scopes
import TestProgram.Proofs.Sequencer.Warnings

/-!
# Warnings of hardware loops

The body of a hardware loop is recorded once and executed several times, which a clock that goes on from one round
to the next does not follow. So a loop warns of running clocks, but it looks for them when it is entered and not when
its body is over. All warnings of a loop are this one, if a clock runs at that time, and those of its body
(`loop_warnings`); a clock that the body starts and leaves running is reported only by the next loop that is entered.

A body may finish the pattern, which then takes the warnings with it. So what counts are all warnings by the end of an
operation, in the patterns that were finished as well as in the sequencer (`Performance.warnings`). They only ever
become more (`gains_logged`), and as long as nothing is finished they are the sequencer's own
(`warnings_eq_of_not_closes`).
-/

namespace TestProgram

/-- The warnings that go with a finished pattern in a step. -/
def LogEntry.handed (e : LogEntry) : List Warning :=
  if e.operation.closes then (e.pattern?.map Pattern.warnings).getD [] else []

/-- All warnings by the end of a performance: of the patterns that were finished in it, and of the one after them. -/
def Performance.warnings {α : Type} (p : Performance α) : List Warning :=
  p.log.flatMap LogEntry.handed ++ p.after.warnings

namespace Sequencer

/-- By the end of a log there are all warnings from its beginning, and perhaps further ones. -/
def Gains (c : Sequencer) (log : List LogEntry) (c' : Sequencer) : Prop :=
  c.warnings <+: log.flatMap LogEntry.handed ++ c'.warnings

theorem Gains.append {c c' c'' : Sequencer} {log log' : List LogEntry} (h : Gains c log c') (h' : Gains c' log' c'') :
    Gains c (log ++ log') c'' := by
  unfold Gains at *
  rw [List.flatMap_append, List.append_assoc]
  exact h.trans ((List.prefix_append_right_inj _).mpr h')

/-- A step that hands no warnings over gains what the sequencer has afterwards. -/
theorem Gains.of_warned {c c' : Sequencer} {e : LogEntry} (he : e.operation.closes = false) (h : Warned c c') :
    Gains c [e] c' := by
  have hhanded : e.handed = [] := by rw [LogEntry.handed, if_neg (Bool.eq_false_iff.mp he)]
  rw [Gains, List.flatMap_singleton, hhanded, List.nil_append]
  exact h

theorem warnings_closing (c : Sequencer) (s : Scope) (c' : Sequencer) : (c.closing s c').warnings = c'.warnings := by
  cases s with
  | timeset _ _ | ignoreFails _ | withoutVectors | withoutComments => rfl
  | loop label count =>
    unfold closing leaveLoop
    dsimp only
    split
    · rfl
    · split <;> rfl

theorem warned_of_opened {c c₁ : Sequencer} {s : Scope} (h : c.opened s = .ok c₁) : Warned c c₁ := by
  have hwarned : Warned c (c.within s fun c₁ => (c₁, c₁)).2 := c.within_warned .refl s
  rwa [within_of_opened _ h, Warned, warnings_closing] at hwarned

/-- The induction over programs: only the end of a pattern takes warnings away, and hands them to the pattern. -/
theorem gains_logged : Logged (fun _ => True) Gains where
  nil c := List.prefix_refl _
  append := .append
  leaf {op} c hop _ := by
    cases hcloses : op.closes with
    | true =>
      obtain ⟨platforms, rfl⟩ := Operation.eq_finish_of_closes hcloses
      have hhanded : ((Operation.finish platforms).entry c).handed = c.warnings := rfl
      rw [Gains, List.flatMap_singleton, hhanded]
      exact List.prefix_append ..
    | false =>
      have hstep : op.isStep = true := by
        cases op with
        | finish _ => cases hcloses
        | scope _ _ | block _ | attempt _ => cases hop
        | _ => rfl
      exact .of_warned hcloses (op.perform_warned hstep c)
  closed {op} answer c hop := by
    have hcloses : op.closes = false := by
      cases op with
      | finish _ => cases hop
      | _ => rfl
    exact .of_warned hcloses (.refl c)
  scope {body} s c hbody := by
    cases hopen : c.opened s with
    | error e =>
      rw [within_of_not_opened body hopen]
      exact c.touch_warned
    | ok c₁ =>
      rw [within_of_opened body hopen, Gains, warnings_closing]
      exact List.IsPrefix.trans (warned_of_opened hopen) (hbody c₁)

end Sequencer

namespace Operation

open Sequencer

theorem perform_gains (op : Operation) (c : Sequencer) : c.warnings <+: (op.perform c).warnings :=
  gains_logged.perform (op.all_of_forall fun _ => trivial) c

theorem performBody_gains (body : List Operation) (c : Sequencer) : c.warnings <+: (performBody body c).warnings :=
  gains_logged.performBody (fun op _ => op.perform_gains) c

theorem not_closes_of_all : ∀ {op : Operation}, op.All (fun op => op.closes = false) → op.closes = false
  | _, .leaf _ h => h
  | _, .scope _ | _, .block _ | _, .attempt _ => rfl

/-- What does not finish the pattern leaves all warnings with the sequencer. -/
theorem warnings_eq_of_not_closes {op : Operation} (hop : op.All fun op => op.closes = false) (c : Sequencer) :
    (op.perform c).warnings = (op.perform c).after.warnings := by
  have hhanded : ∀ e ∈ (op.perform c).log, e.handed = [] := by
    intro e he
    have hcloses := not_closes_of_all (op.all_of_mem_log hop c e he)
    rw [LogEntry.handed, if_neg (Bool.eq_false_iff.mp hcloses)]
  rw [Performance.warnings, List.flatMap_eq_nil_iff.mpr hhanded, List.nil_append]

/-- The warnings of a scope are those of its body. -/
theorem warnings_scope {c c₁ : Sequencer} {s : Scope} (h : c.opened s = .ok c₁) (body : List Operation) :
    ((Operation.scope s body).perform c).warnings = (performBody body c₁).warnings := by
  have hhanded (answer : Except Fault Answer) (c' : Sequencer) :
      LogEntry.handed ⟨.scope s body, answer, c'⟩ = [] := rfl
  rw [perform_of_opened h]
  simp only [Performance.warnings, Performance.closed, Performance.step, List.flatMap_append, List.flatMap_singleton,
    hhanded, List.append_nil, warnings_closing]

end Operation

namespace Sequencer

theorem clocks_enterLoop (c : Sequencer) (label : String) (count : Nat) :
    ((c.beforeLoop label).enterLoop label count).clocks = c.clocks := by
  unfold enterLoop beforeLoop
  split <;> split <;> rfl

theorem warnings_enterLoop (c : Sequencer) (label : String) (count : Nat) :
    ((c.beforeLoop label).enterLoop label count).warnings =
      c.warnings ++ if c.clocks.anyRunning = true then [.clockAcrossLoop label] else [] := by
  have henter : ((c.beforeLoop label).enterLoop label count).warnings = (c.beforeLoop label).warnings := by
    unfold enterLoop
    split <;> rfl
  have hclocks : c.touch.clocks = c.clocks := rfl
  rw [henter, beforeLoop, hclocks]
  split
  · rfl
  · exact (List.append_nil _).symm

/-- A loop gains the warning of running clocks just if a clock runs when its body begins or if the body gains the
same warning, and all other warnings of the body. -/
theorem loop_warnings {count : Nat} (hcount : 2 ≤ count) (c : Sequencer) (label : String) (body : List Operation) :
    ∃ c₁ gained own, c.opened (.loop label count) = .ok c₁ ∧ c₁.clocks.anyRunning = c.clocks.anyRunning ∧
      (Operation.performBody body c₁).warnings = c₁.warnings ++ gained ∧
      ((Operation.scope (.loop label count) body).perform c).warnings = c.warnings ++ own ∧
      own = (if c.clocks.anyRunning = true then [.clockAcrossLoop label] else []) ++ gained ∧
      (.clockAcrossLoop label ∈ own ↔ c₁.clocks.anyRunning = true ∨ .clockAcrossLoop label ∈ gained) ∧
      ((∀ op ∈ body, op.All fun op => op.closes = false) →
        ((Operation.scope (.loop label count) body).perform c).after.warnings = c.warnings ++ own) := by
  have hopen := c.opened_loop label hcount
  obtain ⟨gained, hgained⟩ := Operation.performBody_gains body ((c.beforeLoop label).enterLoop label count)
  have hwarnings := Operation.warnings_scope hopen body
  rw [← hgained, warnings_enterLoop, List.append_assoc] at hwarnings
  refine ⟨_, gained, _, hopen, by rw [clocks_enterLoop], hgained.symm, hwarnings, rfl, ?_, fun hbody => ?_⟩
  · rw [clocks_enterLoop, List.mem_append]
    refine or_congr_left ?_
    split
    · rename_i hrunning
      exact iff_of_true (List.mem_singleton_self _) hrunning
    · rename_i hrunning
      exact iff_of_false List.not_mem_nil hrunning
  · rw [← Operation.warnings_eq_of_not_closes (.scope hbody) c, hwarnings]

/-- A sequencer with a clock that is not running. -/
def stoppedClock : Sequencer :=
  (Operation.performAll [.setTimeset "tp0" (some ⟨40000⟩), .enableClock "clk" ⟨12500000⟩]
    (new "p" ⟨[⟨"clk", .dontCare, 0⟩]⟩ (.standard .v93k))).2

theorem runningClock_reported : 2 ≤ 3 ∧
    .clockAcrossLoop "lp" ∈ ((Operation.scope (.loop "lp" 3) [.hold none none]).perform
      ((Operation.startClock "clk").perform stoppedClock).after).after.warnings := by
  obtain ⟨c₁, gained, own, -, hclocks, -, -, -, hreported, hafter⟩ := loop_warnings (show 2 ≤ 3 by decide)
    ((Operation.startClock "clk").perform stoppedClock).after "lp" [.hold none none]
  have hrunning : ((Operation.startClock "clk").perform stoppedClock).after.clocks.anyRunning = true := by
    decide +kernel
  have hbody : ∀ op ∈ [Operation.hold none none], op.All fun op => op.closes = false :=
    List.forall_mem_singleton.mpr (.leaf rfl rfl)
  refine ⟨by decide, ?_⟩
  rw [hafter hbody]
  exact List.mem_append_right _ (hreported.mpr (.inl (hclocks.trans hrunning)))

/-- A clock that the body starts runs at its end, in a loop without warnings. -/
theorem not_forall_running_reported : ¬ ∀ (c : Sequencer) (label : String) (count : Nat) (body : List Operation),
    c.inhibitVectors = 0 → 2 ≤ count →
      (c.clocks.anyRunning = true ∨
        (Operation.performBody body ((c.beforeLoop label).enterLoop label count)).after.clocks.anyRunning = true) →
      .clockAcrossLoop label ∈ ((Operation.scope (.loop label count) body).perform c).warnings := by
  intro hall
  have hmem := hall stoppedClock "lp" 2 [.startClock "clk", .hold none none] (by decide +kernel) (by decide)
    (.inr (by decide +kernel))
  have hnone : ((Operation.scope (.loop "lp" 2) [.startClock "clk", .hold none none]).perform
      stoppedClock).warnings.isEmpty = true := by decide +kernel
  rw [List.isEmpty_iff.mp hnone] at hmem
  exact List.not_mem_nil hmem

end Sequencer

end TestProgram
