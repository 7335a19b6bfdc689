import TestProgram.Proofs.Render.Levels
import TestProgram.Proofs.Sequencer.Periods

/-!
# Scripts of finished patterns

Every pattern that a program finishes has a script, the same for all debuggers
but for their words. If the loops of the pattern are well nested, the script
drives the levels of each vector exactly if the loops lead back to the levels
that they begin with (`finished_scripts`). `risingLoop` is a program whose loop
does not: the pin that it drives high is low before it, so the script does not
set it at the beginning of the loop, and the second time it is still high.
-/

namespace TestProgram

open CommandScript

/-- The debuggers are given the same script, each in its own words. -/
theorem Platform.patternLines_script {p : Pattern} {script : List Command} (h : commands p none p.items = .ok script) :
    Platform.jlink.patternLines p = .ok (script.map (Command.text .jlink)) ∧
      Platform.bdm.patternLines p = .ok (script.map (Command.text .bdm)) := by
  rw [patternLines, patternLines, lines, lines, h]
  exact ⟨rfl, rfl⟩

namespace Sequencer

open Operation

/-- Whatever a program does and wherever it closes a pattern, the pattern has a
script with a sleep for every vector. If its loops are well nested, the pins are
in the recorded states whenever the script holds a vector, exactly if each loop
returns to the levels that the first vector of its body relies on. -/
theorem finished_scripts (name : String) {pins : Pinout} (hpins : pins.names.Nodup) (config : Config)
    (ops : List Operation) :
    ∀ e ∈ (performAll ops (new name pins config)).1, ∀ platforms, e.operation = .finish platforms →
      ∃ p texts script, e.answer = .ok (.finished p texts) ∧
        Platform.jlink.patternLines p = .ok (script.map (Command.text .jlink)) ∧
        Platform.bdm.patternLines p = .ok (script.map (Command.text .bdm)) ∧
        (actions p.vectors script).filterMap Action.held? = p.vectors ∧
        (WellNested p.items → ∀ σ, Faithful p.pins σ (unroll [] [] (actions p.vectors script)) ↔
          LoopsReturn p.pins none p.items) := by
  intro e he platforms hfinish
  obtain ⟨c, texts, htimed, hnames, hanswer, -⟩ := timed_of_finish name pins config ops e he platforms hfinish
  obtain ⟨script, hscript⟩ := exists_commands none htimed.exists_period
  obtain ⟨hjlink, hbdm⟩ := Platform.patternLines_script hscript
  have hactions : actions c.pattern.vectors script = itemActions c.pattern.pins none c.pattern.items :=
    actions_commands hscript
  refine ⟨c.pattern, texts, script, hanswer, hjlink, hbdm, ?_, fun hnested σ => ?_⟩
  · rw [hactions]
    exact held_itemActions _ _ _
  · have hdistinct : c.pattern.pins.Nodup := by
      show c.pins.names.Nodup
      rwa [hnames]
    rw [hactions]
    exact faithful_iff hdistinct hnested σ

def onePin : Pinout := ⟨[⟨"a", .dontCare, 0⟩]⟩

/-- A vector that holds one pin for a cycle. -/
def levelRecord (s : PinState) (start : Nat) : VectorRecord := ⟨[s], 1, "tp", none, false, none, 1, start⟩

/-- A loop that drives a low pin high, and low again before it ends. -/
def pulseLoop : List Operation :=
  [.setTimeset "tp" (some ⟨40000⟩), .setPin "a" .drive0, .hold none none,
    .scope (.loop "l" 2) [.hold none none, .setPin "a" .drive1, .hold none none, .setPin "a" .drive0, .hold none none],
    .finish []]

def pulseBody : List Item :=
  [.vector (levelRecord .drive0 1), .vector (levelRecord .drive1 2), .vector (levelRecord .drive0 3)]

def pulseItems : List Item := .vector (levelRecord .drive0 0) :: .loopStart "l" 2 :: (pulseBody ++ [.loopEnd "l"])

theorem pulseItems_return : LoopsReturn onePin.names none pulseItems := by
  refine .vector _ (.loop "l" (Nat.le_refl 2) (fun r hr _ => ?_) (.vector _ (.vector _ (.vector _ (.nil _)))) (.nil _))
  obtain rfl := Option.some.inj hr
  decide

theorem pulseLoop_faithful : onePin.names.Nodup ∧
    ∃ e ∈ (performAll pulseLoop (new "pulse" onePin (.standard .jlink))).1, ∃ p texts script,
      e.answer = .ok (.finished p texts) ∧ Platform.jlink.patternLines p = .ok (script.map (Command.text .jlink)) ∧
        p.items = pulseItems ∧ ∀ σ, Faithful p.pins σ (unroll [] [] (actions p.vectors script)) := by
  have hnodup : onePin.names.Nodup := by decide
  have hclosed : (performAll pulseLoop (new "pulse" onePin (.standard .jlink))).1.any
      (fun e => e.operation.closes) = true := by decide +kernel
  have hitems : (performAll pulseLoop (new "pulse" onePin (.standard .jlink))).1.all (fun e => e.pattern?.all fun p =>
      decide (p.items = pulseItems ∧ p.pins = onePin.names)) = true := by decide +kernel
  obtain ⟨e, he, hcloses⟩ := List.any_eq_true.mp hclosed
  obtain ⟨platforms, hfinish⟩ := eq_finish_of_closes hcloses
  obtain ⟨p, texts, script, hanswer, hjlink, -, -, hfaithful⟩ := finished_scripts _ hnodup _ _ e he platforms hfinish
  obtain ⟨hitems, hpins⟩ := of_decide_eq_true (LogEntry.of_all_pattern? hitems he hanswer)
  refine ⟨hnodup, e, he, p, texts, script, hanswer, hjlink, hitems, fun σ => ?_⟩
  refine (hfaithful ?_ σ).mpr ?_
  · rw [hitems]
    exact pulseItems_return.wellNested
  · rw [hitems, hpins]
    exact pulseItems_return

/-- A loop that drives a low pin high. -/
def risingLoop : List LogEntry :=
  (performAll [.setTimeset "tp" (some ⟨40000⟩), .setPin "a" .drive0, .hold none none,
    .scope (.loop "l" 2) [.hold none none, .setPin "a" .drive1, .hold none none], .finish [.jlink, .bdm]]
    (new "rising" onePin (.standard .jlink))).1

/-- The second time the loop begins, the pin is still high. -/
def risingActions : List Action :=
  let body : List Action := [.hold (levelRecord .drive0 1), .set [("a", .drive1)], .hold (levelRecord .drive1 2)]
  [.set [("a", .drive0)], .hold (levelRecord .drive0 0)] ++ body ++ body

theorem risingActions_unfaithful (σ : Levels) : ¬ Faithful onePin.names σ risingActions := by
  rintro ⟨-, -, -, hsecond, -⟩
  have hlow : PinState.drive1 = .drive0 := hsecond ("a", .drive0) List.mem_cons_self (.inl rfl)
  cases hlow

theorem risingLoop_unfaithful : ∃ e ∈ risingLoop, ∃ p texts script, e.answer = .ok (.finished p texts) ∧
    Platform.jlink.patternLines p = .ok (script.map (Command.text .jlink)) ∧
    Platform.bdm.patternLines p = .ok (script.map (Command.text .bdm)) ∧
    ∀ σ, ¬ Faithful p.pins σ (unroll [] [] (actions p.vectors script)) := by
  have hany : risingLoop.any (fun e => e.pattern?.any fun p => (commands p none p.items).toOption.any fun script =>
      decide (p.pins = onePin.names ∧ unroll [] [] (actions p.vectors script) = risingActions)) = true := by
    decide +kernel
  obtain ⟨e, he, p, texts, hanswer, h⟩ := LogEntry.exists_of_any_pattern? hany
  cases hscript : commands p none p.items with
  | error fault =>
    rw [hscript] at h
    cases h
  | ok script =>
    rw [hscript] at h
    obtain ⟨hpins, hactions⟩ := of_decide_eq_true h
    obtain ⟨hjlink, hbdm⟩ := Platform.patternLines_script hscript
    refine ⟨e, he, p, texts, script, hanswer, hjlink, hbdm, fun σ => ?_⟩
    rw [hpins, hactions]
    exact risingActions_unfaithful σ

end Sequencer

end TestProgram
