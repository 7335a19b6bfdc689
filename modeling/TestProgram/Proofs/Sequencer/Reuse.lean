import TestProgram.Proofs.Sequencer.Scopes
import TestProgram.Proofs.Sequencer.Tiling

/-!
# Sequencers that are used again

A sequencer whose pattern is finished outside all scopes is a new one with the
pins and the timesets of the old, but for the size of its vector groups: that is
the last one set, not the one new sequencers are configured with. So it goes on
as a new one would exactly if these are the same (`reused_iff`). A single vector
shows any difference, by the warning that its cycle was rounded up to a group.
-/

namespace TestProgram

/-- The size of vector groups after a step, from the one before. -/
def LogEntry.groupAfter (group : Nat) (e : LogEntry) : Nat :=
  match e.operation, e.answer with
  | .setGroup size, .ok _ => size
  | _, _ => group

namespace Operation

/-- The answers to operations that are carried out one after the other. -/
def answers (ops : List Operation) (c : Sequencer) : List (Except Fault Answer) :=
  (performAll ops c).1.map LogEntry.answer

theorem performAll_append (ops ops' : List Operation) (c : Sequencer) :
    performAll (ops ++ ops') c =
      ((performAll ops c).1 ++ (performAll ops' (performAll ops c).2).1, (performAll ops' (performAll ops c).2).2) := by
  induction ops generalizing c with
  | nil => rfl
  | cons op ops ih => rw [List.cons_append, performAll, performAll, ih, List.append_assoc]

end Operation

namespace Sequencer

open Operation

/-! ## The size of vector groups -/

theorem Moves.group_eq {A : Act → Prop} (hA : ¬ A .group) {c c' : Sequencer} (h : Moves A c c') : c'.group = c.group := by
  refine h.keep (P := fun c' => c'.group = c.group) (fun ha hm hc => Eq.trans ?_ hc) rfl
  cases hm with
  | group hpos hg hb hcfg =>
    rcases ha with ha | ha
    · cases ha
    · exact absurd ha hA
  | note h | setPin s hi h | mask ids h | unmask ids h | enable hi he h | start hi hg hs h | stop hi hs h
  | pause hi hp h | resume hi hr h | emit hi hb h | store ht h | item i hi h | finish h => exact h.group

theorem setGroup_group (c : Sequencer) (size : Nat) :
    (c.setGroup size).2.group = match (c.setGroup size).1 with | .ok _ => size | .error _ => c.group := by
  unfold setGroup
  split
  · rfl
  · dsimp only
    cases c.touch.checkGroups size c.touch.clocks.runningPins <;> rfl

theorem perform_group (c : Sequencer) {op : Operation} (hop : op.isLeaf = true) :
    (op.perform c).after.group = LogEntry.groupAfter c.group ⟨op, (op.perform c).answer, (op.perform c).after⟩ := by
  cases op with
  | setGroup size =>
    show (c.setGroup size).2.group =
      LogEntry.groupAfter c.group ⟨_, (c.setGroup size).1.map fun _ => .done, (c.setGroup size).2⟩
    rw [setGroup_group]
    cases (c.setGroup size).1 <;> rfl
  | threads ts =>
    refine (Moves.group_eq ?_ (perform_does c hop)).trans rfl
    rintro (h | ⟨_, _, _, _, _, h⟩) <;> cases h
  | scope s body | block body | attempt body => cases hop
  | _ => exact (Moves.group_eq (fun h => by cases h) (perform_does c hop)).trans rfl

theorem Path.group_eq {c c' : Sequencer} {log : List LogEntry} (h : Path c log c') :
    c'.group = log.foldl LogEntry.groupAfter c.group := by
  induction h with
  | done => rfl
  | leaf hop _ ih => rw [ih, perform_group _ hop, List.foldl_cons]
  | turn ht _ ih => rw [ih, ht.moves.group_eq fun ha => by rcases ha with ha | ha <;> cases ha]
  | @closed c c' op answer log hop _ ih =>
    rw [ih, List.foldl_cons]
    cases op with
    | scope s body | block body | attempt body => rfl
    | _ => cases hop

/-! ## What is left of a finished pattern -/

/-- Outside all scopes a sequencer that closes its pattern is a new one, but for
pins, timesets and vector groups. -/
theorem finish_performAll (name : String) (pins : Pinout) (config : Config) (ops : List Operation) :
    let c := (performAll ops (new name pins config)).2
    c.finish.2 = { new name c.pins config with timing := c.timing, group := c.group } := by
  have hpath := path_performAll ops (new name pins config)
  have hname := hpath.name_eq
  have hconfig := (hpath.keep (P := fun c => c.config = config) (fun hm hc => hm.config.trans hc) rfl).2
  have hsteady : Steady (new name pins config) (performAll ops (new name pins config)).2 :=
    (performAll_keep (I := Steady (new name pins config)) (fun op _ _ hc => hc.trans (op.steady_perform _))
      (.refl _)).1
  obtain ⟨-, hvectors, hcomments, hfactor, -⟩ := hsteady
  generalize (performAll ops (new name pins config)).2 = c at hname hconfig hvectors hcomments hfactor
  obtain ⟨_, _, _, _, _, _, _, _, _, _, _, _, _, _, _, _⟩ := c
  cases hname
  cases hconfig
  cases hvectors
  cases hcomments
  cases hfactor
  rfl

/-! ## What a vector shows of vector groups -/

theorem emit_warnings (c : Sequencer) (count : Nat) (timeset call : Option String) :
    (c.emit count timeset call).2.warnings = c.warnings := by
  have huse (t : Timeset) : (c.touch.use t.name).warnings = c.warnings := by
    unfold use
    split <;> rfl
  unfold emit
  dsimp only
  split
  · rfl
  · rename_i t _
    split
    · rfl
    · cases (c.touch.use t.name).bench.hold t count ⟨_, _, call, _⟩ with
      | error e => exact huse t
      | ok b => exact huse t

/-- The warnings about a single vector, in vector groups of some size. -/
def vectorWarnings (group : Nat) : List Warning := if group ≤ 1 then [] else [.repeatRounded 1 group group]

theorem vectorWarnings_inj {g g' : Nat} (hg : 0 < g) (hg' : 0 < g') (h : vectorWarnings g = vectorWarnings g') :
    g = g' := by
  unfold vectorWarnings at h
  split at h <;> split at h
  · omega
  · cases h
  · cases h
  · cases h
    rfl

theorem hold_warnings {c : Sequencer} (timeset : Option String) :
    (c.hold none timeset).2.warnings = c.warnings ++ vectorWarnings c.group := by
  have halign : (c.align 1).2.warnings = c.warnings ++ vectorWarnings c.group := by
    unfold align vectorWarnings
    split
    · rename_i h
      have hle : c.group ≤ 1 := by
        rcases h with h | h
        · exact h
        · by_contra hlt
          rw [Nat.mod_eq_of_lt (Nat.lt_of_not_le hlt)] at h
          cases h
      rw [if_pos hle, List.append_nil]
    · rename_i h
      have hlt : ¬ c.group ≤ 1 := fun hle => h (.inl hle)
      have hone : Word.ceilDiv 1 c.group = 1 := by
        rw [Word.ceilDiv, Nat.div_eq_of_lt (Nat.lt_of_not_le hlt), Nat.mod_eq_of_lt (Nat.lt_of_not_le hlt)]
        rfl
      rw [if_neg hlt, hone, Nat.one_mul]
      rfl
  exact (emit_warnings _ _ _ _).trans halign

/-- The answers to a single vector and the end of its pattern tell the size of
vector groups. -/
theorem group_eq_of_answers {c c' : Sequencer} (hc : 0 < c.group) (hc' : 0 < c'.group) (hwarnings : c.warnings = c'.warnings)
    (h : answers [.hold none none, .finish []] c = answers [.hold none none, .finish []] c') : c.group = c'.group := by
  have hplain (c : Sequencer) : answers [.hold none none, .finish []] c =
      [(c.hold none none).1.map fun _ => .done, .ok (.finished (c.hold none none).2.pattern [])] := rfl
  rw [hplain, hplain] at h
  have hpattern := (List.cons.inj (List.cons.inj h).2).1
  injection hpattern with hpattern
  injection hpattern with hpattern
  have hall : (c.hold none none).2.warnings = (c'.hold none none).2.warnings := congrArg Pattern.warnings hpattern
  rw [hold_warnings, hold_warnings, hwarnings] at hall
  exact vectorWarnings_inj hc hc' (List.append_cancel_left hall)

/-- A sequencer whose pattern is finished outside all scopes is a new one with
the same name, settings, pins and timesets, in vector groups of the size that
was set last, or else is configured. Whatever further programs answer on it is
what they answer on the new one, if and only if the two have vector groups of
the same size. -/
theorem reused_iff (name : String) (pins : Pinout) (config : Config) (ops : List Operation) (platforms : List Platform) :
    let before := performAll (ops ++ [.finish platforms]) (new name pins config)
    let reused := before.2
    let fresh := { new name reused.pins config with timing := reused.timing }
    reused = { fresh with group := before.1.foldl LogEntry.groupAfter fresh.group } ∧
      ((∀ rest platforms, answers (rest ++ [.finish platforms]) reused = answers (rest ++ [.finish platforms]) fresh) ↔
        reused.group = fresh.group) := by
  intro before reused fresh
  have hgroup : reused.group = before.1.foldl LogEntry.groupAfter fresh.group := (path_performAll _ _).group_eq
  have hreused : reused = { fresh with group := reused.group } := by
    have hlast : reused = (performAll ops (new name pins config)).2.finish.2 := by
      show (performAll (ops ++ [.finish platforms]) (new name pins config)).2 = _
      rw [performAll_append]
      rfl
    show reused = { new name reused.pins config with timing := reused.timing, group := reused.group }
    rw [hlast]
    exact finish_performAll name pins config ops
  refine ⟨by rw [← hgroup]; exact hreused, fun h => ?_, fun h rest platforms => ?_⟩
  · have hpos : 0 < reused.group := (Reachable.performAll (ops ++ [.finish platforms])).group_pos
    have hwarnings : reused.warnings = fresh.warnings := by rw [hreused]
    exact group_eq_of_answers hpos (Nat.lt_of_lt_of_le Nat.one_pos (Nat.le_max_right _ _)) hwarnings
      (h [.hold none none] [])
  · rw [hreused, h]

/-- The cycles of the pattern that was finished, if one was. -/
def finishedCycles : Except Fault Answer → Nat
  | .ok (.finished p _) => p.cycles
  | _ => 0

/-- Vector groups of two are left for the next pattern, whose only vector then
takes two cycles instead of one. -/
theorem not_forall_reused_fresh : ¬ ∀ ops platforms rest platforms',
    let reused := (performAll (ops ++ [.finish platforms]) (new "reused" twoPins (.standard .v93k))).2
    answers (rest ++ [.finish platforms']) reused = answers (rest ++ [.finish platforms'])
      { new "reused" reused.pins (.standard .v93k) with timing := reused.timing } := by
  intro hall
  have hanswers := hall [.setTimeset "tp" (some ⟨40000⟩), .setGroup 2] [] [.hold none none] []
  have hcycles := congrArg (List.map finishedCycles) hanswers
  exact absurd hcycles (by decide +kernel)

end Sequencer

end TestProgram
