import TestProgram.Proofs.Pattern.Loops
import TestProgram.Proofs.Sequencer.Scopes

/-!
# Loops of a program

The hardware loops of a program leave their two ends in the pattern, and a loop
factor with the sequencer by which the cycles executed are counted. The two are
kept apart: a loop without an end of its own, because nothing is recorded in
it, has its factor all the same. `InLoops` says how they agree. Every operation
keeps it for the same open loops (`sameLoops_kept`), unless it closes the
pattern, so a pattern that is closed outside of all scopes is well nested and
its cycles are those that its loops say (`finished_loops`).
-/

namespace TestProgram

namespace Sequencer

/-- The items have left `loops` open. The loop factor is theirs where vectors
are recorded, and the cycles executed are those of the items, as far as they
fit a word. -/
structure InLoops (loops : List (String × Nat)) (c : Sequencer) : Prop where
  openLoops : openLoops [] c.items = some loops
  loopFactor : c.inhibitVectors = 0 → c.loopFactor = Word.clamp (loopProduct loops)
  executed : c.executed = Word.clamp (executions [] c.items)

namespace InLoops

variable {loops loops' : List (String × Nat)} {c c' : Sequencer}

/-- What the open loops and the cycles depend on. -/
theorem frame (h : InLoops loops c) (hitems : c'.items = c.items) (hx : c'.executed = c.executed)
    (hf : c'.inhibitVectors = 0 → c'.loopFactor = Word.clamp (loopProduct loops)) : InLoops loops c' :=
  ⟨hitems ▸ h.openLoops, hf, by rw [hx, hitems, h.executed]⟩

/-- One more item that is no vector. -/
theorem push (h : InLoops loops c) {i : Item} (hi : i.loops? loops = some loops') (hv : i.isVector = false)
    (hitems : c'.items = c.items ++ [i]) (hx : c'.executed = c.executed)
    (hf : c'.inhibitVectors = 0 → c'.loopFactor = Word.clamp (loopProduct loops')) : InLoops loops' c' := by
  have hnone : executions loops [i] = 0 := by
    cases i with
    | vector r => exact nomatch hv
    | comment text => rfl
    | loopStart label count => rfl
    | loopEnd label => rfl
  refine ⟨?_, hf, ?_⟩
  · rw [hitems, openLoops_append_of_eq h.openLoops, TestProgram.openLoops, hi]
    rfl
  · rw [hx, hitems, executions_append _ h.openLoops, hnone, Nat.add_zero]
    exact h.executed

end InLoops

theorem items_push (c : Sequencer) (i : Item) : (c.withTape (c.bench.tape.push i)).items = c.items ++ [i] :=
  List.reverse_cons

theorem Step.inLoops {loops : List (String × Nat)} {c c' : Sequencer} (hstep : Step c c') (h : InLoops loops c) :
    InLoops loops c' := by
  have hfactor : c'.inhibitVectors = 0 → c'.loopFactor = Word.clamp (loopProduct loops) := fun hi => by
    rw [hstep.steady.loopFactor]
    exact h.loopFactor (hstep.steady.inhibitVectors ▸ hi)
  cases hstep with
  | quiet hs hx hu ht =>
    have hitems : c'.items = c.items := congrArg Tape.items ht
    exact h.frame hitems hx hfactor
  | comment text hs hx hu ht =>
    have hitems : c'.items = c.items ++ [.comment text] := (congrArg Tape.items ht).trans (c.items_push _)
    exact h.push rfl rfl hitems hx hfactor
  | store hs hx hu ht =>
    obtain ⟨-, -, before, r, after, hold, hnew, -⟩ := Tape.items_markStore ht
    have hopen := h.openLoops
    have hexecuted := h.executed
    rw [items, hold] at hopen hexecuted
    refine ⟨?_, hfactor, ?_⟩
    · rw [items, hnew, openLoops_parts (r := r)]
      exact hopen
    · rw [items, hnew, executions_parts hopen (Tape.totalCount_storedParts r), hx]
      exact hexecuted
  | @emit timeset t n call hs hi hn hr hx hu ht hb =>
    obtain ⟨-, -, htape⟩ := Bench.hold_eq_ok hb
    have hcycle := Bench.cycle_of_hold hb
    rw [htape] at hcycle
    generalize Moment.records _ _ _ _ _ = new at htape hcycle
    have hcount : totalCount new = n := Nat.add_left_cancel hcycle
    have hitems : c'.items = c.items ++ new.map Item.vector := by
      rw [items, htape, Tape.items_append]
      rfl
    refine ⟨?_, hfactor, ?_⟩
    · rw [hitems, openLoops_append_of_eq h.openLoops, openLoops_vectors]
    · rw [hx, h.loopFactor hi, h.executed, Word.mul_clamp, Word.add_clamp, hitems,
        executions_append _ h.openLoops, executions_vectors, hcount]

/-! ## Scopes -/

/-- `c'` has what scopes set from `c`, and the same loops open. -/
structure SameLoops (c c' : Sequencer) : Prop where
  steady : Steady c c'
  inLoops : ∀ {loops : List (String × Nat)}, InLoops loops c → InLoops loops c'

section

variable {β : Type} {body : Sequencer → β × Sequencer}

/-- A loop that is recorded is open in its body, and has an end after it. Where
no vectors are recorded, none is open. -/
theorem leaveLoop_inLoops (hbody : ∀ c, SameLoops c (body c).2) (c : Sequencer) (label : String) {count : Nat}
    (hcount : 2 ≤ count) {loops : List (String × Nat)} (h : InLoops loops c) :
    InLoops loops (c.leaveLoop label (body (c.enterLoop label count)).2) := by
  by_cases hi : c.inhibitVectors = 0
  · have henter : InLoops ((label, count) :: loops) (c.enterLoop label count) := by
      rw [enterLoop, if_pos hi]
      refine h.push (i := .loopStart label count) (if_pos hcount) rfl (c.items_push _) rfl fun _ => ?_
      show Word.mul c.loopFactor count = _
      rw [h.loopFactor hi, Word.mul_comm, Word.mul_clamp, Nat.mul_comm]
      rfl
    have hdone := (hbody (c.enterLoop label count)).inLoops henter
    generalize (body (c.enterLoop label count)).2 = c' at hdone ⊢
    rw [leaveLoop, if_pos hi]
    exact hdone.push (i := .loopEnd label) (if_pos rfl) rfl (items_push _ _) rfl fun _ => h.loopFactor hi
  · have henter : InLoops loops (c.enterLoop label count) := by
      rw [enterLoop, if_neg hi]
      exact h.frame rfl rfl fun hi' => absurd hi' hi
    have hdone := hbody (c.enterLoop label count)
    rw [leaveLoop, if_neg hi]
    refine (hdone.inLoops henter).frame rfl rfl fun hi' => absurd ?_ hi
    rw [← hi', hdone.steady.inhibitVectors, enterLoop, if_neg hi]

theorem within_sameLoops (hbody : ∀ c, SameLoops c (body c).2) (c : Sequencer) (s : Scope) :
    SameLoops c (c.within s body).2 := by
  have hsteady := within_steady (fun c => (hbody c).steady) c s
  refine ⟨hsteady, fun {loops} h => ?_⟩
  -- the items are those of the body, and the factor is the one before
  have restored {c₁ : Sequencer} (h₁ : InLoops loops c₁) (hitems : (c.within s body).2.items = (body c₁).2.items)
      (hx : (c.within s body).2.executed = (body c₁).2.executed) : InLoops loops (c.within s body).2 :=
    ((hbody c₁).inLoops h₁).frame hitems hx fun hi => by
      rw [hsteady.loopFactor]
      exact h.loopFactor (hsteady.inhibitVectors ▸ hi)
  have htouch : InLoops loops c.touch := h.frame rfl rfl h.loopFactor
  cases s with
  | timeset name period =>
    have hset := ((c.setTimeset_settles name period).step trivial (c.setTimeset_account name period)).inLoops h
    cases hopen : c.setTimeset name period with
    | mk r c₁ =>
      rw [hopen] at hset
      cases r with
      | error e =>
        rw [within, withTimeset, hopen]
        exact hset
      | ok u => exact restored hset (by rw [within, withTimeset, hopen]; rfl) (by rw [within, withTimeset, hopen])
  | loop label count =>
    obtain rfl | rfl | hcount : count = 0 ∨ count = 1 ∨ 2 ≤ count := by omega
    · exact htouch
    · exact (hbody c.touch).inLoops htouch
    · rw [within, loop_snd c label hcount]
      exact leaveLoop_inLoops hbody _ label hcount ((c.beforeLoop_step label).inLoops h)
  | ignoreFails pins =>
    cases hids : c.touch.pins.ids pins with
    | error e =>
      rw [within, ignoreFails, hids]
      exact htouch
    | ok ids =>
      have hmasked : InLoops loops (c.touch.withPins (ids.foldl Pinout.mask c.touch.pins)) :=
        h.frame rfl rfl h.loopFactor
      exact restored hmasked (by rw [within, ignoreFails, hids]; rfl) (by rw [within, ignoreFails, hids]; rfl)
  | withoutVectors =>
    have hinhibited : InLoops loops { c.touch with inhibitVectors := c.touch.inhibitVectors + 1 } :=
      h.frame rfl rfl fun hi => absurd hi (Nat.succ_ne_zero _)
    exact restored hinhibited rfl rfl
  | withoutComments =>
    have hinhibited : InLoops loops { c.touch with inhibitComments := c.touch.inhibitComments + 1 } :=
      h.frame rfl rfl h.loopFactor
    exact restored hinhibited rfl rfl

end

/-- Whatever does not close the pattern closes the loops that it opens. -/
theorem sameLoops_kept : Kept (fun op => op.closes = false) SameLoops where
  refl c := ⟨.refl c, id⟩
  trans h h' := ⟨h.steady.trans h'.steady, fun hc => h'.inLoops (h.inLoops hc)⟩
  leaf c hop hcloses :=
    have hsteps := Operation.perform_steps c hop hcloses
    ⟨hsteps.steady, fun hc => hsteps.keep (fun hstep => hstep.inLoops) hc⟩
  scope s c hbody := within_sameLoops hbody c s

end Sequencer

/-! ## Finished patterns -/

/-- The loops are well nested, and the cycles executed are theirs. -/
def Pattern.Accounted (p : Pattern) : Prop :=
  WellNested p.items ∧ p.executed = min Word.largest (executions [] p.items)

theorem Sequencer.accounted_finish {c : Sequencer} (h : InLoops [] c) : c.finish.1.Accounted :=
  ⟨wellNested_iff.mpr h.openLoops, h.executed.trans (Nat.min_comm _ _)⟩

namespace Operation

open Sequencer

/-- The pattern is closed outside of scopes only. -/
inductive ClosesOutside : Operation → Prop where
  | leaf {op : Operation} (hop : op.isLeaf = true) : ClosesOutside op
  | scope {s : Scope} {body : List Operation} (h : ∀ op ∈ body, op.All fun op => op.closes = false) :
      ClosesOutside (.scope s body)
  | block {body : List Operation} (h : ∀ op ∈ body, ClosesOutside op) : ClosesOutside (.block body)
  | attempt {body : List Operation} (h : ∀ op ∈ body, ClosesOutside op) : ClosesOutside (.attempt body)

namespace ClosesOutside

/-- Outside of scopes no loop is open, whether the pattern is closed there or
not. -/
theorem inLoops {op : Operation} (hop : op.ClosesOutside) (c : Sequencer) (h : InLoops [] c) :
    InLoops [] (op.perform c).after := by
  induction hop generalizing c with
  | @leaf op hop =>
    cases hcloses : op.closes with
    | false => exact (sameLoops_kept.leaf c hop hcloses).inLoops h
    | true =>
      obtain ⟨platforms, rfl⟩ := eq_finish_of_closes hcloses
      exact ⟨rfl, h.loopFactor, rfl⟩
  | scope hbody => exact (sameLoops_kept.perform (.scope hbody) c).inLoops h
  | block _ ih | attempt _ ih => exact (performBody_keep ih h).1

theorem accounted_of_mem_log {op : Operation} (hop : op.ClosesOutside) (c : Sequencer) (h : InLoops [] c) :
    ∀ e ∈ (op.perform c).log, ∀ platforms, e.operation = .finish platforms →
      ∃ p texts, e.answer = .ok (.finished p texts) ∧ p.Accounted := by
  intro e he platforms hfinish
  induction hop generalizing c with
  | leaf hop =>
    rw [log_of_leaf c hop] at he
    obtain rfl := List.mem_singleton.mp he
    obtain rfl : _ = Operation.finish platforms := hfinish
    exact ⟨c.finish.1, _, rfl, accounted_finish h⟩
  | scope hbody =>
    -- nothing in a scope closes the pattern
    have hall := all_of_mem_log (.scope hbody) c e he
    rw [hfinish] at hall
    cases hall with
    | leaf _ hcloses => exact nomatch hcloses
  | block hbody ih =>
    rcases mem_log_block (.inl rfl) he with he | rfl
    · obtain ⟨op, hop, c', hc', he⟩ := (performBody_keep (fun op hop => (hbody op hop).inLoops) h).2 e he
      exact ih op hop c' hc' he
    · exact nomatch hfinish
  | attempt hbody ih =>
    rcases mem_log_block (.inr rfl) he with he | rfl
    · obtain ⟨op, hop, c', hc', he⟩ := (performBody_keep (fun op hop => (hbody op hop).inLoops) h).2 e he
      exact ih op hop c' hc' he
    · exact nomatch hfinish

end ClosesOutside

end Operation

namespace Sequencer

open Operation

theorem new_inLoops (name : String) (pins : Pinout) (config : Config) : InLoops [] (new name pins config) :=
  ⟨rfl, fun _ => rfl, rfl⟩

/-- In a program that closes its patterns outside of scopes only, wherever its
operations fail, each finished pattern has well-nested loops, and the cycles
executed are those of its records, each as often as the loops around it run, as
far as they fit a word. -/
theorem finished_loops (name : String) (pins : Pinout) (config : Config) {ops : List Operation}
    (hops : ∀ op ∈ ops, op.ClosesOutside) :
    ∀ e ∈ (performAll ops (new name pins config)).1, ∀ platforms, e.operation = .finish platforms →
      ∃ p texts, e.answer = .ok (.finished p texts) ∧ WellNested p.items ∧
        p.executed = min Word.largest (executions [] p.items) := by
  intro e he platforms hfinish
  obtain ⟨op, hop, c, hc, he⟩ :=
    (performAll_keep (fun op hop => (hops op hop).inLoops) (new_inLoops name pins config)).2 e he
  exact (hops op hop).accounted_of_mem_log c hc e he platforms hfinish

/-- A loop that fails within another one, and a store mark on a record in it. -/
def loopedProgram : List Operation :=
  [.setTimeset "tp" (some ⟨40000⟩),
    .scope (.loop "outer" 3) [.hold (some 2) none,
      .attempt [.scope (.loop "inner" 4) [.hold (some 5) none, .setPin "missing" .drive1]], .store 1],
    .finish []]

def loopedLog : List LogEntry := (performAll loopedProgram (new "looped" ⟨[⟨"a", .drive0, 0⟩]⟩ (.standard .v93k))).1

theorem looped_finished_loops : (∀ op ∈ loopedProgram, op.ClosesOutside) ∧
    ∃ e ∈ loopedLog, ∃ p texts, e.answer = .ok (.finished p texts) ∧ WellNested p.items ∧
      p.executed = min Word.largest (executions [] p.items) ∧ p.executed = 66 := by
  have hinner : ∀ op ∈ ([.hold (some 5) none, .setPin "missing" .drive1] : List Operation),
      op.All fun op => op.closes = false :=
    List.forall_mem_cons.mpr ⟨.leaf rfl rfl, List.forall_mem_singleton.mpr (.leaf rfl rfl)⟩
  have hops : ∀ op ∈ loopedProgram, op.ClosesOutside :=
    List.forall_mem_cons.mpr ⟨.leaf rfl, List.forall_mem_cons.mpr ⟨.scope
      (List.forall_mem_cons.mpr ⟨.leaf rfl rfl, List.forall_mem_cons.mpr
        ⟨.attempt (List.forall_mem_singleton.mpr (.scope hinner)), List.forall_mem_singleton.mpr (.leaf rfl rfl)⟩⟩),
      List.forall_mem_singleton.mpr (.leaf rfl)⟩⟩
  have hclosed : loopedLog.any (fun e => e.operation.closes) = true := by decide +kernel
  have hexecuted : loopedLog.all (fun e => e.pattern?.all fun p => p.executed == 66) = true := by decide +kernel
  obtain ⟨e, he, hcloses⟩ := List.any_eq_true.mp hclosed
  obtain ⟨platforms, hfinish⟩ := eq_finish_of_closes hcloses
  obtain ⟨p, texts, hanswer, hnested, hcycles⟩ := finished_loops _ _ _ hops e he platforms hfinish
  have hcount := LogEntry.of_all_pattern? hexecuted he hanswer
  exact ⟨hops, e, he, p, texts, hanswer, hnested, hcycles, of_decide_eq_true hcount⟩

end Sequencer

end TestProgram
