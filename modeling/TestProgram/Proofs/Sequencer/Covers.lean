import TestProgram.Proofs.Bench.Veils
import TestProgram.Proofs.Sequencer.Scopes

/-!
# The scopes around a step

Some scopes only hide something: those that mask pins, and those that record no
comments. A `Cover` is what the scopes around a step hide, and a log can be told
together with it (`coveredLog`). From such a log it is known what is hidden of the
tape (`Veil.steps`): the cycles that a step adds are hidden on the pins that are masked
around it, and the comment that it writes is dropped if there is a scope around it
that records none.
-/

namespace TestProgram

/-- What the scopes around an operation hide. -/
structure Cover where
  /-- The pins that they mask, each as often as it is named. -/
  ids : List PinId
  /-- How many of them record no comments. -/
  quiets : Nat

/-- Whether a scope hides something. -/
def Scope.hides : Scope → Bool
  | .ignoreFails _ | .withoutComments => true
  | _ => false

namespace Cover

/-- No scopes. -/
def bare : Cover := ⟨[], 0⟩

/-- One more scope. -/
def within (w : Cover) (pins : Pinout) : Scope → Cover
  | .ignoreFails names => { w with ids := w.ids ++ names.filterMap pins.id? }
  | .withoutComments => { w with quiets := w.quiets + 1 }
  | _ => w

theorem within_of_not_hides {w : Cover} {pins : Pinout} : ∀ {s : Scope}, s.hides = false → w.within pins s = w
  | .timeset _ _, _ | .loop _ _, _ | .withoutVectors, _ => rfl

end Cover

namespace Operation

mutual

/-- The log of an operation, with what the scopes around each step hide. -/
def coveredLog (w : Cover) : Operation → Sequencer → List (Cover × LogEntry)
  | .scope s body, c =>
    (match c.opened s with
      | .ok c₁ => coveredBody (w.within c.pins s) body c₁
      | .error _ => []) ++ [(w, (Operation.scope s body).entry c)]
  | .block body, c => coveredBody w body c ++ [(w, (Operation.block body).entry c)]
  | .attempt body, c => coveredBody w body c ++ [(w, (Operation.attempt body).entry c)]
  | op, c => [(w, op.entry c)]

def coveredBody (w : Cover) : List Operation → Sequencer → List (Cover × LogEntry)
  | [], _ => []
  | op :: ops, c =>
    coveredLog w op c ++
      match (op.perform c).answer with
      | .ok _ => coveredBody w ops (op.perform c).after
      | .error _ => []

end

def coveredAll (w : Cover) : List Operation → Sequencer → List (Cover × LogEntry)
  | [], _ => []
  | op :: ops, c => coveredLog w op c ++ coveredAll w ops (op.perform c).after

end Operation

/-- Whether a step writes a comment, or would do so outside of scopes that record no
comments. -/
def LogEntry.comments (e : LogEntry) : Bool :=
  match e.operation with
  | .comment _ => e.after.inhibitVectors = 0
  | _ => false

theorem LogEntry.comments_congr {e e' : LogEntry} (hop : e.operation = e'.operation)
    (hinhibit : e.after.inhibitVectors = e'.after.inhibitVectors) : e.comments = e'.comments := by
  unfold comments
  rw [hop, hinhibit]

namespace Veil

/-- The veil after one more step. -/
def step (v : Veil) (w : Cover) (e : LogEntry) : Veil :=
  if e.operation.closes then .clear
  else { v.hide w.ids with
    cycle := e.after.cycle
    dropped := if e.comments then decide (0 < w.quiets) :: v.dropped else v.dropped }

/-- The veil after more steps. -/
def steps (v : Veil) (log : List (Cover × LogEntry)) : Veil := log.foldl (fun v x => v.step x.1 x.2) v

/-- What a step hides that does not close the pattern. -/
theorem hidden_step {v : Veil} {w : Cover} {e : LogEntry} (hcloses : e.operation.closes = false) :
    (v.step w e).hidden = (v.hide w.ids).hidden ∧ (v.step w e).cycle = e.after.cycle := by
  rw [step, if_neg (Bool.eq_false_iff.mp hcloses)]
  exact ⟨rfl, rfl⟩

/-- What is hidden in a cycle that is over stays hidden until the pattern is closed. -/
theorem hidden_steps_of_lt {k : Nat} : ∀ {later : List (Cover × LogEntry)} {v : Veil}, k < v.cycle →
    (∀ x ∈ later, x.2.operation.closes = false ∧ k < x.2.after.cycle) → (v.steps later).hidden k = v.hidden k
  | [], _, _, _ => rfl
  | (w, e) :: later, v, hk, hlater => by
    obtain ⟨⟨hcloses, hcycle⟩, hlater⟩ := List.forall_mem_cons.mp hlater
    obtain ⟨hhidden, hnext⟩ := hidden_step (v := v) (w := w) hcloses
    refine (hidden_steps_of_lt (v := v.step w e) (hnext ▸ hcycle) hlater).trans ?_
    rw [hhidden]
    exact if_pos hk

/-- A cycle is hidden on the pins that are masked around the first step after which it
is over. -/
theorem hidden_steps {v : Veil} {w : Cover} {e : LogEntry} {later : List (Cover × LogEntry)} {k : Nat}
    (hk : v.cycle ≤ k) (hlater : ∀ x ∈ (w, e) :: later, x.2.operation.closes = false ∧ k < x.2.after.cycle) :
    (v.steps ((w, e) :: later)).hidden k = w.ids := by
  obtain ⟨⟨hcloses, hcycle⟩, hlater⟩ := List.forall_mem_cons.mp hlater
  obtain ⟨hhidden, hnext⟩ := hidden_step (v := v) (w := w) hcloses
  refine (hidden_steps_of_lt (v := v.step w e) (hnext ▸ hcycle) hlater).trans ?_
  rw [hhidden]
  exact if_neg (Nat.not_lt.mpr hk)

end Veil

/-- The pattern under a veil. -/
def Pattern.veil (p : Pattern) (v : Veil) : Pattern := { p with items := v.items p.items }

/-- The vectors are the same but for the states that the veil hides. -/
theorem Pattern.vectors_veil (p : Pattern) (v : Veil) :
    (p.veil v).vectors = p.vectors.map (Veil.record v.hidden) := by
  rw [vectors, veil, Veil.items, List.filterMap_reverse, Veil.filterMap_recent, List.filterMap_reverse,
    List.map_reverse, List.reverse_reverse, vectors]

/-- An answer as it is under a veil. -/
def Answer.veil (v : Veil) : Answer → Answer
  | .items recorded => .items (v.items recorded)
  | .finished p texts =>
    .finished (p.veil v) (texts.map fun text => (text.1, text.1.render ["of " ++ p.name] (p.veil v)))
  | a => a

namespace Operation

mutual

theorem map_coveredLog (w : Cover) : ∀ (op : Operation) (c : Sequencer),
    (op.coveredLog w c).map Prod.snd = (op.perform c).log
  | .scope s body, c => by
    cases hopen : c.opened s with
    | error e =>
      rw [coveredLog, entry, Sequencer.perform_of_not_opened hopen, hopen]
      rfl
    | ok c₁ =>
      rw [coveredLog, entry, Sequencer.perform_of_opened hopen, hopen, List.map_append, map_coveredBody _ body c₁]
      rfl
  | .block body, c | .attempt body, c => by
    rw [coveredLog, List.map_append, map_coveredBody w body c]
    rfl
  | .setPin _ _, _ | .pinState _, _ | .setTimeset _ _, _ | .addWave _ _ _ _, _ | .enableClock _ _, _
  | .startClock _, _ | .stopClock _, _ | .pauseClock _, _ | .resumeClock _ _, _ | .hold _ _, _ | .delay _, _
  | .wait _, _ | .store _, _ | .label _, _ | .comment _, _ | .call _, _ | .define _, _ | .imported, _
  | .items, _ | .setGroup _, _ | .threads _, _ | .finish _, _ => rfl

theorem map_coveredBody (w : Cover) : ∀ (ops : List Operation) (c : Sequencer),
    (coveredBody w ops c).map Prod.snd = (performBody ops c).log
  | [], _ => rfl
  | op :: ops, c => by
    rw [coveredBody, List.map_append, map_coveredLog w op c, performBody]
    dsimp only
    cases (op.perform c).answer with
    | error e => exact List.append_nil _
    | ok a => exact congrArg _ (map_coveredBody w ops _)

end

theorem map_coveredAll (w : Cover) : ∀ (ops : List Operation) (c : Sequencer),
    (coveredAll w ops c).map Prod.snd = (performAll ops c).1
  | [], _ => rfl
  | op :: ops, c => by
    rw [coveredAll, List.map_append, map_coveredLog, map_coveredAll w ops]
    rfl

end Operation

end TestProgram
