import TestProgram.Proofs.Sequencer.Paths

/-!
# Operations and their bodies

Operations are trees: a scope, a block and an attempt have bodies. `All` is the
induction over them, for operations whose parts without a body satisfy some
condition. What holds between the ends of such parts holds between the ends of
the whole, if it can be chained and scopes pass it on (`Kept.perform`, and
`Logged.perform` for what is about the log besides), and the log of the whole is
about its parts only (`all_of_mem_log`).

A scope begins its body in a state of its own (`opened`), to which neither the
log nor the state after the scope is a witness. An entry of the log tells how
its operation went in some state; whatever operations and the beginnings of
scopes keep holds there (`eq_entry_of_mem_log`).
-/

namespace TestProgram

/-! ## Trees of operations -/

namespace Operation

/-- The operations without a body in an operation, it included, satisfy `P`. -/
inductive All (P : Operation → Prop) : Operation → Prop where
  | leaf {op : Operation} (hop : op.isLeaf = true) (h : P op) : All P op
  | scope {s : Scope} {body : List Operation} (h : ∀ op ∈ body, All P op) : All P (.scope s body)
  | block {body : List Operation} (h : ∀ op ∈ body, All P op) : All P (.block body)
  | attempt {body : List Operation} (h : ∀ op ∈ body, All P op) : All P (.attempt body)

mutual

theorem all_of_forall {P : Operation → Prop} (h : ∀ op, P op) : ∀ op : Operation, op.All P
  | .scope _ body => .scope (all_of_mem h body)
  | .block body => .block (all_of_mem h body)
  | .attempt body => .attempt (all_of_mem h body)
  | .setPin _ _ | .pinState _ | .setTimeset _ _ | .addWave _ _ _ _ | .enableClock _ _ | .startClock _
  | .stopClock _ | .pauseClock _ | .resumeClock _ _ | .hold _ _ | .delay _ | .wait _ | .store _ | .label _
  | .comment _ | .call _ | .define _ | .imported | .items | .setGroup _ | .threads _ | .finish _ => .leaf rfl (h _)

theorem all_of_mem {P : Operation → Prop} (h : ∀ op, P op) : ∀ ops : List Operation, ∀ op ∈ ops, op.All P
  | [], _, hop => absurd hop List.not_mem_nil
  | first :: ops, op, hop => by
    rcases List.mem_cons.mp hop with heq | hop
    · rw [heq]
      exact all_of_forall h first
    · exact all_of_mem h ops op hop

end

/-- What each operation of a body keeps holds at its end, and in the states in
which those operations begin that have the entries of the log. -/
theorem performBody_keep {I : Sequencer → Prop} : ∀ {ops : List Operation},
    (∀ op ∈ ops, ∀ c, I c → I (op.perform c).after) → ∀ {c : Sequencer}, I c →
      I (performBody ops c).after ∧
        ∀ e ∈ (performBody ops c).log, ∃ op ∈ ops, ∃ c', I c' ∧ e ∈ (op.perform c').log
  | [], _, c, hc => ⟨hc, fun _ he => absurd he List.not_mem_nil⟩
  | op :: ops, h, c, hc => by
    have hfirst : I (op.perform c).after := h op List.mem_cons_self c hc
    obtain ⟨hafter, hlog⟩ := performBody_keep (fun op hop => h op (List.mem_cons_of_mem _ hop)) hfirst
    rw [performBody]
    dsimp only
    split
    · exact ⟨hfirst, fun e he => ⟨op, List.mem_cons_self, c, hc, he⟩⟩
    · refine ⟨hafter, fun e he => ?_⟩
      rcases List.mem_append.mp he with he | he
      · exact ⟨op, List.mem_cons_self, c, hc, he⟩
      · obtain ⟨op', hop', hrest⟩ := hlog e he
        exact ⟨op', List.mem_cons_of_mem _ hop', hrest⟩

theorem performAll_keep {I : Sequencer → Prop} : ∀ {ops : List Operation},
    (∀ op ∈ ops, ∀ c, I c → I (op.perform c).after) → ∀ {c : Sequencer}, I c →
      I (performAll ops c).2 ∧
        ∀ e ∈ (performAll ops c).1, ∃ op ∈ ops, ∃ c', I c' ∧ e ∈ (op.perform c').log
  | [], _, c, hc => ⟨hc, fun _ he => absurd he List.not_mem_nil⟩
  | op :: ops, h, c, hc => by
    have hfirst : I (op.perform c).after := h op List.mem_cons_self c hc
    obtain ⟨hafter, hlog⟩ := performAll_keep (fun op hop => h op (List.mem_cons_of_mem _ hop)) hfirst
    refine ⟨hafter, fun e he => ?_⟩
    rcases List.mem_append.mp he with he | he
    · exact ⟨op, List.mem_cons_self, c, hc, he⟩
    · obtain ⟨op', hop', hrest⟩ := hlog e he
      exact ⟨op', List.mem_cons_of_mem _ hop', hrest⟩

/-- The entry that an operation leaves of itself. -/
def entry (op : Operation) (c : Sequencer) : LogEntry := ⟨op, (op.perform c).answer, (op.perform c).after⟩

end Operation

/-! ## What holds between the ends of operations -/

theorem Performance.after_closed (op : Operation)
    (p : Except Fault (Except Fault Unit × List LogEntry) × Sequencer) : (closed op p).after = p.2 := by
  obtain ⟨e | ⟨r, log⟩, c⟩ := p <;> rfl

namespace Sequencer

/-- `R` holds between the two ends of whatever is made up of operations that
satisfy `P`: it can be chained, it holds for these operations, and for a scope
if it holds for its body. -/
structure Kept (P : Operation → Prop) (R : Sequencer → Sequencer → Prop) : Prop where
  refl : ∀ c, R c c
  trans : ∀ {c c' c''}, R c c' → R c' c'' → R c c''
  leaf : ∀ {op : Operation} (c), op.isLeaf = true → P op → R c (op.perform c).after
  scope : ∀ {body : Sequencer → (Except Fault Unit × List LogEntry) × Sequencer} (s c),
    (∀ c, R c (body c).2) → R c (c.within s body).2

namespace Kept

variable {P : Operation → Prop} {R : Sequencer → Sequencer → Prop}

theorem performBody (h : Kept P R) {ops : List Operation} (hops : ∀ op ∈ ops, ∀ c, R c (op.perform c).after)
    (c : Sequencer) : R c (Operation.performBody ops c).after :=
  (Operation.performBody_keep (I := R c) (fun op hop _ hc => h.trans hc (hops op hop _)) (h.refl c)).1

theorem perform (h : Kept P R) {op : Operation} (hop : op.All P) (c : Sequencer) : R c (op.perform c).after := by
  induction hop generalizing c with
  | leaf hop hP => exact h.leaf c hop hP
  | scope _ ih =>
    rw [Operation.perform, Performance.after_closed]
    exact h.scope _ c fun c => h.performBody ih c
  | block _ ih | attempt _ ih => exact h.performBody ih c

end Kept

/-- `R` holds between the two ends of whatever is made up of operations that
satisfy `P`, and of its log: it can be chained, it holds for these operations and
for the end of one with a body, and for a scope if it holds for its body. -/
structure Logged (P : Operation → Prop) (R : Sequencer → List LogEntry → Sequencer → Prop) : Prop where
  nil : ∀ c, R c [] c
  append : ∀ {c log c' log' c''}, R c log c' → R c' log' c'' → R c (log ++ log') c''
  leaf : ∀ {op : Operation} (c), op.isLeaf = true → P op → R c [op.entry c] (op.perform c).after
  closed : ∀ {op : Operation} (answer c), op.isLeaf = false → R c [⟨op, answer, c⟩] c
  scope : ∀ {body : Sequencer → (Except Fault Unit × List LogEntry) × Sequencer} (s c),
    (∀ c, R c (body c).1.2 (body c).2) → R c (bodyLog (c.within s body).1) (c.within s body).2

namespace Logged

variable {P : Operation → Prop} {R : Sequencer → List LogEntry → Sequencer → Prop}

theorem performBody (h : Logged P R) : ∀ {ops : List Operation},
    (∀ op ∈ ops, ∀ c, R c (op.perform c).log (op.perform c).after) → ∀ c,
      R c (Operation.performBody ops c).log (Operation.performBody ops c).after
  | [], _, c => h.nil c
  | op :: ops, hops, c => by
    obtain ⟨hfirst, hrest⟩ := List.forall_mem_cons.mp hops
    rw [Operation.performBody]
    dsimp only
    split
    · exact hfirst c
    · exact h.append (hfirst c) (h.performBody hrest _)

theorem ended (h : Logged P R) {c : Sequencer} {op : Operation} (hop : op.isLeaf = false)
    {p : Except Fault (Except Fault Unit × List LogEntry) × Sequencer} (hp : R c (bodyLog p.1) p.2) :
    R c (Performance.closed op p).log (Performance.closed op p).after := by
  obtain ⟨e | ⟨r, log⟩, c'⟩ := p <;> exact h.append hp (h.closed _ c' hop)

theorem perform (h : Logged P R) {op : Operation} (hop : op.All P) (c : Sequencer) :
    R c (op.perform c).log (op.perform c).after := by
  induction hop generalizing c with
  | leaf hop hP =>
    rw [Operation.log_of_leaf c hop]
    exact h.leaf c hop hP
  | scope _ ih => exact h.ended rfl (h.scope _ c fun c => h.performBody ih c)
  | block _ ih | attempt _ ih => exact h.ended (p := (.ok (_, _), _)) rfl (h.performBody ih c)

end Logged

/-! ## The beginnings of bodies -/

/-- The state in which the body of a scope begins, if the scope opens. -/
def opened (c : Sequencer) (s : Scope) : Except Fault Sequencer := (c.within s fun c₁ => (c₁, c₁)).1

/-- A scope answers with what its body gives in the state in which it begins. -/
theorem fst_within {β : Type} (body : Sequencer → β × Sequencer) (c : Sequencer) : ∀ s : Scope,
    (c.within s body).1 = (c.opened s).map fun c₁ => (body c₁).1
  | .timeset name period => by
    simp only [opened, within, withTimeset]
    split <;> rfl
  | .loop label count => by
    simp only [opened, within, loop]
    by_cases h0 : count = 0
    · simp only [h0, if_true]
      rfl
    · by_cases h1 : count = 1
      · simp only [h1, if_true]
        rfl
      · simp only [h0, h1, if_false]
        rfl
  | .ignoreFails pins => by
    simp only [opened, within, ignoreFails]
    split <;> rfl
  | .withoutVectors | .withoutComments => rfl

theorem turns_of_opened {c c₁ : Sequencer} {s : Scope} (h : c.opened s = .ok c₁) : Turns c c₁ := by
  unfold opened at h
  rcases within_turns (fun c₁ => (c₁, c₁)) c s with ⟨e, c', heq, -⟩ | ⟨c₂, c', heq, hopen, -⟩
  · rw [heq] at h
    cases h
  · rw [heq] at h
    obtain rfl := Except.ok.inj h
    exact hopen

end Sequencer

/-! ## Logs -/

namespace Operation

open Sequencer

/-- The log of a scope is that of its body, in the state in which it begins,
and an entry of its own. -/
theorem mem_log_scope {s : Scope} {body : List Operation} {c : Sequencer} {e : LogEntry}
    (he : e ∈ ((Operation.scope s body).perform c).log) :
    (∃ c₁, c.opened s = .ok c₁ ∧ e ∈ (performBody body c₁).log) ∨ e = (Operation.scope s body).entry c := by
  have hbody := fst_within (fun c => (performBody body c).inner) c s
  rw [entry]
  rw [perform] at he ⊢
  generalize c.within s (fun c => (performBody body c).inner) = p at he hbody
  obtain ⟨r, c'⟩ := p
  obtain rfl : r = _ := hbody
  cases hopen : c.opened s with
  | error fault =>
    rw [hopen] at he
    exact .inr (List.mem_singleton.mp he)
  | ok c₁ =>
    rw [hopen] at he
    rcases List.mem_append.mp he with he | he
    · exact .inl ⟨c₁, rfl, he⟩
    · exact .inr (List.mem_singleton.mp he)

theorem mem_log_block {body : List Operation} {op : Operation} (hop : op = .block body ∨ op = .attempt body)
    {c : Sequencer} {e : LogEntry} (he : e ∈ (op.perform c).log) :
    e ∈ (performBody body c).log ∨ e = op.entry c := by
  rcases hop with rfl | rfl
  all_goals
    rcases List.mem_append.mp he with he | he
    · exact .inl he
    · exact .inr (List.mem_singleton.mp he)

/-- All entries of an operation's log are about operations in it. -/
theorem all_of_mem_log {P : Operation → Prop} {op : Operation} (hop : op.All P) (c : Sequencer) :
    ∀ e ∈ (op.perform c).log, e.operation.All P := by
  have hbody {ops : List Operation} (ih : ∀ op ∈ ops, ∀ (c : Sequencer), ∀ e ∈ (op.perform c).log, e.operation.All P)
      (c : Sequencer) : ∀ e ∈ (performBody ops c).log, e.operation.All P := fun e he =>
    have ⟨op, hop, c', _, he⟩ := (performBody_keep (I := fun _ => True) (fun _ _ _ _ => trivial) trivial).2 e he
    ih op hop c' e he
  induction hop generalizing c with
  | leaf hop hP =>
    intro e he
    rw [log_of_leaf c hop] at he
    obtain rfl := List.mem_singleton.mp he
    exact .leaf hop hP
  | scope h ih =>
    intro e he
    rcases mem_log_scope he with ⟨c₁, -, he⟩ | rfl
    · exact hbody ih c₁ e he
    · exact .scope h
  | block h ih =>
    intro e he
    rcases mem_log_block (.inl rfl) he with he | rfl
    · exact hbody ih c e he
    · exact .block h
  | attempt h ih =>
    intro e he
    rcases mem_log_block (.inr rfl) he with he | rfl
    · exact hbody ih c e he
    · exact .attempt h

section

variable {I : Sequencer → Prop} (hperform : ∀ (op : Operation) (c : Sequencer), I c → I (op.perform c).after)
  (hopened : ∀ {c c₁ : Sequencer} {s : Scope}, I c → c.opened s = .ok c₁ → I c₁)

include hperform hopened

/-- Every entry of a log says how its operation went in the state in which it
began. In these states holds what operations and the beginnings of scopes
keep. -/
theorem eq_entry_of_mem_log (op : Operation) {c : Sequencer} (hc : I c) :
    ∀ e ∈ (op.perform c).log, ∃ c', I c' ∧ e = e.operation.entry c' := by
  have hbody {ops : List Operation} (ih : ∀ op ∈ ops, ∀ {c : Sequencer}, I c →
      ∀ e ∈ (op.perform c).log, ∃ c', I c' ∧ e = e.operation.entry c') {c : Sequencer} (hc : I c) :
      ∀ e ∈ (performBody ops c).log, ∃ c', I c' ∧ e = e.operation.entry c' := fun e he =>
    have ⟨op, hop, _, hc', he⟩ := (performBody_keep (fun op _ => hperform op) hc).2 e he
    ih op hop hc' e he
  induction op.all_of_forall (P := fun _ => True) (fun _ => trivial) generalizing c with
  | leaf hop _ =>
    intro e he
    rw [log_of_leaf c hop] at he
    obtain rfl := List.mem_singleton.mp he
    exact ⟨c, hc, rfl⟩
  | scope _ ih =>
    intro e he
    rcases mem_log_scope he with ⟨c₁, hopen, he⟩ | rfl
    · exact hbody ih (hopened hc hopen) e he
    · exact ⟨c, hc, rfl⟩
  | block _ ih =>
    intro e he
    rcases mem_log_block (.inl rfl) he with he | rfl
    · exact hbody ih hc e he
    · exact ⟨c, hc, rfl⟩
  | attempt _ ih =>
    intro e he
    rcases mem_log_block (.inr rfl) he with he | rfl
    · exact hbody ih hc e he
    · exact ⟨c, hc, rfl⟩

theorem eq_entry_of_mem_performAll (ops : List Operation) {c : Sequencer} (hc : I c) :
    ∀ e ∈ (performAll ops c).1, ∃ c', I c' ∧ e = e.operation.entry c' := fun e he =>
  have ⟨op, _, _, hc', he⟩ := (performAll_keep (fun op _ => hperform op) hc).2 e he
  op.eq_entry_of_mem_log hperform hopened hc' e he

end

end Operation

end TestProgram
