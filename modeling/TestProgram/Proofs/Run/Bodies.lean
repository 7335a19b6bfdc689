import TestProgram.Proofs.Flow.Drafts
import TestProgram.Proofs.Sequencer.Paths
import TestProgram.Proofs.Sequencer.Warnings
import TestProgram.Run.FlowBody
import TestProgram.Run.PatternBody

/-!
# Bodies of patterns and flows

The statements in the body of a pattern take a sequencer from operation to operation, with scopes around their
blocks. What holds across every operation and every scope (`Sequencer.Evolution`) holds across a body, wherever
it ends (`Evolution.performBody`): warnings stay, and the pattern keeps its name. In the same way the body of a
flow keeps what additions to a draft keep (`FlowOperation.Keeps.extendBody`).
-/

namespace TestProgram

/-! ## The operations of a statement -/

namespace Statement

variable {s : Statement} {ops : List Operation}

theorem isStep_of_map {α : Type} {x : Except Diagnostic α} {g : α → Operation} (hg : ∀ a, (g a).isStep = true)
    (op : Operation) (h : x.map g = .ok op) : op.isStep = true := by
  cases x with
  | error d => cases h
  | ok a =>
    obtain rfl := Except.ok.inj h
    exact hg a

theorem isStep_of_step {r : Except Diagnostic Operation} (hr : ∀ op, r = .ok op → op.isStep = true)
    (h : step r = .ok (.steps ops)) : ∀ op ∈ ops, op.isStep = true := by
  obtain ⟨op, hop, h⟩ := bind_eq_ok.mp h
  cases h
  exact List.forall_mem_singleton.mpr (hr op hop)

theorem isStep_of_wave (op : Operation) (h : s.wave = .ok op) : op.isStep = true := by
  obtain ⟨timeset, -, h⟩ := bind_eq_ok.mp h
  obtain ⟨pin, -, h⟩ := bind_eq_ok.mp h
  obtain ⟨edges, -, h⟩ := bind_eq_ok.mp h
  obtain rfl := Except.ok.inj h
  rfl

theorem isStep_of_cycle (op : Operation) (h : s.cycle = .ok op) : op.isStep = true := by
  obtain ⟨options, -, h⟩ := bind_eq_ok.mp h
  obtain rfl := Except.ok.inj h
  rfl

theorem isStep_of_clock (op : Operation) (h : s.clock = .ok op) : op.isStep = true := by
  obtain ⟨action, -, h⟩ := bind_eq_ok.mp h
  obtain ⟨pin, -, h⟩ := bind_eq_ok.mp h
  obtain ⟨frequency, -, h⟩ := bind_eq_ok.mp h
  split at h <;> cases h <;> rfl

theorem isStep_of_timeset (h : s.timeset = .ok (.steps ops)) : ∀ op ∈ ops, op.isStep = true := by
  obtain ⟨name, -, h⟩ := bind_eq_ok.mp h
  obtain ⟨period, -, h⟩ := bind_eq_ok.mp h
  split at h
  · cases h
  · cases h
    exact List.forall_mem_singleton.mpr rfl

/-- A statement asks for single operations, none of which ends the pattern. -/
theorem isStep_of_action (h : s.action = .ok (.steps ops)) : ∀ op ∈ ops, op.isStep = true := by
  have hguard : ∀ {b : Bool} {k : Unit → Except Diagnostic Action},
      (if b then s.refuseBlock >>= k else k ()) = .ok (.steps ops) → k () = .ok (.steps ops) := by
    intro b k h
    split at h
    · obtain ⟨_, -, h⟩ := bind_eq_ok.mp h
      exact h
    · exact h
  unfold action at h
  replace h := hguard h
  split at h
  · obtain ⟨changes, -, h⟩ := bind_eq_ok.mp h
    cases h
    exact List.forall_mem_map.mpr fun change _ => rfl
  · split at h
    · exact isStep_of_timeset h
    · exact isStep_of_step isStep_of_wave h
    · exact isStep_of_step isStep_of_cycle h
    · exact isStep_of_step (isStep_of_map fun _ => rfl) h
    · exact isStep_of_step (isStep_of_map fun _ => rfl) h
    · exact isStep_of_step isStep_of_clock h
    · exact isStep_of_step (isStep_of_map fun _ => rfl) h
    · exact isStep_of_step (fun op hop => by cases hop; rfl) h
    · exact isStep_of_step (isStep_of_map fun _ => rfl) h
    · exact isStep_of_step (isStep_of_map fun _ => rfl) h
    · exact isStep_of_step (isStep_of_map fun _ => rfl) h
    · exact isStep_of_step (isStep_of_map fun _ => rfl) h
    · obtain ⟨label, -, h⟩ := bind_eq_ok.mp h
      obtain ⟨count, -, h⟩ := bind_eq_ok.mp h
      obtain ⟨body, -, h⟩ := bind_eq_ok.mp h
      cases h
    · obtain ⟨pins, -, h⟩ := bind_eq_ok.mp h
      obtain ⟨body, -, h⟩ := bind_eq_ok.mp h
      cases h
    · obtain ⟨what, -, h⟩ := bind_eq_ok.mp h
      obtain ⟨body, -, h⟩ := bind_eq_ok.mp h
      split at h <;> cases h
    · exact isStep_of_step (isStep_of_map fun _ => rfl) h
    · cases h

end Statement

/-! ## Patterns -/

namespace Sequencer

/-- `R` holds between a sequencer and whatever steps and scopes make of it. -/
structure Evolution (R : Sequencer → Sequencer → Prop) : Prop where
  refl : ∀ c, R c c
  trans : ∀ {c c' c''}, R c c' → R c' c'' → R c c''
  step : ∀ {op : Operation}, op.isStep = true → ∀ c, R c (op.perform c).after
  within : ∀ {β : Type} {body : Sequencer → β × Sequencer}, (∀ c, R c (body c).2) → ∀ c s, R c (c.within s body).2

namespace Evolution

variable {R : Sequencer → Sequencer → Prop}

theorem performSteps (h : Evolution R) : ∀ {ops : List Operation}, (∀ op ∈ ops, op.isStep = true) →
    ∀ c : Sequencer, R c (Operation.performBody ops c).after
  | [], _, c => h.refl c
  | op :: ops, hops, c => by
    obtain ⟨hop, hrest⟩ := List.forall_mem_cons.mp hops
    have hfirst := h.step hop c
    rw [Operation.performBody]
    dsimp only
    split
    · exact hfirst
    · exact h.trans hfirst (h.performSteps hrest _)

mutual

theorem perform (h : Evolution R) : ∀ (s : Statement) (c : Sequencer), R c (s.perform c).2
  | .mk head args block span, c => by
    rw [Statement.perform]
    cases haction : (Statement.mk head args block span).action with
    | error d => exact h.refl c
    | ok a =>
      cases a with
      | steps ops => exact h.performSteps (Statement.isStep_of_action haction) c
      | scope s => exact h.within (h.performBlock block) c s

theorem performBlock (h : Evolution R) : ∀ (block : Option (List Statement)) (c : Sequencer),
    R c (Statement.performBlock block c).2
  | none, c => h.refl c
  | some body, c => h.performBody body c

theorem performBody (h : Evolution R) : ∀ (body : List Statement) (c : Sequencer),
    R c (Statement.performBody body c).2
  | [], c => h.refl c
  | s :: body, c => by
    have hfirst := h.perform s c
    rw [Statement.performBody]
    split
    · rename_i heq
      rwa [heq] at hfirst
    · rename_i c₁ heq
      rw [heq] at hfirst
      exact h.trans hfirst (h.performBody body c₁)

end

/-- What the first statements of a body make of a sequencer comes before what the whole body makes of it. -/
theorem performBody_take (h : Evolution R) : ∀ (body : List Statement) (n : Nat) (c : Sequencer),
    R (Statement.performBody (body.take n) c).2 (Statement.performBody body c).2
  | body, 0, c => h.performBody body c
  | [], n + 1, c => h.refl c
  | s :: body, n + 1, c => by
    rw [List.take_succ_cons, Statement.performBody, Statement.performBody]
    rcases s.perform c with ⟨_ | ⟨⟩, c'⟩
    · exact h.refl c'
    · exact h.performBody_take body n c'

end Evolution

theorem evolution_warned : Evolution Warned where
  refl := .refl
  trans := .trans
  step := Operation.perform_warned
  within hbody c s := c.within_warned hbody s

/-- No statement renames the pattern. -/
theorem evolution_name : Evolution fun c c' => c'.name = c.name where
  refl _ := rfl
  trans h h' := h'.trans h
  step _ c := (Operation.path_perform _ c).name_eq
  within {_ body} hbody c s := by
    rcases within_turns body c s with ⟨e, c', heq, hturns⟩ | ⟨c₁, c', heq, hopen, hclose⟩
    · rw [heq]
      exact hturns.names.name
    · rw [heq]
      exact hclose.names.name.trans ((hbody c₁).trans hopen.names.name)

end Sequencer

/-! ## Flows -/

namespace FlowOperation.Keeps

variable {I : FlowDraft → Prop}

mutual

theorem extend (h : Keeps I) : ∀ (s : Statement) {d : FlowDraft}, I d → I (s.extend d).2
  | .mk head args block span, d, hd => by
    rw [Statement.extend]
    split
    · exact hd
    · exact h.add hd _ _ _
    · exact h.within (h.extendBlock block) hd _

theorem extendBlock (h : Keeps I) : ∀ (block : Option (List Statement)) {d : FlowDraft}, I d →
    I (Statement.extendBlock block d).2
  | none, _, hd => hd
  | some body, _, hd => h.extendBody body hd

theorem extendBody (h : Keeps I) : ∀ (body : List Statement) {d : FlowDraft}, I d →
    I (Statement.extendBody body d).2
  | [], _, hd => hd
  | s :: body, d, hd => by
    have hfirst := h.extend s hd
    rw [Statement.extendBody]
    split
    · rename_i heq
      rwa [heq] at hfirst
    · rename_i d₁ heq
      rw [heq] at hfirst
      exact h.extendBody body hfirst

end

end FlowOperation.Keeps

namespace FlowDraft

/-- The second draft has all warnings of the first one, and perhaps further ones. -/
def Warned (d d' : FlowDraft) : Prop := d.warnings <+: d'.warnings

theorem Warned.trans {d d' d'' : FlowDraft} (h : Warned d d') (h' : Warned d' d'') : Warned d d'' :=
  List.IsPrefix.trans h h'

theorem keeps_warned (d : FlowDraft) : FlowOperation.Keeps (Warned d) where
  add h op parameter attrs := h.trans (List.prefix_append ..)
  setting h _ _ _ _ := h
  relate h hrelate := by
    rw [eq_of_relate hrelate]
    exact h

theorem extendBody_warned (body : List Statement) (d : FlowDraft) : d.Warned (Statement.extendBody body d).2 :=
  (keeps_warned d).extendBody body (List.prefix_refl _)

/-- The first statements of a body raise no other warnings than the whole body does. -/
theorem extendBody_take_warned : ∀ (body : List Statement) (n : Nat) (d : FlowDraft),
    (Statement.extendBody (body.take n) d).2.Warned (Statement.extendBody body d).2
  | body, 0, d => d.extendBody_warned body
  | [], n + 1, d => List.prefix_refl _
  | s :: body, n + 1, d => by
    rw [List.take_succ_cons, Statement.extendBody, Statement.extendBody]
    rcases s.extend d with ⟨_ | ⟨⟩, d'⟩
    · exact List.prefix_refl _
    · exact extendBody_take_warned body n d'

end FlowDraft

end TestProgram
