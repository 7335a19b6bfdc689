import TestProgram.Proofs.Flow.Settling

/-!
# Drafts that programs make

A program for a flow adds lines, notes relations and opens and closes scopes. What all of
these keep holds of every draft that a program makes (`FlowOperation.Keeps`), such as that
relations are those of lines that have been added (`draft_pending_lt`).
-/

namespace TestProgram

namespace FlowOperation

/-- `I` holds of whatever a draft becomes that it holds of. -/
structure Keeps (I : FlowDraft → Prop) : Prop where
  add : ∀ {d}, I d → ∀ op parameter attrs, I (d.add op parameter attrs).2
  relate : ∀ {d d' id relation target}, I d → d.relate id relation target = .ok d' → I d'
  setting : ∀ {d}, I d → ∀ ifJobs unlessJobs enables skips, I { d with ifJobs, unlessJobs, enables, skips }

namespace Keeps

variable {I : FlowDraft → Prop}

theorem withinIfEnable (h : Keeps I) {β : Type} {body : FlowDraft → β × FlowDraft} (hbody : ∀ {d}, I d → I (body d).2)
    {d : FlowDraft} (hd : I d) (word : String) : I (d.withinIfEnable word body).2 :=
  have hinside : I { d with enables := word :: d.enables } := h.setting hd _ _ _ d.skips
  h.setting (hbody hinside) _ _ d.enables _

theorem within (h : Keeps I) {β : Type} {body : FlowDraft → β × FlowDraft} (hbody : ∀ {d}, I d → I (body d).2)
    {d : FlowDraft} (hd : I d) : ∀ s : FlowScope, I (d.within s body).2
  | .ifJob jobs =>
    have hinside : I { d with ifJobs := d.ifJobs ++ jobs } := h.setting hd _ _ _ d.skips
    h.setting (hbody hinside) d.ifJobs _ _ _
  | .unlessJob jobs =>
    have hinside : I { d with unlessJobs := d.unlessJobs ++ jobs } := h.setting hd _ _ _ d.skips
    h.setting (hbody hinside) _ d.unlessJobs _ _
  | .ifEnable word => h.withinIfEnable hbody hd word
  | .unlessEnable word =>
    have hskips : I { d with skips := d.skips + 1 } := h.setting hd _ _ d.enables _
    have hjump := h.withinIfEnable (fun hd => h.add hd .goto s!"skip_{word}_{d.skips + 1}" []) hskips word
    h.add (hbody hjump) .nop "" [("label", s!"skip_{word}_{d.skips + 1}")]

mutual

theorem perform (h : Keeps I) : ∀ (op : FlowOperation) {d : FlowDraft}, I d → I (op.perform d).2
  | .add op parameter attrs, _, hd => h.add hd op parameter attrs
  | .relate id relation target, d, hd => by
    rw [FlowOperation.perform]
    split
    · rename_i heq
      exact h.relate hd heq
    · exact hd
  | .scope s body, _, hd => h.within (fun hd => h.performBody body hd) hd s

theorem performBody (h : Keeps I) : ∀ (ops : List FlowOperation) {d : FlowDraft}, I d →
    I (FlowOperation.performBody ops d).2
  | [], _, hd => hd
  | op :: ops, d, hd => by
    have hfirst := h.perform op hd
    rw [FlowOperation.performBody]
    split
    · rename_i heq
      rwa [heq] at hfirst
    · rename_i heq
      rw [heq] at hfirst
      exact h.performBody ops hfirst

end

theorem performAll (h : Keeps I) : ∀ (ops : List FlowOperation) {d : FlowDraft}, I d →
    I (FlowOperation.performAll ops d).2
  | [], _, hd => hd
  | op :: ops, _, hd => h.performAll ops (h.perform op hd)

end Keeps

end FlowOperation

namespace FlowDraft

theorem eq_of_relate {d d' : FlowDraft} {id target : String} {relation : Relation}
    (h : d.relate id relation target = .ok d') : d' = { d with pending := d'.pending } := by
  unfold relate at h
  split at h
  · obtain rfl := Except.ok.inj h
    rfl
  · cases h

/-- No line renames the flow. -/
theorem keeps_name (name : String) : FlowOperation.Keeps fun d => d.name = name where
  add h _ _ _ := h
  setting h _ _ _ _ := h
  relate h hrelate := by
    rw [eq_of_relate hrelate]
    exact h

end FlowDraft

namespace FlowOperation

/-- The draft of a flow that a program makes. -/
def draft (name : String) (ops : List FlowOperation) : FlowDraft := (performAll ops (.new name)).2

theorem name_draft (name : String) (ops : List FlowOperation) : (draft name ops).name = name :=
  (FlowDraft.keeps_name name).performAll ops rfl

/-- All relations are those of lines of the draft. -/
theorem draft_pending_lt (name : String) (ops : List FlowOperation) :
    ∀ p ∈ (draft name ops).pending, p.line < (draft name ops).lines.length := by
  have hkeeps : Keeps fun d => ∀ p ∈ d.pending, p.line < d.lines.length := by
    refine ⟨fun {d} hd op parameter attrs p hp => ?_, fun {d d' id relation target} hd h p hp => ?_,
      fun hd _ _ _ _ => hd⟩
    · show p.line < (d.lines ++ [_]).length
      rw [List.length_append, List.length_singleton]
      rcases List.mem_append.mp hp with hp | hp
      · exact Nat.lt_succ_of_lt (hd p hp)
      · obtain ⟨r, -, rfl⟩ := List.mem_map.mp hp
        exact Nat.lt_succ_self _
    · unfold FlowDraft.relate at h
      split at h
      · rename_i line hline
        obtain rfl := Except.ok.inj h
        rcases List.mem_append.mp hp with hp | hp
        · exact hd p hp
        · obtain rfl := List.mem_singleton.mp hp
          obtain ⟨l, hl, -⟩ := FlowDraft.exists_of_lastNamed? hline
          exact (List.getElem?_eq_some_iff.mp hl).1
      · cases h
  exact hkeeps.performAll ops (List.forall_mem_nil _)

end FlowOperation

end TestProgram
