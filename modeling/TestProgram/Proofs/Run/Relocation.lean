import TestProgram.Proofs.Script.Relocation
import TestProgram.Run.Basic

/-!
# Runs of scripts at other places

A script that is moved to other places generates the same, and reports the same problems
(`Script.run_relocate`): statements act on the sequencer and on the draft as before
(`Statement.performBody_relocate`, `Statement.extendBody_relocate`), and of all parts of a run only the place
of an error changes (`Run.Part.relocate`).
-/

namespace TestProgram

variable (f : Span → Span)

/-! ## Bodies -/

theorem located_relocate {α : Type} (span : Span) (r : Except Fault α) :
    located (f span) r = (located span r).mapError (Diagnostic.relocate f) := by
  cases r <;> rfl

section

variable {β γ : Type} (g : β → γ)

/-- What a scope does depends on its body, but not on what the body answers. -/
theorem Sequencer.within_map (body : Sequencer → β × Sequencer) (c : Sequencer) : ∀ s : Scope,
    (c.within s fun c => (g (body c).1, (body c).2)) = ((c.within s body).1.map g, (c.within s body).2)
  | .timeset name period => by
    simp only [within, withTimeset]
    split <;> rfl
  | .loop label count => by
    simp only [within, loop]
    split
    · rfl
    · split <;> rfl
  | .ignoreFails pins => by
    simp only [within, ignoreFails]
    split <;> rfl
  | .withoutVectors | .withoutComments => rfl

theorem FlowDraft.within_map (body : FlowDraft → β × FlowDraft) (d : FlowDraft) (s : FlowScope) :
    (d.within s fun d => (g (body d).1, (body d).2)) = (g (d.within s body).1, (d.within s body).2) := by
  cases s <;> rfl

end

namespace Statement

mutual

theorem perform_relocate : ∀ (s : Statement) (c : Sequencer),
    (s.relocate f).perform c = ((s.perform c).1.mapError (Diagnostic.relocate f), (s.perform c).2)
  | .mk head args block span, c => by
    have haction := action_relocate f (.mk head args block span)
    rw [relocate_mk] at haction ⊢
    rw [perform, perform, haction]
    cases (mk head args block span).action with
    | error d => rfl
    | ok a =>
      cases a with
      | steps ops => exact Prod.ext (located_relocate f span _) rfl
      | scope s =>
        have hbody : (fun c => performBlock (block.map (List.map (relocate f))) c) =
            fun c => ((performBlock block c).1.mapError (Diagnostic.relocate f), (performBlock block c).2) :=
          funext (performBlock_relocate block)
        have hwithin := c.within_map (Except.mapError (Diagnostic.relocate f)) (performBlock block) s
        rw [← hbody] at hwithin
        simp only [mapError_ok, hwithin]
        rcases c.within s (performBlock block) with ⟨_ | r, c'⟩ <;> rfl

theorem performBlock_relocate : ∀ (block : Option (List Statement)) (c : Sequencer),
    performBlock (block.map (List.map (relocate f))) c =
      ((performBlock block c).1.mapError (Diagnostic.relocate f), (performBlock block c).2)
  | none, _ => rfl
  | some body, c => performBody_relocate body c

/-- A body at another place does the same to the sequencer. -/
theorem performBody_relocate : ∀ (body : List Statement) (c : Sequencer),
    performBody (body.map (relocate f)) c =
      ((performBody body c).1.mapError (Diagnostic.relocate f), (performBody body c).2)
  | [], _ => rfl
  | s :: body, c => by
    rw [List.map_cons, performBody, performBody, perform_relocate s c]
    rcases s.perform c with ⟨_ | ⟨⟩, c'⟩
    · rfl
    · exact performBody_relocate body c'

end

mutual

theorem extend_relocate : ∀ (s : Statement) (d : FlowDraft),
    (s.relocate f).extend d = ((s.extend d).1.mapError (Diagnostic.relocate f), (s.extend d).2)
  | .mk head args block span, d => by
    have haction := flowAction_relocate f (.mk head args block span)
    rw [relocate_mk] at haction ⊢
    rw [extend, extend, haction]
    cases (mk head args block span).flowAction with
    | error e => rfl
    | ok a =>
      cases a with
      | line op parameter attrs => rfl
      | scope s =>
        have hbody : (fun d => extendBlock (block.map (List.map (relocate f))) d) =
            fun d => ((extendBlock block d).1.mapError (Diagnostic.relocate f), (extendBlock block d).2) :=
          funext (extendBlock_relocate block)
        show d.within s _ = _
        rw [hbody]
        exact d.within_map _ _ s

theorem extendBlock_relocate : ∀ (block : Option (List Statement)) (d : FlowDraft),
    extendBlock (block.map (List.map (relocate f))) d =
      ((extendBlock block d).1.mapError (Diagnostic.relocate f), (extendBlock block d).2)
  | none, _ => rfl
  | some body, d => extendBody_relocate body d

/-- A body at another place adds the same to the draft of a flow. -/
theorem extendBody_relocate : ∀ (body : List Statement) (d : FlowDraft),
    extendBody (body.map (relocate f)) d =
      ((extendBody body d).1.mapError (Diagnostic.relocate f), (extendBody body d).2)
  | [], _ => rfl
  | s :: body, d => by
    rw [List.map_cons, extendBody, extendBody, extend_relocate s d]
    rcases s.extend d with ⟨_ | ⟨⟩, d'⟩
    · rfl
    · exact extendBody_relocate body d'

end

end Statement

/-! ## Parts of runs -/

namespace Run

variable {α β : Type}

/-- The same part of a run, with its error at another place. -/
def Part.relocate (x : Part α) : Part α := fun r => ((x r).1.mapError (Diagnostic.relocate f), (x r).2)

theorem Part.relocate_bind (x : Part α) (k : α → Part β) :
    Part.relocate f (x >>= k) = Part.relocate f x >>= fun a => Part.relocate f (k a) := by
  funext r
  rw [bind_apply, relocate, bind_apply, relocate]
  rcases x r with ⟨_ | _, _⟩ <;> rfl

theorem declarePins_relocate : ∀ names : List Word,
    declarePins (names.map (Word.relocate f)) = Part.relocate f (declarePins names)
  | [] => rfl
  | w :: names => by
    rw [List.map_cons, declarePins, declarePins, Part.relocate_bind]
    refine congrArg _ (funext fun r => ?_)
    rw [Word.text_relocate]
    cases r.pins.add w.text with
    | error e => rfl
    | ok p =>
      rw [Part.relocate_bind, ← declarePins_relocate names]
      rfl

theorem register_relocate (kind sheet name : String) (span : Span) :
    register kind sheet name (f span) = Part.relocate f (register kind sheet name span) := by
  rw [register, register, Part.relocate_bind]
  refine congrArg _ (funext fun r => ?_)
  cases r.registry.register kind sheet name <;> rfl

theorem pattern_relocate (name : Word) (body : List Statement) :
    pattern (name.relocate f) (body.map (Statement.relocate f)) = Part.relocate f (pattern name body) := by
  rw [pattern, pattern, Part.relocate_bind]
  refine congrArg _ (funext fun r => ?_)
  rw [Statement.performBody_relocate, Word.text_relocate]
  rcases Statement.performBody body (Sequencer.new name.text r.pins r.config) with ⟨d | ⟨⟩, c⟩
  · rfl
  · simp only [mapError_ok, Part.relocate_bind, ← register_relocate]
    rfl

theorem flow_relocate (name : Word) (body : List Statement) :
    flow (name.relocate f) (body.map (Statement.relocate f)) = Part.relocate f (flow name body) := by
  rw [flow, flow, Statement.extendBody_relocate, Word.text_relocate]
  rcases Statement.extendBody body (FlowDraft.new name.text) with ⟨d | ⟨⟩, draft⟩
  · rfl
  · simp only [mapError_ok]
    cases draft.finish with
    | error e => rfl
    | ok _ =>
      simp only [Part.relocate_bind, ← register_relocate]
      rfl

theorem attributes_relocate : ∀ (args : List Argument) (kind : String) (attrs : List (String × String)),
    attributes (args.map (Argument.relocate f)) kind attrs =
      (attributes args kind attrs).mapError (Diagnostic.relocate f)
  | [], _, _ => rfl
  | .named key v :: args, kind, attrs => by
    have hnamed : (Argument.named key v).relocate f = .named (key.relocate f) (v.relocate f) := rfl
    rw [List.map_cons, hnamed, attributes, attributes, Word.text_relocate, Value.cell_relocate]
    split
    · exact attributes_relocate args v.cell attrs
    · exact attributes_relocate args kind _
  | .plain v :: _, _, _ => by
    have hplain : (Argument.plain v).relocate f = .plain (v.relocate f) := rfl
    rw [List.map_cons, hplain, attributes, attributes, Value.span_relocate]
    rfl

theorem testInstance_relocate (name : Word) (args : List Argument) :
    testInstance (name.relocate f) (args.map (Argument.relocate f)) = Part.relocate f (testInstance name args) := by
  rw [testInstance, testInstance, attributes_relocate, Word.text_relocate]
  cases attributes args "functional" [] <;> rfl

theorem patternSet_relocate (name : Word) (patterns : List Word) :
    patternSet (name.relocate f) (patterns.map (Word.relocate f)) = Part.relocate f (patternSet name patterns) := by
  rw [patternSet, List.map_map]
  rfl

theorem declaration_relocate (d : Declaration) : declaration (d.relocate f) = Part.relocate f (declaration d) := by
  obtain ⟨content, span⟩ := d
  cases content with
  | pins names => exact declarePins_relocate f names
  | pattern name body => exact pattern_relocate f name body
  | flow name body => exact flow_relocate f name body
  | testInstance name args => exact testInstance_relocate f name args
  | patternSet name patterns => exact patternSet_relocate f name patterns

theorem declarations_relocate : ∀ ds : List Declaration,
    declarations (ds.map (Declaration.relocate f)) = Part.relocate f (declarations ds)
  | [] => rfl
  | d :: ds => by
    rw [List.map_cons, declarations, declarations, Part.relocate_bind, declaration_relocate, declarations_relocate ds]

theorem orThrow_relocate (span : Span) (r : Except Fault Unit) :
    orThrow (f span) r = Part.relocate f (orThrow span r) := by
  cases r <;> rfl

theorem closeSheets_relocate (span : Span) : closeSheets (f span) = Part.relocate f (closeSheets span) := by
  simp only [closeSheets, Part.relocate_bind, ← orThrow_relocate]
  rfl

theorem script_relocate (s : Script) : script (s.relocate f) = Part.relocate f (script s) := by
  rw [script, script, Part.relocate_bind, ← declarations_relocate, ← closeSheets_relocate]
  rfl

end Run

/-- A script at other places generates the same, and reports the same problems. -/
theorem Script.run_relocate (s : Script) (config : Config) :
    ((s.relocate f).run config).1 = (s.run config).1 ∧
      ((s.relocate f).run config).2.map Diagnostic.problem = (s.run config).2.map Diagnostic.problem := by
  rw [run, run, Run.script_relocate, Run.Part.relocate]
  rcases Run.script s (Run.start config) with ⟨d | ⟨⟩, r⟩
  · refine ⟨rfl, ?_⟩
    simp only [List.map_append]
    rfl
  · exact ⟨rfl, rfl⟩

end TestProgram
