import TestProgram.Proofs.Run.Declarations

/-!
# What runs report

A run visits the declarations of a script up to the first one that fails. It reports the warnings of a
pattern or a flow when that is finished, and not before: if the body of a pattern fails, or a flow cannot be
finished, the warnings that its statements have raised until then are lost, and only the error is reported
(`Script.run_reports`). `lostWarning` is a script with such a flow.
-/

namespace TestProgram

/-! ## Visits -/

namespace Run

/-- A declaration and the run in which it is carried out. -/
structure Visit where
  declaration : Declaration
  run : Run

namespace Visit

/-- The warnings that the first statements of its body raise. -/
def raisedBy (n : Nat) (v : Visit) : List Warning :=
  match v.declaration.content with
  | .pattern name body =>
    (Statement.performBody (body.take n) (Sequencer.new name.text v.run.pins v.run.config)).2.warnings
  | .flow name body => (Statement.extendBody (body.take n) (FlowDraft.new name.text)).2.warnings
  | _ => []

/-- The warnings that the statements of its body raise, up to the first one that fails. -/
def raised (v : Visit) : List Warning :=
  match v.declaration.content with
  | .pattern name body => (Statement.performBody body (Sequencer.new name.text v.run.pins v.run.config)).2.warnings
  | .flow name body => (Statement.extendBody body (FlowDraft.new name.text)).2.warnings
  | _ => []

/-- Whether its pattern or flow can be finished. -/
def finishes (v : Visit) : Bool :=
  match v.declaration.content with
  | .pattern name body => (Statement.performBody body (Sequencer.new name.text v.run.pins v.run.config)).1.isOk
  | .flow name body =>
    let (answer, d) := Statement.extendBody body (FlowDraft.new name.text)
    answer.isOk && d.finish.isOk
  | _ => true

/-- The warnings that the run reports. -/
def reported (v : Visit) : List Warning := if v.finishes then v.raised else []

theorem raisedBy_prefix (v : Visit) (n : Nat) : v.raisedBy n <+: v.raised := by
  unfold raisedBy raised
  split
  · exact Sequencer.evolution_warned.performBody_take _ n _
  · exact FlowDraft.extendBody_take_warned _ n _
  · exact List.prefix_refl _

/-- Nothing is lost where a pattern or a flow is finished, or where there is nothing to lose. -/
theorem reported_eq_raised (v : Visit) : v.reported = v.raised ↔ v.finishes = true ∨ v.raised = [] := by
  unfold reported
  cases v.finishes with
  | true => exact ⟨fun _ => .inl rfl, fun _ => rfl⟩
  | false => exact ⟨fun h => .inr h.symm, fun h => (h.resolve_left Bool.false_ne_true).symm⟩

end Visit

/-- The declarations that are carried out, the last of which may fail. -/
def visits : List Declaration → Run → List Visit
  | [], _ => []
  | d :: ds, r => ⟨d, r⟩ ::
    match declaration d r with
    | (.ok (), r) => visits ds r
    | (.error _, _) => []

theorem visits_prefix : ∀ (ds : List Declaration) (r : Run), (visits ds r).map Visit.declaration <+: ds
  | [], _ => List.prefix_refl _
  | d :: ds, r => by
    rw [visits, List.map_cons, List.prefix_cons_inj]
    split
    · exact visits_prefix ds _
    · exact List.nil_prefix

/-! ## Diagnostics -/

/-- What enters the product adds its warnings, also where its name is taken. -/
theorem enter_diagnostics (kind sheet : String) (name : Word) (warnings : List Warning) (add : Product → Product)
    (r : Run) : (enter kind sheet name warnings add r).2.diagnostics = r.diagnostics ++ warnings.map .ofWarning := by
  unfold enter
  split <;> rfl

/-- Carrying out a declaration adds the warnings that it reports. If it succeeds, it is finished. -/
theorem declaration_reports (d : Declaration) (r : Run) :
    (declaration d r).2.diagnostics = r.diagnostics ++ (Visit.mk d r).reported.map .ofWarning ∧
      ((declaration d r).1.isOk = true → (Visit.mk d r).finishes = true) := by
  obtain ⟨content, span⟩ := d
  cases content with
  | pattern name body =>
    show (pattern name body r).2.diagnostics = _ ∧ ((pattern name body r).1.isOk = true → _)
    unfold Visit.reported Visit.finishes Visit.raised
    rw [pattern_apply]
    rcases hbody : Statement.performBody body (Sequencer.new name.text r.pins r.config) with ⟨_ | ⟨⟩, c⟩
    · simp only [hbody]
      exact ⟨(List.append_nil _).symm, nofun⟩
    · simp only [hbody]
      exact ⟨enter_diagnostics _ _ _ _ _ r, fun _ => rfl⟩
  | flow name body =>
    show (flow name body r).2.diagnostics = _ ∧ ((flow name body r).1.isOk = true → _)
    unfold Visit.reported Visit.finishes Visit.raised
    rw [flow_apply]
    rcases hbody : Statement.extendBody body (FlowDraft.new name.text) with ⟨_ | ⟨⟩, draft⟩
    · simp only [hbody]
      exact ⟨(List.append_nil _).symm, nofun⟩
    · cases hfinish : draft.finish with
      | error e =>
        simp only [hbody, hfinish]
        exact ⟨(List.append_nil _).symm, nofun⟩
      | ok f =>
        simp only [hbody, hfinish]
        exact ⟨enter_diagnostics _ _ _ _ _ r, fun _ => rfl⟩
  | pins names =>
    refine ⟨?_, fun _ => rfl⟩
    exact (keeps_declarePins (fun _ _ => rfl) names r).trans (List.append_nil _).symm
  | testInstance name args =>
    refine ⟨?_, fun _ => rfl⟩
    show (testInstance name args r).2.diagnostics = r.diagnostics ++ []
    rw [testInstance, List.append_nil]
    cases attributes args "functional" [] <;> rfl
  | patternSet name patterns =>
    exact ⟨(List.append_nil _).symm, fun _ => rfl⟩

/-- A run adds the warnings that its visits report. Only the last one can be one that is not finished, and
then the run ends with an error. -/
theorem declarations_reports : ∀ (ds : List Declaration) (r : Run),
    (declarations ds r).2.diagnostics = r.diagnostics ++ ((visits ds r).flatMap Visit.reported).map .ofWarning ∧
      ∀ v ∈ visits ds r, v.finishes = false →
        (visits ds r).getLast? = some v ∧ ∃ d, (declarations ds r).1 = .error d
  | [], r => ⟨(List.append_nil _).symm, fun _ hv => absurd hv List.not_mem_nil⟩
  | d :: ds, r => by
    obtain ⟨hreports, hfinishes⟩ := declaration_reports d r
    rw [declarations, Part.bind_apply, visits]
    rcases hd : declaration d r with ⟨e | ⟨⟩, r'⟩
    · rw [hd] at hreports
      refine ⟨?_, fun v hv _ => ?_⟩
      · rw [List.flatMap_singleton]
        exact hreports
      · obtain rfl := List.mem_singleton.mp hv
        exact ⟨rfl, e, rfl⟩
    · rw [hd] at hreports hfinishes
      obtain ⟨hrest, hlast⟩ := declarations_reports ds r'
      refine ⟨?_, fun v hv hfails => ?_⟩
      · rw [List.flatMap_cons, List.map_append, ← List.append_assoc]
        exact hrest.trans (congrArg (· ++ _) hreports)
      · rcases List.mem_cons.mp hv with rfl | hv
        · rw [hfinishes rfl] at hfails
          cases hfails
        · obtain ⟨hgetLast, herror⟩ := hlast v hv hfails
          refine ⟨?_, herror⟩
          rw [List.getLast?_cons, hgetLast]
          rfl

end Run

/-! ## Scripts -/

section

variable {α β : Type} {f g : α → List β}

theorem length_flatMap_le : ∀ {l : List α}, (∀ a ∈ l, f a = [] ∨ f a = g a) →
    (l.flatMap f).length ≤ (l.flatMap g).length
  | [], _ => Nat.le_refl _
  | a :: l, h => by
    obtain ⟨ha, hl⟩ := List.forall_mem_cons.mp h
    have hle := length_flatMap_le hl
    rw [List.flatMap_cons, List.flatMap_cons, List.length_append, List.length_append]
    rcases ha with ha | ha <;> rw [ha]
    · rw [List.length_nil]
      omega
    · omega

/-- Leaving parts out is noticed, unless they are empty. -/
theorem flatMap_eq_flatMap_iff : ∀ {l : List α}, (∀ a ∈ l, f a = [] ∨ f a = g a) →
    (l.flatMap f = l.flatMap g ↔ ∀ a ∈ l, f a = g a)
  | [], _ => ⟨fun _ _ ha => absurd ha List.not_mem_nil, fun _ => rfl⟩
  | a :: l, h => by
    obtain ⟨ha, hl⟩ := List.forall_mem_cons.mp h
    rw [List.flatMap_cons, List.flatMap_cons, List.forall_mem_cons, ← flatMap_eq_flatMap_iff hl]
    refine ⟨fun heq => ?_, fun ⟨ha, hl⟩ => by rw [ha, hl]⟩
    rcases ha with ha | ha
    · have hlength := congrArg List.length heq
      rw [ha, List.nil_append, List.length_append] at hlength
      have hle := length_flatMap_le hl
      have hnil : g a = [] := List.length_eq_zero_iff.mp (by omega)
      rw [ha, hnil] at heq ⊢
      exact ⟨rfl, heq⟩
    · rw [ha] at heq
      exact ⟨ha, List.append_cancel_left heq⟩

end

namespace Script

open Run (visits Visit)

/-- The error that ends a run. -/
def failure (answer : Except Diagnostic Unit) : List Diagnostic :=
  match answer with
  | .ok () => []
  | .error d => [d]

/-- A run reports the warnings of all declarations that are finished, then the error that ends it, then those
of the registry. What the others have raised is lost: that of a pattern or a flow which is the last to be
visited and which cannot be finished. The warnings that the statements of a body raise before some place are
among those of the body. -/
theorem run_reports (s : Script) (config : Config) :
    let visited := visits s.declarations (.start config)
    let answer := (Run.script s (.start config)).1
    (s.run config).2 = (visited.flatMap Visit.reported).map .ofWarning ++ failure answer
        ++ (Run.script s (.start config)).2.registry.warnings.map .ofWarning ∧
      visited.map Visit.declaration <+: s.declarations ∧
      (∀ v ∈ visited, v.finishes = false → visited.getLast? = some v ∧ ∃ d, answer = .error d) ∧
      (visited.flatMap Visit.reported = visited.flatMap Visit.raised ↔ ∀ v ∈ visited, v.finishes = true ∨ v.raised = []) ∧
      ∀ v ∈ visited, ∀ n, v.raisedBy n <+: v.raised := by
  obtain ⟨hreports, hlast⟩ := Run.declarations_reports s.declarations (.start config)
  have hbind := Run.Part.bind_apply (Run.declarations s.declarations) (fun _ => Run.closeSheets s.span) (.start config)
  have hdiagnostics : (Run.script s (.start config)).2.diagnostics =
      (Run.declarations s.declarations (.start config)).2.diagnostics := by
    rw [Run.script, hbind]
    rcases Run.declarations s.declarations (.start config) with ⟨_ | ⟨⟩, r⟩
    · rfl
    · exact Run.keeps_closeSheets (fun _ _ _ => rfl) (fun _ _ _ => rfl) (fun _ _ => rfl) s.span r
  refine ⟨?_, Run.visits_prefix _ _, fun v hv hfails => ?_, ?_, fun v _ n => v.raisedBy_prefix n⟩
  · have hrun : (s.run config).2 = (Run.script s (.start config)).2.diagnostics
        ++ failure (Run.script s (.start config)).1
        ++ (Run.script s (.start config)).2.registry.warnings.map .ofWarning := rfl
    rw [hrun, hdiagnostics, hreports]
    rfl
  · obtain ⟨hgetLast, d, herror⟩ := hlast v hv hfails
    refine ⟨hgetLast, d, ?_⟩
    rw [Run.script, hbind]
    rcases hds : Run.declarations s.declarations (.start config) with ⟨e, r⟩
    rw [hds] at herror
    obtain rfl : e = .error d := herror
    rfl
  · rw [flatMap_eq_flatMap_iff fun v _ => ?_]
    · exact forall_congr' fun v => imp_congr_right fun _ => v.reported_eq_raised
    · unfold Visit.reported
      cases v.finishes with
      | true => exact .inr rfl
      | false => exact .inl rfl

def origin : Span := ⟨0, 0⟩

def plainLine (name key value : String) : Statement :=
  .mk ⟨"test", origin⟩ [.plain (.word ⟨name, origin⟩), .named ⟨key, origin⟩ (.word ⟨value, origin⟩)] none origin

/-- A flow whose first line has an unknown attribute, and whose second line refers to a line that is not there. -/
def lostWarning : Script where
  declarations := [⟨.flow ⟨"f", origin⟩ [plainLine "a" "colour" "red", plainLine "b" "if_passed" "x"], origin⟩]
  span := origin

theorem lostWarning_codes (config : Config) : (lostWarning.run config).2.map Diagnostic.code = [.E0100] := rfl

theorem lostWarning_raised (config : Config) :
    (visits lostWarning.declarations (.start config)).map Visit.raised = [[.unknownAttribute "t1" "colour"]] := rfl

/-- A run that ends with an error does not always report the warnings that were raised before. -/
theorem not_forall_raised_reported : ¬ ∀ (s : Script) (config : Config), (∃ d ∈ (s.run config).2, d.isError = true) →
    ∀ v ∈ visits s.declarations (.start config), ∀ w ∈ v.raised, .ofWarning w ∈ (s.run config).2 := by
  intro h
  have hcodes := lostWarning_codes (.standard .jlink)
  have herror : ∃ d ∈ (lostWarning.run (.standard .jlink)).2, d.isError = true := by
    obtain ⟨d, hd, hcode⟩ := List.mem_map.mp (hcodes ▸ List.mem_singleton_self Code.E0100)
    exact ⟨d, hd, by rw [Diagnostic.isError, hcode]; rfl⟩
  obtain ⟨v, hv, hraised⟩ := List.mem_map.mp
    (lostWarning_raised (.standard .jlink) ▸ List.mem_singleton_self [Warning.unknownAttribute "t1" "colour"])
  have hreported := h lostWarning _ herror v hv _ (hraised ▸ List.mem_singleton_self _)
  have hcode := List.mem_map_of_mem (f := Diagnostic.code) hreported
  rw [hcodes] at hcode
  cases List.mem_singleton.mp hcode

end Script

end TestProgram
