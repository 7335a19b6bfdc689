import TestProgram.Proofs.Run.Declarations
import TestProgram.Proofs.Sheet.Owners
import TestProgram.Proofs.Script.Words

/-!
# Names of what runs generate

A run registers each pattern and each flow of its product, those of a kind in one sheet. So the patterns of a
product have different names, and the flows have, and all of them are named by declarations
(`Script.run_named`). A pattern and a flow may share a name.
-/

namespace TestProgram

/-! ## Sheets in the registry -/

namespace Registry

variable {r r' : Registry} {kind kind' sheet sheet' name : String} {names : List String}

theorem owner?_register (h : r.register kind sheet name = .ok r') (k n : String) :
    r'.owner? k n = (r.owner? k n).or (if kind = k ∧ name = n then some sheet else none) := by
  have hafter : r.after ⟨kind, name, sheet⟩ = r' := by rw [after, h]
  have hcall : firstSheet? [⟨kind, name, sheet⟩] k n = if kind = k ∧ name = n then some sheet else none := by
    rw [firstSheet?, List.find?_singleton]
    simp only [Bool.and_eq_true, beq_iff_eq]
    split <;> rfl
  rw [← hafter, owner?_after, hcall]

/-- The names of a kind all belong to one sheet, they are different, and `P` holds of them. -/
structure Lists (r : Registry) (P : String → Prop) (kind sheet : String) (names : List String) : Prop where
  nodup : names.Nodup
  owner : ∀ n, r.owner? kind n = if n ∈ names then some sheet else none
  all : ∀ n ∈ names, P n

variable {P : String → Prop}

theorem lists_empty (kind sheet : String) : empty.Lists P kind sheet [] :=
  ⟨List.nodup_nil, fun _ => rfl, List.forall_mem_nil _⟩

theorem Lists.register (h : r.Lists P kind sheet names) (hname : P name) (hr' : r.register kind sheet name = .ok r') :
    r'.Lists P kind sheet (names ++ [name]) where
  nodup := by
    have hfree : name ∉ names := fun hmem => by
      rw [register_eq_error.mpr ((h.owner name).trans (if_pos hmem))] at hr'
      cases hr'
    refine List.nodup_append.mpr ⟨h.nodup, List.nodup_singleton name, fun n hn m hm => ?_⟩
    obtain rfl := List.mem_singleton.mp hm
    exact fun heq => hfree (heq ▸ hn)
  owner n := by
    rw [owner?_register hr', h.owner]
    simp only [true_and, List.mem_append, List.mem_singleton, eq_comm (a := n)]
    by_cases hn : n ∈ names
    · rw [if_pos hn, if_pos (Or.inl hn), Option.some_or]
    · rw [if_neg hn, Option.none_or]
      simp only [hn, false_or]
  all := List.forall_mem_append.mpr ⟨h.all, List.forall_mem_singleton.mpr hname⟩

theorem Lists.other (h : r.Lists P kind sheet names) (hkind : kind' ≠ kind)
    (hr' : r.register kind' sheet' name = .ok r') : r'.Lists P kind sheet names where
  nodup := h.nodup
  owner n := by rw [owner?_register hr', if_neg fun hboth => hkind hboth.1, Option.or_none, h.owner]
  all := h.all

end Registry

/-! ## Runs -/

namespace Run

variable {P : String → Prop} {r r' : Run}

/-- The patterns and the flows of the product are registered, and the sheets have the names that they begin with. -/
structure Registered (P : String → Prop) (r : Run) : Prop where
  patterns : r.registry.Lists P "pattern" "patterns" (r.product.patterns.map Pattern.name)
  flows : r.registry.Lists P "flow" "flows" (r.product.flows.map Flow.name)
  instances : r.product.instances.name = "instances"
  patternSets : r.product.patternSets.name = "patsets"

theorem registered_start (config : Config) : Registered P (.start config) :=
  ⟨Registry.lists_empty _ _, Registry.lists_empty _ _, rfl, rfl⟩

theorem Registered.pattern (h : Registered P r) {name : Word} (hname : P name.text) {p : Pattern}
    (hp : p.name = name.text) (warnings : List Warning) :
    Registered P (enter "pattern" "patterns" name warnings (addPattern p) r).2 := by
  unfold enter
  split
  · rename_i registry hregister
    have hnames : (r.product.patterns ++ [p]).map Pattern.name = r.product.patterns.map Pattern.name ++ [name.text] := by
      rw [List.map_append, List.map_singleton, hp]
    refine ⟨?_, h.flows.other (by decide) hregister, h.instances, h.patternSets⟩
    exact hnames ▸ h.patterns.register hname hregister
  · exact ⟨h.patterns, h.flows, h.instances, h.patternSets⟩

theorem Registered.flow (h : Registered P r) {name : Word} (hname : P name.text) {f : Flow}
    (hf : f.name = name.text) (warnings : List Warning) :
    Registered P (enter "flow" "flows" name warnings (addFlow f) r).2 := by
  unfold enter
  split
  · rename_i registry hregister
    have hnames : (r.product.flows ++ [f]).map Flow.name = r.product.flows.map Flow.name ++ [name.text] := by
      rw [List.map_append, List.map_singleton, hf]
    refine ⟨h.patterns.other (by decide) hregister, ?_, h.instances, h.patternSets⟩
    exact hnames ▸ h.flows.register hname hregister
  · exact ⟨h.patterns, h.flows, h.instances, h.patternSets⟩

theorem Registered.declaration (h : Registered P r) {d : Declaration} (hd : ∀ name ∈ d.content.product?, P name.text) :
    Registered P (declaration d r).2 := by
  obtain ⟨content, span⟩ := d
  cases content with
  | pattern name body =>
    have hname := Sequencer.evolution_name.performBody body (Sequencer.new name.text r.pins r.config)
    show Registered P (Run.pattern name body r).2
    rw [pattern_apply]
    rcases hbody : Statement.performBody body (Sequencer.new name.text r.pins r.config) with ⟨_ | ⟨⟩, c⟩
    · exact h
    · rw [hbody] at hname
      exact h.pattern (hd name rfl) hname _
  | flow name body =>
    have hname := (FlowDraft.keeps_name name.text).extendBody body (d := FlowDraft.new name.text) rfl
    show Registered P (Run.flow name body r).2
    rw [flow_apply]
    rcases hbody : Statement.extendBody body (FlowDraft.new name.text) with ⟨_ | ⟨⟩, draft⟩
    · exact h
    · rw [hbody] at hname
      dsimp only
      cases hfinish : draft.finish with
      | error e => exact h
      | ok f => exact h.flow (hd name rfl) ((FlowDraft.name_of_finish hfinish).trans hname) _
  | pins names =>
    have hkeeps : ((declarePins names r).2.registry, (declarePins names r).2.product) = (r.registry, r.product) :=
      keeps_declarePins (f := fun r => (r.registry, r.product)) (fun _ _ => rfl) names r
    obtain ⟨hregistry, hproduct⟩ := Prod.mk.inj hkeeps
    show Registered P (declarePins names r).2
    exact ⟨by rw [hregistry, hproduct]; exact h.patterns, by rw [hregistry, hproduct]; exact h.flows,
      by rw [hproduct]; exact h.instances, by rw [hproduct]; exact h.patternSets⟩
  | testInstance name args =>
    show Registered P (testInstance name args r).2
    rw [testInstance]
    cases attributes args "functional" [] with
    | error e => exact h
    | ok t => exact ⟨h.patterns, h.flows, h.instances, h.patternSets⟩
  | patternSet name patterns => exact ⟨h.patterns, h.flows, h.instances, h.patternSets⟩

theorem Registered.declarations : ∀ {ds : List Declaration} {r : Run}, Registered P r →
    (∀ d ∈ ds, ∀ name ∈ d.content.product?, P name.text) → Registered P (declarations ds r).2
  | [], _, h, _ => h
  | d :: ds, r, h, hds => by
    obtain ⟨hd, hds⟩ := List.forall_mem_cons.mp hds
    have hfirst := h.declaration hd
    rw [Run.declarations, Part.bind_apply]
    split
    · rename_i heq
      rw [heq] at hfirst
      exact hfirst.declarations hds
    · rename_i heq
      rwa [heq] at hfirst

end Run

/-! ## Products -/

/-- The patterns of a product have different names, the flows have, and `P` holds of them all. The two sheets
have their own names. -/
structure Product.Named (P : String → Prop) (p : Product) : Prop where
  patterns : (p.patterns.map Pattern.name).Nodup
  flows : (p.flows.map Flow.name).Nodup
  pattern : ∀ n ∈ p.patterns.map Pattern.name, P n
  flow : ∀ n ∈ p.flows.map Flow.name, P n
  instances : p.instances.name = "instances"
  patternSets : p.patternSets.name = "patsets"

/-- What holds of the names of all declared patterns and flows holds of those that are generated, and among the
patterns or the flows no name is there twice. -/
theorem Script.run_named {P : String → Prop} (s : Script) (config : Config)
    (h : ∀ d ∈ s.declarations, ∀ name ∈ d.content.product?, P name.text) : (s.run config).1.Named P := by
  have hdeclared := (Run.registered_start (P := P) config).declarations h
  have hnamed : (Run.declarations s.declarations (.start config)).2.product.Named P :=
    ⟨hdeclared.patterns.nodup, hdeclared.flows.nodup, hdeclared.patterns.all, hdeclared.flows.all,
      hdeclared.instances, hdeclared.patternSets⟩
  have hbind := Run.Part.bind_apply (Run.declarations s.declarations) (fun _ => Run.closeSheets s.span) (.start config)
  show (Run.script s (.start config)).2.product.Named P
  rw [Run.script, hbind]
  split
  · rename_i r heq
    rw [heq] at hnamed
    have hkeeps := Run.keeps_closeSheets
      (f := fun r => (r.product.patterns, r.product.flows, r.product.instances.name, r.product.patternSets.name))
      (fun _ _ h => by rw [h]) (fun _ _ h => by rw [h]) (fun _ _ => rfl) s.span r
    obtain ⟨hpatterns, hflows, hinstances, hsets⟩ :
        _ = r.product.patterns ∧ _ = r.product.flows ∧ _ = r.product.instances.name ∧ _ = r.product.patternSets.name := by
      simpa only [Prod.mk.injEq] using hkeeps
    exact ⟨by rw [hpatterns]; exact hnamed.patterns, by rw [hflows]; exact hnamed.flows,
      by rw [hpatterns]; exact hnamed.pattern, by rw [hflows]; exact hnamed.flow,
      hinstances.trans hnamed.instances, hsets.trans hnamed.patternSets⟩
  · rename_i heq
    rwa [heq] at hnamed

end TestProgram
