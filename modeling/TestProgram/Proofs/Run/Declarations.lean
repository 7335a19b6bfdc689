import TestProgram.Proofs.Run.Bodies
import TestProgram.Proofs.Sheet.Versions
import TestProgram.Run.Basic

/-!
# What declarations do

A pattern or a flow that is finished enters the product: its warnings are reported, and then its name is
registered (`Run.enter`). If it cannot be finished, the run stays as it is (`Run.pattern_apply`,
`Run.flow_apply`). The other declarations and the closing of the sheets touch little of a run; what they leave
alone is said by `Run.Keeps`.
-/

namespace TestProgram

theorem FlowDraft.name_of_finish {d : FlowDraft} {f : Flow} (h : d.finish = .ok f) : f.name = d.name := by
  obtain ⟨settled, -, h⟩ := bind_eq_ok.mp h
  obtain ⟨lines, -, h⟩ := bind_eq_ok.mp h
  obtain rfl := Except.ok.inj h
  rfl

namespace Run

/-- The run after warnings have been reported. -/
def reporting (r : Run) (warnings : List Warning) : Run :=
  { r with diagnostics := r.diagnostics ++ warnings.map .ofWarning }

/-- What a part of a run comes to that adds something to the product, with the warnings and the name of it. -/
def enter (kind sheet : String) (name : Word) (warnings : List Warning) (add : Product → Product) (r : Run) :
    Except Diagnostic Unit × Run :=
  match r.registry.register kind sheet name.text with
  | .ok registry => (.ok (), { r.reporting warnings with registry, product := add r.product })
  | .error e => (.error ⟨.fault e, some name.span⟩, r.reporting warnings)

theorem get_bind_apply {α : Type} (k : Run → Part α) (r : Run) : (get >>= k) r = k r r := by
  rw [Part.bind_apply]
  rfl

theorem enter_eq (kind sheet : String) (name : Word) (warnings : List Warning) (add : Product → Product) (r : Run) :
    (do report warnings; register kind sheet name.text name.span
        modify fun r => { r with product := add r.product } : Part Unit) r =
      enter kind sheet name warnings add r := by
  have hreport : (report warnings : Part Unit) r = (.ok (), r.reporting warnings) := rfl
  have hregistry : (r.reporting warnings).registry = r.registry := rfl
  rw [Part.bind_apply, hreport]
  dsimp only
  rw [Part.bind_apply, register, get_bind_apply, hregistry, enter]
  cases r.registry.register kind sheet name.text <;> rfl

/-! ## Patterns and flows -/

def addPattern (p : Pattern) (product : Product) : Product := { product with patterns := product.patterns ++ [p] }

def addFlow (f : Flow) (product : Product) : Product := { product with flows := product.flows ++ [f] }

theorem pattern_apply (name : Word) (body : List Statement) (r : Run) : pattern name body r =
    match Statement.performBody body (Sequencer.new name.text r.pins r.config) with
    | (.error d, _) => (.error d, r)
    | (.ok (), c) => enter "pattern" "patterns" name c.warnings (addPattern c.pattern) r := by
  have hname := Sequencer.evolution_name.performBody body (Sequencer.new name.text r.pins r.config)
  rw [pattern, get_bind_apply]
  rcases hbody : Statement.performBody body (Sequencer.new name.text r.pins r.config) with ⟨_ | ⟨⟩, c⟩
  · rfl
  · rw [hbody] at hname
    have hpattern : c.finish.1.name = name.text := hname
    dsimp only
    rw [hpattern]
    exact enter_eq "pattern" "patterns" name c.warnings (addPattern c.pattern) r

theorem flow_apply (name : Word) (body : List Statement) (r : Run) : flow name body r =
    match Statement.extendBody body (FlowDraft.new name.text) with
    | (.error d, _) => (.error d, r)
    | (.ok (), d) => match d.finish with
      | .error e => (.error ⟨.fault e, some name.span⟩, r)
      | .ok f => enter "flow" "flows" name d.warnings (addFlow f) r := by
  have hname := (FlowDraft.keeps_name name.text).extendBody body (d := FlowDraft.new name.text) rfl
  rw [flow]
  rcases hbody : Statement.extendBody body (FlowDraft.new name.text) with ⟨_ | ⟨⟩, d⟩
  · rfl
  · rw [hbody] at hname
    dsimp only
    cases hfinish : d.finish with
    | error e => rfl
    | ok f =>
      have hflow : f.name = name.text := (FlowDraft.name_of_finish hfinish).trans hname
      dsimp only
      rw [hflow]
      exact enter_eq "flow" "flows" name d.warnings (addFlow f) r

/-! ## Parts that keep something -/

section

variable {α β γ : Type} {f : Run → γ}

/-- A part of a run that does not change what `f` tells of it, whether it succeeds or not. -/
def Keeps (f : Run → γ) (x : Part α) : Prop := ∀ r : Run, f (x r).2 = f r

theorem Keeps.bind {x : Part α} {k : α → Part β} (hx : Keeps f x) (hk : ∀ a, Keeps f (k a)) : Keeps f (x >>= k) := by
  intro r
  have hfirst := hx r
  rw [Part.bind_apply]
  split
  · rename_i a r₁ heq
    rw [heq] at hfirst
    exact (hk a r₁).trans hfirst
  · rename_i heq
    rwa [heq] at hfirst

theorem keeps_orThrow (span : Span) : ∀ r : Except Fault Unit, Keeps f (orThrow span r)
  | .ok () => fun _ => rfl
  | .error _ => fun _ => rfl

theorem keeps_get {k : Run → Part α} (hk : ∀ r, f (k r r).2 = f r) : Keeps f (get >>= k) := by
  intro r
  rw [get_bind_apply]
  exact hk r

theorem set_bind_apply {r r' : Run} {k : PUnit → Part α} (h : f r' = f r) (hk : Keeps f (k ⟨⟩)) :
    f ((set r' >>= k) r).2 = f r := by
  rw [Part.bind_apply]
  exact (hk r').trans h

theorem keeps_declarePins (h : ∀ (r : Run) pins, f { r with pins } = f r) : ∀ names : List Word,
    Keeps f (declarePins names)
  | [] => fun _ => rfl
  | w :: names => by
    refine keeps_get fun r => ?_
    cases r.pins.add w.text with
    | error e => rfl
    | ok p =>
      have hrest := keeps_declarePins h names
      exact set_bind_apply (h r p.2) hrest

/-- The sheets are closed under their names, perhaps with other entries. -/
theorem keeps_closeSheets
    (hinstances : ∀ (r : Run) instances, instances.name = r.product.instances.name →
      f { r with product := { r.product with instances } } = f r)
    (hsets : ∀ (r : Run) patternSets, patternSets.name = r.product.patternSets.name →
      f { r with product := { r.product with patternSets } } = f r)
    (hregistry : ∀ (r : Run) registry, f { r with registry } = f r) (span : Span) : Keeps f (closeSheets span) := by
  have hname {α : Type} [SheetContent α] (s : Sheet α) : s.unify.2.name = s.name := by rw [Sheet.unify_snd]
  refine keeps_get fun r => set_bind_apply (hinstances r _ (hname _)) ((keeps_orThrow span _).bind fun _ => ?_)
  refine keeps_get fun r => set_bind_apply (hsets r _ (hname _)) ((keeps_orThrow span _).bind fun _ => ?_)
  refine keeps_get fun r => set_bind_apply (hregistry r _) ((keeps_orThrow span _).bind fun _ => ?_)
  exact keeps_get fun r => set_bind_apply (hregistry r _) (keeps_orThrow span _)

end

end Run

end TestProgram
