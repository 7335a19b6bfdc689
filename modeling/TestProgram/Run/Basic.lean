import TestProgram.Flow.Finish
import TestProgram.Run.FlowBody
import TestProgram.Run.PatternBody
import TestProgram.Sheet.PatternSets

/-!
# Runs

A run carries out the declarations of a script in their order: it declares
pins, builds patterns and flows, and collects test instances and pattern
sets. At the end repeated entries are taken out of the two sheets and their
names are registered. The first error ends a run; what was generated until
then is kept.
-/

namespace TestProgram

/-- All that a script generates. -/
structure Product where
  patterns : List Pattern
  flows : List Flow
  instances : Sheet TestInstance
  patternSets : Sheet PatternSet

structure Run where
  config : Config
  pins : Pinout
  registry : Registry
  product : Product
  diagnostics : List Diagnostic

namespace Run

def start (config : Config) : Run where
  config := config
  pins := .empty
  registry := .empty
  product := ⟨[], [], .new "instances", .new "patsets"⟩
  diagnostics := []

/-- A part of a run: it answers or ends the run. What it changed stays either
way. -/
abbrev Part (α : Type) := ExceptT Diagnostic (StateM Run) α

theorem Part.bind_apply {α β : Type} (x : Part α) (k : α → Part β) (r : Run) : (x >>= k) r =
    match x r with
    | (.ok a, r) => k a r
    | (.error d, r) => (.error d, r) := by
  have hbind : (x >>= k) r = ExceptT.bindCont k (x r).1 (x r).2 := rfl
  rw [hbind]
  rcases x r with ⟨_ | _, _⟩ <;> rfl

/-- Reports warnings. -/
def report (warnings : List Warning) : Part Unit :=
  modify fun r => { r with diagnostics := r.diagnostics ++ warnings.map .ofWarning }

/-- Registers a name that is declared at a place. -/
def register (kind sheet : String) (name : String) (span : Span) : Part Unit := do
  let r ← get
  match r.registry.register kind sheet name with
  | .ok registry => set { r with registry }
  | .error e => throw ⟨.fault e, some span⟩

/-! ## Declarations -/

/-- Declares pins for the patterns that follow. -/
def declarePins : List Word → Part Unit
  | [] => pure ()
  | w :: words => do
    let r ← get
    match r.pins.add w.text with
    | .ok (_, pins) => do
      set { r with pins }
      declarePins words
    | .error e => throw ⟨.fault e, some w.span⟩

def pattern (name : Word) (body : List Statement) : Part Unit := do
  let r ← get
  let (answer, c) := Statement.performBody body (Sequencer.new name.text r.pins r.config)
  match answer with
  | .error d => throw d
  | .ok () => do
    let p := c.finish.1
    report p.warnings
    register "pattern" "patterns" p.name name.span
    modify fun r => { r with product := { r.product with patterns := r.product.patterns ++ [p] } }

def flow (name : Word) (body : List Statement) : Part Unit := do
  let (answer, d) := Statement.extendBody body (FlowDraft.new name.text)
  match answer with
  | .error e => throw e
  | .ok () =>
    match d.finish with
    | .error e => throw ⟨.fault e, some name.span⟩
    | .ok f => do
      report d.warnings
      register "flow" "flows" f.name name.span
      modify fun r => { r with product := { r.product with flows := r.product.flows ++ [f] } }

/-- The kind and the other attributes of an instance. -/
def attributes : List Argument → (kind : String) → (attrs : List (String × String)) →
    Except Diagnostic TestInstance
  | [], kind, attrs => .ok (.ofAttributes kind attrs)
  | .named key v :: args, kind, attrs =>
    if key.text = "type" then attributes args v.cell attrs
    else attributes args kind (attrs ++ [(key.text, v.cell)])
  | .plain v :: _, _, _ => Statement.misuse v.span .unnamedAttribute

def testInstance (name : Word) (args : List Argument) : Part Unit :=
  match attributes args "functional" [] with
  | .error d => throw d
  | .ok t => modify fun r =>
    { r with product := { r.product with instances := r.product.instances.add name.text t } }

def patternSet (name : Word) (patterns : List Word) : Part Unit :=
  modify fun r => { r with product :=
    { r.product with
      patternSets := r.product.patternSets.add name.text ⟨patterns.map Word.text⟩ } }

def declaration (d : Declaration) : Part Unit :=
  match d.content with
  | .pins names => declarePins names
  | .pattern name body => pattern name body
  | .flow name body => flow name body
  | .testInstance name args => testInstance name args
  | .patternSet name patterns => patternSet name patterns

def declarations : List Declaration → Part Unit
  | [] => pure ()
  | d :: ds => do
    declaration d
    declarations ds

/-! ## The end -/

/-- Ends a part of a run with a fault at a place. -/
def orThrow (span : Span) : Except Fault Unit → Part Unit
  | .ok () => pure ()
  | .error e => throw ⟨.fault e, some span⟩

/-- Takes repeated entries out of the sheets and registers the others. Faults
there belong to the script as a whole. -/
def closeSheets (span : Span) : Part Unit := do
  let r ← get
  let (answer, instances) := r.product.instances.unify
  set { r with product := { r.product with instances } }
  orThrow span answer
  let r ← get
  let (answer, patternSets) := r.product.patternSets.unify
  set { r with product := { r.product with patternSets } }
  orThrow span answer
  let r ← get
  let (answer, registry) := r.product.instances.register r.registry
  set { r with registry }
  orThrow span answer
  let r ← get
  let (answer, registry) := r.product.patternSets.register r.registry
  set { r with registry }
  orThrow span answer

def script (s : Script) : Part Unit := do
  declarations s.declarations
  closeSheets s.span

end Run

namespace Script

/-- What a script generates under settings, and what there is to report. The
product is incomplete if an error is among the reports. -/
def run (s : Script) (config : Config) : Product × List Diagnostic :=
  let (answer, r) := Run.script s (Run.start config)
  let error := match answer with
    | .ok () => []
    | .error d => [d]
  (r.product, r.diagnostics ++ error ++ r.registry.warnings.map .ofWarning)

end Script

end TestProgram
