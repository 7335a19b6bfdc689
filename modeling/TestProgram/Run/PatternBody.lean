import TestProgram.Run.PatternStatement

/-!
# Running the body of a pattern

The statements of a body are carried out one after the other on a sequencer,
blocks inside the scopes that their statements open. The first problem ends
the body and all scopes around it.
-/

namespace TestProgram

/-- The outcome of an operation, with the place of the statement that asked
for it. -/
def located (span : Span) : Except Fault α → Except Diagnostic α
  | .ok a => .ok a
  | .error f => .error ⟨.fault f, some span⟩

namespace Statement

mutual

def perform : Statement → Sequencer → Except Diagnostic Unit × Sequencer
  | .mk head args block span, c =>
    match action (.mk head args block span) with
    | .error d => (.error d, c)
    | .ok (.steps ops) =>
      let p := Operation.performBody ops c
      (located span p.answer, p.after)
    | .ok (.scope s) =>
      let (r, c) := c.within s fun c => performBlock block c
      (Except.bind (located span r) id, c)

def performBlock : Option (List Statement) → Sequencer → Except Diagnostic Unit × Sequencer
  | none, c => (.ok (), c)
  | some body, c => performBody body c

def performBody : List Statement → Sequencer → Except Diagnostic Unit × Sequencer
  | [], c => (.ok (), c)
  | s :: body, c =>
    match perform s c with
    | (.error d, c) => (.error d, c)
    | (.ok (), c) => performBody body c

end

end Statement

end TestProgram
