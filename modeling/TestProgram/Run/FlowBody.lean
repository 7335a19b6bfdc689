import TestProgram.Flow.Draft
import TestProgram.Script.Arguments

/-!
# Running the body of a flow

What the statements in the body of a flow ask of a draft: a line, or a scope
for their block (`Statement.flowAction`), and carrying them out one after the
other. The first problem ends the body and all scopes around it.
-/

namespace TestProgram

/-- What a statement in a flow asks for. -/
inductive FlowAction where
  | line (op : Opcode) (parameter : String) (attrs : List (String × String))
  /-- A scope in which the block of the statement runs. -/
  | scope (s : FlowScope)

namespace Statement

def jobScope (s : Statement) (scope : List String → FlowScope) : Except Diagnostic FlowAction := do
  let jobs ← s.words
  let _ ← s.needBlock
  pure (.scope (scope jobs))

def enableScope (s : Statement) (scope : String → FlowScope) : Except Diagnostic FlowAction := do
  let word ← s.word 0 .enableWord
  let _ ← s.needBlock
  pure (.scope (scope word))

def flowLine (s : Statement) : Except Diagnostic FlowAction := do
  s.refuseBlock
  match Opcode.ofName? s.name with
  | none => misuse s.head.span (.unknownStatement .flow s.name)
  | some op =>
    match s.values with
    | _ :: extra :: _ => misuse extra.span (.secondParameter s.name)
    | vs =>
      pure (.line op ((vs.head?.map Value.cell).getD "") (s.pairs.map fun p => (p.1.text, p.2.cell)))

/-- The meaning of a statement in a flow. -/
def flowAction (s : Statement) : Except Diagnostic FlowAction :=
  match s.name with
  | "if_job" => s.jobScope .ifJob
  | "unless_job" => s.jobScope .unlessJob
  | "if_enable" => s.enableScope .ifEnable
  | "unless_enable" => s.enableScope .unlessEnable
  | _ => s.flowLine

mutual

def extend : Statement → FlowDraft → Except Diagnostic Unit × FlowDraft
  | .mk head args block span, d =>
    match flowAction (.mk head args block span) with
    | .error e => (.error e, d)
    | .ok (.line op parameter attrs) => (.ok (), (d.add op parameter attrs).2)
    | .ok (.scope s) => d.within s fun d => extendBlock block d

def extendBlock : Option (List Statement) → FlowDraft → Except Diagnostic Unit × FlowDraft
  | none, d => (.ok (), d)
  | some body, d => extendBody body d

def extendBody : List Statement → FlowDraft → Except Diagnostic Unit × FlowDraft
  | [], d => (.ok (), d)
  | s :: body, d =>
    match extend s d with
    | (.error e, d) => (.error e, d)
    | (.ok (), d) => extendBody body d

end

end Statement

end TestProgram
