import TestProgram.Flow.Finish

/-!
# Programs for drafts of flows

A `FlowOperation` is a request to a draft as data, scopes with their bodies
included. `FlowOperation.perform` carries one out; a body ends at the first
operation that fails. Every step leaves an entry in a log, those of a body
before that of its scope.
-/

namespace TestProgram

inductive FlowOperation where
  | add (op : Opcode) (parameter : String) (attrs : List (String × String))
  | relate (id : String) (relation : Relation) (target : String)
  | scope (s : FlowScope) (body : List FlowOperation)

/-- A step that was carried out: the name of the line it added, if it did,
and the draft after it. -/
structure FlowEntry where
  answer : Except Fault (Option String)
  after : FlowDraft

/-- The outcome of operations: whether they succeeded, and their log. -/
structure FlowPerformance where
  answer : Except Fault (Option String)
  log : List FlowEntry

namespace FlowOperation

mutual

def perform : FlowOperation → FlowDraft → FlowPerformance × FlowDraft
  | .add op parameter attrs, d =>
    let (id, d) := d.add op parameter attrs
    (⟨.ok (some id), [⟨.ok (some id), d⟩]⟩, d)
  | .relate id relation target, d =>
    match d.relate id relation target with
    | .ok d => (⟨.ok none, [⟨.ok none, d⟩]⟩, d)
    | .error e => (⟨.error e, [⟨.error e, d⟩]⟩, d)
  | .scope s body, d =>
    let (p, d) := d.within s fun d => performBody body d
    (⟨p.answer, p.log ++ [⟨p.answer, d⟩]⟩, d)

/-- Carries out operations up to the first one that fails. -/
def performBody : List FlowOperation → FlowDraft → FlowPerformance × FlowDraft
  | [], d => (⟨.ok none, []⟩, d)
  | op :: ops, d =>
    match perform op d with
    | (⟨.error e, log⟩, d) => (⟨.error e, log⟩, d)
    | (⟨.ok _, log⟩, d) =>
      let (p, d) := performBody ops d
      (⟨p.answer, log ++ p.log⟩, d)

end

/-- Carries out operations one after the other, whether they fail or not. -/
def performAll : List FlowOperation → FlowDraft → List FlowEntry × FlowDraft
  | [], d => ([], d)
  | op :: ops, d =>
    let (p, d) := perform op d
    let (log, d) := performAll ops d
    (p.log ++ log, d)

end FlowOperation

end TestProgram
