import TestProgram.Flow.Draft

/-!
# Finishing flows

Finishing a draft settles its relations in the order they were noted: the
earlier line sets a flag, the later one tests it. A flag for having run is
set by a line of its own right after the earlier line. Then the job columns
are filled and every jump is checked for its label.
-/

namespace TestProgram

/-- Relations settled so far. -/
structure Settlement where
  lines : List FlowLine
  /-- The lines that test a flag, once for every flag. -/
  conditions : List Nat
  /-- The lines whose having run is tested. -/
  ran : List Nat

namespace Settlement

/-- Makes the line at a position set the flag for an outcome. -/
def raise (s : Settlement) (position : Nat) (outcome : TestOutcome) (flag : String) : Settlement :=
  match outcome with
  | .passed => { s with
      lines := s.lines.modify position fun l => (l.set .result "None").set .flagPass flag }
  | .failed => { s with
      lines := s.lines.modify position fun l => (l.set .result "None").set .flagFail flag }
  | .ran => { s with ran := position :: s.ran }

/-- A line that tests a flag in its first condition. -/
def firstCondition (sense flag : String) (l : FlowLine) : FlowLine :=
  ((l.set .deviceSense sense).set .deviceCondition "flag-true").set .deviceName flag

/-- A line that tests a flag in its second condition. -/
def secondCondition (sense flag : String) (l : FlowLine) : FlowLine :=
  (((l.set .groupSpecifier "all-active").set .groupSense sense).set .groupCondition "flag-true").set
    .groupName flag

/-- Makes the line at a position test a flag. There is room for two. -/
def test (s : Settlement) (position : Nat) (sense flag : String) : Except Fault Settlement :=
  let tested := { s with conditions := position :: s.conditions }
  match s.conditions.count position with
  | 0 => .ok { tested with lines := s.lines.modify position (firstCondition sense flag) }
  | 1 => .ok { tested with lines := s.lines.modify position (secondCondition sense flag) }
  | _ => .error (.tooManyConditions ((s.lines[position]?.map FlowLine.id).getD ""))

/-- Settles one relation. It is to the last line of that name before the line
that has it. -/
def settle (s : Settlement) (p : PendingRelation) : Except Fault Settlement :=
  match FlowDraft.lastNamed? p.target (s.lines.take p.line) with
  | none => .error (.unresolvedReference ((s.lines[p.line]?.map FlowLine.id).getD "") p.target)
  | some target =>
    let flag := p.relation.flag p.target
    (s.raise target p.relation.outcome flag).test p.line p.relation.sense flag

/-- The line that sets the flag for a line's having run, gated like it. -/
def ranLine (l : FlowLine) : FlowLine :=
  let flag := (⟨.ran, false⟩ : Relation).flag l.id
  let gate (m : FlowLine) (c : Column) : FlowLine := m.setIf c (l.get? c)
  [Column.enable, Column.part, Column.env].foldl gate (FlowLine.new (l.id ++ "_ran") .flagTrue flag)

/-- All lines, each of those whose having run is tested followed by the line
that sets the flag. -/
def allLines (s : Settlement) : List FlowLine :=
  s.lines.zipIdx.flatMap fun l => if s.ran.contains l.2 then [l.1, ranLine l.1] else [l.1]

end Settlement

namespace FlowDraft

/-- The labels of lines, which jumps can go to. -/
def labels (lines : List FlowLine) : List String := lines.filterMap fun l => l.get? .label

/-- A line with its job column, if it is no jump to nowhere. -/
def sealLine (labels : List String) (l : FlowLine) : Except Fault FlowLine := do
  let l ← l.freeze
  if l.op = .goto ∧ !labels.contains l.parameter then throw (.unresolvedReference l.id l.parameter)
  else pure l

/-- The finished flow; its warnings are those of the draft. -/
def finish (d : FlowDraft) : Except Fault Flow := do
  let settled ← d.pending.foldlM Settlement.settle ⟨d.lines, [], []⟩
  let lines := settled.allLines
  let lines ← lines.mapM (sealLine (labels lines))
  pure ⟨d.name, lines⟩

end FlowDraft

end TestProgram
