import TestProgram.Flow.Line
import TestProgram.Flow.Relation
import TestProgram.Text.Split

/-!
# Drafts of flows

A `FlowDraft` collects the lines of a flow in their order. Lines stand under
the scopes that are open: job scopes add to their jobs, an enable scope fills
their enable column, and a scope for lines that an enabled word switches off
is a jump over them. Relations between lines are noted, and settled when the
flow is finished.
-/

namespace TestProgram

/-- A relation of the line at a position to an earlier line. -/
structure PendingRelation where
  line : Nat
  relation : Relation
  target : String
  deriving DecidableEq, Repr

/-- The attributes of a line, by what they are for. -/
structure Attributes where
  id : Option String
  relations : List (Relation × String)
  ifJobs : List String
  unlessJobs : List String
  enable : Option String
  /-- What is to go into columns. -/
  cells : List (String × String)

namespace Attributes

def empty : Attributes := ⟨none, [], [], [], none, []⟩

def add (a : Attributes) (key value : String) : Attributes :=
  match Relation.ofKey? key with
  | some r => { a with relations := a.relations ++ [(r, value)] }
  | none =>
    match key with
    | "id" => { a with id := some value }
    | "if_job" | "if_jobs" => { a with ifJobs := a.ifJobs ++ Text.entries value }
    | "unless_job" | "unless_jobs" => { a with unlessJobs := a.unlessJobs ++ Text.entries value }
    | "if_enable" => { a with enable := some value }
    | key => { a with cells := a.cells ++ [(key, value)] }

def ofList (attrs : List (String × String)) : Attributes :=
  attrs.foldl (fun a attr => a.add attr.1 attr.2) empty

end Attributes

structure FlowDraft where
  name : String
  lines : List FlowLine
  pending : List PendingRelation
  /-- The jobs of the open job scopes, the outermost first. -/
  ifJobs : List String
  unlessJobs : List String
  /-- The words of the open enable scopes, the innermost first. -/
  enables : List String
  /-- How many lines have been jumped over so far, scope by scope. -/
  skips : Nat
  warnings : List Warning

/-- A setting under which lines are added. -/
inductive FlowScope where
  | ifJob (jobs : List String)
  | unlessJob (jobs : List String)
  | ifEnable (word : String)
  | unlessEnable (word : String)
  deriving DecidableEq, Repr

namespace FlowDraft

def new (name : String) : FlowDraft := ⟨name, [], [], [], [], [], 0, []⟩

/-- Adds a line. Its name is given by an attribute or by its position. -/
def add (d : FlowDraft) (op : Opcode) (parameter : String) (attrs : List (String × String)) :
    String × FlowDraft :=
  let a := Attributes.ofList attrs
  let position := d.lines.length
  let id := a.id.getD s!"t{position + 1}"
  let (line, warnings) := (FlowLine.new id op parameter).withAttributes a.cells
  let line := (line.addIfJobs (d.ifJobs ++ a.ifJobs)).addUnlessJobs (d.unlessJobs ++ a.unlessJobs)
  let line := match line.get? .enable with
    | some _ => line
    | none => line.setIf .enable (a.enable.or d.enables.head?)
  (id, { d with
    lines := d.lines ++ [line]
    pending := d.pending ++ a.relations.map fun r => ⟨position, r.1, r.2⟩
    warnings := d.warnings ++ warnings })

/-- The position of the last line with a name. -/
def lastNamed? (id : String) (lines : List FlowLine) : Option Nat :=
  (lines.zipIdx.reverse.find? fun l => l.1.id == id).map Prod.snd

/-- Notes a relation of the last line with a name to an earlier line. -/
def relate (d : FlowDraft) (id : String) (relation : Relation) (target : String) : Except Fault FlowDraft :=
  match lastNamed? id d.lines with
  | some line => .ok { d with pending := d.pending ++ [⟨line, relation, target⟩] }
  | none => .error (.unresolvedReference id target)

/-! ## Scopes -/

def withinIfEnable (d : FlowDraft) (word : String) (body : FlowDraft → β × FlowDraft) : β × FlowDraft :=
  let (b, d') := body { d with enables := word :: d.enables }
  (b, { d' with enables := d.enables })

/-- The body is jumped over when the word is enabled. -/
def withinUnlessEnable (d : FlowDraft) (word : String) (body : FlowDraft → β × FlowDraft) : β × FlowDraft :=
  let d := { d with skips := d.skips + 1 }
  let label := s!"skip_{word}_{d.skips}"
  let (_, d) := d.withinIfEnable word fun d => d.add .goto label []
  let (b, d) := body d
  let (_, d) := d.add .nop "" [("label", label)]
  (b, d)

/-- Adds lines in a scope. What the body answers is passed on, and the scope
ends in the same way whatever that is. -/
def within (d : FlowDraft) (s : FlowScope) (body : FlowDraft → β × FlowDraft) : β × FlowDraft :=
  match s with
  | .ifJob jobs =>
    let (b, d') := body { d with ifJobs := d.ifJobs ++ jobs }
    (b, { d' with ifJobs := d.ifJobs })
  | .unlessJob jobs =>
    let (b, d') := body { d with unlessJobs := d.unlessJobs ++ jobs }
    (b, { d' with unlessJobs := d.unlessJobs })
  | .ifEnable word => d.withinIfEnable word body
  | .unlessEnable word => d.withinUnlessEnable word body

end FlowDraft

end TestProgram
