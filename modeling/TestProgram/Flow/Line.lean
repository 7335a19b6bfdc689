import TestProgram.Fault
import TestProgram.Flow.Column
import TestProgram.Flow.Opcode
import TestProgram.Warning

/-!
# Lines of a flow

A line has an operation and fills some of the columns. It may be restricted
to some jobs or kept out of some, which goes into the job column at the end;
a line that asks for both is faulty then and not before.
-/

namespace TestProgram

structure FlowLine where
  /-- The name under which other lines of the flow refer to this one. -/
  id : String
  op : Opcode
  cells : Column → Option String
  ifJobs : List String
  unlessJobs : List String

namespace FlowLine

def get? (l : FlowLine) (c : Column) : Option String := l.cells c

def set (l : FlowLine) (c : Column) (value : String) : FlowLine :=
  { l with cells := fun d => if d = c then some value else l.cells d }

@[simp] theorem get?_set_self (l : FlowLine) (c : Column) (v : String) : (l.set c v).get? c = some v := by
  simp [get?, set]

theorem get?_set_of_ne (l : FlowLine) {c d : Column} (v : String) (h : d ≠ c) :
    (l.set c v).get? d = l.get? d := by
  simp [get?, set, h]

/-- Fills a column if there is something to fill it with. -/
def setIf (l : FlowLine) (c : Column) : Option String → FlowLine
  | some v => l.set c v
  | none => l

/-- A line without attributes. -/
def new (id : String) (op : Opcode) (parameter : String) : FlowLine :=
  let l := (⟨id, op, fun _ => none, [], []⟩ : FlowLine).set .opcode op.text
  let l := if parameter.isEmpty then l else l.set .parameter parameter
  l.setIf .result op.defaultResult?

def parameter (l : FlowLine) : String := (l.get? .parameter).getD ""

/-- Fills the columns that attributes name, with a warning for each attribute
that names none. -/
def withAttributes (l : FlowLine) : List (String × String) → FlowLine × List Warning
  | [] => (l, [])
  | (key, value) :: attrs =>
    match Column.ofAttribute? key with
    | some c => (l.set c value).withAttributes attrs
    | none =>
      let (l', warnings) := l.withAttributes attrs
      (l', .unknownAttribute l.id key :: warnings)

/-- A list of jobs with one more, unless it has that one. -/
def addJob (jobs : List String) (job : String) : List String :=
  if jobs.contains job then jobs else jobs ++ [job]

def addIfJobs (l : FlowLine) (jobs : List String) : FlowLine :=
  { l with ifJobs := jobs.foldl addJob l.ifJobs }

def addUnlessJobs (l : FlowLine) (jobs : List String) : FlowLine :=
  { l with unlessJobs := jobs.foldl addJob l.unlessJobs }

/-- What belongs into the job column. -/
def job? (l : FlowLine) : Except Fault (Option String) :=
  match l.ifJobs, l.unlessJobs with
  | [], [] => .ok none
  | jobs, [] => .ok (some (",".intercalate jobs))
  | [], jobs => .ok (some (",".intercalate (jobs.map ("!" ++ ·))))
  | _, _ => .error (.jobConflict l.id)

/-- The line with its job column. -/
def freeze (l : FlowLine) : Except Fault FlowLine := do
  let job ← l.job?
  pure (l.setIf .job job)

/-- The filled columns from left to right. -/
def columns (l : FlowLine) : List (Column × String) :=
  Column.all.filterMap fun c => (l.get? c).map fun v => (c, v)

/-- All columns from left to right, those that are not filled empty. -/
def row (l : FlowLine) : List String := Column.all.map fun c => (l.get? c).getD ""

/-- Whether two lines are the same but for the names they go by. -/
def agrees (l m : FlowLine) : Bool :=
  l.op == m.op && l.columns == m.columns && l.ifJobs == m.ifJobs && l.unlessJobs == m.unlessJobs

end FlowLine

/-- A finished flow. -/
structure Flow where
  name : String
  lines : List FlowLine

end TestProgram
