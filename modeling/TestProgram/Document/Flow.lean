import TestProgram.Document.Basic
import TestProgram.Flow.Line

/-!
# Flows as documents

The shape of flows in data documents.
-/

namespace TestProgram

open Document (record text texts)

def FlowLine.document (l : FlowLine) : Document := record [
  ("id", text l.id),
  ("op", text l.op.title),
  ("columns", record (l.columns.map fun e => (e.1.name, text e.2))),
  ("if_jobs", texts l.ifJobs),
  ("unless_jobs", texts l.unlessJobs)]

def Flow.document (f : Flow) : Document := record [
  ("name", text f.name),
  ("lines", .list (f.lines.map FlowLine.document))]

end TestProgram
