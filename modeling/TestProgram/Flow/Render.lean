import TestProgram.Flow.Format
import TestProgram.Flow.Line
import TestProgram.Text.Lines
import TestProgram.Text.YamlScalar

/-!
# Writing flows

A flow is a table with a row for every line, or a YAML document with an entry
for every line. Both begin with a header of comment lines.
-/

namespace TestProgram

namespace Flow

def headerLines (header : List String) : List String := header.map ("# " ++ ·)

/-! ## Tables -/

/-- The cells of a row with tabs between them. -/
def tabbed (cells : List String) : String := "\t".intercalate cells

def tableLines (f : Flow) : List String :=
  ("Flow Table\t" ++ f.name) :: tabbed (Column.all.map Column.name)
    :: f.lines.map fun l => tabbed l.row

/-! ## YAML -/

/-- A mapping from columns to what they hold. -/
def mappingLines (key : String) : List (Column × String) → List String
  | [] => ["      " ++ key ++ ": \x7b\x7d"]
  | entries =>
    ("      " ++ key ++ ":")
      :: entries.map fun e => "        " ++ e.1.name ++ ": " ++ Text.YamlScalar.write e.2

/-- What a line is about: its comment, else the name of the test, else its
parameter. -/
def description (l : FlowLine) : String :=
  ((l.get? .comment).or (l.get? .tname)).getD l.parameter

/-- The columns that are not written at the head of an entry. -/
def furtherColumns (l : FlowLine) : List (Column × String) :=
  l.columns.filter fun e => !([Column.opcode, Column.parameter, Column.comment].contains e.1)

def entryLines (l : FlowLine) : List String :=
  ["  - type: " ++ Text.YamlScalar.write (Text.lower l.op.text),
    "    description: " ++ Text.YamlScalar.write (description l),
    "    instance: " ++ Text.YamlScalar.write l.parameter,
    "    flow:"]
  ++ mappingLines "attributes" ((furtherColumns l).filter fun e => !e.1.isContext)
  ++ mappingLines "context" ((furtherColumns l).filter fun e => e.1.isContext)

def yamlLines (f : Flow) : List String :=
  ("flow: " ++ Text.YamlScalar.write f.name) :: match f.lines with
    | [] => ["lines: []"]
    | lines => "lines:" :: lines.flatMap entryLines

/-- The text of a flow in a format. -/
def render (f : Flow) (format : FlowFormat) (header : List String) : String :=
  Text.unlines (headerLines header ++ match format with
    | .tabular => f.tableLines
    | .yaml => f.yamlLines)

end Flow

end TestProgram
