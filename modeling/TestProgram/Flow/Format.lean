import TestProgram.Text.Blank

/-!
# Flow formats

The two forms in which flows are written.
-/

namespace TestProgram

inductive FlowFormat where
  /-- Rows of cells separated by tabs. -/
  | tabular
  /-- A YAML document. -/
  | yaml
  deriving DecidableEq, Repr

namespace FlowFormat

/-- The format of a given name, in any letter case; otherwise why there is
none. -/
def ofName (name : String) : Except String FlowFormat :=
  match Text.lower name with
  | "tabular" | "tab" => .ok tabular
  | "yaml" | "yml" => .ok yaml
  | other => .error ("unknown flow format '" ++ other ++ "' (expected tabular or yaml)")

/-- The name of the file that holds a flow. -/
def fileName (format : FlowFormat) (flow : String) : String :=
  match format with
  | tabular => flow ++ ".txt"
  | yaml => flow ++ ".yaml"

end FlowFormat

end TestProgram
