/-!
# The columns of a flow

A flow is a table with 27 columns. Attributes of lines are written under the
names of columns or under other customary names (`Column.ofAttribute?`). Some
columns say when a line runs, the others what it does (`Column.isContext`).
-/

namespace TestProgram

inductive Column where
  | label | enable | job | part | env | opcode | parameter | tname | tnum
  | binPass | binFail | sortPass | sortFail | result | flagPass | flagFail | state
  | groupSpecifier | groupSense | groupCondition | groupName
  | deviceSense | deviceCondition | deviceName
  | debugAssume | debugSites | comment
  deriving DecidableEq, Repr

namespace Column

/-- The columns from left to right. -/
def all : List Column := [
  label, enable, job, part, env, opcode, parameter, tname, tnum,
  binPass, binFail, sortPass, sortFail, result, flagPass, flagFail, state,
  groupSpecifier, groupSense, groupCondition, groupName,
  deviceSense, deviceCondition, deviceName,
  debugAssume, debugSites, comment]

theorem mem_all (c : Column) : c ∈ all := by cases c <;> decide

theorem nodup_all : all.Nodup := by decide

def name : Column → String
  | label => "label"
  | enable => "enable"
  | job => "job"
  | part => "part"
  | env => "env"
  | opcode => "opcode"
  | parameter => "parameter"
  | tname => "tname"
  | tnum => "tnum"
  | binPass => "bin_pass"
  | binFail => "bin_fail"
  | sortPass => "sort_pass"
  | sortFail => "sort_fail"
  | result => "result"
  | flagPass => "flag_pass"
  | flagFail => "flag_fail"
  | state => "state"
  | groupSpecifier => "group_specifier"
  | groupSense => "group_sense"
  | groupCondition => "group_condition"
  | groupName => "group_name"
  | deviceSense => "device_sense"
  | deviceCondition => "device_condition"
  | deviceName => "device_name"
  | debugAssume => "debug_assume"
  | debugSites => "debug_sites"
  | comment => "comment"

/-- Whether the column says when a line runs. -/
def isContext : Column → Bool
  | enable | job | part | env => true
  | groupSpecifier | groupSense | groupCondition | groupName => true
  | deviceSense | deviceCondition | deviceName => true
  | _ => false

/-- The customary names of columns. -/
def alias? : String → Option Column
  | "bin" | "hardbin" | "hard_bin" => some binFail
  | "softbin" | "sbin" | "soft_bin" => some sortFail
  | "name" => some tname
  | "number" | "test_number" | "test_num" => some tnum
  | "type" => some result
  | "flag_false" => some flagFail
  | "flag_true" => some flagPass
  | "description" => some comment
  | _ => none

/-- The column that an attribute fills. The job column is filled from the jobs
of a line and by no attribute. -/
def ofAttribute? (key : String) : Option Column :=
  (all.find? fun c => c.name == key && c ≠ job).or (alias? key)

end Column

end TestProgram
