import TestProgram.Text.Blank

/-!
# The operations of a flow

What a line of a flow makes the tester do.
-/

namespace TestProgram

inductive Opcode where
  | test
  | characterize
  | goto
  | nop
  | setDevice
  | setErrorBin
  | enableWord
  | disableWord
  | log
  | useLimit
  | flagTrue
  | flagFalse
  | defaults
  deriving DecidableEq, Repr

namespace Opcode

/-- The operation in flow tables. -/
def text : Opcode → String
  | test => "Test"
  | characterize => "characterize"
  | goto => "goto"
  | nop => "nop"
  | setDevice => "set-device"
  | setErrorBin => "set-error-bin"
  | enableWord => "enable-flow-word"
  | disableWord => "disable-flow-word"
  | log => "logprint"
  | useLimit => "Use-Limit"
  | flagTrue => "flag-true"
  | flagFalse => "flag-false"
  | defaults => "defaults"

/-- The operation in data documents. -/
def title : Opcode → String
  | test => "Test"
  | characterize => "Cz"
  | goto => "Goto"
  | nop => "Nop"
  | setDevice => "SetDevice"
  | setErrorBin => "SetErrorBin"
  | enableWord => "EnableFlowWord"
  | disableWord => "DisableFlowWord"
  | log => "Logprint"
  | useLimit => "UseLimit"
  | flagTrue => "FlagTrue"
  | flagFalse => "FlagFalse"
  | defaults => "Defaults"

/-- The operation of a given name, in any letter case and with hyphens or
underscores. -/
def ofName? (name : String) : Option Opcode :=
  match String.ofList ((Text.lower name).toList.map fun c => if c = '-' then '_' else c) with
  | "test" => some test
  | "cz" | "characterize" => some characterize
  | "goto" => some goto
  | "nop" => some nop
  | "set_device" | "bin" => some setDevice
  | "set_error_bin" => some setErrorBin
  | "enable_flow_word" | "enable" => some enableWord
  | "disable_flow_word" | "disable" => some disableWord
  | "logprint" | "log" => some log
  | "use_limit" => some useLimit
  | "flag_true" => some flagTrue
  | "flag_false" => some flagFalse
  | "defaults" => some defaults
  | _ => none

/-- What the result column holds unless something else is said. -/
def defaultResult? : Opcode → Option String
  | test | useLimit => some "Fail"
  | characterize => some "None"
  | _ => none

end Opcode

end TestProgram
