import TestProgram.Fault
import TestProgram.Script.Misuse
import TestProgram.Script.SyntaxError
import TestProgram.Text.Quoted
import TestProgram.Warning

/-!
# Diagnostics

What a run reports: a problem and, where it has one, its place in the script.
-/

namespace TestProgram

inductive Problem where
  | warning (w : Warning)
  /-- A part of the script that is no token. -/
  | unrecognized (text : List Char)
  | grammar (e : SyntaxError)
  | misuse (m : Misuse)
  | fault (f : Fault)
  /-- A pattern that cannot be written. -/
  | unwritten (pattern : String) (f : Fault)

namespace Problem

def code : Problem → Code
  | warning w => w.code
  | unrecognized _ | grammar _ => .E0001
  | misuse _ => .E0002
  | fault _ | unwritten .. => .E0100

def message : Problem → String
  | warning w => w.message
  | unrecognized text => "unrecognized input " ++ Text.Quoted.visible text
  | grammar e => e.message
  | misuse m => m.message
  | fault f => f.message
  | unwritten pattern f => "pattern '" ++ pattern ++ "': " ++ f.message

def hint : Problem → Option String
  | warning w => w.hint
  | _ => none

end Problem

structure Diagnostic where
  problem : Problem
  span : Option Span

namespace Diagnostic

/-- A warning, which belongs to no place in the script. -/
def ofWarning (w : Warning) : Diagnostic := ⟨.warning w, none⟩

def code (d : Diagnostic) : Code := d.problem.code

def isError (d : Diagnostic) : Bool := d.code.isError

def message (d : Diagnostic) : String := d.problem.message

def hint (d : Diagnostic) : Option String := d.problem.hint

def level (d : Diagnostic) : String := if d.isError then "error" else "warning"

/-- The diagnostic as it is shown, on one line or two. -/
def text (d : Diagnostic) : String :=
  d.level ++ "[" ++ d.code.text ++ "]: " ++ d.message ++ match d.hint with
    | some hint => "\n  hint: " ++ hint
    | none => ""

end Diagnostic

end TestProgram
