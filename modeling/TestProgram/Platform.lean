import TestProgram.Flow.Format
import TestProgram.Number.Word

/-!
# Platforms

The testers and debuggers that patterns are written for, and what each of
them asks of a pattern and its files.
-/

namespace TestProgram

inductive Platform where
  | j750 | ultraFlex | v93k | jlink | bdm | doc
  deriving DecidableEq, Repr

namespace Platform

def all : List Platform := [j750, ultraFlex, v93k, jlink, bdm, doc]

def name : Platform → String
  | j750 => "j750"
  | ultraFlex => "ultraflex"
  | v93k => "v93k"
  | jlink => "jlink"
  | bdm => "bdm"
  | doc => "doc"

/-- The platform in data documents. -/
def title : Platform → String
  | j750 => "J750"
  | ultraFlex => "UltraFlex"
  | v93k => "V93K"
  | jlink => "JLink"
  | bdm => "Bdm"
  | doc => "Doc"

/-- The largest repeat count of a vector. A vector table with a repeat field
of 16 bits has one. -/
def maxRepeat : Platform → Option Nat
  | j750 | ultraFlex => some 65535
  | _ => none

/-- The extension of pattern files. -/
def extension : Platform → String
  | j750 | ultraFlex => "atp"
  | v93k => "avc"
  | jlink => "jlk"
  | bdm => "bdm"
  | doc => "txt"

/-- Whether a pattern is a row of commands and not a table of vectors. -/
def isCommandBased : Platform → Bool
  | jlink | bdm => true
  | _ => false

def flowFormat : Platform → FlowFormat
  | j750 | ultraFlex => .tabular
  | _ => .yaml

/-- What begins a line comment in a pattern. -/
def comment : Platform → String
  | v93k | doc => "#"
  | _ => "//"

def fileName (p : Platform) (pattern : String) : String := pattern ++ "." ++ p.extension

/-- The platform of a given name, in any letter case; otherwise why there is
none. -/
def ofName (name : String) : Except String Platform :=
  match all.find? fun p => p.name == Text.lower name with
  | some p => .ok p
  | none => .error ("unknown platform '" ++ name ++ "' (expected one of: "
      ++ ", ".intercalate (all.map Platform.name) ++ ")")

end Platform

end TestProgram
