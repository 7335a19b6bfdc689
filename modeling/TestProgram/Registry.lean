import TestProgram.Fault
import TestProgram.Warning

/-!
# The registry of names

All names that a run generates are registered, together with their kind and
the sheet they stand in. A sheet may not use a name of one kind twice. Two
sheets may, which is reported; the name stays with the sheet that had it
first.
-/

namespace TestProgram

structure RegistryEntry where
  kind : String
  name : String
  sheet : String
  deriving DecidableEq, Repr

structure Registry where
  entries : List RegistryEntry
  warnings : List Warning

namespace Registry

def empty : Registry := ⟨[], []⟩

/-- The sheet a name belongs to. -/
def owner? (r : Registry) (kind name : String) : Option String :=
  (r.entries.find? fun e => e.kind == kind && e.name == name).map RegistryEntry.sheet

def register (r : Registry) (kind sheet name : String) : Except Fault Registry :=
  match r.owner? kind name with
  | some owner =>
    if owner = sheet then .error (.duplicateName sheet name)
    else .ok { r with warnings := r.warnings ++ [.sharedName kind name sheet owner] }
  | none => .ok { r with entries := r.entries ++ [⟨kind, name, sheet⟩] }

/-- Registers the names of a sheet up to the first one that cannot be. -/
def registerAll (r : Registry) (kind sheet : String) : List String → Except Fault Unit × Registry
  | [] => (.ok (), r)
  | name :: names =>
    match r.register kind sheet name with
    | .ok r => r.registerAll kind sheet names
    | .error e => (.error e, r)

end Registry

end TestProgram
