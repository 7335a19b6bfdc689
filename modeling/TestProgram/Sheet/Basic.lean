import TestProgram.Registry

/-!
# Sheets

A sheet is a list of named entries. `Sheet.unify` leaves out entries that
occur before and gives versions to those that share a name: they become
`name_v1`, `name_v2`, … in their order.
-/

namespace TestProgram

/-- What the entries of a sheet hold. -/
class SheetContent (α : Type) where
  /-- The kind of the names in such sheets. -/
  kind : String
  /-- A text by which contents are told apart. -/
  key : α → String

structure SheetEntry (α : Type) where
  base : String
  content : α
  version : Option Nat
  deriving DecidableEq, Repr

namespace SheetEntry

/-- The name in the finished sheet. -/
def name (e : SheetEntry α) : String :=
  match e.version with
  | some v => s!"{e.base}_v{v}"
  | none => e.base

/-- Whether two entries are the same but for their versions. -/
def agrees [SheetContent α] (e f : SheetEntry α) : Bool :=
  e.base == f.base && SheetContent.key e.content == SheetContent.key f.content

end SheetEntry

structure Sheet (α : Type) where
  name : String
  entries : List (SheetEntry α)
  deriving DecidableEq, Repr

namespace Sheet

def new (name : String) : Sheet α := ⟨name, []⟩

def add (s : Sheet α) (base : String) (content : α) : Sheet α :=
  { s with entries := s.entries ++ [⟨base, content, none⟩] }

def names (s : Sheet α) : List String := s.entries.map SheetEntry.name

variable [SheetContent α]

/-- The entries that no entry before them agrees with. -/
def firsts : (seen : List (SheetEntry α)) → List (SheetEntry α) → List (SheetEntry α)
  | _, [] => []
  | seen, e :: es =>
    if seen.any e.agrees then firsts seen es else e :: firsts (e :: seen) es

/-- The version of an entry among all: none if its name occurs once. -/
def versionIn (es : List (SheetEntry α)) (e : SheetEntry α) : Option Nat :=
  match es.filter fun f => f.base == e.base with
  | [_] => none
  | group => (group.findIdx? e.agrees).map (· + 1)

/-- All entries with their versions. -/
def versioned (es : List (SheetEntry α)) : List (SheetEntry α) :=
  es.map fun e => { e with version := versionIn es e }

/-- The first name that occurs before in a list. -/
def repeated? : (seen : List String) → List String → Option String
  | _, [] => none
  | seen, n :: ns => if seen.contains n then some n else repeated? (n :: seen) ns

/-- Leaves out repeated entries and gives versions to the others. Versions
can make a name that is taken; the sheet is changed all the same. -/
def unify (s : Sheet α) : Except Fault Unit × Sheet α :=
  let s := { s with entries := versioned (firsts [] s.entries) }
  match repeated? [] s.names with
  | some name => (.error (.duplicateName s.name name), s)
  | none => (.ok (), s)

/-- Registers the names of a sheet. -/
def register (s : Sheet α) (r : Registry) : Except Fault Unit × Registry :=
  r.registerAll (SheetContent.kind α) s.name s.names

end Sheet

end TestProgram
