import TestProgram.CommandLine.Files

/-!
# Disks

A `Disk` is a tree of directories and files as data. Commands that are carried
out on a disk (`Disk.access`) show what they leave behind.

A path is followed name by name (`Disk.follow`); every name but the last has
to lead to a directory that is there, also where the next one leads back up.
Making a directory first makes those above it (`Disk.makeAll`).
-/

namespace TestProgram

/-- The names from the root to a place. -/
abbrev Route := List String

structure Disk where
  /-- Where relative paths begin. -/
  current : Route
  directories : List Route
  files : List (Route × String)

/-- What a path leads to. -/
inductive Place where
  | directory (r : Route)
  | file (r : Route) (text : String)
  /-- Nothing, in a directory that is there. -/
  | free (r : Route)
  /-- Nothing, and some directory on the way is not there. -/
  | missing
  /-- Nothing, and there can be nothing. -/
  | blocked
  deriving DecidableEq, Repr

namespace Disk

/-- The most bytes that a name can have. -/
def longestName : Nat := 255

/-- The text of the file at a place. -/
def text? (d : Disk) (r : Route) : Option String := (d.files.find? fun f => f.1 == r).map Prod.snd

def addDirectory (d : Disk) (r : Route) : Disk := { d with directories := d.directories ++ [r] }

/-- Puts a file at a place, instead of the one that was there. -/
def put (d : Disk) (r : Route) (text : String) : Disk :=
  { d with files := (r, text) :: d.files.filter fun f => f.1 ≠ r }

theorem text?_put (d : Disk) (r : Route) (text : String) : (d.put r text).text? r = some text := by
  simp [text?, put]

/-! ## Paths -/

/-- Where a name leads from a directory. -/
def step (d : Disk) (r : Route) (name : String) : Place :=
  let next := r ++ [name]
  if name = "" ∨ name = "." then .directory r
  else if name = ".." then .directory r.dropLast
  else if d.directories.contains next then .directory next
  else match d.text? next with
    | some text => .file next text
    | none => if name.utf8ByteSize ≤ longestName then .free next else .blocked

/-- Where names lead from a directory, one after the other. -/
def follow (d : Disk) (r : Route) : List String → Place
  | [] => .directory r
  | name :: names =>
    match d.step r name with
    | .directory next => d.follow next names
    | .file next text => if names.isEmpty then .file next text else .blocked
    | .free next => if names.all (· == "") then .free next else .missing
    | place => place

/-- The place where a path begins. -/
def base (d : Disk) (path : String) : Route := if path.startsWith "/" then [] else d.current

/-- The names in a path, empty ones included. -/
def names (path : String) : List String := (Text.split '/' path.toList).map String.ofList

def locate (d : Disk) (path : String) : Place := d.follow (d.base path) (names path)

/-! ## Operations -/

/-- The ways to the directories above a path, the highest first. -/
def above (names : List String) : List (List String) :=
  let names := names.filter fun n => n ≠ "" ∧ n ≠ "."
  ((List.range names.length).drop 1).map names.take

/-- Makes one directory if it is not there. -/
def make (r : Route) (names : List String) : StateM Disk Bool := do
  let d ← get
  match d.follow r names with
  | .directory _ => pure true
  | .free next => do
    set (d.addDirectory next)
    pure true
  | _ => pure false

/-- Makes directories until one cannot be made. -/
def makeEach (r : Route) : List (List String) → StateM Disk Bool
  | [] => pure true
  | names :: rest => do
    if ← make r names then makeEach r rest else pure false

/-- Makes a directory, and those above it where they are not there. -/
def makeAll (r : Route) (names : List String) : StateM Disk Bool := do
  let d ← get
  if d.follow r names = .missing then makeEach r (above names ++ [names])
  else make r names

/-- Writes a file whose directory is there. -/
def write (path text : String) : StateM Disk Bool := do
  let d ← get
  match d.locate path with
  | .file r _ | .free r => do
    set (d.put r text)
    pure true
  | _ => pure false

def read (path : String) : StateM Disk (Option String) := do
  let d ← get
  match d.locate path with
  | .file _ text => pure (some text)
  | _ => pure none

/-- The files of a disk. -/
def access : FileAccess (StateM Disk) where
  read := read
  makeDirectory path := do
    let d ← get
    makeAll (d.base path) (names path)
  write := write

end Disk

end TestProgram
