import TestProgram.Sheet.Basic
import TestProgram.Text.Lines

/-!
# Test instances

A test instance is a test of some kind with attributes. Attributes are kept
in the order of their keys.
-/

namespace TestProgram

structure TestInstance where
  kind : String
  /-- Pairs of keys and values in ascending order of the keys, each once. -/
  attrs : List (String × String)
  deriving DecidableEq, Repr

namespace TestInstance

/-- Sets an attribute in an ordered list of them. -/
def insertAttr (key value : String) : List (String × String) → List (String × String)
  | [] => [(key, value)]
  | (k, v) :: attrs =>
    if key < k then (key, value) :: (k, v) :: attrs
    else if key = k then (key, value) :: attrs
    else (k, v) :: insertAttr key value attrs

/-- An instance with attributes, of which the last with a key counts. -/
def ofAttributes (kind : String) (attrs : List (String × String)) : TestInstance :=
  ⟨kind, attrs.foldl (fun l a => insertAttr a.1 a.2 l) []⟩

/-- The attributes as `key=value`. -/
def attrTexts (t : TestInstance) : List String := t.attrs.map fun a => a.1 ++ "=" ++ a.2

end TestInstance

/-- Separates the parts of a key. -/
def keySeparator : String := "\x1f"

instance : SheetContent TestInstance where
  kind := "instance"
  key t := String.join (t.kind :: t.attrTexts.map (keySeparator ++ ·))

namespace TestInstance

def sheetLines (s : Sheet TestInstance) : List String :=
  ("Test Instances\t" ++ s.name) :: "name\ttype\tattributes"
    :: s.entries.map fun e =>
      e.name ++ "\t" ++ e.content.kind ++ "\t" ++ " ".intercalate e.content.attrTexts

/-- The text of a sheet of instances. -/
def sheetText (s : Sheet TestInstance) : String := Text.unlines (sheetLines s)

end TestInstance

end TestProgram
