import TestProgram.Number.Layout
import TestProgram.Script.Tree
import TestProgram.Text.Quoted

/-!
# Listings of scripts

A listing shows how a script was read, every part with its place. `Dump` is
the shape of such a listing: atoms, and groups of entries between brackets,
one entry on a line, with four spaces for every level.
-/

namespace TestProgram

inductive Dump where
  | atom (text : String)
  /-- Entries with a label each, between brackets. -/
  | group (opening : String) (entries : List (String × Dump)) (closing : String)

namespace Dump

def indent (depth : Nat) : String := "".pushn ' ' (4 * depth)

mutual

/-- The text of a listing whose first line stands at a depth. -/
def write : (depth : Nat) → Dump → String
  | _, atom text => text
  | _, group opening [] closing => opening ++ closing
  | depth, group opening (e :: es) closing =>
    opening ++ "\n" ++ writeEntry (depth + 1) e ++ writeEntries (depth + 1) es ++ indent depth ++ closing

def writeEntry : (depth : Nat) → String × Dump → String
  | depth, (label, d) => indent depth ++ label ++ write depth d ++ ",\n"

def writeEntries : (depth : Nat) → List (String × Dump) → String
  | _, [] => ""
  | depth, e :: es => writeEntry depth e ++ writeEntries depth es

end

def text (d : Dump) : String := write 0 d

/-! ## Shapes -/

def list (items : List Dump) : Dump := group "[" (items.map fun d => ("", d)) "]"

/-- A name with values in parentheses. -/
def named (name : String) (values : List Dump) : Dump :=
  group (name ++ "(") (values.map fun d => ("", d)) ")"

/-- A name with fields in braces. -/
def record (name : String) (fields : List (String × Dump)) : Dump :=
  group (name ++ " \x7b") (fields.map fun f => (f.1 ++ ": ", f.2)) "\x7d"

end Dump

open Dump (atom list named record)

def Span.dump (s : Span) : Dump := atom s!"{s.start}..{s.stop}"

def Word.dump (w : Word) : Dump := record "Ident" [
  ("name", atom (Text.Quoted.visible w.text.toList)),
  ("span", w.span.dump)]

def Value.dump : Value → Dump
  | word w => named "Word" [w.dump]
  | number x s => named "Number" [atom (Layout.data.text x), s.dump]
  | duration d s => named "Time" [named "Time" [atom (toString d.picoseconds)], s.dump]
  | frequency f s => named "Freq" [atom (Layout.data.text f.hertz), s.dump]
  | text t s => named "Str" [atom (Text.Quoted.visible t.toList), s.dump]

def Argument.dump : Argument → Dump
  | plain v => v.dump
  | named key v => Dump.named "Pair" [key.dump, v.dump]

namespace Statement

mutual

def dump : Statement → Dump
  | mk head args block span => record "Command" [
    ("head", head.dump),
    ("args", list (args.map Argument.dump)),
    ("block", dumpBlock block),
    ("span", span.dump)]

def dumpBlock : Option (List Statement) → Dump
  | none => atom "None"
  | some body => named "Some" [list (dumpBody body)]

def dumpBody : List Statement → List Dump
  | [] => []
  | s :: body => dump s :: dumpBody body

end

end Statement

namespace Declared

def dumpBody (name : Word) (body : List Statement) : Dump := record "NamedBlock" [
  ("name", name.dump),
  ("body", list (Statement.dumpBody body))]

def dump : Declared → Dump
  | pins names => named "Pins" [list (names.map Word.dump)]
  | pattern name body => named "Pattern" [dumpBody name body]
  | flow name body => named "Flow" [dumpBody name body]
  | testInstance name args => record "Instance" [
    ("name", name.dump),
    ("args", list (args.map Argument.dump))]
  | patternSet name patterns => record "Patset" [
    ("name", name.dump),
    ("patterns", list (patterns.map Word.dump))]

end Declared

def Declaration.dump (d : Declaration) : Dump := record "Item" [
  ("kind", d.content.dump),
  ("span", d.span.dump)]

def Script.dump (s : Script) : Dump := record "Script" [
  ("items", list (s.declarations.map Declaration.dump)),
  ("span", s.span.dump)]

end TestProgram
