import TestProgram.Pattern.Item
import TestProgram.Text.Lines

/-!
# Listings

A pattern for human readers, with loops indented.
-/

namespace TestProgram.Listing

def vectorText (r : VectorRecord) : String :=
  Text.padLeft 8 (toString r.start) ++ "  " ++ r.timeset ++ "  "
    ++ String.ofList (r.states.map PinState.symbol) ++ s!"  x{r.count}"
    ++ (r.label.map ("  label=" ++ ·)).getD "" ++ (r.call.map ("  call=" ++ ·)).getD ""
    ++ if r.store then "  store" else ""

/-- The lines of items at a depth of nesting. -/
def itemLines : (depth : Nat) → List Item → List String
  | _, [] => []
  | depth, .vector r :: items => (Text.indent depth ++ vectorText r) :: itemLines depth items
  | depth, .comment text :: items => (Text.indent depth ++ "# " ++ text) :: itemLines depth items
  | depth, .loopStart label count :: items =>
    (Text.indent depth ++ "loop " ++ label ++ s!" x{count} \x7b") :: itemLines (depth + 1) items
  | depth, .loopEnd _ :: items => (Text.indent (depth - 1) ++ "\x7d") :: itemLines (depth - 1) items

def timesetLine (t : Timeset) : String :=
  "timeset " ++ t.name ++ " " ++ (t.period.map Duration.text).getD ""

def lines (p : Pattern) : List String :=
  ["pattern " ++ p.name, "pins " ++ " ".intercalate p.pins]
  ++ p.timesets.map timesetLine
  ++ itemLines 0 p.items
  ++ [s!"total {p.cycles} cycles ({p.executed} executed)"]

end TestProgram.Listing
