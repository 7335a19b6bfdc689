import TestProgram.Pattern.Item
import TestProgram.Text.Lines

/-!
# Tables of vector groups

The pattern files of testers that count in vector groups. A vector held for
`n` cycles in groups of `g` is written as `n / g` repetitions, so `g` has to
divide `n`. Calls, stores and loops are sequencer instructions on lines of
their own.
-/

namespace TestProgram.GroupTable

def vectorLine (r : VectorRecord) (group : Nat) : String :=
  s!"R{r.count / group} {r.timeset} " ++ String.ofList (r.states.map PinState.symbol) ++ " ;"

def itemLines : Item → Except RenderFault (List String)
  | .vector r =>
    let group := max r.group 1
    if r.count % group ≠ 0 then .error (.brokenGroup r.count r.start group)
    else .ok ((r.label.map fun label => "# " ++ label ++ ":").toList
      ++ (if r.store then ["SQPG STVE;"] else [])
      ++ (r.call.map fun target => "SQPG CALL " ++ target ++ ";").toList
      ++ [vectorLine r group])
  | .comment text => .ok ["# " ++ text]
  | .loopStart label count => .ok [s!"SQPG LBGN {count}; # {label}"]
  | .loopEnd _ => .ok ["SQPG LEND;"]

def lines (p : Pattern) : Except RenderFault (List String) := do
  let body ← p.items.mapM itemLines
  pure (("FORMAT " ++ " ".intercalate p.pins ++ ";") :: body.flatten)

end TestProgram.GroupTable
