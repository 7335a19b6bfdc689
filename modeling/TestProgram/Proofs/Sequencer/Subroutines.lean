import TestProgram.Proofs.Sequencer.Setups

/-!
# The names that operations leave alone

A sequencer keeps the name of its pattern, and the names of the subroutines
that are called and defined. Of the operations without a body only a call
and a definition add to these, whether they fail or not, and only the end of
the pattern takes them back (`perform_names`).
-/

namespace TestProgram

namespace Sequencer

/-- `c'` has the name of `c` and the same subroutines. -/
structure SameNames (c c' : Sequencer) : Prop where
  name : c'.name = c.name
  called : c'.called = c.called
  defined : c'.defined = c.defined

namespace SameNames

variable {c c' c'' : Sequencer}

theorem refl (c : Sequencer) : SameNames c c := ⟨rfl, rfl, rfl⟩

theorem trans (h : SameNames c c') (h' : SameNames c' c'') : SameNames c c'' :=
  ⟨h'.name.trans h.name, h'.called.trans h.called, h'.defined.trans h.defined⟩

/-- What setting up vectors leaves alone has the names. -/
theorem of_core (h : c'.core = c.core) : SameNames c c' where
  name := (congrArg Sequencer.name h :)
  called := (congrArg Sequencer.called h :)
  defined := (congrArg Sequencer.defined h :)

theorem of_settle {c₁ : Sequencer} {r : Except Fault Sequencer} (hc : SameNames c c₁)
    (hr : ∀ c', r = .ok c' → SameNames c c') : SameNames c (c₁.settle r).2 := by
  cases r with
  | error e => exact hc
  | ok c' => exact hr c' rfl

end SameNames

section

variable (c : Sequencer)

theorem touch_names : SameNames c c.touch := ⟨rfl, rfl, rfl⟩

theorem store_names (offset : Nat) : SameNames c (c.store offset).2 := by
  unfold store
  dsimp only
  split
  · exact ⟨rfl, rfl, rfl⟩
  · split
    · exact c.touch_names
    · refine .of_settle c.touch_names fun c' h => ?_
      obtain ⟨tape, -, h⟩ := bind_eq_ok.mp h
      obtain rfl := Except.ok.inj h
      exact ⟨rfl, rfl, rfl⟩

theorem comment_names (text : String) : SameNames c (c.comment text) := by
  unfold comment
  dsimp only
  split
  · exact ⟨rfl, rfl, rfl⟩
  · exact c.touch_names

theorem use_names (timeset : String) : SameNames c (c.use timeset) := by
  unfold use
  split <;> exact ⟨rfl, rfl, rfl⟩

theorem emit_names (count : Nat) (timeset call : Option String) : SameNames c (c.emit count timeset call).2 := by
  unfold emit
  dsimp only
  split
  · exact c.touch_names
  · rename_i t _
    split
    · exact c.touch_names
    · have huse : SameNames c (c.touch.use t.name) := c.touch_names.trans (c.touch.use_names t.name)
      refine .of_settle huse fun c' h => ?_
      obtain ⟨bench, -, h⟩ := bind_eq_ok.mp h
      obtain rfl := Except.ok.inj h
      exact huse.trans ⟨rfl, rfl, rfl⟩

theorem names_acrossVectors : AcrossVectors SameNames where
  trans := .trans
  note _ _ _ := ⟨rfl, rfl, rfl⟩
  emit c _ timeset _ := c.emit_names _ timeset none

end

end Sequencer

namespace Operation

open Sequencer

/-- The subroutines called after an operation without a body. -/
def calledAfter (called : List String) : Operation → List String
  | .call name => Names.insert name called
  | .finish _ => []
  | _ => called

/-- The subroutines defined after an operation without a body. -/
def definedAfter (defined : List String) : Operation → List String
  | .define name => Names.insert name defined
  | .finish _ => []
  | _ => defined

theorem perform_names (c : Sequencer) {op : Operation} (hop : op.isLeaf = true) :
    (op.perform c).after.name = c.name ∧ (op.perform c).after.called = op.calledAfter c.called ∧
      (op.perform c).after.defined = op.definedAfter c.defined := by
  have of_same {c' : Sequencer} (h : SameNames c c') :
      c'.name = c.name ∧ c'.called = c.called ∧ c'.defined = c.defined := ⟨h.name, h.called, h.defined⟩
  cases op with
  | hold count timeset => exact of_same (names_acrossVectors.hold c count timeset)
  | delay count => exact of_same (names_acrossVectors.delay c count)
  | wait d => exact of_same (names_acrossVectors.wait c d)
  | store offset => exact of_same (c.store_names offset)
  | comment text => exact of_same (c.comment_names text)
  | threads ts => exact of_same (names_acrossVectors.runThreads c fun c _ _ pin s _ => .of_core (c.setPin_core pin s))
  | call name =>
    have hemit := emit_names { c with called := Names.insert name c.called } 1 none (some name)
    exact ⟨hemit.name, hemit.called, hemit.defined⟩
  | label name | define name | finish platforms => exact ⟨rfl, rfl, rfl⟩
  | scope s body | block body | attempt body => cases hop
  | _ => exact of_same (.of_core (perform_core c rfl))

end Operation

end TestProgram
