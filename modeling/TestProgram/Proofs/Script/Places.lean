import TestProgram.Proofs.Script.Grammar

/-!
# Places of parts of a script

`Script.relocate` moves every part of a script to another place, and leaves the rest of it as it is. With a
constant function it forgets all places.
-/

namespace TestProgram

variable (f : Span → Span)

def Word.relocate (w : Word) : Word := { w with span := f w.span }

def Value.relocate : Value → Value
  | .word w => .word (w.relocate f)
  | .number x s => .number x (f s)
  | .duration d s => .duration d (f s)
  | .frequency x s => .frequency x (f s)
  | .text t s => .text t (f s)

def Argument.relocate : Argument → Argument
  | .plain v => .plain (v.relocate f)
  | .named key v => .named (key.relocate f) (v.relocate f)

namespace Statement

mutual

def relocate : Statement → Statement
  | .mk head args block span => .mk (head.relocate f) (args.map (Argument.relocate f)) (relocateBlock block) (f span)

def relocateBlock : Option (List Statement) → Option (List Statement)
  | none => none
  | some body => some (relocateBody body)

def relocateBody : List Statement → List Statement
  | [] => []
  | s :: body => relocate s :: relocateBody body

end

theorem relocateBody_eq : ∀ body : List Statement, relocateBody f body = body.map (relocate f)
  | [] => by rw [relocateBody]; rfl
  | s :: body => by rw [relocateBody, relocateBody_eq body]; rfl

theorem relocateBlock_eq (block : Option (List Statement)) :
    relocateBlock f block = block.map (List.map (relocate f)) := by
  cases block with
  | none => rw [relocateBlock]; rfl
  | some body => rw [relocateBlock, relocateBody_eq]; rfl

theorem relocate_mk (head : Word) (args : List Argument) (block : Option (List Statement)) (span : Span) :
    relocate f (.mk head args block span) =
      .mk (head.relocate f) (args.map (Argument.relocate f)) (block.map (List.map (relocate f))) (f span) := by
  rw [relocate, relocateBlock_eq]

end Statement

def Declared.relocate : Declared → Declared
  | .pins names => .pins (names.map (Word.relocate f))
  | .pattern name body => .pattern (name.relocate f) (body.map (Statement.relocate f))
  | .flow name body => .flow (name.relocate f) (body.map (Statement.relocate f))
  | .testInstance name args => .testInstance (name.relocate f) (args.map (Argument.relocate f))
  | .patternSet name patterns => .patternSet (name.relocate f) (patterns.map (Word.relocate f))

def Declaration.relocate (d : Declaration) : Declaration := ⟨d.content.relocate f, f d.span⟩

def Script.relocate (s : Script) : Script := ⟨s.declarations.map (Declaration.relocate f), f s.span⟩

end TestProgram
