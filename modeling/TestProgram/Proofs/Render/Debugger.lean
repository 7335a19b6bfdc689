import TestProgram.Render.CommandScript

/-!
# What a debugger does

A debugger runs a script on pins that keep the state they were last set to.
`actions` is what the script does to the pins and which vector each of its sleeps
holds, and `unroll` these actions in the order in which they are carried out: a
block between the start and the end of a repeat runs as often as the repeat
says, with the blocks inside it. The script is `Faithful` to its vectors if
each time one of them is held, the pins are in the states that it drives.
-/

namespace TestProgram.CommandScript

/-- What a command does to the pins, or the vector that it holds. -/
inductive Action where
  | set (values : List (String × PinState))
  | hold (record : VectorRecord)
  | repeatStart (count : Nat)
  | repeatEnd
  deriving DecidableEq, Repr

/-- The vector that is held. -/
def Action.held? : Action → Option VectorRecord
  | .hold r => some r
  | _ => none

/-- The actions of a script for some records. Its sleeps hold the records one
after the other. -/
def actions : List VectorRecord → List Command → List Action
  | _, [] => []
  | records, .comment _ :: script | records, .label _ :: script | records, .call _ :: script =>
    actions records script
  | records, .setPins values :: script => .set values :: actions records script
  | [], .sleep _ :: script => actions [] script
  | record :: records, .sleep _ :: script => .hold record :: actions records script
  | records, .repeatStart count :: script => .repeatStart count :: actions records script
  | records, .repeatEnd :: script => .repeatEnd :: actions records script

/-- The actions in the order in which they are carried out, after those in
`done` and inside of the repeats in `outer`, each with what goes before it. -/
def unroll : (outer : List (Nat × List Action)) → (done : List Action) → List Action → List Action
  | _, done, [] => done
  | outer, done, .repeatStart count :: rest => unroll ((count, done) :: outer) [] rest
  | (count, before) :: outer, done, .repeatEnd :: rest =>
    unroll outer (before ++ (List.replicate count done).flatten) rest
  | outer, done, a :: rest => unroll outer (done ++ [a]) rest

/-- The states that the pins are in. -/
def Levels : Type := String → PinState

namespace Levels

/-- Sets the listed pins, none of which is listed twice. -/
def set (σ : Levels) (values : List (String × PinState)) : Levels :=
  fun pin => (values.lookup pin).getD (σ pin)

/-- The levels after actions have been carried out. -/
def after (σ : Levels) : List Action → Levels
  | [] => σ
  | .set values :: acts => (σ.set values).after acts
  | _ :: acts => σ.after acts

/-- The pins that a vector drives are in the states that it drives them to. -/
def Shows (names : List String) (σ : Levels) (r : VectorRecord) : Prop :=
  ∀ v ∈ names.zip r.states, v.2 = .drive0 ∨ v.2 = .drive1 ∨ v.2 = .driveMemory → σ v.1 = v.2

end Levels

/-- Whenever a vector is held, the pins show it. -/
def Faithful (names : List String) : Levels → List Action → Prop
  | _, [] => True
  | σ, .set values :: acts => Faithful names (σ.set values) acts
  | σ, .hold r :: acts => σ.Shows names r ∧ Faithful names σ acts
  | σ, _ :: acts => Faithful names σ acts

section

variable (names : List String)

instance (σ : Levels) (r : VectorRecord) : Decidable (σ.Shows names r) :=
  inferInstanceAs (Decidable (∀ v ∈ names.zip r.states,
    v.2 = .drive0 ∨ v.2 = .drive1 ∨ v.2 = .driveMemory → σ v.1 = v.2))

instance decidableFaithful : ∀ (σ : Levels) (acts : List Action), Decidable (Faithful names σ acts)
  | _, [] => isTrue trivial
  | σ, .set values :: acts => decidableFaithful (σ.set values) acts
  | σ, .hold r :: acts => @instDecidableAnd (σ.Shows names r) _ _ (decidableFaithful σ acts)
  | σ, .repeatStart _ :: acts | σ, .repeatEnd :: acts => decidableFaithful σ acts

end

/-! ## Actions one after the other -/

theorem Levels.after_append : ∀ (a b : List Action) (σ : Levels), σ.after (a ++ b) = (σ.after a).after b
  | [], _, _ => rfl
  | .set values :: a, b, σ => after_append a b (σ.set values)
  | .hold _ :: a, b, σ | .repeatStart _ :: a, b, σ | .repeatEnd :: a, b, σ => after_append a b σ

section

variable {names : List String}

theorem faithful_append : ∀ (a b : List Action) (σ : Levels),
    Faithful names σ (a ++ b) ↔ Faithful names σ a ∧ Faithful names (σ.after a) b
  | [], _, _ => ⟨fun h => ⟨trivial, h⟩, And.right⟩
  | .set values :: a, b, σ => faithful_append a b (σ.set values)
  | .hold r :: a, b, σ => by
    rw [List.cons_append, Faithful, Faithful, faithful_append a b σ, and_assoc]
    rfl
  | .repeatStart _ :: a, b, σ | .repeatEnd :: a, b, σ => faithful_append a b σ

/-- The last time that a block runs. -/
theorem flatten_replicate_last (acts : List Action) {count : Nat} (h : 0 < count) :
    (List.replicate count acts).flatten = (List.replicate (count - 1) acts).flatten ++ acts := by
  obtain ⟨k, rfl⟩ : ∃ k, count = k + 1 := ⟨count - 1, by omega⟩
  rw [List.replicate_succ', List.flatten_append, List.flatten_singleton, Nat.add_sub_cancel]

/-- What a block keeps, its repetitions keep. -/
theorem after_replicate {acts : List Action} {P : Levels → Prop} (hkeep : ∀ σ, P σ → P (σ.after acts)) :
    ∀ (count : Nat) {σ : Levels}, P σ → P (σ.after (List.replicate count acts).flatten)
  | 0, _, hσ => hσ
  | count + 1, σ, hσ => by
    rw [List.replicate_succ, List.flatten_cons, Levels.after_append]
    exact after_replicate hkeep count (hkeep σ hσ)

/-- A block that keeps what it is faithful from is so however often it runs. -/
theorem faithful_replicate {acts : List Action} {P : Levels → Prop} (hkeep : ∀ σ, P σ → P (σ.after acts))
    (hfaithful : ∀ σ, P σ → Faithful names σ acts) : ∀ (count : Nat) {σ : Levels}, P σ →
      Faithful names σ (List.replicate count acts).flatten
  | 0, _, _ => trivial
  | count + 1, σ, hσ => by
    rw [List.replicate_succ, List.flatten_cons, faithful_append]
    exact ⟨hfaithful σ hσ, faithful_replicate hkeep hfaithful count (hkeep σ hσ)⟩

end

section

variable (outer : List (Nat × List Action)) (done rest : List Action)

theorem unroll_set (values : List (String × PinState)) :
    unroll outer done (.set values :: rest) = unroll outer (done ++ [.set values]) rest := by
  rw [unroll] <;> nofun

theorem unroll_hold (r : VectorRecord) :
    unroll outer done (.hold r :: rest) = unroll outer (done ++ [.hold r]) rest := by
  rw [unroll] <;> nofun

end

end TestProgram.CommandScript
