import TestProgram.Proofs.Pattern.Stores

/-!
# Loops in a pattern

The items of a pattern are well nested if the ends of hardware loops match in
pairs (`WellNested`). Reading them from the front one keeps the loops that are
open, innermost first (`openLoops`): items are well nested exactly if this
never fails and no loop is open in the end (`wellNested_iff`). The tester runs a
record as often as the counts of the loops around it say (`executions`). Both
are determined by the items in pieces, and do not depend on how a vector is
divided into records.
-/

namespace TestProgram

/-! ## Well-nested items -/

/-- Every loop start has an end of its own with the same label, with whole
loops only in between, and a count of two at least. -/
inductive WellNested : List Item → Prop where
  | nil : WellNested []
  | vector (r : VectorRecord) {items : List Item} (h : WellNested items) : WellNested (.vector r :: items)
  | comment (text : String) {items : List Item} (h : WellNested items) : WellNested (.comment text :: items)
  | loop (label : String) {count : Nat} {body rest : List Item} (hcount : 2 ≤ count) (hbody : WellNested body)
      (hrest : WellNested rest) : WellNested (.loopStart label count :: (body ++ .loopEnd label :: rest))

/-- The loops that are open after an item, if it may stand where it does. -/
def Item.loops? (loops : List (String × Nat)) : Item → Option (List (String × Nat))
  | .vector _ | .comment _ => some loops
  | .loopStart label count => if 2 ≤ count then some ((label, count) :: loops) else none
  | .loopEnd label => match loops with
    | [] => none
    | (opened, _) :: outer => if label = opened then some outer else none

theorem of_loops?_loopStart {loops loops' : List (String × Nat)} {label : String} {count : Nat}
    (h : (Item.loopStart label count).loops? loops = some loops') :
    2 ≤ count ∧ loops' = (label, count) :: loops := by
  obtain ⟨hcount, h⟩ := Option.ite_none_right_eq_some.mp h
  exact ⟨hcount, (Option.some.inj h).symm⟩

/-- The end of a loop closes the innermost one, whose label it has. -/
theorem of_loops?_loopEnd {loops loops' : List (String × Nat)} {label : String}
    (h : (Item.loopEnd label).loops? loops = some loops') : ∃ count, loops = (label, count) :: loops' := by
  match loops, h with
  | (opened, count) :: outer, h =>
    obtain ⟨rfl, houter⟩ := Option.ite_none_right_eq_some.mp h
    obtain rfl := Option.some.inj houter
    exact ⟨count, rfl⟩

/-- The loops that are open after items, innermost first. -/
def openLoops (loops : List (String × Nat)) : List Item → Option (List (String × Nat))
  | [] => some loops
  | i :: items => (i.loops? loops).bind fun loops => openLoops loops items

theorem openLoops_append : ∀ (xs ys : List Item) (loops : List (String × Nat)),
    openLoops loops (xs ++ ys) = (openLoops loops xs).bind fun loops => openLoops loops ys
  | [], _, _ => rfl
  | i :: xs, ys, loops => by
    rw [List.cons_append, openLoops, openLoops, Option.bind_assoc]
    congr 1
    funext loops'
    exact openLoops_append xs ys loops'

theorem openLoops_append_of_eq {xs ys : List Item} {loops loops' : List (String × Nat)}
    (h : openLoops loops xs = some loops') : openLoops loops (xs ++ ys) = openLoops loops' ys := by
  rw [openLoops_append, h, Option.bind_some]

theorem openLoops_vectors (loops : List (String × Nat)) : ∀ records : List VectorRecord,
    openLoops loops (records.map Item.vector) = some loops
  | [] => rfl
  | _ :: records => openLoops_vectors loops records

theorem WellNested.openLoops {items : List Item} (h : WellNested items) (loops : List (String × Nat)) :
    openLoops loops items = some loops := by
  induction h generalizing loops with
  | nil => rfl
  | vector _ _ ih | comment _ _ ih => exact ih loops
  | @loop label count body rest hcount _ _ ihbody ihrest =>
    have hend : (Item.loopEnd label).loops? ((label, count) :: loops) = some loops := if_pos rfl
    rw [TestProgram.openLoops, Item.loops?, if_pos hcount, Option.bind_some, openLoops_append_of_eq (ihbody _),
      TestProgram.openLoops, hend, Option.bind_some, ihrest]

/-- The items that close the given loops one after the other. -/
inductive Closing : List (String × Nat) → List Item → Prop where
  | done {items : List Item} (h : WellNested items) : Closing [] items
  | next {label : String} {count : Nat} {loops : List (String × Nat)} {body rest : List Item}
      (hbody : WellNested body) (hrest : Closing loops rest) :
      Closing ((label, count) :: loops) (body ++ .loopEnd label :: rest)

theorem WellNested.append {xs ys : List Item} (hxs : WellNested xs) (hys : WellNested ys) :
    WellNested (xs ++ ys) := by
  induction hxs with
  | nil => exact hys
  | vector r _ ih => exact .vector r ih
  | comment text _ ih => exact .comment text ih
  | loop label hcount hbody _ _ ih =>
    rw [List.cons_append, List.append_assoc, List.cons_append]
    exact .loop label hcount hbody ih

theorem Closing.prepend {xs items : List Item} (hxs : WellNested xs) : ∀ {loops : List (String × Nat)},
    Closing loops items → Closing loops (xs ++ items)
  | _, .done h => .done (hxs.append h)
  | _, .next hbody hrest => by
    rw [← List.append_assoc]
    exact .next (hxs.append hbody) hrest

/-- The first end belongs to the innermost loop. With a start before it, the
two are a loop around the items in between. -/
theorem Closing.loopStart {label : String} {count : Nat} {loops : List (String × Nat)} {items : List Item}
    (hcount : 2 ≤ count) : Closing ((label, count) :: loops) items → Closing loops (.loopStart label count :: items)
  | .next hbody hrest => by
    have h := hrest.prepend (.loop label hcount hbody .nil)
    rwa [List.cons_append, List.append_assoc, List.cons_append, List.nil_append] at h

theorem closing_of_openLoops : ∀ {items : List Item} {loops : List (String × Nat)},
    openLoops loops items = some [] → Closing loops items
  | [], loops, h => by
    obtain rfl := Option.some.inj h
    exact .done .nil
  | i :: items, loops, h => by
    obtain ⟨loops', hi, h⟩ := Option.bind_eq_some_iff.mp h
    have ih := closing_of_openLoops h
    cases i with
    | vector r =>
      obtain rfl := Option.some.inj hi
      exact ih.prepend (.vector r .nil)
    | comment text =>
      obtain rfl := Option.some.inj hi
      exact ih.prepend (.comment text .nil)
    | loopStart label count =>
      obtain ⟨hcount, rfl⟩ := of_loops?_loopStart hi
      exact ih.loopStart hcount
    | loopEnd label =>
      obtain ⟨count, rfl⟩ := of_loops?_loopEnd hi
      exact .next .nil ih

theorem wellNested_iff {items : List Item} : WellNested items ↔ openLoops [] items = some [] := by
  refine ⟨fun h => h.openLoops [], fun h => ?_⟩
  cases closing_of_openLoops h with
  | done h => exact h

instance (items : List Item) : Decidable (WellNested items) := decidable_of_iff _ wellNested_iff.symm

/-! ## Executions -/

/-- How often the tester runs what stands in loops. -/
def loopProduct : List (String × Nat) → Nat
  | [] => 1
  | (_, count) :: loops => loopProduct loops * count

/-- The cycles the tester runs for items that stand in loops: for each record as
many as it is held for, times the counts of the loops around it. -/
def executions (loops : List (String × Nat)) : List Item → Nat
  | [] => 0
  | .vector r :: items => r.count * loopProduct loops + executions loops items
  | .comment _ :: items => executions loops items
  | .loopStart label count :: items => executions ((label, count) :: loops) items
  | .loopEnd _ :: items => executions loops.tail items

theorem executions_append : ∀ {xs : List Item} {loops loops' : List (String × Nat)} (ys : List Item),
    openLoops loops xs = some loops' → executions loops (xs ++ ys) = executions loops xs + executions loops' ys
  | [], loops, loops', ys, h => by
    obtain rfl := Option.some.inj h
    exact (Nat.zero_add _).symm
  | i :: xs, loops, loops', ys, h => by
    obtain ⟨loops₁, hi, h⟩ := Option.bind_eq_some_iff.mp h
    have ih := executions_append ys h
    cases i with
    | vector r =>
      obtain rfl := Option.some.inj hi
      rw [List.cons_append, executions, executions, ih, Nat.add_assoc]
    | comment text =>
      obtain rfl := Option.some.inj hi
      exact ih
    | loopStart label count =>
      obtain ⟨-, rfl⟩ := of_loops?_loopStart hi
      exact ih
    | loopEnd label =>
      obtain ⟨count, rfl⟩ := of_loops?_loopEnd hi
      exact ih

theorem executions_vectors (loops : List (String × Nat)) : ∀ records : List VectorRecord,
    executions loops (records.map Item.vector) = totalCount records * loopProduct loops
  | [] => (Nat.zero_mul _).symm
  | r :: records => by
    rw [List.map_cons, executions, executions_vectors loops records, totalCount, Nat.add_mul]

section

variable {before after : List Item} {parts : List VectorRecord} {r : VectorRecord} {loops loops' : List (String × Nat)}

/-- Records open and close no loops, in however many parts. -/
theorem openLoops_parts : openLoops loops (before ++ parts.map Item.vector ++ after) =
    openLoops loops (before ++ .vector r :: after) := by
  rw [List.append_assoc, openLoops_append, openLoops_append]
  congr 1
  funext loops
  exact openLoops_append_of_eq (openLoops_vectors loops parts)

theorem executions_parts (h : openLoops loops (before ++ .vector r :: after) = some loops')
    (hparts : totalCount parts = r.count) : executions loops (before ++ parts.map Item.vector ++ after) =
      executions loops (before ++ .vector r :: after) := by
  rw [openLoops_append] at h
  obtain ⟨loops₁, hbefore, -⟩ := Option.bind_eq_some_iff.mp h
  rw [List.append_assoc, executions_append _ hbefore, executions_append _ hbefore,
    executions_append _ (openLoops_vectors loops₁ parts), executions_vectors, hparts, executions]

end

end TestProgram
