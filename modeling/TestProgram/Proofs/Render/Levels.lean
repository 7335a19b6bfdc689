import TestProgram.Proofs.Pattern.Loops
import TestProgram.Proofs.Render.Debugger

/-!
# Scripts and the levels they drive

A script sets the pins of a vector only where the vector before it in the
pattern drives others. The vector that is carried out before it may be another
one: at the end of a repeat the debugger goes back to its beginning. So a loop
has to lead back to the levels that its first vector relies on, which
`LoopsReturn` says of the items. Scripts of well-nested items are faithful
exactly if it holds (`faithful_iff`).

A well-nested script is carried out block by block (`carried_vector`,
`carried_loop`). Of a vector that relies on the one before, it is enough to
know that the levels are `Ready` for it; what they are after a block is told by
the vectors in it that drive a pin last (`after_carried_of_some`).
-/

namespace TestProgram.CommandScript

/-! ## What a script does -/

/-- The actions of a vector after one that drove `last`. -/
def vectorActions (names : List String) (last : Option (List (String × PinState))) (r : VectorRecord) : List Action :=
  (if last = some (driven names r.states) ∨ driven names r.states = [] then []
    else [.set (driven names r.states)]) ++ [.hold r]

/-- The actions of items after a vector that drove `last`. -/
def itemActions (names : List String) : (last : Option (List (String × PinState))) → List Item → List Action
  | _, [] => []
  | last, .vector r :: items =>
    vectorActions names last r ++ itemActions names (some (driven names r.states)) items
  | last, .comment _ :: items => itemActions names last items
  | last, .loopStart _ count :: items => .repeatStart count :: itemActions names last items
  | last, .loopEnd _ :: items => .repeatEnd :: itemActions names last items

section

variable {p : Pattern} {last : Option (List (String × PinState))}

theorem actions_vectorCommands {r : VectorRecord} {first : List Command} (h : vectorCommands p last r = .ok first)
    (records : List VectorRecord) (rest : List Command) :
    actions (r :: records) (first ++ rest) = vectorActions p.pins last r ++ actions records rest := by
  obtain ⟨d, -, h⟩ := bind_eq_ok.mp h
  obtain rfl := Except.ok.inj h
  rw [vectorActions]
  split <;> cases r.label <;> cases r.call <;> rfl

/-- A pattern has a script if its vectors have periods. -/
theorem exists_commands : ∀ {items : List Item} (last : Option (List (String × PinState))),
    (∀ r ∈ items.filterMap Item.vector?, ∃ d, period p.timesets r.timeset = .ok d) →
      ∃ script, commands p last items = .ok script
  | [], _, _ => ⟨[], rfl⟩
  | .vector r :: items, last, h => by
    have hvector : Item.vector? (.vector r) = some r := rfl
    rw [List.filterMap_cons_some hvector] at h
    obtain ⟨⟨d, hd⟩, hitems⟩ := List.forall_mem_cons.mp h
    obtain ⟨rest, hrest⟩ := exists_commands (some (driven p.pins r.states)) hitems
    rw [commands, vectorCommands, hd, hrest]
    exact ⟨_, rfl⟩
  | .comment _ :: items, last, h | .loopStart _ _ :: items, last, h | .loopEnd _ :: items, last, h => by
    rw [List.filterMap_cons_none rfl] at h
    obtain ⟨rest, hrest⟩ := exists_commands last h
    rw [commands, hrest]
    exact ⟨_, rfl⟩

theorem held_vectorActions (names : List String) (last : Option (List (String × PinState))) (r : VectorRecord) :
    (vectorActions names last r).filterMap Action.held? = [r] := by
  unfold vectorActions
  split <;> rfl

/-- Every vector is held, in the order of the items. -/
theorem held_itemActions (names : List String) : ∀ (items : List Item) (last : Option (List (String × PinState))),
    (itemActions names last items).filterMap Action.held? = items.filterMap Item.vector?
  | [], _ => rfl
  | .vector r :: items, last => by
    rw [itemActions, List.filterMap_append, held_vectorActions, held_itemActions names items]
    rfl
  | .comment _ :: items, last | .loopStart _ _ :: items, last | .loopEnd _ :: items, last =>
    held_itemActions names items last

/-- A script does what the items say. -/
theorem actions_commands : ∀ {items : List Item} {last : Option (List (String × PinState))} {script : List Command},
    commands p last items = .ok script → actions (items.filterMap Item.vector?) script = itemActions p.pins last items
  | [], _, script, h => by
    obtain rfl := Except.ok.inj h
    rfl
  | .vector r :: items, last, script, h => by
    obtain ⟨first, hfirst, h⟩ := bind_eq_ok.mp h
    obtain ⟨rest, hrest, h⟩ := bind_eq_ok.mp h
    obtain rfl := Except.ok.inj h
    have hvector : Item.vector? (.vector r) = some r := rfl
    rw [List.filterMap_cons_some hvector, actions_vectorCommands hfirst, actions_commands hrest, itemActions]
  | .comment _ :: items, last, script, h | .loopStart _ _ :: items, last, script, h
  | .loopEnd _ :: items, last, script, h => by
    obtain ⟨rest, hrest, h⟩ := bind_eq_ok.mp h
    obtain rfl := Except.ok.inj h
    rw [List.filterMap_cons_none rfl, actions, actions_commands hrest, itemActions]

end

/-! ## Well-nested scripts -/

/-- What the last vector drives, if there is one, and otherwise `last`. -/
def lastValues (names : List String) : (last : Option (List (String × PinState))) → List Item →
    Option (List (String × PinState))
  | last, [] => last
  | _, .vector r :: items => lastValues names (some (driven names r.states)) items
  | last, _ :: items => lastValues names last items

/-- The actions of items in the order in which they are carried out. -/
def carried (names : List String) (last : Option (List (String × PinState))) (items : List Item) : List Action :=
  unroll [] [] (itemActions names last items)

section

variable (names : List String)

theorem itemActions_append : ∀ (xs ys : List Item) (last : Option (List (String × PinState))),
    itemActions names last (xs ++ ys) = itemActions names last xs ++ itemActions names (lastValues names last xs) ys
  | [], _, _ => rfl
  | .vector r :: xs, ys, last => by
    rw [List.cons_append, itemActions, itemActions_append xs ys, itemActions, List.append_assoc]
    rfl
  | .comment _ :: xs, ys, last => itemActions_append xs ys last
  | .loopStart _ count :: xs, ys, last => by
    rw [List.cons_append, itemActions, itemActions_append xs ys, itemActions]
    rfl
  | .loopEnd _ :: xs, ys, last => by
    rw [List.cons_append, itemActions, itemActions_append xs ys, itemActions]
    rfl

theorem unroll_vectorActions (last : Option (List (String × PinState))) (r : VectorRecord)
    (outer : List (Nat × List Action)) (done rest : List Action) :
    unroll outer done (vectorActions names last r ++ rest) =
      unroll outer (done ++ vectorActions names last r) rest := by
  unfold vectorActions
  split
  · exact unroll_hold outer done rest r
  · rw [List.singleton_append, List.cons_append, unroll_set, List.singleton_append, unroll_hold, List.append_assoc]
    rfl

theorem itemActions_loop (last : Option (List (String × PinState))) (label : String) (count : Nat)
    (body rest : List Item) : itemActions names last (.loopStart label count :: (body ++ .loopEnd label :: rest)) =
      .repeatStart count :: (itemActions names last body ++
        .repeatEnd :: itemActions names (lastValues names last body) rest) := by
  rw [itemActions, itemActions_append, itemActions]

/-- Well-nested items are carried out on their own, wherever they stand. -/
theorem exists_unroll {items : List Item} (h : WellNested items) (last : Option (List (String × PinState))) :
    ∃ acts, ∀ (outer : List (Nat × List Action)) (done rest : List Action),
      unroll outer done (itemActions names last items ++ rest) = unroll outer (done ++ acts) rest := by
  induction h generalizing last with
  | nil => exact ⟨[], fun _ done _ => by rw [List.append_nil]; rfl⟩
  | @vector r items _ ih =>
    obtain ⟨acts, hacts⟩ := ih (some (driven names r.states))
    refine ⟨vectorActions names last r ++ acts, fun outer done rest => ?_⟩
    rw [itemActions, List.append_assoc, unroll_vectorActions, hacts, List.append_assoc]
  | comment text _ ih => exact ih last
  | @loop label count body rest _ _ _ ihbody ihrest =>
    obtain ⟨inner, hinner⟩ := ihbody last
    obtain ⟨acts, hacts⟩ := ihrest (lastValues names last body)
    refine ⟨(List.replicate count inner).flatten ++ acts, fun outer done after => ?_⟩
    rw [itemActions_loop, List.cons_append, unroll, List.append_assoc, hinner, List.nil_append, List.cons_append,
      unroll, hacts, List.append_assoc]

theorem unroll_itemActions {items : List Item} (h : WellNested items) (last : Option (List (String × PinState)))
    (outer : List (Nat × List Action)) (done rest : List Action) :
    unroll outer done (itemActions names last items ++ rest) =
      unroll outer (done ++ carried names last items) rest := by
  obtain ⟨acts, hacts⟩ := exists_unroll names h last
  have hcarried : carried names last items = acts := by
    have h := hacts [] [] []
    rwa [List.append_nil, List.nil_append, unroll] at h
  rw [hcarried, hacts]

theorem carried_vector {items : List Item} (h : WellNested items) (last : Option (List (String × PinState)))
    (r : VectorRecord) : carried names last (.vector r :: items) =
      vectorActions names last r ++ carried names (some (driven names r.states)) items := by
  have hrest := unroll_itemActions names h (some (driven names r.states)) [] (vectorActions names last r) []
  rwa [List.append_nil, unroll, ← List.nil_append (vectorActions names last r), ← unroll_vectorActions] at hrest

theorem carried_loop {body rest : List Item} (hbody : WellNested body) (hrest : WellNested rest)
    (last : Option (List (String × PinState))) (label : String) (count : Nat) :
    carried names last (.loopStart label count :: (body ++ .loopEnd label :: rest)) =
      (List.replicate count (carried names last body)).flatten ++ carried names (lastValues names last body) rest := by
  have hrest := unroll_itemActions names hrest (lastValues names last body) []
    (List.replicate count (carried names last body)).flatten []
  rw [List.append_nil, unroll] at hrest
  rw [carried, itemActions_loop, unroll, unroll_itemActions names hbody, List.nil_append, unroll, List.nil_append,
    hrest]

end

/-! ## The pins that a vector drives -/

theorem mem_driven {names : List String} {states : List PinState} {v : String × PinState} :
    v ∈ driven names states ↔
      v ∈ names.zip states ∧ (v.2 = .drive0 ∨ v.2 = .drive1 ∨ v.2 = .driveMemory) := by
  rw [driven, List.mem_filter, decide_eq_true_iff]
  refine and_congr_right fun _ => ?_
  cases v.2 <;> decide

theorem Levels.shows_iff {names : List String} {σ : Levels} {r : VectorRecord} :
    σ.Shows names r ↔ ∀ v ∈ driven names r.states, σ v.1 = v.2 :=
  ⟨fun h v hv => h v (mem_driven.mp hv).1 (mem_driven.mp hv).2, fun h v hv hs => h v (mem_driven.mpr ⟨hv, hs⟩)⟩

/-- No pin is listed twice. -/
theorem nodup_driven {names : List String} (hnames : names.Nodup) (states : List PinState) :
    ((driven names states).map Prod.fst).Nodup := by
  have hzip : ∀ (names : List String) (states : List PinState), ((names.zip states).map Prod.fst).Sublist names := by
    intro names
    induction names with
    | nil => exact fun _ => List.nil_sublist []
    | cons name names ih =>
      intro states
      cases states with
      | nil => exact List.nil_sublist _
      | cons s states => exact (ih states).cons_cons name
  exact hnames.sublist ((List.filter_sublist.map Prod.fst).trans (hzip names states))

theorem lookup_of_mem : ∀ {values : List (String × PinState)}, (values.map Prod.fst).Nodup →
    ∀ {v : String × PinState}, v ∈ values → values.lookup v.1 = some v.2
  | (pin, s) :: values, h, v, hv => by
    obtain ⟨hpin, hvalues⟩ := List.nodup_cons.mp h
    rcases List.mem_cons.mp hv with rfl | hv
    · exact List.lookup_cons_self
    · have hne : (v.1 == pin) = false := beq_false_of_ne fun heq => hpin (List.mem_map.mpr ⟨v, hv, heq⟩)
      rw [List.lookup_cons, hne]
      exact lookup_of_mem hvalues hv

theorem mem_of_lookup {values : List (String × PinState)} {pin : String} {s : PinState}
    (h : values.lookup pin = some s) : (pin, s) ∈ values := by
  obtain ⟨a, b, rfl, -⟩ := List.lookup_eq_some_iff.mp h
  exact List.mem_append_right a List.mem_cons_self

/-! ## The levels after well-nested items -/

/-- The state in which the last vector to drive a pin drives it. -/
def lastDriven (names : List String) (pin : String) : List Item → Option PinState
  | [] => none
  | .vector r :: items => (lastDriven names pin items).or ((driven names r.states).lookup pin)
  | _ :: items => lastDriven names pin items

/-- The first vector among items. -/
def firstVector? (items : List Item) : Option VectorRecord := items.findSome? Item.vector?

section

variable {names : List String} {last : Option (List (String × PinState))} {pin : String} {σ : Levels}

theorem lastDriven_append : ∀ xs ys : List Item,
    lastDriven names pin (xs ++ ys) = (lastDriven names pin ys).or (lastDriven names pin xs)
  | [], ys => (Option.or_none).symm
  | .vector r :: xs, ys => by
    rw [List.cons_append, lastDriven, lastDriven_append xs ys, lastDriven, Option.or_assoc]
  | .comment _ :: xs, ys | .loopStart _ _ :: xs, ys | .loopEnd _ :: xs, ys => lastDriven_append xs ys

theorem lastDriven_loop (label : String) (count : Nat) (body rest : List Item) :
    lastDriven names pin (.loopStart label count :: (body ++ .loopEnd label :: rest)) =
      (lastDriven names pin rest).or (lastDriven names pin body) := by
  rw [lastDriven, lastDriven_append, lastDriven] <;> nofun

theorem firstVector?_loop (label : String) (count : Nat) (body rest : List Item) :
    firstVector? (.loopStart label count :: (body ++ .loopEnd label :: rest)) =
      (firstVector? body).or (firstVector? rest) := by
  show List.findSome? Item.vector? (body ++ .loopEnd label :: rest) = _
  rw [List.findSome?_append, List.findSome?_cons]
  rfl

theorem after_vectorActions_of_lookup {r : VectorRecord} (h : (driven names r.states).lookup pin = none) :
    σ.after (vectorActions names last r) pin = σ pin := by
  unfold vectorActions
  split
  · rfl
  · show ((driven names r.states).lookup pin).getD (σ pin) = σ pin
    rw [h]
    rfl

/-- A pin that no vector drives stays as it is. -/
theorem after_carried_of_none {items : List Item} (h : WellNested items) (hpin : lastDriven names pin items = none) :
    σ.after (carried names last items) pin = σ pin := by
  induction h generalizing last σ with
  | nil => rfl
  | @vector r items hitems ih =>
    obtain ⟨hrest, hfirst⟩ := Option.or_eq_none_iff.mp hpin
    rw [carried_vector names hitems, Levels.after_append, ih hrest, after_vectorActions_of_lookup hfirst]
  | comment text _ ih => exact ih hpin
  | loop label _ hbody hrest ihbody ihrest =>
    rw [lastDriven_loop] at hpin
    obtain ⟨hrestpin, hbodypin⟩ := Option.or_eq_none_iff.mp hpin
    rw [carried_loop names hbody hrest, Levels.after_append, ihrest hrestpin]
    exact after_replicate (P := fun σ' => σ' pin = σ pin) (fun σ' hσ' => (ihbody hbodypin).trans hσ') _ rfl

theorem shows_of_faithful {r : VectorRecord} (h : Faithful names σ (vectorActions names last r)) :
    (σ.after (vectorActions names last r)).Shows names r := by
  unfold vectorActions at h ⊢
  split at h
  · rename_i hsame
    rw [if_pos hsame]
    exact h.1
  · rename_i hsame
    rw [if_neg hsame]
    exact h.1

/-- After a faithful run every pin is in the state in which the last vector to
drive it does. -/
theorem after_carried_of_some {items : List Item} (h : WellNested items) {s : PinState}
    (hfaithful : Faithful names σ (carried names last items)) (hpin : lastDriven names pin items = some s) :
    σ.after (carried names last items) pin = s := by
  induction h generalizing last σ with
  | nil => exact nomatch hpin
  | @vector r items hitems ih =>
    rw [carried_vector names hitems, faithful_append] at hfaithful
    rw [carried_vector names hitems, Levels.after_append]
    rcases Option.or_eq_some_iff.mp hpin with hrest | ⟨hrest, hfirst⟩
    · exact ih hfaithful.2 hrest
    · rw [after_carried_of_none hitems hrest]
      exact Levels.shows_iff.mp (shows_of_faithful hfaithful.1) _ (mem_of_lookup hfirst)
  | comment text _ ih => exact ih hfaithful hpin
  | @loop label count body rest hcount hbody hrest ihbody ihrest =>
    rw [lastDriven_loop] at hpin
    rw [carried_loop names hbody hrest, faithful_append, flatten_replicate_last _ (Nat.zero_lt_of_lt hcount),
      faithful_append, Levels.after_append] at hfaithful
    rw [carried_loop names hbody hrest, flatten_replicate_last _ (Nat.zero_lt_of_lt hcount), Levels.after_append,
      Levels.after_append]
    rcases Option.or_eq_some_iff.mp hpin with hrestpin | ⟨hrestpin, hbodypin⟩
    · exact ihrest hfaithful.2 hrestpin
    · -- the last time the body runs
      rw [after_carried_of_none hrest hrestpin]
      exact ihbody hfaithful.1.2 hbodypin

theorem carried_of_no_vector {items : List Item} (h : WellNested items) (hnone : firstVector? items = none) :
    carried names last items = [] := by
  induction h generalizing last with
  | nil => rfl
  | vector r _ _ => exact nomatch hnone
  | comment text _ ih => exact ih hnone
  | @loop label count body rest _ hbody hrest ihbody ihrest =>
    rw [firstVector?_loop] at hnone
    obtain ⟨hbodynone, hrestnone⟩ := Option.or_eq_none_iff.mp hnone
    rw [carried_loop names hbody hrest, ihbody hbodynone, ihrest hrestnone, List.append_nil,
      List.flatten_replicate_nil]

theorem repeated_of_no_vector {items : List Item} (h : WellNested items) (hnone : firstVector? items = none)
    (count : Nat) : (List.replicate count (carried names last items)).flatten = [] := by
  rw [carried_of_no_vector h hnone, List.flatten_replicate_nil]

theorem lastDriven_of_no_vector : ∀ items : List Item, firstVector? items = none →
    lastDriven names pin items = none
  | [], _ => rfl
  | .vector _ :: _, h => nomatch h
  | .comment _ :: items, h | .loopStart _ _ :: items, h | .loopEnd _ :: items, h => lastDriven_of_no_vector items h

theorem exists_lastDriven (hnames : names.Nodup) {r : VectorRecord} {v : String × PinState}
    (hv : v ∈ driven names r.states) : ∀ items : List Item, r ∈ firstVector? items →
      ∃ s, lastDriven names v.1 items = some s
  | .vector q :: items, h => by
    obtain rfl := Option.some.inj h
    rw [lastDriven, lookup_of_mem (nodup_driven hnames q.states) hv]
    exact Option.isSome_iff_exists.mp (by rw [Option.isSome_or]; exact Bool.or_true _)
  | .comment _ :: items, h | .loopStart _ _ :: items, h | .loopEnd _ :: items, h =>
    exists_lastDriven hnames hv items h

theorem lastValues_of_no_vector (last : Option (List (String × PinState))) : ∀ items : List Item,
    firstVector? items = none → lastValues names last items = last
  | [], _ => rfl
  | .vector _ :: _, h => nomatch h
  | .comment _ :: items, h | .loopStart _ _ :: items, h | .loopEnd _ :: items, h =>
    lastValues_of_no_vector last items h

/-- Of what the last vector drives, it is the last to do so. -/
theorem lastValues_of_vector (hnames : names.Nodup) : ∀ (items : List Item) (last : Option (List (String × PinState)))
    {r : VectorRecord}, firstVector? items = some r → ∃ values, lastValues names last items = some values ∧
      ∀ v ∈ values, lastDriven names v.1 items = some v.2
  | .vector q :: items, last, r, _ => by
    cases hitems : firstVector? items with
    | none =>
      refine ⟨driven names q.states, lastValues_of_no_vector _ items hitems, fun v hv => ?_⟩
      rw [lastDriven, lastDriven_of_no_vector items hitems, Option.none_or]
      exact lookup_of_mem (nodup_driven hnames q.states) hv
    | some q' =>
      obtain ⟨values, hvalues, h⟩ := lastValues_of_vector hnames items (some (driven names q.states)) hitems
      refine ⟨values, hvalues, fun v hv => ?_⟩
      rw [lastDriven, h v hv, Option.some_or]
  | .comment _ :: items, last, _, h | .loopStart _ _ :: items, last, _, h | .loopEnd _ :: items, last, _, h =>
    lastValues_of_vector hnames items last h

end

/-! ## Faithful scripts -/

/-- Pins that are not set for the first of the items, because the vector before
drove them alike, are as it drives them. -/
def Ready (names : List String) (last : Option (List (String × PinState))) (items : List Item) (σ : Levels) : Prop :=
  ∀ r ∈ firstVector? items, last = some (driven names r.states) → σ.Shows names r

/-- The items are well nested, and each loop leads back to its beginning: if the
vector before the loop drives the same as the first one of its body, so that no
pins are set at the beginning, then the last vector of the body to drive one of
these pins drives it as the first one does. -/
inductive LoopsReturn (names : List String) : (last : Option (List (String × PinState))) → List Item → Prop where
  | nil (last : Option (List (String × PinState))) : LoopsReturn names last []
  | vector {last : Option (List (String × PinState))} (r : VectorRecord) {items : List Item}
      (h : LoopsReturn names (some (driven names r.states)) items) : LoopsReturn names last (.vector r :: items)
  | comment {last : Option (List (String × PinState))} (text : String) {items : List Item}
      (h : LoopsReturn names last items) : LoopsReturn names last (.comment text :: items)
  | loop {last : Option (List (String × PinState))} (label : String) {count : Nat} {body rest : List Item}
      (hcount : 2 ≤ count)
      (hreturn : ∀ r ∈ firstVector? body, last = some (driven names r.states) →
        ∀ v ∈ driven names r.states, lastDriven names v.1 body = some v.2)
      (hbody : LoopsReturn names last body) (hrest : LoopsReturn names (lastValues names last body) rest) :
      LoopsReturn names last (.loopStart label count :: (body ++ .loopEnd label :: rest))

section

variable {names : List String} {last : Option (List (String × PinState))}

theorem LoopsReturn.wellNested {items : List Item} (h : LoopsReturn names last items) : WellNested items := by
  induction h with
  | nil => exact .nil
  | vector r _ ih => exact .vector r ih
  | comment text _ ih => exact .comment text ih
  | loop label hcount _ _ _ ihbody ihrest => exact .loop label hcount ihbody ihrest

/-- A vector is shown if its pins are set, and if they need not be. -/
theorem faithful_vectorActions (hnames : names.Nodup) {r : VectorRecord} {σ : Levels}
    (h : last = some (driven names r.states) → σ.Shows names r) : Faithful names σ (vectorActions names last r) := by
  unfold vectorActions
  split
  · rename_i hsame
    refine ⟨?_, trivial⟩
    rcases hsame with hlast | hnone
    · exact h hlast
    · refine Levels.shows_iff.mpr fun v hv => ?_
      rw [hnone] at hv
      exact absurd hv List.not_mem_nil
  · refine ⟨Levels.shows_iff.mpr fun v hv => ?_, trivial⟩
    show ((driven names r.states).lookup v.1).getD (σ v.1) = v.2
    rw [lookup_of_mem (nodup_driven hnames r.states) hv]
    rfl

/-- Pins that show a vector are ready for what follows it. -/
theorem Ready.of_shows {r : VectorRecord} {σ : Levels} (h : σ.Shows names r) (items : List Item) :
    Ready names (some (driven names r.states)) items σ := by
  intro q _ hsame
  rw [Levels.shows_iff] at h ⊢
  rwa [← Option.some.inj hsame]

/-- Where all loops return, a script is faithful from levels that are ready for
its first vector. -/
theorem LoopsReturn.faithful (hnames : names.Nodup) {items : List Item} (h : LoopsReturn names last items)
    {σ : Levels} (hready : Ready names last items σ) : Faithful names σ (carried names last items) := by
  induction h generalizing σ with
  | nil => trivial
  | @vector last r items hitems ih =>
    have hfirst : Faithful names σ (vectorActions names last r) := faithful_vectorActions hnames (hready r rfl)
    rw [carried_vector names hitems.wellNested, faithful_append]
    exact ⟨hfirst, ih (.of_shows (shows_of_faithful hfirst) items)⟩
  | comment text _ ih => exact ih hready
  | @loop last label count body rest hcount hreturn hbody hrest ihbody ihrest =>
    rw [carried_loop names hbody.wellNested hrest.wellNested, faithful_append]
    have hbegin : Ready names last body σ := fun r hr => hready r (by
      rw [firstVector?_loop, Option.mem_def.mp hr]
      rfl)
    -- each time the body ends, the levels are ready for its beginning
    have hkeep : ∀ σ, Ready names last body σ → Ready names last body (σ.after (carried names last body)) :=
      fun σ hσ r hr hlast => Levels.shows_iff.mpr fun v hv =>
        after_carried_of_some hbody.wellNested (ihbody hσ) (hreturn r hr hlast v hv)
    refine ⟨faithful_replicate hkeep (fun _ => ihbody) count hbegin, ihrest ?_⟩
    cases hfirst : firstVector? body with
    | none =>
      rw [repeated_of_no_vector hbody.wellNested hfirst, lastValues_of_no_vector _ _ hfirst]
      intro r hr
      refine hready r ?_
      rw [firstVector?_loop, hfirst, Option.none_or]
      exact hr
    | some q =>
      obtain ⟨values, hvalues, hdriven⟩ := lastValues_of_vector hnames body last hfirst
      intro r hr hlast
      obtain rfl := Option.some.inj (hvalues.symm.trans hlast)
      have hlastTime := ihbody (after_replicate hkeep (count - 1) hbegin)
      rw [flatten_replicate_last _ (Nat.zero_lt_of_lt hcount), Levels.after_append]
      exact Levels.shows_iff.mpr fun v hv => after_carried_of_some hbody.wellNested hlastTime (hdriven v hv)

theorem faithful_carried_loop {body rest : List Item} (hbody : WellNested body) (hrest : WellNested rest)
    {label : String} {count : Nat} (hcount : 2 ≤ count) {σ : Levels}
    (h : Faithful names σ (carried names last (.loopStart label count :: (body ++ .loopEnd label :: rest)))) :
    Faithful names σ (carried names last body) ∧
      Faithful names (σ.after (carried names last body)) (carried names last body) ∧
      Faithful names (σ.after (List.replicate count (carried names last body)).flatten)
        (carried names (lastValues names last body) rest) := by
  obtain ⟨k, rfl⟩ : ∃ k, count = k + 2 := ⟨count - 2, by omega⟩
  rw [carried_loop names hbody hrest, faithful_append] at h
  obtain ⟨hloop, hlater⟩ := h
  rw [List.replicate_succ, List.replicate_succ, List.flatten_cons, List.flatten_cons, faithful_append,
    faithful_append] at hloop
  exact ⟨hloop.1, hloop.2.1, hlater⟩

/-- A faithful script finds its levels ready. -/
theorem ready_of_faithful {items : List Item} (h : WellNested items) {σ : Levels}
    (hfaithful : Faithful names σ (carried names last items)) : Ready names last items σ := by
  induction h generalizing last σ with
  | nil => exact fun _ hr => nomatch hr
  | @vector r items hitems _ =>
    intro q hq hlast
    obtain rfl := Option.some.inj hq
    rw [carried_vector names hitems, faithful_append, vectorActions, if_pos (.inl hlast)] at hfaithful
    exact hfaithful.1.1
  | comment text _ ih => exact ih hfaithful
  | @loop label count body rest hcount hbody hrest ihbody ihrest =>
    obtain ⟨hfirst, -, hlater⟩ := faithful_carried_loop hbody hrest hcount hfaithful
    intro r hr hlast
    rw [firstVector?_loop, Option.mem_def] at hr
    rcases Option.or_eq_some_iff.mp hr with hr | ⟨hnone, hr⟩
    · exact ihbody hfirst r hr hlast
    · rw [repeated_of_no_vector hbody hnone, lastValues_of_no_vector _ _ hnone] at hlater
      exact ihrest hlater r hr hlast

theorem loopsReturn_of_faithful (hnames : names.Nodup) {items : List Item} (h : WellNested items) {σ : Levels}
    (hfaithful : Faithful names σ (carried names last items)) : LoopsReturn names last items := by
  induction h generalizing last σ with
  | nil => exact .nil last
  | @vector r items hitems ih =>
    rw [carried_vector names hitems, faithful_append] at hfaithful
    exact .vector r (ih hfaithful.2)
  | comment text _ ih => exact .comment text (ih hfaithful)
  | @loop label count body rest hcount hbody hrest ihbody ihrest =>
    obtain ⟨hfirst, hsecond, hlater⟩ := faithful_carried_loop hbody hrest hcount hfaithful
    refine .loop label hcount (fun r hr hlast v hv => ?_) (ihbody hfirst) (ihrest hlater)
    -- the second time its body begins, the first vector is shown without setting pins
    have hshows := ready_of_faithful hbody hsecond r hr hlast
    obtain ⟨s, hs⟩ := exists_lastDriven hnames hv body hr
    rw [hs, ← Levels.shows_iff.mp hshows v hv, after_carried_of_some hbody hfirst hs]

/-- Scripts of well-nested items are faithful exactly if all loops return,
whatever the pins are at first. -/
theorem faithful_iff (hnames : names.Nodup) {items : List Item} (h : WellNested items) (σ : Levels) :
    Faithful names σ (carried names none items) ↔ LoopsReturn names none items :=
  ⟨loopsReturn_of_faithful hnames h, fun hreturn => hreturn.faithful hnames fun _ _ hlast => nomatch hlast⟩

end

end TestProgram.CommandScript
