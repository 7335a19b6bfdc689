import Mathlib.Data.List.Nodup
import TestProgram.Pin.Pinout

/-!
# Changes to a pinout

Setting, toggling and masking pins changes one pin each and none of the names
(`names_foldl`), so a name keeps leading to the same position (`id_congr`) and
two names never to one (`eq_of_id_eq_ok`). Of what a pin shows, masks hide
comparisons only (`snapshot_of_isLevel`). Pins that are masked and unmasked
again are as deep under masks as before, a pin that is listed twice too
(`depths_unmask_mask`).
-/

namespace TestProgram

/-- What is shown of a state under a number of masks. -/
def PinState.under (s : PinState) (masks : Nat) : PinState := if masks = 0 then s else s.masked

namespace Pinout

/-! ## Names -/

theorem names_modify (pins : List Pin) (i : PinId) {f : Pin → Pin} (hf : ∀ q, (f q).name = q.name) :
    (pins.modify i f).map Pin.name = pins.map Pin.name := by
  refine List.ext_getElem? fun j => ?_
  rw [List.getElem?_map, List.getElem?_map, List.getElem?_modify]
  cases pins[j]? with
  | none => rfl
  | some q =>
    by_cases h : i = j
    · simp only [if_pos h, Option.map_eq_map, Option.map_some, hf]
    · simp only [if_neg h, Option.map_eq_map, Option.map_some]

theorem names_set (p : Pinout) (i : PinId) (s : PinState) : (p.set i s).names = p.names :=
  names_modify p.pins i fun _ => rfl

theorem names_toggle (p : Pinout) (i : PinId) : (p.toggle i).names = p.names := names_modify p.pins i fun _ => rfl

theorem names_mask (p : Pinout) (i : PinId) : (p.mask i).names = p.names := names_modify p.pins i fun _ => rfl

theorem names_unmask (p : Pinout) (i : PinId) : (p.unmask i).names = p.names := names_modify p.pins i fun _ => rfl

/-- Changes that keep the names, one after the other. -/
theorem names_foldl {f : Pinout → PinId → Pinout} (hf : ∀ p i, (f p i).names = p.names) :
    ∀ (ids : List PinId) (p : Pinout), (ids.foldl f p).names = p.names
  | [], _ => rfl
  | i :: ids, p => (names_foldl hf ids (f p i)).trans (hf p i)

theorem length_of_names {p q : Pinout} (h : p.names = q.names) : p.pins.length = q.pins.length := by
  have hlength := congrArg List.length h
  rwa [names, names, List.length_map, List.length_map] at hlength

theorem id?_eq (p : Pinout) (name : String) : p.id? name = p.names.findIdx? (· == name) := by
  rw [names, List.findIdx?_map]
  rfl

theorem id_congr {p q : Pinout} (h : p.names = q.names) (name : String) : p.id name = q.id name := by
  rw [Pinout.id, Pinout.id, id?_eq, id?_eq, h]

theorem id_eq_ok_iff {p : Pinout} {name : String} {i : PinId} : p.id name = .ok i ↔ p.id? name = some i := by
  unfold Pinout.id
  cases p.id? name with
  | none => simp only [reduceCtorEq]
  | some j => simp only [Except.ok.injEq, Option.some.injEq]

theorem name_of_id_eq_ok {p : Pinout} {name : String} {i : PinId} (h : p.id name = .ok i) :
    p.names[i]? = some name := by
  rw [id_eq_ok_iff, id?_eq, List.findIdx?_eq_some_iff_getElem] at h
  obtain ⟨hi, hname, -⟩ := h
  rw [List.getElem?_eq_getElem hi, beq_iff_eq.mp hname]

/-- Two names do not lead to one position. -/
theorem eq_of_id_eq_ok {p : Pinout} {name name' : String} {i : PinId} (h : p.id name = .ok i)
    (h' : p.id name' = .ok i) : name = name' :=
  Option.some.inj ((name_of_id_eq_ok h).symm.trans (name_of_id_eq_ok h'))

theorem lt_of_id_eq_ok {p : Pinout} {name : String} {i : PinId} (h : p.id name = .ok i) : i < p.pins.length := by
  obtain ⟨hi, -⟩ := List.getElem?_eq_some_iff.mp (name_of_id_eq_ok h)
  rwa [names, List.length_map] at hi

/-- A pin that is declared has a position. -/
theorem exists_id_of_mem_names {p : Pinout} {name : String} (h : name ∈ p.names) : ∃ i, p.id name = .ok i := by
  have hsome : (p.names.findIdx? (· == name)).isSome = true :=
    List.findIdx?_isSome.trans (List.any_eq_true.mpr ⟨name, h, beq_self_eq_true name⟩)
  rw [← id?_eq] at hsome
  obtain ⟨i, hi⟩ := Option.isSome_iff_exists.mp hsome
  exact ⟨i, id_eq_ok_iff.mpr hi⟩

theorem ids_eq_ok {p : Pinout} : ∀ {names : List String} {ids : List PinId}, p.ids names = .ok ids →
    ids = names.filterMap p.id?
  | [], _, h => (Except.ok.inj h).symm
  | n :: names, ids, h => by
    obtain ⟨i, hi, h⟩ := bind_eq_ok.mp h
    obtain ⟨rest, hrest, h⟩ := bind_eq_ok.mp h
    obtain rfl := Except.ok.inj h
    rw [List.filterMap_cons_some (id_eq_ok_iff.mp hi), ids_eq_ok hrest]

/-- The pins of some names, if all of them are declared. -/
theorem ids_of_declared (p : Pinout) : ∀ {names : List String}, (∀ n ∈ names, n ∈ p.names) →
    p.ids names = .ok (names.filterMap p.id?)
  | [], _ => rfl
  | n :: names, h => by
    obtain ⟨hn, hnames⟩ := List.forall_mem_cons.mp h
    obtain ⟨i, hi⟩ := exists_id_of_mem_names hn
    rw [ids, hi, ids_of_declared p hnames, List.filterMap_cons, id_eq_ok_iff.mp hi]
    rfl

/-! ## States -/

theorem state_modify_ne (pins : List Pin) {i j : PinId} (h : i ≠ j) (f : Pin → Pin) :
    state ⟨pins.modify i f⟩ j = state ⟨pins⟩ j := by
  rw [state, state, List.getElem?_modify_ne _ _ h]

theorem state_set_ne (p : Pinout) {i j : PinId} (h : i ≠ j) (s : PinState) : (p.set i s).state j = p.state j :=
  state_modify_ne p.pins h _

theorem state_set_self (p : Pinout) {i : PinId} (hi : i < p.pins.length) (s : PinState) :
    (p.set i s).state i = s := by
  rw [state, set, List.getElem?_modify_eq, List.getElem?_eq_getElem hi]
  rfl

theorem state_toggle_ne (p : Pinout) {i j : PinId} (h : i ≠ j) : (p.toggle i).state j = p.state j :=
  state_modify_ne p.pins h _

theorem state_toggle_self (p : Pinout) {i : PinId} (hi : i < p.pins.length) :
    (p.toggle i).state i = (p.state i).toggled := by
  rw [state, toggle, List.getElem?_modify_eq, state, List.getElem?_eq_getElem hi]
  rfl

theorem state_modify_keep (pins : List Pin) (i j : PinId) {f : Pin → Pin} (hf : ∀ q, (f q).state = q.state) :
    state ⟨pins.modify i f⟩ j = state ⟨pins⟩ j := by
  rw [state, state, List.getElem?_modify]
  cases pins[j]? with
  | none => rfl
  | some q =>
    by_cases h : i = j
    · simp only [if_pos h, Option.map_eq_map, Option.map_some, hf]
    · simp only [if_neg h, Option.map_eq_map, Option.map_some]

theorem state_mask (p : Pinout) (i j : PinId) : (p.mask i).state j = p.state j :=
  state_modify_keep p.pins i j fun _ => rfl

theorem state_unmask (p : Pinout) (i j : PinId) : (p.unmask i).state j = p.state j :=
  state_modify_keep p.pins i j fun _ => rfl

/-- Changes that keep the state of a pin, one after the other. -/
theorem state_foldl {f : Pinout → PinId → Pinout} {j : PinId} : ∀ {ids : List PinId},
    (∀ p, ∀ i ∈ ids, (f p i).state j = p.state j) → ∀ p, (ids.foldl f p).state j = p.state j
  | [], _, _ => rfl
  | i :: ids, hf, p => by
    rw [List.foldl_cons, state_foldl (fun p k hk => hf p k (List.mem_cons_of_mem i hk)), hf p i List.mem_cons_self]

/-- Toggling some pins toggles the pins among them. -/
theorem state_foldl_toggle {j : PinId} {ids : List PinId} (hids : ids.Nodup) {p : Pinout}
    (hj : j < p.pins.length) :
    (ids.foldl toggle p).state j = if j ∈ ids then (p.state j).toggled else p.state j := by
  induction ids generalizing p with
  | nil => rfl
  | cons i ids ih =>
    obtain ⟨hi, hids⟩ := List.nodup_cons.mp hids
    rw [List.foldl_cons]
    by_cases hij : i = j
    · subst hij
      have hrest : ∀ q : Pinout, ∀ k ∈ ids, (q.toggle k).state i = q.state i := fun q k hk =>
        q.state_toggle_ne (ne_of_mem_of_not_mem hk hi)
      rw [if_pos List.mem_cons_self, state_foldl hrest, p.state_toggle_self hj]
    · rw [ih hids (by rwa [length_of_names (p.names_toggle i)]), p.state_toggle_ne hij]
      simp only [List.mem_cons, Ne.symm hij, false_or]

theorem masked_of_isLevel : ∀ {s : PinState}, s.isLevel = true → s.masked = s
  | .drive0, _ | .drive1, _ => rfl

/-- What a vector shows of a pin is its state under its masks. -/
theorem snapshot_eq {p : Pinout} {i : PinId} (hi : i < p.pins.length) :
    p.snapshot[i]? = some ((p.state i).under (p.masks i)) := by
  rw [snapshot, state, masks, List.getElem?_map, List.getElem?_eq_getElem hi]
  rfl

/-- A level shows through masks. -/
theorem snapshot_of_isLevel {p : Pinout} {i : PinId} (hi : i < p.pins.length) (h : (p.state i).isLevel = true) :
    p.snapshot[i]? = some (p.state i) := by
  rw [snapshot_eq hi, PinState.under, masked_of_isLevel h, ite_self]

/-- Without a mask a pin shows its state. -/
theorem snapshot_of_masks_eq_zero {p : Pinout} {i : PinId} (hi : i < p.pins.length) (h : p.masks i = 0) :
    p.snapshot[i]? = some (p.state i) := by
  rw [snapshot_eq hi, PinState.under, if_pos h]

/-! ## Masks -/

/-- How many masks are on each of the pins. -/
def depths (p : Pinout) : List Nat := p.pins.map Pin.masks

theorem masks_eq (p : Pinout) (i : PinId) : p.masks i = p.depths[i]?.getD 0 := by
  rw [masks, depths, List.getElem?_map]

theorem depths_modify (pins : List Pin) (i : PinId) {f : Pin → Pin} {g : Nat → Nat}
    (hf : ∀ q, (f q).masks = g q.masks) : depths ⟨pins.modify i f⟩ = (depths ⟨pins⟩).modify i g := by
  refine List.ext_getElem? fun j => ?_
  simp only [depths, List.getElem?_map, List.getElem?_modify]
  cases pins[j]? with
  | none => rfl
  | some q => by_cases h : i = j <;> simp [h, hf]

theorem depths_modify_keep (pins : List Pin) (i : PinId) {f : Pin → Pin} (hf : ∀ q, (f q).masks = q.masks) :
    depths ⟨pins.modify i f⟩ = depths ⟨pins⟩ :=
  (depths_modify pins i (g := fun n => n) hf).trans (List.modify_id i _)

theorem depths_set (p : Pinout) (i : PinId) (s : PinState) : (p.set i s).depths = p.depths :=
  depths_modify_keep p.pins i fun _ => rfl

theorem depths_toggle (p : Pinout) (i : PinId) : (p.toggle i).depths = p.depths :=
  depths_modify_keep p.pins i fun _ => rfl

theorem depths_mask (p : Pinout) (i : PinId) : (p.mask i).depths = p.depths.modify i (· + 1) :=
  depths_modify p.pins i fun _ => rfl

theorem depths_unmask (p : Pinout) (i : PinId) : (p.unmask i).depths = p.depths.modify i (· - 1) :=
  depths_modify p.pins i fun _ => rfl

theorem depths_foldl_toggle : ∀ (ids : List PinId) (p : Pinout), (ids.foldl toggle p).depths = p.depths
  | [], _ => rfl
  | i :: ids, p => (depths_foldl_toggle ids (p.toggle i)).trans (p.depths_toggle i)

/-- One more mask on a pin is one more after others were put on, whether they
are on the same pin or not. -/
theorem foldl_modify_succ (i : PinId) : ∀ (ids : List PinId) (depths : List Nat),
    ids.foldl (fun d j => d.modify j (· + 1)) (depths.modify i (· + 1)) =
      (ids.foldl (fun d j => d.modify j (· + 1)) depths).modify i (· + 1)
  | [], _ => rfl
  | j :: ids, depths => by
    have hswap : (depths.modify i (· + 1)).modify j (· + 1) = (depths.modify j (· + 1)).modify i (· + 1) := by
      by_cases h : i = j
      · rw [h]
      · exact (List.modify_modify_ne _ _ _ (Ne.symm h)).symm
    rw [List.foldl_cons, List.foldl_cons, hswap, foldl_modify_succ i ids]

/-- Unmasking undoes masking, if nothing else did anything to the masks. -/
theorem depths_unmask_mask : ∀ (ids : List PinId) {p q : Pinout}, q.depths = (ids.foldl mask p).depths →
    (ids.foldl unmask q).depths = p.depths
  | [], _, _, h => h
  | i :: ids, p, q, h => by
    have hmask (p : Pinout) : (ids.foldl mask p).depths = ids.foldl (fun d j => d.modify j (· + 1)) p.depths :=
      (List.foldl_hom depths fun p j => (p.depths_mask j).symm).symm
    have hdone : (q.unmask i).depths = (ids.foldl mask p).depths := by
      rw [depths_unmask, h, List.foldl_cons, hmask, depths_mask, foldl_modify_succ, ← hmask,
        List.modify_modify_eq]
      exact List.modify_id i _
    exact depths_unmask_mask ids hdone

end Pinout

end TestProgram
