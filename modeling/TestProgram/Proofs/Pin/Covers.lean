import Mathlib.Data.Nat.SuccPred
import TestProgram.Proofs.Pin.Pinout

/-!
# Pins under more masks

A pinout with more masks on some of its pins (`cover`) has the same names and
states. It can be set and toggled as before (`cover_set`, `cover_toggle`), and
unmasked again (`uncover`); all that the masks change is what is shown: the
comparisons on the pins under them are not (`snapshot_cover`).
-/

namespace TestProgram

/-- A state without its comparison. -/
def PinState.veiled (s : PinState) : PinState := if s.role = .compare then .compareX else s

theorem PinState.masked_eq (s : PinState) : s.masked = s.veiled := by cases s <;> rfl

/-- A vector without the comparisons on some pins. -/
def veilStates (ids : List PinId) (states : List PinState) : List PinState :=
  states.mapIdx fun i s => if i ∈ ids then s.veiled else s

namespace Pinout

theorem ext_getElem? {p q : Pinout} (h : ∀ i : PinId, p.pins[i]? = q.pins[i]?) : p = q :=
  congrArg Pinout.mk (List.ext_getElem? h)

/-- A pin changes as often as it is listed. -/
theorem getElem?_foldl_masks {f : Pinout → PinId → Pinout} {g : Nat → Nat}
    (hf : ∀ p i, (f p i).pins = p.pins.modify i fun q => { q with masks := g q.masks }) (i : PinId) :
    ∀ (ids : List PinId) (p : Pinout),
      (ids.foldl f p).pins[i]? = p.pins[i]?.map fun q => { q with masks := g^[ids.count i] q.masks }
  | [], p => Option.map_id'.symm
  | j :: ids, p => by
    rw [List.foldl_cons, getElem?_foldl_masks hf i ids, hf, List.getElem?_modify, List.count_cons]
    cases p.pins[i]? with
    | none => rfl
    | some q => by_cases h : j = i <;> simp [h, Function.iterate_succ_apply]

/-- The pinout with one more mask on a pin for each time that it is listed. -/
def cover (p : Pinout) (ids : List PinId) : Pinout := ids.foldl mask p

section

variable (p : Pinout) (ids : List PinId)

theorem cover_append (ids' : List PinId) : p.cover (ids ++ ids') = (p.cover ids).cover ids' := List.foldl_append

theorem names_cover : (p.cover ids).names = p.names := names_foldl names_mask ids p

theorem state_cover (i : PinId) : (p.cover ids).state i = p.state i := state_foldl (fun p j _ => p.state_mask j i) p

theorem getElem?_cover (i : PinId) :
    (p.cover ids).pins[i]? = p.pins[i]?.map fun q => { q with masks := (· + 1)^[ids.count i] q.masks } :=
  getElem?_foldl_masks (fun _ _ => rfl) i ids p

theorem name_cover (i : PinId) : (p.cover ids).name i = p.name i := by
  rw [name, getElem?_cover, Option.map_map]
  rfl

/-- Taking the masks off again leaves the pinout as it was. -/
theorem uncover : ids.foldl unmask (p.cover ids) = p := by
  refine ext_getElem? fun i => ?_
  rw [getElem?_foldl_masks (f := unmask) (g := (· - 1)) (fun _ _ => rfl) i ids, getElem?_cover, Option.map_map]
  cases p.pins[i]? with
  | none => rfl
  | some q =>
    have hback : Function.LeftInverse (· - 1 : Nat → Nat) (· + 1) := Nat.add_sub_cancel (m := 1)
    simp only [Option.map_some, Function.comp, hback.iterate _ q.masks]

/-- Changes to other things than the masks can be made under a cover. -/
theorem cover_modify {f : Pin → Pin} (hf : ∀ q masks, f { q with masks := masks } = { f q with masks := masks })
    (i : PinId) : (⟨(p.cover ids).pins.modify i f⟩ : Pinout) = cover ⟨p.pins.modify i f⟩ ids := by
  refine ext_getElem? fun j => ?_
  rw [getElem?_cover, List.getElem?_modify, List.getElem?_modify, getElem?_cover]
  cases p.pins[j]? with
  | none => rfl
  | some q =>
    have hmasks : (f q).masks = q.masks := (congrArg Pin.masks (hf q q.masks) :)
    by_cases h : i = j
    · simp only [h, if_true, Option.map_some, Option.map_eq_map, hmasks]
      exact congrArg some (hf q _)
    · simp only [h, if_false, Option.map_some, Option.map_eq_map]

theorem cover_set (i : PinId) (s : PinState) : (p.cover ids).set i s = (p.set i s).cover ids :=
  p.cover_modify ids (fun _ _ => rfl) i

theorem cover_toggle (i : PinId) : (p.cover ids).toggle i = (p.toggle i).cover ids :=
  p.cover_modify ids (fun _ _ => rfl) i

theorem cover_foldl_toggle (toggles : List PinId) :
    toggles.foldl toggle (p.cover ids) = (toggles.foldl toggle p).cover ids := by
  induction toggles generalizing p with
  | nil => rfl
  | cons i toggles ih => rw [List.foldl_cons, cover_toggle, ih, List.foldl_cons]

/-- The comparisons on the pins under the cover are not shown. -/
theorem snapshot_cover : (p.cover ids).snapshot = veilStates ids p.snapshot := by
  refine List.ext_getElem? fun i => ?_
  rw [snapshot, veilStates, List.getElem?_map, List.getElem?_mapIdx, snapshot, List.getElem?_map, getElem?_cover]
  cases p.pins[i]? with
  | none => rfl
  | some q =>
    have hmasks : (· + 1)^[ids.count i] q.masks = q.masks + ids.count i := Nat.succ_iterate q.masks _
    simp only [Option.map_some, Pin.shown, hmasks]
    by_cases hi : i ∈ ids
    · have hpos : q.masks + ids.count i ≠ 0 := by
        have := List.count_pos_iff.mpr hi
        omega
      rw [if_neg hpos, if_pos hi, ← PinState.masked_eq]
      split
      · rfl
      · exact congrArg some (PinState.masked_masked _).symm
    · rw [List.count_eq_zero.mpr hi, if_neg hi]
      rfl

end

end Pinout

end TestProgram
