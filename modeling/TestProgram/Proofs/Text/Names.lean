import Mathlib.Data.String.Basic
import TestProgram.Text.Names

/-!
# Sets of names in order

A set of names is ascending (`Ascending`), so no name is in it twice. Inserting
a name keeps it so and changes nothing if the name is there already
(`insert_of_mem`). A name that is among others makes no difference to what a set
has beyond them (`difference_insert_eq_iff`).

Names are ordered by the code points of their characters. That is the order of
their UTF-8 bytes as well (`bytes_lt_bytes`): where two characters differ, the
first byte in which their encodings differ is the smaller one in the smaller
character (`diverge_utf8EncodeChar`), and no encoding is the beginning of
another.
-/

namespace TestProgram.Names

/-- Names in ascending order, none of them twice. -/
def Ascending (names : List String) : Prop := names.Pairwise (· < ·)

variable {name n : String} {names others : List String}

theorem Ascending.insert : ∀ {names : List String}, Ascending names → Ascending (insert name names)
  | [], _ => List.pairwise_singleton _ name
  | n :: ns, h => by
    obtain ⟨hn, hns⟩ := List.pairwise_cons.mp h
    unfold Names.insert
    split
    · rename_i hlt
      refine List.pairwise_cons.mpr ⟨fun x hx => ?_, h⟩
      rcases List.mem_cons.mp hx with rfl | hx
      · exact hlt
      · exact lt_trans hlt (hn x hx)
    · rename_i hge
      split
      · exact h
      · rename_i hne
        have hlt : n < name := lt_of_le_of_ne (not_lt.mp hge) (Ne.symm hne)
        refine List.pairwise_cons.mpr ⟨fun x hx => ?_, Ascending.insert hns⟩
        rcases mem_insert.mp hx with rfl | hx
        · exact hlt
        · exact hn x hx

theorem Ascending.difference (h : Ascending names) (others : List String) : Ascending (difference names others) :=
  h.filter _

/-- A name that is in a set already is inserted where it is. -/
theorem insert_of_mem : ∀ {names : List String}, Ascending names → name ∈ names → insert name names = names
  | n :: ns, h, hmem => by
    obtain ⟨hn, hns⟩ := List.pairwise_cons.mp h
    unfold insert
    rcases List.mem_cons.mp hmem with rfl | hmem
    · rw [if_neg (lt_irrefl name), if_pos rfl]
    · have hlt : n < name := hn name hmem
      rw [if_neg (not_lt.mpr (le_of_lt hlt)), if_neg (ne_of_gt hlt), insert_of_mem hns hmem]

theorem mem_difference : n ∈ difference names others ↔ n ∈ names ∧ n ∉ others := by
  simp [difference]

/-- A name among the others is left out wherever it is inserted. -/
theorem difference_insert_of_mem (h : name ∈ others) :
    ∀ names : List String, difference (insert name names) others = difference names others
  | [] => by simp [insert, difference, h]
  | n :: ns => by
    have ih := difference_insert_of_mem h ns
    unfold difference at ih ⊢
    unfold insert
    split
    · rw [List.filter_cons_of_neg (by simp [h])]
    · split
      · rfl
      · rw [List.filter_cons, List.filter_cons, ih]

/-- Inserting a name makes a difference if it is new and not among the others. -/
theorem difference_insert_eq_iff (h : Ascending names) :
    difference (insert name names) others = difference names others ↔ name ∈ names ∨ name ∈ others := by
  constructor
  · intro heq
    by_contra hnew
    obtain ⟨hnames, hothers⟩ := not_or.mp hnew
    have hmem : name ∈ difference (insert name names) others :=
      mem_difference.mpr ⟨mem_insert.mpr (.inl rfl), hothers⟩
    rw [heq] at hmem
    exact hnames (mem_difference.mp hmem).1
  · rintro (hmem | hmem)
    · rw [insert_of_mem h hmem]
    · exact difference_insert_of_mem hmem names

/-! ## Bytes -/

/-- The UTF-8 bytes of a name. -/
def bytes (name : String) : List UInt8 := name.toUTF8.data.toList

theorem bytes_eq_flatMap (name : String) : bytes name = name.toList.flatMap String.utf8EncodeChar := by
  rw [bytes, String.toUTF8_eq_toByteArray, ← String.utf8Encode_toList, List.utf8Encode, List.toList_data_toByteArray]

/-- Both have a byte after a common beginning, and there the first is less. -/
inductive Diverge : List UInt8 → List UInt8 → Prop where
  | here {x y : UInt8} (xs ys : List UInt8) (h : x < y) : Diverge (x :: xs) (y :: ys)
  | next (x : UInt8) {xs ys : List UInt8} (h : Diverge xs ys) : Diverge (x :: xs) (x :: ys)

theorem Diverge.append_lt_append {xs ys : List UInt8} (h : Diverge xs ys) (xs' ys' : List UInt8) :
    xs ++ xs' < ys ++ ys' := by
  induction h with
  | here xs ys h => exact List.cons_lt_cons_iff.mpr (.inl h)
  | next x _ ih => exact List.cons_lt_cons_iff.mpr (.inr ⟨rfl, ih⟩)

/-- Bytes in order diverge, unless they are the same and those after them
diverge. -/
theorem Diverge.of_le {m n : Nat} {xs ys : List UInt8} (hn : n < 256) (hle : m ≤ n) (h : m = n → Diverge xs ys) :
    Diverge (UInt8.ofNat m :: xs) (UInt8.ofNat n :: ys) := by
  rcases Nat.lt_or_eq_of_le hle with hlt | rfl
  · refine .here xs ys (UInt8.lt_iff_toNat_lt.mpr ?_)
    rwa [UInt8.toNat_ofNat_of_lt' (Nat.lt_trans hlt hn), UInt8.toNat_ofNat_of_lt' hn]
  · exact .next _ (h rfl)

theorem diverge_utf8EncodeChar {c d : Char} (h : c < d) :
    Diverge (String.utf8EncodeChar c) (String.utf8EncodeChar d) := by
  have hlt : c.val.toNat < d.val.toNat := h
  have hmax : d.val.toNat < 0x110000 := by
    have hvalid := d.valid
    simp only [UInt32.isValidChar, Nat.isValidChar] at hvalid
    omega
  fun_cases String.utf8EncodeChar c <;> fun_cases String.utf8EncodeChar d
  -- bytes that are the same as far as the shorter encoding goes leave no room for a difference
  all_goals
    repeat refine .of_le (by omega) (by omega) fun _ => ?_
    omega

theorem flatMap_lt_flatMap {cs ds : List Char} (h : cs < ds) :
    cs.flatMap String.utf8EncodeChar < ds.flatMap String.utf8EncodeChar := by
  induction h with
  | @nil d ds =>
    rw [List.flatMap_nil, List.flatMap_cons]
    obtain ⟨x, xs, hx⟩ := List.exists_cons_of_ne_nil (String.utf8EncodeChar_ne_nil (c := d))
    rw [hx]
    exact List.nil_lt_cons _ _
  | rel h => exact (diverge_utf8EncodeChar h).append_lt_append _ _
  | cons _ ih => exact List.append_left_lt ih

/-- The order of names is the order of their bytes. -/
theorem bytes_lt_bytes {a b : String} (h : a < b) : bytes a < bytes b := by
  rw [bytes_eq_flatMap, bytes_eq_flatMap]
  exact flatMap_lt_flatMap (String.lt_iff.mp h)

end TestProgram.Names
