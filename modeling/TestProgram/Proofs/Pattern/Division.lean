import Mathlib.Algebra.GroupWithZero.Nat
import Mathlib.Algebra.Order.BigOperators.Group.List
import Mathlib.Algebra.Order.Group.Nat
import Mathlib.Data.List.Pairwise
import Mathlib.Order.Bounds.Basic
import TestProgram.Pattern.Tape

/-!
# Dividing a run into records

What the lengths of a slice's records are, whatever the ceiling and the group
size: they add up to the slice (`sum_pieces`), none is empty (`pieces_pos`),
and none is above the ceiling but a stored first group that is larger than
the ceiling itself (`pieces_over`). The division under a ceiling that they are
made of has parts of two lengths that follow each other (`exists_levels`), and
no division has fewer (`splitEvenly_evenParts`).
-/

namespace TestProgram

theorem Word.ceilDiv_mul_ge (n : Nat) {size : Nat} (hs : 0 < size) : n ≤ Word.ceilDiv n size * size := by
  have hd := Nat.div_add_mod n size
  have hm := Nat.mod_lt n hs
  unfold Word.ceilDiv
  split
  · rw [Nat.add_zero, Nat.mul_comm]
    omega
  · rw [Nat.add_mul, Nat.one_mul, Nat.mul_comm]
    omega

/-- No multiple of the size below `ceilDiv n size * size` covers `n`. -/
theorem Word.ceilDiv_le {n size k : Nat} (h : n ≤ k * size) : Word.ceilDiv n size ≤ k := by
  have hd := Nat.div_add_mod n size
  have hle : n / size ≤ k := Nat.div_le_of_le_mul (by rwa [Nat.mul_comm])
  unfold Word.ceilDiv
  split
  · exact hle
  · rename_i hne
    refine Nat.lt_of_le_of_ne hle fun e => ?_
    rw [e, Nat.mul_comm] at hd
    omega

theorem Word.ceilDiv_pos {n size : Nat} (hn : 0 < n) (hs : 0 < size) : 0 < Word.ceilDiv n size := by
  refine Nat.pos_of_ne_zero fun e => ?_
  have hcover := Word.ceilDiv_mul_ge n hs
  rw [e, Nat.zero_mul] at hcover
  omega

/-! ## Even parts -/

theorem sum_splitEvenly (n : Nat) (ceiling : Option Nat) : (splitEvenly n ceiling).sum = n := by
  cases ceiling with
  | none => simp [splitEvenly]
  | some c =>
    simp only [splitEvenly]
    split
    · simp
    · rename_i hn
      have hpos : 0 < Word.ceilDiv n (max c 1) := Word.ceilDiv_pos (by omega) (by omega)
      generalize Word.ceilDiv n (max c 1) = parts at hpos
      have hr := Nat.mod_lt n hpos
      rw [List.sum_append_nat, List.sum_replicate_nat, List.sum_replicate_nat, Nat.mul_add, Nat.mul_one,
        Nat.add_right_comm, ← Nat.add_mul, Nat.add_sub_cancel' (Nat.le_of_lt hr)]
      exact Nat.div_add_mod n parts

/-- A part of a run is not empty and respects the ceiling. -/
theorem bounds_of_mem_splitEvenly {n x : Nat} {ceiling : Option Nat} (hn : 0 < n) (hx : x ∈ splitEvenly n ceiling) :
    0 < x ∧ ∀ c ∈ ceiling, x ≤ max c 1 := by
  cases ceiling with
  | none =>
    rw [splitEvenly, List.mem_singleton] at hx
    exact ⟨hx ▸ hn, fun c hc => nomatch hc⟩
  | some c =>
    simp only [splitEvenly] at hx
    split at hx
    · rename_i hle
      rw [List.mem_singleton] at hx
      exact ⟨hx ▸ hn, fun d hd => by rw [hx, ← Option.some.inj hd]; exact hle⟩
    · rename_i hgt
      have hs : 0 < max c 1 := by omega
      have hcover := Word.ceilDiv_mul_ge n hs
      have hfew : Word.ceilDiv n (max c 1) ≤ n := Word.ceilDiv_le (Nat.le_mul_of_pos_right n hs)
      have hparts := Word.ceilDiv_pos hn hs
      generalize Word.ceilDiv n (max c 1) = parts at hcover hfew hparts hx
      have hbase : 0 < n / parts := Nat.div_pos hfew hparts
      have hd := Nat.div_add_mod n parts
      have hle : n / parts ≤ max c 1 := Nat.div_le_of_le_mul hcover
      rcases List.mem_append.mp hx with hx | hx <;> obtain ⟨hne, rfl⟩ := List.mem_replicate.mp hx
      · refine ⟨Nat.succ_pos _, fun d hd' => ?_⟩
        rw [← Option.some.inj hd']
        refine Nat.lt_of_le_of_ne hle fun e => ?_
        rw [e] at hd
        omega
      · exact ⟨hbase, fun d hd' => by rw [← Option.some.inj hd']; exact hle⟩

/-- The parts have two lengths, the larger of which comes first and has one cycle more. -/
theorem exists_levels (n : Nat) (ceiling : Option Nat) :
    ∃ a b q, splitEvenly n ceiling = List.replicate a (q + 1) ++ List.replicate b q := by
  have hwhole : [n] = List.replicate 0 (n + 1) ++ List.replicate 1 n := rfl
  cases ceiling with
  | none => exact ⟨0, 1, n, hwhole⟩
  | some c =>
    simp only [splitEvenly]
    split
    · exact ⟨0, 1, n, hwhole⟩
    · exact ⟨_, _, _, rfl⟩

theorem pairwise_splitEvenly (n : Nat) (ceiling : Option Nat) : (splitEvenly n ceiling).Pairwise (· ≥ ·) := by
  obtain ⟨a, b, q, h⟩ := exists_levels n ceiling
  rw [h, List.pairwise_append]
  refine ⟨List.pairwise_replicate_of_refl, List.pairwise_replicate_of_refl, fun x hx y hy => ?_⟩
  rw [List.eq_of_mem_replicate hx, List.eq_of_mem_replicate hy]
  exact Nat.le_succ q

theorem le_succ_of_mem_splitEvenly {n x y : Nat} {ceiling : Option Nat} (hx : x ∈ splitEvenly n ceiling)
    (hy : y ∈ splitEvenly n ceiling) : x ≤ y + 1 := by
  obtain ⟨a, b, q, h⟩ := exists_levels n ceiling
  have hlevel : ∀ z ∈ splitEvenly n ceiling, q ≤ z ∧ z ≤ q + 1 := by
    intro z hz
    rw [h] at hz
    rcases List.mem_append.mp hz with hz | hz <;> rw [List.eq_of_mem_replicate hz] <;> omega
  have hhigh := (hlevel x hx).2
  have hlow := (hlevel y hy).1
  omega

theorem length_splitEvenly {n : Nat} (hn : 0 < n) (c : Nat) :
    (splitEvenly n (some c)).length = Word.ceilDiv n (max c 1) := by
  have hsize : 0 < max c 1 := Nat.lt_of_lt_of_le Nat.one_pos (Nat.le_max_right c 1)
  have hpos := Word.ceilDiv_pos hn hsize
  simp only [splitEvenly]
  split
  · rename_i hle
    have hone : Word.ceilDiv n (max c 1) ≤ 1 := Word.ceilDiv_le (by rwa [Nat.one_mul])
    rw [List.length_singleton]
    omega
  · have hrest := Nat.mod_lt n hpos
    rw [List.length_append, List.length_replicate, List.length_replicate]
    omega

/-- Parts of `n` none of which is larger than `size`. There are as few of them as there can be, and they are as equal as
they can be, the larger ones first. -/
structure EvenParts (n size : Nat) (parts : List Nat) : Prop where
  descending : parts.Pairwise (· ≥ ·)
  pos : ∀ x ∈ parts, 0 < x
  sum : parts.sum = n
  le_size : ∀ x ∈ parts, x ≤ size
  even : ∀ x ∈ parts, ∀ y ∈ parts, x ≤ y + 1
  fewest :
    IsLeast {k | ∃ others : List Nat, others.length = k ∧ others.sum = n ∧ ∀ x ∈ others, x ≤ size} parts.length

/-- A run of any length is divided evenly under any ceiling, where a ceiling of zero has room for one cycle, and is not
divided without one. -/
theorem splitEvenly_evenParts {n : Nat} (hn : 0 < n) :
    splitEvenly n none = [n] ∧ ∀ c, EvenParts n (max c 1) (splitEvenly n (some c)) := by
  refine ⟨rfl, fun c => ?_⟩
  have hbounds : ∀ x ∈ splitEvenly n (some c), 0 < x ∧ x ≤ max c 1 := fun x hx =>
    (bounds_of_mem_splitEvenly hn hx).imp_right fun hle => hle c rfl
  refine
    { descending := pairwise_splitEvenly n (some c)
      pos := fun x hx => (hbounds x hx).1
      sum := sum_splitEvenly n (some c)
      le_size := fun x hx => (hbounds x hx).2
      even := fun x hx y hy => le_succ_of_mem_splitEvenly hx hy
      fewest := ⟨⟨_, rfl, sum_splitEvenly n (some c), fun x hx => (hbounds x hx).2⟩, ?_⟩ }
  -- fewer parts could not cover the run
  rintro k ⟨others, rfl, hsum, hothers⟩
  have hcover : n ≤ others.length * max c 1 := hsum ▸ List.sum_le_card_nsmul others (max c 1) hothers
  rw [length_splitEvenly hn]
  exact Word.ceilDiv_le hcover

/-- One cycle more than there is room for in two records makes three. -/
theorem overlongRun_evenParts :
    0 < 131071 ∧ splitEvenly 131071 none = [131071] ∧ splitEvenly 131071 (some 65535) = [43691, 43690, 43690] ∧
      EvenParts 131071 65535 (splitEvenly 131071 (some 65535)) := by
  have hn : 0 < 131071 := by decide
  exact ⟨hn, (splitEvenly_evenParts hn).1, by decide, (splitEvenly_evenParts hn).2 65535⟩

/-! ## Whole groups -/

theorem sum_map_mul (g : Nat) : ∀ ns : List Nat, (ns.map (· * g)).sum = ns.sum * g
  | [] => by simp
  | n :: ns => by rw [List.map_cons, List.sum_cons, List.sum_cons, sum_map_mul g ns, Nat.add_mul]

theorem sum_chunks (ceiling : Option Nat) (group n : Nat) : (chunks ceiling group n).sum = n := by
  unfold chunks
  split
  · rename_i h
    rw [sum_map_mul, sum_splitEvenly]
    exact Nat.div_mul_cancel (Nat.dvd_of_mod_eq_zero h.2.1)
  · exact sum_splitEvenly n ceiling

theorem bounds_of_mem_chunks {n x group : Nat} {ceiling : Option Nat} (hn : 0 < n)
    (hx : x ∈ chunks ceiling group n) : 0 < x ∧ ∀ c ∈ ceiling, x ≤ max c 1 := by
  unfold chunks at hx
  split at hx
  · rename_i h
    obtain ⟨hg, hdvd, hroom⟩ := h
    obtain ⟨y, hy, rfl⟩ := List.mem_map.mp hx
    have hpos : 0 < n / group :=
      Nat.div_pos (Nat.le_of_dvd hn (Nat.dvd_of_mod_eq_zero hdvd)) (by omega)
    obtain ⟨hy0, hyc⟩ := bounds_of_mem_splitEvenly hpos hy
    refine ⟨Nat.mul_pos hy0 (by omega), fun c hc => ?_⟩
    obtain rfl : ceiling = some c := hc
    have hle : group ≤ c := by simpa using hroom
    have hone : 1 ≤ c / group := Nat.div_pos hle (by omega)
    have hy' : y ≤ c / group := Nat.le_trans (hyc (c / group) rfl) (by omega)
    calc y * group ≤ c / group * group := Nat.mul_le_mul_right group hy'
      _ ≤ c := Nat.div_mul_le_self c group
      _ ≤ max c 1 := Nat.le_max_left c 1
  · exact bounds_of_mem_splitEvenly hn hx

/-! ## The records of a slice -/

theorem sum_pieces (ceiling : Option Nat) (store : Bool) (group n : Nat) :
    (pieces ceiling store group n).sum = n := by
  unfold pieces
  split
  · rename_i h
    rw [List.sum_cons, sum_chunks]
    omega
  · exact sum_chunks ceiling group n

theorem pieces_pos {ceiling : Option Nat} {store : Bool} {group n x : Nat} (hg : 0 < group) (hn : 0 < n)
    (hx : x ∈ pieces ceiling store group n) : 0 < x := by
  unfold pieces at hx
  split at hx
  · rename_i h
    rcases List.mem_cons.mp hx with rfl | hx
    · exact hg
    · exact (bounds_of_mem_chunks (by omega) hx).1
  · exact (bounds_of_mem_chunks hn hx).1

theorem pieces_ne_nil {ceiling : Option Nat} {store : Bool} {group n : Nat} (hn : 0 < n) :
    pieces ceiling store group n ≠ [] := by
  intro h
  have := sum_pieces ceiling store group n
  rw [h, List.sum_nil] at this
  omega

/-- Only the first piece can be above the ceiling. It is then a stored group
larger than the ceiling. -/
theorem pieces_over {c group n : Nat} {store : Bool} (hn : 0 < n) {x : Nat} {xs : List Nat}
    (h : pieces (some c) store group n = x :: xs) :
    (max c 1 < x ↔ store = true ∧ group < n ∧ max c 1 < group) ∧ (max c 1 < x → x = group) ∧
      ∀ y ∈ xs, y ≤ max c 1 := by
  unfold pieces at h
  split at h
  · rename_i hs
    obtain ⟨rfl, rfl⟩ := List.cons.inj h
    refine ⟨by simp [hs], fun _ => rfl, fun y hy => ?_⟩
    exact (bounds_of_mem_chunks (by omega) hy).2 c rfl
  · rename_i hs
    have hall : ∀ y ∈ x :: xs, y ≤ max c 1 := fun y hy =>
      (bounds_of_mem_chunks hn (h ▸ hy)).2 c rfl
    have hx := hall x List.mem_cons_self
    refine ⟨⟨fun hlt => by omega, fun hw => absurd ⟨hw.1, hw.2.1⟩ hs⟩, fun hlt => by omega, fun y hy => ?_⟩
    exact hall y (List.mem_cons_of_mem x hy)

/-! ## Without a ceiling -/

theorem dvd_of_mem_chunks {group n x : Nat} (hn : group ∣ n) (hx : x ∈ chunks none group n) : group ∣ x := by
  unfold chunks at hx
  split at hx
  · obtain rfl := List.mem_singleton.mp hx
    exact Nat.dvd_mul_left group (n / group)
  · obtain rfl := List.mem_singleton.mp hx
    exact hn

/-- A stored group is a group, and what is left of whole groups are whole
groups. -/
theorem dvd_of_mem_pieces {store : Bool} {group n x : Nat} (hn : group ∣ n) (hx : x ∈ pieces none store group n) :
    group ∣ x := by
  unfold pieces at hx
  split at hx
  · rcases List.mem_cons.mp hx with rfl | hx
    · exact Nat.dvd_refl x
    · exact dvd_of_mem_chunks (Nat.dvd_sub hn (Nat.dvd_refl group)) hx
  · exact dvd_of_mem_chunks hn hx

theorem pieces_one {store : Bool} {group : Nat} (hg : 0 < group) : pieces none store group 1 = [1] := by
  have hstore : ¬ (store = true ∧ group < 1) := by omega
  have hgroup : ¬ (1 < group ∧ 1 % group = 0 ∧ (none : Option Nat).all (group ≤ ·) = true) := fun h => by
    rw [Nat.mod_eq_of_lt h.1] at h
    exact nomatch h.2.1
  rw [pieces, if_neg hstore, chunks, if_neg hgroup]
  rfl

end TestProgram
