import Mathlib.Algebra.Order.Field.Power
import Mathlib.Data.Int.Log
import Mathlib.Data.Rat.Floor
import Mathlib.Tactic.Linarith
import Mathlib.Tactic.Positivity

/-!
# Rounding to 53 bits

`Rounding.nearest` takes a number to a whole number of at most 53 bits times a power of two that is not below
`2 ^ -1074`, to the even one of two equally near ones. It is such a number (`double_nearest`), no other one is nearer
(`abs_sub_nearest_le`), and so what is such a number already stays as it is (`nearest_of_double`) and bounds are kept
(`le_nearest`, `nearest_le`).
-/

namespace TestProgram

namespace Rounding

/-- The nearest whole number; of two equally near ones the even one. -/
def whole (v : ℚ) : ℕ :=
  if v - ⌊v⌋₊ < 1 / 2 then ⌊v⌋₊ else if 1 / 2 < v - ⌊v⌋₊ then ⌊v⌋₊ + 1 else ⌊v⌋₊ + ⌊v⌋₊ % 2

/-- The exponent of the last of 53 bits. -/
def unit (v : ℚ) : ℤ := max (Int.log 2 v - 52) (-1074)

/-- The nearest whole number of units; of two equally near ones the even one. -/
def nearest (v : ℚ) : ℚ := whole (v / 2 ^ unit v) * 2 ^ unit v

/-- At most 53 bits. There is no bound above. -/
def Double (y : ℚ) : Prop := ∃ (m : ℕ) (e : ℤ), m < 2 ^ 53 ∧ -1074 ≤ e ∧ y = m * 2 ^ e

variable {v y z : ℚ}

/-! ## Whole numbers -/

theorem whole_eq (v : ℚ) : whole v = ⌊v⌋₊ ∧ v - ⌊v⌋₊ ≤ 1 / 2 ∨ whole v = ⌊v⌋₊ + 1 ∧ 1 / 2 ≤ v - ⌊v⌋₊ := by
  unfold whole
  split
  · rename_i hlt
    exact .inl ⟨rfl, hlt.le⟩
  · rename_i hnlt
    split
    · rename_i hlt
      exact .inr ⟨rfl, hlt.le⟩
    · rename_i hngt
      rcases Nat.mod_two_eq_zero_or_one ⌊v⌋₊ with hmod | hmod <;> rw [hmod]
      · exact .inl ⟨rfl, not_lt.mp hngt⟩
      · exact .inr ⟨rfl, not_lt.mp hnlt⟩

/-- No whole number is nearer. -/
theorem abs_sub_whole_le (hv : 0 ≤ v) (k : ℕ) : |v - whole v| ≤ |v - k| := by
  have hfloor : (⌊v⌋₊ : ℚ) ≤ v := Nat.floor_le hv
  have hceil : v < ⌊v⌋₊ + 1 := Nat.lt_floor_add_one v
  have hk : (k : ℚ) ≤ ⌊v⌋₊ ∨ (⌊v⌋₊ : ℚ) + 1 ≤ k := by
    rcases Nat.lt_or_ge ⌊v⌋₊ k with hlt | hle
    · exact .inr (by exact_mod_cast hlt)
    · exact .inl (by exact_mod_cast hle)
  rcases whole_eq v with ⟨hwhole, hhalf⟩ | ⟨hwhole, hhalf⟩ <;> rw [hwhole] <;> push_cast <;>
    rcases hk with hk | hk <;> rw [abs_le] <;> constructor <;> cases abs_cases (v - k) <;> linarith

theorem whole_le {k : ℕ} (h : v ≤ k) : whole v ≤ k := by
  rcases whole_eq v with ⟨hwhole, -⟩ | ⟨hwhole, hhalf⟩ <;> rw [hwhole]
  · exact Nat.floor_le_of_le h
  · have hlt : (⌊v⌋₊ : ℚ) < k := by linarith
    exact_mod_cast hlt

theorem le_whole {k : ℕ} (h : k ≤ v) : k ≤ whole v := by
  have hfloor : k ≤ ⌊v⌋₊ := Nat.le_floor h
  rcases whole_eq v with ⟨hwhole, -⟩ | ⟨hwhole, -⟩ <;> omega

theorem whole_zero : whole 0 = 0 := Nat.le_zero.mp (whole_le Nat.cast_zero.ge)

/-! ## Units -/

theorem unit_pos (v : ℚ) : (0 : ℚ) < 2 ^ unit v := by positivity

theorem le_unit (v : ℚ) : -1074 ≤ unit v := le_max_right _ _

/-- A number is less than `2 ^ 53` units. -/
theorem div_unit_lt (v : ℚ) : v / 2 ^ unit v < 2 ^ 53 := by
  have hlog : v < 2 ^ (Int.log 2 v + 1) := Int.lt_zpow_succ_log_self (by norm_num) v
  have hexp : Int.log 2 v + 1 ≤ 53 + unit v := by
    have hle : Int.log 2 v - 52 ≤ unit v := le_max_left _ _
    omega
  rw [div_lt_iff₀ (unit_pos v)]
  calc v < 2 ^ (Int.log 2 v + 1) := hlog
    _ ≤ 2 ^ (53 + unit v) := zpow_le_zpow_right₀ (by norm_num) hexp
    _ = 2 ^ 53 * 2 ^ unit v := by rw [zpow_add₀ (by norm_num)]; norm_num

/-- Above the smallest unit a number is not less than `2 ^ 52` units. -/
theorem le_div_unit (hv : 0 < v) (h : -1074 < unit v) : 2 ^ 52 ≤ v / 2 ^ unit v := by
  have hlog : (2 : ℚ) ^ Int.log 2 v ≤ v := Int.zpow_log_le_self (by norm_num) hv
  have hunit : Int.log 2 v = 52 + unit v := by
    unfold unit at h ⊢
    omega
  rw [le_div_iff₀ (unit_pos v)]
  calc (2 : ℚ) ^ 52 * 2 ^ unit v = 2 ^ (52 + unit v) := by rw [zpow_add₀ (by norm_num)]; norm_num
    _ ≤ v := hunit ▸ hlog

theorem unit_of_bounds {k : ℤ} (hlow : 2 ^ k ≤ v) (hhigh : v < 2 ^ (k + 1)) : unit v = max (k - 52) (-1074) := by
  have hv : 0 < v := (zpow_pos (by norm_num) k).trans_le hlow
  have hle : k ≤ Int.log 2 v := (Int.zpow_le_iff_le_log (by norm_num) hv).mp hlow
  have hlt : Int.log 2 v < k + 1 := (Int.lt_zpow_iff_log_lt (by norm_num) hv).mp hhigh
  unfold unit
  omega

/-- Small numbers are measured in the smallest unit. -/
theorem unit_of_lt (hv : 0 < v) (h : v < 2 ^ (-1021 : ℤ)) : unit v = -1074 := by
  have hlt : Int.log 2 v < -1021 := (Int.lt_zpow_iff_log_lt (by norm_num) hv).mp h
  unfold unit
  omega

/-! ## Nearest numbers -/

theorem Double.nonneg (h : Double y) : 0 ≤ y := by
  obtain ⟨m, e, -, -, rfl⟩ := h
  positivity

theorem double_nat {k : ℕ} (hk : k ≤ 2 ^ 53) : Double k := by
  rcases hk.lt_or_eq with hlt | rfl
  · exact ⟨k, 0, hlt, by norm_num, by rw [zpow_zero, mul_one]⟩
  · exact ⟨2 ^ 52, 1, by norm_num, by norm_num, by norm_num⟩

theorem double_zpow {e : ℤ} (he : -1074 ≤ e) : Double (2 ^ e) := ⟨1, e, by norm_num, he, by norm_num⟩

theorem nearest_zero : nearest 0 = 0 := by
  rw [nearest, zero_div, whole_zero, Nat.cast_zero, zero_mul]

theorem double_nearest (v : ℚ) : Double (nearest v) := by
  have hle : whole (v / 2 ^ unit v) ≤ 2 ^ 53 := by
    refine whole_le ?_
    push_cast
    exact (div_unit_lt v).le
  rcases hle.lt_or_eq with hlt | heq
  · exact ⟨_, _, hlt, le_unit v, rfl⟩
  · refine ⟨2 ^ 52, unit v + 1, by norm_num, (le_unit v).trans (Int.le_add_one le_rfl), ?_⟩
    rw [nearest, heq, zpow_add_one₀ (by norm_num)]
    push_cast
    ring

/-- A number of units is at most as near as the nearest number. -/
theorem abs_sub_nearest_le_units (hv : 0 ≤ v) (k : ℕ) : |v - nearest v| ≤ |v - k * 2 ^ unit v| := by
  have hunit := unit_pos v
  have hscale (x : ℚ) : |v - x * 2 ^ unit v| = |v / 2 ^ unit v - x| * 2 ^ unit v := by
    rw [← abs_of_pos hunit, ← abs_mul, abs_of_pos hunit, sub_mul, div_mul_cancel₀ _ hunit.ne']
  rw [nearest, hscale, hscale]
  exact mul_le_mul_of_nonneg_right (abs_sub_whole_le (div_nonneg hv hunit.le) k) hunit.le

/-- No number of at most 53 bits is nearer. -/
theorem abs_sub_nearest_le (hv : 0 ≤ v) (hz : Double z) : |v - nearest v| ≤ |v - z| := by
  obtain ⟨m, e, hm, he, rfl⟩ := hz
  rcases hv.eq_or_lt with rfl | hpos
  · rw [nearest_zero, sub_zero, abs_zero]
    exact abs_nonneg _
  rcases le_or_gt (unit v) e with hle | hlt
  · have hunits : (m : ℚ) * 2 ^ e = (m * 2 ^ (e - unit v).toNat : ℕ) * 2 ^ unit v := by
      push_cast
      rw [mul_assoc, ← zpow_natCast, ← zpow_add₀ (by norm_num)]
      congr 2
      omega
    rw [hunits]
    exact abs_sub_nearest_le_units hv _
  · -- A number with smaller units lies below the least number with 53 bits in units.
    have hleast := (le_div_iff₀ (unit_pos v)).mp (le_div_unit hpos (he.trans_lt hlt))
    have hbelow : (m : ℚ) * 2 ^ e ≤ 2 ^ 52 * 2 ^ unit v := by
      have hm : (m : ℚ) ≤ 2 ^ 53 := by exact_mod_cast hm.le
      calc (m : ℚ) * 2 ^ e ≤ 2 ^ 53 * 2 ^ (unit v - 1) :=
            mul_le_mul hm (zpow_le_zpow_right₀ (by norm_num) (Int.le_sub_one_of_lt hlt)) (by positivity) (by positivity)
        _ = 2 ^ 52 * 2 ^ unit v := by rw [zpow_sub_one₀ (by norm_num)]; ring
    have hnear := abs_sub_nearest_le_units hv (2 ^ 52)
    rw [Nat.cast_pow, Nat.cast_ofNat, abs_of_nonneg (sub_nonneg.mpr hleast)] at hnear
    rw [abs_of_nonneg (sub_nonneg.mpr (hbelow.trans hleast))]
    linarith

theorem le_nearest (hv : 0 ≤ v) (hz : Double z) (h : z ≤ v) : z ≤ nearest v := by
  have hnear := abs_sub_nearest_le hv hz
  rw [abs_of_nonneg (sub_nonneg.mpr h), abs_le] at hnear
  linarith [hnear.2]

theorem nearest_le (hv : 0 ≤ v) (hz : Double z) (h : v ≤ z) : nearest v ≤ z := by
  have hnear := abs_sub_nearest_le hv hz
  rw [abs_of_nonpos (sub_nonpos.mpr h), abs_le] at hnear
  linarith [hnear.1]

/-- What has at most 53 bits stays as it is. -/
theorem nearest_of_double (h : Double v) : nearest v = v :=
  le_antisymm (nearest_le h.nonneg h le_rfl) (le_nearest h.nonneg h le_rfl)

theorem abs_sub_whole_le_half (hv : 0 ≤ v) : |v - whole v| ≤ 1 / 2 := by
  have hfloor : (⌊v⌋₊ : ℚ) ≤ v := Nat.floor_le hv
  have hceil : v < ⌊v⌋₊ + 1 := Nat.lt_floor_add_one v
  rcases whole_eq v with ⟨hwhole, hhalf⟩ | ⟨hwhole, hhalf⟩ <;> rw [hwhole] <;> push_cast <;> rw [abs_le] <;>
    constructor <;> linarith

/-- Rounding adds or takes away at most the last of 54 bits, or half of the smallest unit. -/
theorem abs_sub_nearest_le_max (hv : 0 ≤ v) : |v - nearest v| ≤ max (nearest v / 2 ^ 53) (2 ^ (-1075 : ℤ)) := by
  have hunit := unit_pos v
  have hhalf : |v - nearest v| ≤ 1 / 2 * 2 ^ unit v := by
    have hscale : v - nearest v = (v / 2 ^ unit v - whole (v / 2 ^ unit v)) * 2 ^ unit v := by
      rw [nearest, sub_mul, div_mul_cancel₀ _ hunit.ne']
    rw [hscale, abs_mul, abs_of_pos hunit]
    exact mul_le_mul_of_nonneg_right (abs_sub_whole_le_half (div_nonneg hv hunit.le)) hunit.le
  rcases hv.eq_or_lt with rfl | hpos
  · rw [nearest_zero, sub_zero, abs_zero]
    exact le_max_of_le_left (by norm_num)
  rcases (le_unit v).eq_or_lt with heq | hlt
  · refine le_max_of_le_right (hhalf.trans_eq ?_)
    rw [← heq, one_div, ← zpow_neg_one, ← zpow_add₀ (by norm_num)]
    norm_num
  · have hleast := (le_div_iff₀ hunit).mp (le_div_unit hpos hlt)
    have hdouble : Double (2 ^ 52 * 2 ^ unit v) := ⟨2 ^ 52, unit v, by norm_num, hlt.le, by norm_num⟩
    have hnearest := le_nearest hv hdouble hleast
    refine le_max_of_le_left (hhalf.trans ?_)
    rw [le_div_iff₀ (by norm_num)]
    linarith

/-- Less than half of the smallest unit is nothing. -/
theorem nearest_eq_zero (hv : 0 ≤ v) (h : v < 2 ^ (-1075 : ℤ)) : nearest v = 0 := by
  rcases hv.eq_or_lt with rfl | hpos
  · exact nearest_zero
  · have hunit : unit v = -1074 := unit_of_lt hpos (h.trans_le (zpow_le_zpow_right₀ (by norm_num) (by norm_num)))
    have hhalf : v / 2 ^ unit v < 1 / 2 := by
      rw [div_lt_iff₀ (unit_pos v), hunit]
      refine h.trans_eq ?_
      rw [show (-1075 : ℤ) = -1 + -1074 by norm_num, zpow_add₀ (by norm_num), zpow_neg_one, one_div]
    have hwhole : whole (v / 2 ^ unit v) = 0 := by
      rcases whole_eq (v / 2 ^ unit v) with ⟨hwhole, -⟩ | ⟨-, hle⟩
      · rw [hwhole, Nat.floor_eq_zero]
        linarith
      · have hnonneg : (0 : ℚ) ≤ ⌊v / 2 ^ unit v⌋₊ := Nat.cast_nonneg _
        linarith
    rw [nearest, hwhole, Nat.cast_zero, zero_mul]

/-- Of two equally near numbers the one with an even number of units is taken. -/
theorem nearest_of_half {k : ℕ} {e : ℤ} (hk : k % 2 = 0) (hunit : unit ((k + 1 / 2) * 2 ^ e) = e) :
    nearest ((k + 1 / 2) * 2 ^ e) = k * 2 ^ e := by
  have hfloor : ⌊(k + 1 / 2 : ℚ)⌋₊ = k := (Nat.floor_eq_iff (by positivity)).mpr ⟨by linarith, by linarith⟩
  have hwhole : whole (k + 1 / 2) = k := by
    rw [whole, hfloor, if_neg (by linarith), if_neg (by linarith), hk, add_zero]
  rw [nearest, hunit, mul_div_cancel_right₀ _ (by positivity), hwhole]

end Rounding

end TestProgram
