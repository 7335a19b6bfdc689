import Mathlib
import TestProgram.Number.Binary
import TestProgram.Proofs.Number.Numerals
import TestProgram.Proofs.Number.Rounding

/-!
# The nearest double

Floats are rounded with two bits beside the mantissa, which say where the exact number lies between two mantissas
(`Extends`). A shift keeps that (`Extends.shiftRight`), so what comes out is the nearest number of 53 bits
(`canonical_roundWithAccuracy`). Products and quotients are rounded so (`canonical_mul`, `canonical_div`), and packing
loses nothing but numbers that are too large (`holds_pack`). Hence the float of a decimal is the nearest to it
(`holds_toFloat`).
-/

namespace TestProgram

namespace Rounding

open Float.Model Float.Model.UnpackedFloat

/-! ## Mantissas with two bits more -/

/-- What two bits say about a number with a mantissa for its whole part. -/
inductive Extends : ExtendedMantissa → ℚ → Prop
  | exact {m : ℕ} : Extends ⟨m, false, false⟩ m
  | below {m : ℕ} {y : ℚ} : m < y → y < m + 1 / 2 → Extends ⟨m, false, true⟩ y
  | half {m : ℕ} : Extends ⟨m, true, false⟩ (m + 1 / 2)
  | above {m : ℕ} {y : ℚ} : m + 1 / 2 < y → y < m + 1 → Extends ⟨m, true, true⟩ y

variable {em : ExtendedMantissa} {y : ℚ}

theorem Extends.bounds (h : Extends em y) : em.mantissa ≤ y ∧ y < em.mantissa + 1 := by
  cases h with
  | exact => constructor <;> linarith
  | below hlow hhigh => constructor <;> linarith
  | half => constructor <;> linarith
  | above hlow hhigh => constructor <;> linarith

theorem Extends.floor (h : Extends em y) : ⌊y⌋₊ = em.mantissa :=
  (Nat.floor_eq_iff ((Nat.cast_nonneg _).trans h.bounds.1)).mpr h.bounds

theorem Extends.roundedMantissa (h : Extends em y) : em.roundedMantissa = whole y := by
  rw [whole, h.floor]
  cases h with
  | exact => rw [if_pos (by linarith)]; rfl
  | below hlow hhigh => rw [if_pos (by linarith)]; rfl
  | half => rw [if_neg (by linarith), if_neg (by linarith)]; rfl
  | above hlow hhigh => rw [if_neg (by linarith), if_pos (by linarith)]; rfl

/-- An even mantissa is halved without a half, and an odd one with a half. -/
theorem shiftRightOne_eq (k : ℕ) (r s : Bool) :
    ExtendedMantissa.shiftRightOne ⟨2 * k, r, s⟩ = ⟨k, false, r || s⟩ ∧
      ExtendedMantissa.shiftRightOne ⟨2 * k + 1, r, s⟩ = ⟨k, true, r || s⟩ := by
  have hodd : (2 * k + 1) / 2 = k := by omega
  simp [ExtendedMantissa.shiftRightOne, hodd]

theorem Extends.shiftRightOne (h : Extends em y) : Extends em.shiftRightOne (y / 2) := by
  obtain ⟨k, hk⟩ := Nat.even_or_odd' em.mantissa
  cases h with
  | exact =>
    obtain rfl | rfl := hk
    · rw [(shiftRightOne_eq ..).1]
      push_cast
      rw [mul_div_cancel_left₀ _ (by norm_num)]
      exact .exact
    · rw [(shiftRightOne_eq ..).2]
      push_cast
      rw [add_div, mul_div_cancel_left₀ _ (by norm_num)]
      exact .half
  | below hlow hhigh | half | above hlow hhigh =>
    obtain rfl | rfl := hk
    · rw [(shiftRightOne_eq ..).1]
      push_cast at *
      exact .below (by linarith) (by linarith)
    · rw [(shiftRightOne_eq ..).2]
      push_cast at *
      exact .above (by linarith) (by linarith)

theorem Extends.shiftRight (h : Extends em y) (n : ℕ) : Extends (em >>> n) (y / 2 ^ n) := by
  show Extends (n.repeat ExtendedMantissa.shiftRightOne em) _
  induction n with
  | zero => rwa [pow_zero, div_one]
  | succ n ih =>
    rw [pow_succ, div_mul_eq_div_div]
    exact ih.shiftRightOne

/-- The mantissa of a quotient. -/
theorem extends_quotient (n : ℕ) {d : ℕ} (hd : 0 < d) :
    Extends (.ofMantissaAndAccuracy (n / d) (accuracyOfFraction (n % d) d)) (n / d : ℚ) := by
  have hd : (0 : ℚ) < d := by exact_mod_cast hd
  have hquotient : (n / d : ℚ) = (n / d : ℕ) + (n % d : ℕ) / d := by
    have hn : (n : ℚ) = d * (n / d : ℕ) + (n % d : ℕ) := by exact_mod_cast (Nat.div_add_mod n d).symm
    rw [div_eq_iff hd.ne', add_mul, div_mul_cancel₀ _ hd.ne', mul_comm, ← hn]
  have hlt : ((n % d : ℕ) : ℚ) / d < 1 := by
    rw [div_lt_one hd]
    exact_mod_cast Nat.mod_lt n (by exact_mod_cast hd)
  rw [hquotient, accuracyOfFraction]
  split
  · rename_i hzero
    rw [hzero, Nat.cast_zero, zero_div, add_zero]
    exact .exact
  · rename_i hne
    have hpos : 0 < ((n % d : ℕ) : ℚ) / d := div_pos (by exact_mod_cast Nat.pos_of_ne_zero hne) hd
    rcases lt_trichotomy (2 * (n % d)) d with hcompare | hcompare | hcompare
    · have hhalf : ((n % d : ℕ) : ℚ) / d < 1 / 2 := by
        rw [div_lt_div_iff₀ hd (by norm_num), one_mul, mul_comm]
        exact_mod_cast hcompare
      rw [compare_lt_iff_lt.mpr hcompare]
      exact .below (by linarith) (by linarith)
    · have hhalf : ((n % d : ℕ) : ℚ) / d = 1 / 2 := by
        rw [div_eq_div_iff hd.ne' (by norm_num), one_mul, mul_comm]
        exact_mod_cast hcompare
      rw [compare_eq_iff_eq.mpr hcompare, hhalf]
      exact .half
    · have hhalf : 1 / 2 < ((n % d : ℕ) : ℚ) / d := by
        rw [div_lt_div_iff₀ (by norm_num) hd, one_mul, mul_comm]
        exact_mod_cast hcompare
      rw [compare_gt_iff_gt.mpr hcompare]
      exact .above (by linarith) (by linarith)

/-! ## Rounding -/

theorem targetExponent_eq (t : ℤ) : Format.binary64.targetExponent t = max (t - 53) (-1074) := rfl

/-- A double in its only form, not negative. -/
inductive Canonical : UnpackedFloat → ℚ → Prop
  | zero : Canonical (.zero .positive) 0
  | finite {m e} (hpos : 0 < m) : m < 2 ^ 53 → (2 ^ 52 ≤ m ∧ -1074 ≤ e ∨ e = -1074) →
      Canonical (.finite .positive m e hpos) (m * 2 ^ e)

/-- A mantissa that is not too long stays as it is. -/
theorem shiftToTargetExponent_of_lt {n : ℕ} {e : ℤ} (hn : n < 2 ^ 53) (he : -1074 ≤ e) :
    shiftToTargetExponent .binary64 n e .exact = (⟨n, false, false⟩, e) := by
  have hlog : n.log2 ≤ 52 := by
    rcases Nat.eq_zero_or_pos n with rfl | hpos
    · decide
    · exact Nat.le_of_lt_succ ((Nat.log2_lt hpos.ne').mpr hn)
  have hshift : (Format.binary64.targetExponent (totalExponent n e) - e).toNat = 0 := by
    rw [targetExponent_eq, totalExponent]
    omega
  rw [shiftToTargetExponent, shiftToExponent, hshift, Nat.cast_zero, add_zero]
  rfl

/-- A mantissa that rounding has made too long by a bit is halved. -/
theorem shiftToTargetExponent_two_pow {e : ℤ} (he : -1074 ≤ e) :
    shiftToTargetExponent .binary64 (2 ^ 53) e .exact = (⟨2 ^ 52, false, false⟩, e + 1) := by
  have hshift : (Format.binary64.targetExponent (totalExponent (2 ^ 53) e) - e).toNat = 1 := by
    rw [targetExponent_eq, totalExponent, Nat.log2_two_pow]
    omega
  rw [shiftToTargetExponent, shiftToExponent, hshift, Nat.cast_one]
  rfl

/-- The unit in which a number with a given mantissa is measured. -/
theorem unit_eq_targetExponent {m : ℕ} {e : ℤ} (hpos : 0 < y) (hlow : m ≤ y) (hhigh : y < m + 1)
    (he : e ≤ Format.binary64.targetExponent (totalExponent m e)) :
    unit (y * 2 ^ e) = Format.binary64.targetExponent (totalExponent m e) := by
  rw [targetExponent_eq, totalExponent] at he ⊢
  have hscale : (0 : ℚ) < 2 ^ e := by positivity
  rcases Nat.eq_zero_or_pos m with rfl | hm
  · have hlog : Nat.log2 0 = 0 := by decide
    rw [hlog] at he ⊢
    have htarget : max ((0 : ℕ) + 1 + e - 53) (-1074) = -1074 := by omega
    rw [htarget]
    refine unit_of_lt (mul_pos hpos hscale) ?_
    calc y * 2 ^ e < 1 * 2 ^ e := mul_lt_mul_of_pos_right (by simpa using hhigh) hscale
      _ ≤ 2 ^ (-1021 : ℤ) := by
        rw [one_mul]
        exact zpow_le_zpow_right₀ (by norm_num) (by omega)
  · have hlog : (2 : ℚ) ^ m.log2 ≤ m := by exact_mod_cast Nat.log2_self_le hm.ne'
    have hlog' : (m + 1 : ℚ) ≤ 2 ^ (m.log2 + 1) := by exact_mod_cast Nat.lt_log2_self (n := m)
    have htarget : max ((m.log2 : ℤ) + 1 + e - 53) (-1074) = max (m.log2 + e - 52) (-1074) := by omega
    rw [htarget]
    refine unit_of_bounds ?_ ?_
    · rw [zpow_add₀ (by norm_num), zpow_natCast]
      exact mul_le_mul_of_nonneg_right (hlog.trans hlow) hscale.le
    · rw [add_right_comm, zpow_add₀ (by norm_num), ← Nat.cast_succ, zpow_natCast]
      exact mul_lt_mul_of_pos_right (hhigh.trans_le hlog') hscale

/-- What is rounded to a number of units is in canonical form. -/
theorem canonical_of_units {n : ℕ} {e : ℤ} (hn : n ≤ 2 ^ 53) (he : -1074 ≤ e) (hnormal : -1074 < e → 2 ^ 52 ≤ n) :
    let (em, e') := shiftToTargetExponent .binary64 n e .exact
    Canonical (if h : em.mantissa = 0 then .zero .positive
      else .finite .positive em.mantissa e' (Nat.pos_of_ne_zero h)) (n * 2 ^ e) := by
  rcases hn.lt_or_eq with hlt | rfl
  · rw [shiftToTargetExponent_of_lt hlt he]
    dsimp only
    split
    · rename_i hzero
      rw [hzero, Nat.cast_zero, zero_mul]
      exact .zero
    · refine .finite _ hlt ?_
      rcases he.lt_or_eq with hgt | heq
      · exact .inl ⟨hnormal hgt, he⟩
      · exact .inr heq.symm
  · rw [shiftToTargetExponent_two_pow he]
    have hvalue : ((2 ^ 53 : ℕ) : ℚ) * 2 ^ e = (2 ^ 52 : ℕ) * 2 ^ (e + 1) := by
      rw [zpow_add_one₀ (by norm_num)]
      push_cast
      ring
    rw [hvalue]
    exact .finite _ (by norm_num) (.inl ⟨le_rfl, by omega⟩)

/-- Rounding takes a number to the nearest double. -/
theorem canonical_roundWithAccuracy {m : ℕ} {e : ℤ} {a : Accuracy} (h : Extends (.ofMantissaAndAccuracy m a) y)
    (he : e ≤ Format.binary64.targetExponent (totalExponent m e)) :
    Canonical (roundWithAccuracy .binary64 .positive m e a) (nearest (y * 2 ^ e)) := by
  generalize htarget : Format.binary64.targetExponent (totalExponent m e) = t at he
  have hm : (ExtendedMantissa.ofMantissaAndAccuracy m a).mantissa = m := by
    rcases a with _ | _ | _ | _ <;> rfl
  obtain ⟨hlow, hhigh⟩ := h.bounds
  rw [hm] at hlow hhigh
  have hleast : -1074 ≤ t := htarget ▸ le_max_right _ _
  have hnonneg : 0 ≤ y := (Nat.cast_nonneg m).trans hlow
  have hfirst : shiftToTargetExponent .binary64 m e a =
      (ExtendedMantissa.ofMantissaAndAccuracy m a >>> (t - e).toNat, t) := by
    rw [shiftToTargetExponent, shiftToExponent, htarget, Int.toNat_of_nonneg (by omega), add_sub_cancel]
  have hunits : y / 2 ^ (t - e).toNat = y * 2 ^ e / 2 ^ t := by
    rw [← zpow_natCast, Int.toNat_of_nonneg (by omega), zpow_sub₀ (by norm_num), div_div_eq_mul_div]
  have hrounded := (h.shiftRight (t - e).toNat).roundedMantissa
  rw [hunits] at hrounded
  unfold roundWithAccuracy
  rw [hfirst]
  dsimp only
  rw [hrounded]
  rcases hnonneg.eq_or_lt with rfl | hpos
  · rw [zero_mul, zero_div, nearest_zero, whole_zero, shiftToTargetExponent_of_lt (by norm_num) hleast]
    exact .zero
  · have hunit : unit (y * 2 ^ e) = t := htarget ▸ unit_eq_targetExponent hpos hlow hhigh (htarget ▸ he)
    rw [nearest, hunit]
    refine canonical_of_units (whole_le ?_) hleast fun hgt => le_whole ?_
    · have hlt := div_unit_lt (y * 2 ^ e)
      rw [hunit] at hlt
      exact_mod_cast hlt.le
    · have hle := le_div_unit (mul_pos hpos (zpow_pos (by norm_num) e)) (hunit ▸ hgt)
      rw [hunit] at hle
      exact_mod_cast hle

/-! ## Products and quotients -/

section

variable {u u' : UnpackedFloat} {y' : ℚ}

theorem canonical_mul_finite {m m' : ℕ} {e e' : ℤ} (hpos : 0 < m) (hpos' : 0 < m')
    (he : e + e' ≤ Format.binary64.targetExponent (totalExponent (m * m') (e + e'))) :
    Canonical (mul .binary64 (.finite .positive m e hpos) (.finite .positive m' e' hpos'))
      (nearest (m * 2 ^ e * (m' * 2 ^ e'))) := by
  have hvalue : (m : ℚ) * 2 ^ e * (m' * 2 ^ e') = (m * m' : ℕ) * 2 ^ (e + e') := by
    rw [Nat.cast_mul, zpow_add₀ (by norm_num), mul_mul_mul_comm]
  rw [hvalue]
  exact canonical_roundWithAccuracy .exact he

theorem canonical_mul (h : Canonical u y) (h' : Canonical u' y') :
    Canonical (mul .binary64 u u') (nearest (y * y')) := by
  cases h with
  | zero =>
    rw [zero_mul, nearest_zero]
    cases h' <;> exact .zero
  | @finite m e hpos hm hform =>
    cases h' with
    | zero =>
      rw [mul_zero, nearest_zero]
      exact .zero
    | @finite m' e' hpos' hm' hform' =>
      refine canonical_mul_finite hpos hpos' ?_
      have hlog (hle : 2 ^ 52 ≤ m * m') : 52 ≤ (m * m').log2 :=
        (Nat.le_log2 (Nat.mul_pos hpos hpos').ne').mpr hle
      rw [targetExponent_eq, totalExponent]
      rcases hform with ⟨hnormal, -⟩ | rfl
      · have := hlog (hnormal.trans (Nat.le_mul_of_pos_right m hpos'))
        omega
      · rcases hform' with ⟨hnormal', -⟩ | rfl
        · have := hlog (hnormal'.trans (Nat.le_mul_of_pos_left m' hpos))
          omega
        · omega

/-- A quotient of numbers has at least as many bits as they differ by, but one. -/
theorem log2_le_log2_div {n d : ℕ} (hn : 0 < n) (hd : 0 < d) : n.log2 ≤ (n / d).log2 + d.log2 + 1 := by
  have hlt : 2 ^ n.log2 < 2 ^ ((n / d).log2 + 1 + (d.log2 + 1)) := by
    calc 2 ^ n.log2 ≤ n := Nat.log2_self_le hn.ne'
      _ < d * (n / d + 1) := Nat.lt_mul_div_succ n hd
      _ ≤ 2 ^ (d.log2 + 1) * 2 ^ ((n / d).log2 + 1) := Nat.mul_le_mul Nat.lt_log2_self.le Nat.lt_log2_self
      _ = 2 ^ ((n / d).log2 + 1 + (d.log2 + 1)) := by rw [← pow_add, add_comm]
  have := (Nat.pow_lt_pow_iff_right (by norm_num)).mp hlt
  omega

theorem log2_add_le_log2_shiftLeft {n : ℕ} (hn : 0 < n) (shift : ℕ) : n.log2 + shift ≤ (n <<< shift).log2 := by
  have hpos : 0 < n * 2 ^ shift := by positivity
  rw [Nat.shiftLeft_eq, Nat.le_log2 hpos.ne', pow_add]
  exact Nat.mul_le_mul_right _ (Nat.log2_self_le hn.ne')

theorem canonical_div_finite {m m' : ℕ} {e e' : ℤ} (hpos : 0 < m) (hpos' : 0 < m') :
    Canonical (div .binary64 (.finite .positive m e hpos) (.finite .positive m' e' hpos'))
      (nearest (m * 2 ^ e / (m' * 2 ^ e'))) := by
  generalize htarget : min (e - e') (Format.binary64.targetExponent (totalExponent m e - totalExponent m' e')) = t
  generalize hshift : (e - e' - t).toNat = shift
  have hexp : (shift : ℤ) = e - e' - t := by omega
  have hvalue : (m : ℚ) * 2 ^ e / (m' * 2 ^ e') = (m <<< shift : ℕ) / m' * 2 ^ t := by
    have he : e = shift + t + e' := by omega
    rw [Nat.shiftLeft_eq, he, zpow_add₀ (by norm_num), zpow_add₀ (by norm_num), zpow_natCast]
    push_cast
    field_simp
  have hpos'' : 0 < m <<< shift := by
    rw [Nat.shiftLeft_eq]
    positivity
  have hlog := log2_add_le_log2_shiftLeft hpos shift
  have he : t ≤ Format.binary64.targetExponent (totalExponent ((m <<< shift) / m') t) := by
    have hbits := log2_le_log2_div hpos'' hpos'
    rw [targetExponent_eq, totalExponent, totalExponent] at htarget
    rw [targetExponent_eq, totalExponent]
    omega
  have hround := canonical_roundWithAccuracy (extends_quotient (m <<< shift) hpos') he
  rw [← hvalue] at hround
  unfold UnpackedFloat.div divCore
  dsimp only
  rw [htarget, hshift]
  exact hround

theorem canonical_div (h : Canonical u y) (h' : Canonical u' y') (hne : y' ≠ 0) :
    Canonical (div .binary64 u u') (nearest (y / y')) := by
  cases h' with
  | zero => exact absurd rfl hne
  | finite hpos' =>
    cases h with
    | zero =>
      rw [zero_div, nearest_zero]
      exact .zero
    | finite hpos => exact canonical_div_finite hpos hpos'

end

/-! ## Packed numbers -/

/-- The number that a float stands for, or that it is infinite because the number is too large. -/
inductive Holds (x : Float) (y : ℚ) : Prop
  | number {m e} : Binary.ofFloat? x = some ⟨false, m, e⟩ → y = m * 2 ^ e → Holds x y
  | infinity : Binary.ofFloat? x = none → 2 ^ 1024 ≤ y → Holds x y

/-- The number in the fields of a positive float. -/
theorem ofFloat?_of_fields {x : Float} {exponent fraction : ℕ} (he : exponent < 2048) (hf : fraction < 2 ^ 52)
    (hbits : x.toBits.toNat = exponent * 2 ^ 52 + fraction) :
    Binary.ofFloat? x = if exponent = 2047 then none else if exponent = 0 then some ⟨false, fraction, -1074⟩
      else some ⟨false, fraction + 2 ^ 52, exponent - 1075⟩ := by
  have hsign : (x.toBits.toNat / 2 ^ 63 % 2 == 1) = false := by
    rw [hbits, beq_eq_false_iff_ne]
    omega
  have hexponent : x.toBits.toNat / 2 ^ 52 % 2 ^ 11 = exponent := by omega
  have hfraction : x.toBits.toNat % 2 ^ 52 = fraction := by omega
  have htwo (n : ℕ) : twoTo n = 2 ^ n := rfl
  rw [Binary.ofFloat?]
  simp only [htwo, hsign, hexponent, hfraction]

theorem toNat_packComponents (exponent : BitVec 11) (fraction : BitVec 52) :
    (packComponents .binary64 .positive exponent fraction).toNat = exponent.toNat * 2 ^ 52 + fraction.toNat := by
  have hsign : (Sign.positive.toBitVec ++ exponent).toNat = exponent.toNat := by
    rw [BitVec.toNat_append]
    exact (congrArg (· ||| exponent.toNat) (Nat.zero_shiftLeft 11)).trans (Nat.zero_or _)
  rw [packComponents, BitVec.toNat_append, hsign, Nat.shiftLeft_eq, mul_comm, Nat.two_pow_add_eq_or_of_lt fraction.isLt]

theorem toBits_pack (u : UnpackedFloat) :
    (Float.ofModel (.pack u)).toBits.toNat = (UnpackedFloat.pack .binary64 u).toNat := rfl

theorem holds_pack {u : UnpackedFloat} (h : Canonical u y) : Holds (.ofModel (.pack u)) y := by
  cases h with
  | zero => exact .number (m := 0) (e := -1074) rfl (by norm_num)
  | @finite m e hpos hm hform =>
    have hbits := toBits_pack (.finite .positive m e hpos)
    have hlog : m.log2 + 1 = Format.binary64.mantissaBits ↔ 2 ^ 52 ≤ m := by
      have hlt : m.log2 < 53 := (Nat.log2_lt hpos.ne').mpr hm
      rw [← Nat.le_log2 hpos.ne']
      show m.log2 + 1 = 53 ↔ 52 ≤ m.log2
      omega
    have hbias : (e + Format.binary64.exponentBias + Format.binary64.mantissaBitsWithoutImplicit).toNat =
        (e + 1075).toNat := congrArg Int.toNat (add_assoc e 1023 52)
    unfold UnpackedFloat.pack at hbits
    dsimp only at hbits
    rw [hbias] at hbits
    split at hbits
    · rename_i hlarge
      have hform : 2 ^ 52 ≤ m := by omega
      have hfields := ofFloat?_of_fields (by norm_num : 2047 < 2048) (by norm_num : 0 < 2 ^ 52) hbits
      refine .infinity hfields ?_
      calc (2 : ℚ) ^ 1024 = 2 ^ 52 * 2 ^ (972 : ℤ) := by rw [zpow_ofNat, ← pow_add]
        _ ≤ (m : ℚ) * 2 ^ e := by
          have hm : (2 : ℚ) ^ 52 ≤ m := by exact_mod_cast hform
          exact mul_le_mul hm (zpow_le_zpow_right₀ (by norm_num) (by omega)) (by positivity) (by positivity)
    · rename_i hsmall
      split at hbits
      · rename_i hnormal
        rw [hlog] at hnormal
        have hmin : -1074 ≤ e := by omega
        have hfield : m % 2 ^ 52 = m - 2 ^ 52 := by omega
        rw [toNat_packComponents, BitVec.toNat_ofNat, BitVec.toNat_ofNat, Nat.mod_eq_of_lt (by omega), hfield] at hbits
        have hnumber := ofFloat?_of_fields (by omega) (by omega) hbits
        rw [if_neg (by omega), if_neg (by omega), Nat.sub_add_cancel hnormal, Int.toNat_of_nonneg (by omega),
          add_sub_cancel_right] at hnumber
        exact .number hnumber rfl
      · rename_i hsubnormal
        rw [hlog] at hsubnormal
        obtain rfl : e = -1074 := by omega
        rw [toNat_packComponents, BitVec.toNat_ofNat, BitVec.toNat_ofNat, Nat.mod_eq_of_lt (b := 2 ^ 52) (by omega)]
          at hbits
        exact .number (ofFloat?_of_fields (by norm_num : 0 < 2048) (by omega) hbits) rfl

theorem toNat_unpackMantissa (b : BitVec 64) : (@unpackMantissa .binary64 b).toNat = b.toNat % 2 ^ 52 := by
  rw [unpackMantissa, BitVec.toNat_cast, BitVec.extractLsb_toNat]
  rfl

theorem toNat_unpackExponent (b : BitVec 64) :
    (@unpackExponent .binary64 b).toNat = b.toNat / 2 ^ 52 % 2 ^ 11 := by
  rw [unpackExponent, BitVec.toNat_cast, BitVec.extractLsb_toNat, Nat.shiftRight_eq_div_pow]
  rfl

theorem toNat_unpackSign (b : BitVec 64) : (@unpackSign .binary64 b).toNat = b.toNat / 2 ^ 63 % 2 := by
  rw [unpackSign, BitVec.toNat_cast, BitVec.extractLsb_toNat, Nat.shiftRight_eq_div_pow]
  rfl

theorem ofBitVec_eq_positive {v : BitVec 1} (h : (v.toNat == 1) = false) : Sign.ofBitVec v = .positive := by
  have hlt := v.isLt
  rw [beq_eq_false_iff_ne] at h
  have hzero : v.toNat = 0 := by omega
  exact if_pos (BitVec.eq_of_toNat_eq hzero)

theorem toNat_one_append (fraction : BitVec 52) : (1#1 ++ fraction).toNat = fraction.toNat + 2 ^ 52 := by
  have hone : (1#1).toNat <<< 52 = 2 ^ 52 * 1 := rfl
  rw [BitVec.toNat_append, hone, ← Nat.two_pow_add_eq_or_of_lt fraction.isLt 1, mul_one, add_comm]

/-- The number in the fields of a float is the one that it is unpacked to. -/
theorem canonical_unpack {x : Float} {m : ℕ} {e : ℤ} (h : Binary.ofFloat? x = some ⟨false, m, e⟩) :
    Canonical x.toModel.unpack (m * 2 ^ e) := by
  have hmantissa := toNat_unpackMantissa x.toModel.toBits.toBitVec
  have hexponent := toNat_unpackExponent x.toModel.toBits.toBitVec
  have hsign := toNat_unpackSign x.toModel.toBits.toBitVec
  have htwo (n : ℕ) : twoTo n = 2 ^ n := rfl
  have hbits : x.toBits.toNat = x.toModel.toBits.toBitVec.toNat := rfl
  unfold Binary.ofFloat? at h
  simp only [htwo, hbits, ← hmantissa, ← hexponent, ← hsign] at h
  unfold Float.Model.unpack UnpackedFloat.unpack
  split at h
  · cases h
  · rename_i hfinite
    have hfinite : @unpackExponent .binary64 x.toModel.toBits.toBitVec ≠ -1#11 :=
      fun heq => hfinite (congrArg BitVec.toNat heq)
    split at h
    · rename_i hsubnormal
      have hsubnormal : @unpackExponent .binary64 x.toModel.toBits.toBitVec = 0#11 :=
        BitVec.eq_of_toNat_eq hsubnormal
      obtain ⟨hpositive, rfl, rfl⟩ := Binary.mk.inj (Option.some.inj h)
      dsimp only
      rw [if_neg hfinite, if_pos hsubnormal, ofBitVec_eq_positive hpositive]
      split
      · rename_i hzero
        rw [hzero, BitVec.toNat_ofNat, Nat.zero_mod, Nat.cast_zero, zero_mul]
        exact .zero
      · rw [hsubnormal]
        exact .finite _ (by omega) (.inr rfl)
    · rename_i hnormal
      have hnormal : @unpackExponent .binary64 x.toModel.toBits.toBitVec ≠ 0#11 :=
        fun heq => hnormal (congrArg BitVec.toNat heq)
      obtain ⟨hpositive, rfl, rfl⟩ := Binary.mk.inj (Option.some.inj h)
      dsimp only
      rw [if_neg hfinite, if_neg hnormal, ofBitVec_eq_positive hpositive, ← toNat_one_append]
      refine .finite _ ?_ (.inl ⟨?_, ?_⟩)
      · exact BitVec.isLt _
      · rw [toNat_one_append]
        exact Nat.le_add_left ..
      · have hpos : (@unpackExponent .binary64 x.toModel.toBits.toBitVec).toNat ≠ 0 :=
          fun hzero => hnormal (BitVec.eq_of_toNat_eq hzero)
        show (-1074 : ℤ) ≤ _ - 1075
        omega

/-- What is not too large for a float is unpacked as it was packed. -/
theorem Holds.canonical {x : Float} (h : Holds x y) (hy : y < 2 ^ 1024) : Canonical x.toModel.unpack y := by
  cases h with
  | number hx hvalue =>
    rw [hvalue]
    exact canonical_unpack hx
  | infinity _ hle => exact absurd hy (not_lt.mpr hle)

/-! ## Decimals -/

theorem canonical_ofNat (m : ℕ) : Canonical (UnpackedFloat.ofNat .binary64 m) (nearest m) := by
  unfold UnpackedFloat.ofNat UnpackedFloat.ofInt UnpackedFloat.normalize
  rcases Nat.eq_zero_or_pos m with rfl | hpos
  · rw [Nat.cast_zero, Nat.cast_zero, nearest_zero]
    exact .zero
  · have hcompare : compare (m : ℤ) 0 = .gt := compare_gt_iff_gt.mpr (by exact_mod_cast hpos)
    rw [hcompare]
    dsimp only
    rw [Int.toNat_natCast, UnpackedFloat.round]
    generalize htarget : Format.binary64.targetExponent (totalExponent m 0) = t
    rw [targetExponent_eq, totalExponent] at htarget
    unfold decreaseExponent
    dsimp only
    generalize hshift : (0 - t).toNat = shift
    have hvalue : (m : ℚ) = (m <<< shift : ℕ) * 2 ^ (0 - shift : ℤ) := by
      rw [Nat.shiftLeft_eq, zero_sub, zpow_neg, zpow_natCast]
      push_cast
      field_simp
    rw [hvalue]
    refine canonical_roundWithAccuracy .exact ?_
    have hlog := log2_add_le_log2_shiftLeft hpos shift
    rw [targetExponent_eq, totalExponent]
    omega

/-- The powers of ten up to the twenty-second are doubles. -/
theorem powersOfTen : ∀ i : Fin 23, (Binary.ofFloat? Float.exactlyRepresentablePowersOfTen[i]).any (fun b =>
    !b.negative && -52 ≤ b.exponent && b.mantissa * 2 ^ (b.exponent + 52).toNat == 10 ^ i.val * 2 ^ 52) = true := by
  decide +kernel

theorem canonical_powerOfTen {e : ℕ} (he : e < Float.exactlyRepresentablePowersOfTen.size) :
    Canonical Float.exactlyRepresentablePowersOfTen[e].toModel.unpack (10 ^ e) := by
  obtain ⟨⟨negative, m, k⟩, hfloat, hentry⟩ := (Option.any_eq_true ..).mp (powersOfTen ⟨e, he⟩)
  simp only [Bool.and_eq_true, Bool.not_eq_true', decide_eq_true_eq, beq_iff_eq] at hentry
  obtain ⟨⟨rfl, hk⟩, hvalue⟩ := hentry
  have hpower : (10 : ℚ) ^ e = m * 2 ^ k := by
    have hcast : (m : ℚ) * 2 ^ (k + 52) = 10 ^ e * 2 ^ 52 := by
      rw [← Int.toNat_of_nonneg (by omega : 0 ≤ k + 52), zpow_natCast]
      exact_mod_cast hvalue
    rw [zpow_add₀ (by norm_num), ← mul_assoc] at hcast
    exact (mul_right_cancel₀ (by norm_num) hcast).symm
  rw [hpower]
  exact canonical_unpack hfloat

/-- A power of ten with a negative exponent is less than that of two. -/
theorem ten_zpow_le {e : ℤ} (he : e ≤ 0) : (10 : ℚ) ^ e ≤ 2 ^ e := by
  obtain ⟨n, rfl⟩ := Int.exists_eq_neg_ofNat he
  rw [zpow_neg, zpow_neg, zpow_natCast, zpow_natCast]
  exact inv_anti₀ (by positivity) (pow_le_pow_left₀ (by norm_num) (by norm_num) n)

theorem holds_ofScientific (m : ℕ) (e : ℤ) :
    Holds (.ofModel (Float.Model.ofScientific m e)) (nearest (m * 10 ^ e)) := by
  have hbits : (2 : ℤ) ^ Format.binary64.exponentBits = 2048 := rfl
  unfold Float.Model.ofScientific UnpackedFloat.ofScientific
  rw [hbits]
  split
  · rename_i hzero
    rw [hzero, Nat.cast_zero, zero_mul, nearest_zero]
    exact holds_pack .zero
  · rename_i hne
    have hpos : 0 < m := Nat.pos_of_ne_zero hne
    have hone : (1 : ℚ) ≤ m := by exact_mod_cast hpos
    have hnonneg : (0 : ℚ) ≤ m * 10 ^ e := by positivity
    split
    · rename_i hlarge
      refine .infinity rfl (le_nearest hnonneg (double_zpow (e := 1024) (by norm_num)) ?_)
      calc (2 : ℚ) ^ (1024 : ℤ) ≤ 10 ^ (1024 : ℤ) := zpow_le_zpow_left₀ (by norm_num) (by norm_num) (by norm_num)
        _ ≤ 10 ^ e := zpow_le_zpow_right₀ (by norm_num) (by omega)
        _ ≤ m * 10 ^ e := le_mul_of_one_le_left (by positivity) hone
    · split
      · rename_i hsmall
        have hlog : (m : ℚ) < 2 ^ (m.log2 + 1 : ℤ) := by exact_mod_cast Nat.lt_log2_self (n := m)
        have htiny : (m : ℚ) * 10 ^ e < 2 ^ (-1075 : ℤ) := by
          calc (m : ℚ) * 10 ^ e ≤ m * 2 ^ e := mul_le_mul_of_nonneg_left (ten_zpow_le (by omega)) (by positivity)
            _ < 2 ^ (m.log2 + 1 : ℤ) * 2 ^ e := mul_lt_mul_of_pos_right hlog (by positivity)
            _ = 2 ^ (m.log2 + 1 + e : ℤ) := (zpow_add₀ (by norm_num) _ _).symm
            _ ≤ 2 ^ (-1075 : ℤ) := zpow_le_zpow_right₀ (by norm_num) (by omega)
        rw [nearest_eq_zero hnonneg htiny]
        exact holds_pack .zero
      · split
        · rename_i he
          have hvalue : (m : ℚ) * (10 : ℚ) ^ e =
              (m <<< 53 : ℕ) * 2 ^ (-53 : ℤ) * ((10 ^ e.toNat : ℕ) * 2 ^ (0 : ℤ)) := by
            rw [Nat.shiftLeft_eq, zpow_zero, mul_one, ← Int.toNat_of_nonneg he, zpow_natCast, Int.toNat_natCast]
            push_cast
            field_simp
            norm_num
          have hlog : 53 ≤ ((m <<< 53) * 10 ^ e.toNat).log2 := by
            have hpower : 0 < 10 ^ e.toNat := by positivity
            rw [Nat.shiftLeft_eq, Nat.le_log2 (by positivity), mul_right_comm]
            exact Nat.le_mul_of_pos_left _ (Nat.mul_pos hpos hpower)
          rw [hvalue]
          refine holds_pack (canonical_mul_finite (m := m <<< 53) (e := -53) _ _ ?_)
          rw [targetExponent_eq, totalExponent]
          omega
        · rename_i he
          have hvalue : (m : ℚ) * (10 : ℚ) ^ e = m * 2 ^ (0 : ℤ) / ((10 ^ (-e).toNat : ℕ) * 2 ^ (0 : ℤ)) := by
            rw [zpow_zero, mul_one, mul_one, div_eq_mul_inv, Nat.cast_pow, Nat.cast_ofNat, ← zpow_natCast, ← zpow_neg,
              Int.toNat_of_nonneg (by omega), neg_neg]
          rw [hvalue]
          exact holds_pack (canonical_div_finite _ _)

/-- A whole number of at most 53 bits is a double. -/
theorem canonical_toFloat {m : ℕ} (hm : m < 2 ^ 53) : Canonical m.toUInt64.toFloat.toModel.unpack m := by
  have hdouble : nearest m = m := nearest_of_double (double_nat hm.le)
  have htoNat : m.toUInt64.toNat = m := UInt64.toNat_ofNat_of_lt (hm.trans (by norm_num))
  have hcanonical : Canonical (UnpackedFloat.ofNat .binary64 m.toUInt64.toNat) m := by
    rw [htoNat, ← hdouble]
    exact canonical_ofNat m
  have hlt : (m : ℚ) < 2 ^ 1024 := by
    calc (m : ℚ) < 2 ^ 53 := by exact_mod_cast hm
      _ ≤ 2 ^ 1024 := pow_le_pow_right₀ (by norm_num) (by norm_num)
  exact (holds_pack hcanonical).canonical hlt

/-- A decimal is taken to the nearest double. -/
theorem holds_toFloat (d : Decimal) : Holds d.toFloat (nearest d.value) := by
  obtain ⟨m, e⟩ := d
  rw [Decimal.toFloat, Decimal.value]
  dsimp only
  split
  · rename_i he
    obtain ⟨n, rfl⟩ := Int.eq_ofNat_of_zero_le he
    rw [Int.toNat_natCast, Float.ofScientific]
    split
    · rename_i hsmall
      rw [zpow_natCast]
      exact holds_pack (canonical_mul (canonical_toFloat hsmall.1) (canonical_powerOfTen _))
    · exact holds_ofScientific m n
  · rename_i he
    obtain ⟨n, rfl⟩ := Int.exists_eq_neg_ofNat (not_le.mp he).le
    rw [neg_neg, Int.toNat_natCast, Float.ofScientific]
    split
    · rename_i hsmall
      rw [zpow_neg, zpow_natCast, ← div_eq_mul_inv]
      exact holds_pack (canonical_div (canonical_toFloat hsmall.1) (canonical_powerOfTen _) (by positivity))
    · have hneg : Int.negOfNat n = -(n : ℤ) := Int.negOfNat_eq
      show Holds (.ofModel (Float.Model.ofScientific m (Int.negOfNat n))) _
      rw [hneg]
      exact holds_ofScientific m (-n)

end Rounding

end TestProgram
