/-!
# Machine counts

Cycle counts, repeats and durations are kept in 64-bit words. Sums and
products that would leave the word stop at its largest value
(`Word.clamp`); all else about counts is arithmetic on `Nat`.
-/

namespace TestProgram.Word

/-- The largest count: `2 ^ 64 - 1`. -/
def largest : Nat := 18446744073709551615

/-- The largest count of 32 bits: `2 ^ 32 - 1`. -/
def largestShort : Nat := 4294967295

/-- A count that has no room in a word stays at the largest one. -/
def clamp (n : Nat) : Nat := min n largest

theorem clamp_le (n : Nat) : clamp n ≤ largest := Nat.min_le_right n largest

theorem clamp_of_le {n : Nat} (h : n ≤ largest) : clamp n = n := Nat.min_eq_left h

/-- The sum of two counts, stopped at the largest. -/
def add (a b : Nat) : Nat := clamp (a + b)

/-- The product of two counts, stopped at the largest. -/
def mul (a b : Nat) : Nat := clamp (a * b)

theorem mul_comm (a b : Nat) : mul a b = mul b a := congrArg clamp (Nat.mul_comm a b)

/-- Where a sum is stopped, it makes no difference whether its parts were. -/
theorem add_clamp (a b : Nat) : add (clamp a) (clamp b) = clamp (a + b) := by
  unfold add clamp
  omega

/-- A product of stopped counts is stopped too, unless the other count is zero. -/
theorem mul_clamp (a b : Nat) : mul a (clamp b) = clamp (a * b) := by
  rcases Nat.le_total b largest with hb | hb
  · rw [clamp_of_le hb, mul]
  · rcases Nat.eq_zero_or_pos a with rfl | ha
    · rw [mul, Nat.zero_mul, Nat.zero_mul]
    · have hclamp : clamp b = largest := Nat.min_eq_right hb
      have hlow : largest ≤ a * largest := Nat.le_mul_of_pos_left largest ha
      have hhigh : largest ≤ a * b := Nat.le_trans hlow (Nat.mul_le_mul_left a hb)
      rw [mul, hclamp, clamp, clamp, Nat.min_eq_right hlow, Nat.min_eq_right hhigh]

/-- The least number of pieces of size `size` that cover `n`. -/
def ceilDiv (n size : Nat) : Nat := n / size + if n % size = 0 then 0 else 1

end TestProgram.Word
