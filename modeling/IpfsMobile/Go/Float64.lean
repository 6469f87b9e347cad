import Mathlib.Algebra.Order.Ring.Rat
import Mathlib.Data.Nat.Size
import Mathlib.Tactic.Common
import Mathlib.Tactic.Linarith

/-!
# Numbers that pass through a float64

A JSON number that is decoded into an `interface{}` becomes a float64, and is written as
a number that reads as this float64 again. What this does to a number is a parameter with
the properties the rest relies on. Rounding integers to 53 significant bits is an instance,
for examples.
-/

namespace Go

/-- What becomes of a number that is read into a float64 and written again. -/
structure Float64 where
  round : ℚ → ℚ
  /-- The number that is written reads as the same float64. -/
  round_round : ∀ q, round (round q) = round q
  /-- The integers up to `2 ^ 53` are written as they were. -/
  round_of_abs_le : ∀ n : ℤ, |n| ≤ 2 ^ 53 → round n = n
  /-- No other integer than zero is read as zero. -/
  round_ne_zero : ∀ n : ℤ, n ≠ 0 → round n ≠ 0

namespace Float64

/-- The number of bits that a float64 has no room for. -/
def excess (m : ℕ) : ℕ := m.size - 53

/-- The leading 53 bits, rounded to nearest with ties to even. -/
def significand (m : ℕ) : ℕ :=
  let unit := 2 ^ excess m
  if unit < 2 * (m % unit) ∨ unit = 2 * (m % unit) ∧ m / unit % 2 = 1 then m / unit + 1
  else m / unit

/-- Round to 53 significant bits. -/
def roundNat (m : ℕ) : ℕ := significand m * 2 ^ excess m

/-- A number that ends in the zeros that are needed is not rounded. -/
theorem roundNat_of_dvd {m : ℕ} (h : 2 ^ excess m ∣ m) : roundNat m = m := by
  have hmod : m % 2 ^ excess m = 0 := Nat.mod_eq_zero_of_dvd h
  have hpos : 0 < 2 ^ excess m := Nat.two_pow_pos _
  have hsig : significand m = m / 2 ^ excess m := by
    simp only [significand, hmod]
    rw [if_neg (by omega)]
  rw [roundNat, hsig, Nat.div_mul_cancel h]

/-- Up to `2 ^ 53` nothing is rounded. -/
theorem roundNat_of_le {m : ℕ} (h : m ≤ 2 ^ 53) : roundNat m = m := by
  apply roundNat_of_dvd
  rcases Nat.lt_or_eq_of_le h with hlt | rfl
  · have hsize : m.size ≤ 53 := Nat.size_le.mpr hlt
    have hexcess : excess m = 0 := by
      rw [excess]
      omega
    simp [hexcess]
  · decide

/-- Above, the significand has 53 bits, or is the next power of two. -/
theorem significand_bounds {m : ℕ} (h : 2 ^ 53 ≤ m) :
    2 ^ 52 ≤ significand m ∧ significand m ≤ 2 ^ 53 := by
  have hsize : 53 < m.size := Nat.lt_size.mpr h
  have hunit : 0 < 2 ^ excess m := Nat.two_pow_pos _
  have hlow : 2 ^ 52 * 2 ^ excess m ≤ m := by
    rw [← pow_add]
    apply Nat.lt_size.mp
    rw [excess]
    omega
  have hhigh : m < 2 ^ 53 * 2 ^ excess m := by
    rw [← pow_add]
    apply Nat.size_le.mp
    rw [excess]
    omega
  have hdivLow : 2 ^ 52 ≤ m / 2 ^ excess m := (Nat.le_div_iff_mul_le hunit).mpr hlow
  have hdivHigh : m / 2 ^ excess m < 2 ^ 53 := (Nat.div_lt_iff_lt_mul hunit).mpr hhigh
  simp only [significand]
  split <;> omega

/-- A rounded number is not rounded again. -/
theorem roundNat_roundNat (m : ℕ) : roundNat (roundNat m) = roundNat m := by
  rcases Nat.lt_or_ge m (2 ^ 53) with hlt | hge
  · rw [roundNat_of_le hlt.le, roundNat_of_le hlt.le]
  · apply roundNat_of_dvd
    obtain ⟨hlow, hhigh⟩ := significand_bounds hge
    rcases Nat.lt_or_eq_of_le hhigh with hlt | heq
    · -- The result has as many bits as the number.
      have hsize : (roundNat m).size ≤ 53 + excess m := by
        apply Nat.size_le.mpr
        rw [roundNat, pow_add]
        exact Nat.mul_lt_mul_of_pos_right hlt (Nat.two_pow_pos _)
      have hle : excess (roundNat m) ≤ excess m := by
        rw [excess]
        omega
      exact (pow_dvd_pow 2 hle).trans (Dvd.intro_left _ rfl)
    · -- The result is a power of two with one bit more.
      have hpow : roundNat m = 2 ^ (53 + excess m) := by rw [roundNat, heq, ← pow_add]
      have hle : excess (roundNat m) ≤ 53 + excess m := by
        rw [hpow, excess, Nat.size_pow]
        omega
      rw [hpow] at hle ⊢
      exact pow_dvd_pow 2 hle

/-- Only zero is rounded to zero. -/
theorem roundNat_ne_zero {m : ℕ} (h : m ≠ 0) : roundNat m ≠ 0 := by
  rcases Nat.lt_or_ge m (2 ^ 53) with hlt | hge
  · rwa [roundNat_of_le hlt.le]
  · have hlow := (significand_bounds hge).1
    have hpos : 0 < 2 ^ 52 := Nat.two_pow_pos _
    exact Nat.mul_ne_zero (by omega) (Nat.two_pow_pos _).ne'

/-- Round an integer. -/
def roundInt (n : ℤ) : ℤ := n.sign * roundNat n.natAbs

theorem natAbs_roundInt (n : ℤ) : (roundInt n).natAbs = roundNat n.natAbs := by
  rcases eq_or_ne n 0 with rfl | hn
  · decide
  · rw [roundInt, Int.natAbs_mul, Int.natAbs_sign_of_ne_zero hn, one_mul, Int.natAbs_natCast]

theorem sign_roundInt (n : ℤ) : (roundInt n).sign = n.sign := by
  rcases eq_or_ne n 0 with rfl | hn
  · decide
  · have hpos : 0 < (roundNat n.natAbs : ℤ) := by
      have hne := roundNat_ne_zero (Int.natAbs_ne_zero.mpr hn)
      omega
    rw [roundInt, Int.sign_mul, Int.sign_eq_one_of_pos hpos, mul_one, Int.sign_sign]

/-- Round integers to 53 significant bits, and leave fractions. This is for examples: an integer
beyond `2 ^ 53` is written here with the value of its float64. `encoding/json` writes the
shortest digits that read as this float64, 1152921504606847000 for `2 ^ 60`. -/
def nearest : Float64 where
  round q := if q.den = 1 then roundInt q.num else q
  round_round := by
    intro q
    by_cases hden : q.den = 1
    · simp only [hden, if_true, Rat.den_intCast, Rat.num_intCast]
      rw [roundInt, sign_roundInt, natAbs_roundInt, roundNat_roundNat, ← roundInt]
    · simp only [hden, if_false]
  round_of_abs_le := by
    intro n hn
    have hle : n.natAbs ≤ 2 ^ 53 := by
      rw [Int.abs_eq_natAbs] at hn
      exact_mod_cast hn
    simp only [Rat.den_intCast, Rat.num_intCast, if_true]
    rw [roundInt, roundNat_of_le hle, Int.sign_mul_natAbs]
  round_ne_zero := by
    intro n hn
    simp only [Rat.den_intCast, Rat.num_intCast, if_true]
    intro hzero
    have hint : roundInt n = 0 := by exact_mod_cast hzero
    have habs := natAbs_roundInt n
    rw [hint, Int.natAbs_zero] at habs
    exact roundNat_ne_zero (Int.natAbs_ne_zero.mpr hn) habs.symm

/-- The first integer that is rounded. -/
example : nearest.round (2 ^ 53 + 1) = 2 ^ 53 := by decide +kernel

variable (float : Float64)

theorem round_zero : float.round 0 = 0 := by
  have h := float.round_of_abs_le 0 (by norm_num)
  exact_mod_cast h

end Float64

end Go
