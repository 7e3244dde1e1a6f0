import Mathlib.Data.Int.Log
import Mathlib.Data.Rat.Floor

/-!
# Rounding rational numbers to a bounded significand

A rational rounded to the nearest number with a `p`-bit significand, ties to even, as a binary
floating-point operation rounds its exact result (no exponent range). Integers up to `2 ^ p` are
such numbers, so rounding does not go below them (`natCast_le_roundRat`).
-/

namespace RationalRounding

/-- The nearest integer, of two the even one. -/
def roundEven (x : ℚ) : ℤ :=
  if 2 * Int.fract x < 1 then ⌊x⌋
  else if 1 < 2 * Int.fract x then ⌊x⌋ + 1
  else if ⌊x⌋ % 2 = 0 then ⌊x⌋ else ⌊x⌋ + 1

/-- The exponent of the last bit of the significand. -/
def lastBit (p : ℕ) (q : ℚ) : ℤ := Int.log 2 |q| + 1 - p

/-- The nearest rational with `p` significant bits. -/
def roundRat (p : ℕ) (q : ℚ) : ℚ := roundEven (q / 2 ^ lastBit p q) * 2 ^ lastBit p q

/-- The float next to 0.2. -/
example : roundRat 24 (1 / 5) = 13421773 / 67108864 := by decide +kernel

theorem floor_le_roundEven (x : ℚ) : ⌊x⌋ ≤ roundEven x := by
  unfold roundEven
  split_ifs <;> omega

theorem le_roundEven {m : ℤ} {x : ℚ} (h : m ≤ x) : m ≤ roundEven x :=
  (Int.le_floor.mpr h).trans (floor_le_roundEven x)

section Integers

variable {p m : ℕ} {q : ℚ}

/-- Numbers with spacing 1 or less between them: the integers are among them. -/
theorem natCast_le_roundRat_of_lastBit (hbit : lastBit p q ≤ 0) (h : m ≤ q) :
    m ≤ roundRat p q := by
  obtain ⟨k, hk⟩ := Int.eq_ofNat_of_zero_le (Int.neg_nonneg_of_nonpos hbit)
  have hpow : (0 : ℚ) < 2 ^ k := pow_pos two_pos k
  -- the spacing is `2 ^ -k`, of which the integers are multiples
  have hspacing : (2 : ℚ) ^ lastBit p q = (2 ^ k)⁻¹ := by
    rw [← neg_neg (lastBit p q), hk, zpow_neg]
    rfl
  have hscaled : ((m * 2 ^ k : ℤ) : ℚ) ≤ q / (2 ^ k)⁻¹ := by
    rw [div_inv_eq_mul]
    push_cast
    exact mul_le_mul_of_nonneg_right h hpow.le
  have hrounded : ((m * 2 ^ k : ℤ) : ℚ) ≤ roundEven (q / (2 ^ k)⁻¹) :=
    Int.cast_le.mpr (le_roundEven hscaled)
  unfold roundRat
  rw [hspacing, ← div_eq_mul_inv, le_div_iff₀ hpow]
  exact_mod_cast hrounded

/-- The power of two below a number is the least with its spacing. -/
theorem two_pow_log_le_roundRat (hp : 0 < p) (hq : 0 < q) : 2 ^ Int.log 2 q ≤ roundRat p q := by
  obtain ⟨k, rfl⟩ : ∃ k, p = k + 1 := ⟨p - 1, by omega⟩
  have hspacing : (0 : ℚ) < 2 ^ lastBit (k + 1) q := zpow_pos two_pos _
  have hlog : (2 : ℚ) ^ Int.log 2 q = 2 ^ k * 2 ^ lastBit (k + 1) q := by
    rw [← zpow_natCast, ← zpow_add₀ two_ne_zero, lastBit, abs_of_pos hq]
    congr 1
    push_cast
    omega
  -- in units of the spacing it is `2 ^ k`, an integer
  have hscaled : ((2 ^ k : ℤ) : ℚ) ≤ q / 2 ^ lastBit (k + 1) q := by
    rw [le_div_iff₀ hspacing]
    push_cast
    rw [← hlog]
    exact Int.zpow_log_le_self Nat.one_lt_two hq
  have hrounded : ((2 ^ k : ℤ) : ℚ) ≤ roundEven (q / 2 ^ lastBit (k + 1) q) :=
    Int.cast_le.mpr (le_roundEven hscaled)
  rw [hlog]
  exact mul_le_mul_of_nonneg_right (by exact_mod_cast hrounded) hspacing.le

/-- Rounding does not go below an integer. -/
theorem natCast_le_roundRat (hp : 0 < p) (hm : m ≤ 2 ^ p) (h : m ≤ q) : m ≤ roundRat p q := by
  rcases le_or_gt (lastBit p q) 0 with hbit | hbit
  · exact natCast_le_roundRat_of_lastBit hbit h
  · -- a spacing of 2 or more begins at `2 ^ p`
    have hne : q ≠ 0 := by
      rintro rfl
      simp only [lastBit, abs_zero, Int.log_zero_right] at hbit
      omega
    have hq : 0 < q := lt_of_le_of_ne ((Nat.cast_nonneg m).trans h) hne.symm
    have hlog : (p : ℤ) ≤ Int.log 2 q := by
      rw [lastBit, abs_of_pos hq] at hbit
      omega
    calc (m : ℚ) ≤ 2 ^ (p : ℤ) := by exact_mod_cast hm
      _ ≤ 2 ^ Int.log 2 q := zpow_le_zpow_right₀ one_le_two hlog
      _ ≤ roundRat p q := two_pow_log_le_roundRat hp hq

theorem roundRat_nonneg (hp : 0 < p) (h : 0 ≤ q) : 0 ≤ roundRat p q := by
  exact_mod_cast natCast_le_roundRat hp (Nat.zero_le _) (show ((0 : ℕ) : ℚ) ≤ q by exact_mod_cast h)

end Integers

end RationalRounding
