import Mathlib.Analysis.SpecialFunctions.Pow.Real
import Mathlib.Data.Rat.Floor

/-!
# Truncating a multiple of a square root

`floorMulSqrt t q` computes the integer part of `t * √q` for a natural `t` and a rational `q`
without leaving the rationals: it is the integer square root of the integer part of `t² q`
(`floorMulSqrt_eq`).
-/

namespace FloorSqrt

/-- `t` times the square root of `q`, rounded down, by integer arithmetic. -/
def floorMulSqrt (t : Nat) (q : ℚ) : Nat := Nat.sqrt ⌊(t : ℚ) ^ 2 * q⌋₊

/-- Truncation commutes with the square root. -/
theorem floor_sqrt {x : ℝ} (hx : 0 ≤ x) : ⌊√x⌋₊ = Nat.sqrt ⌊x⌋₊ := by
  rw [Nat.eq_sqrt]
  have hlow : (⌊√x⌋₊ : ℝ) ≤ √x := Nat.floor_le (Real.sqrt_nonneg x)
  have hhigh : √x < (⌊√x⌋₊ : ℝ) + 1 := Nat.lt_floor_add_one _
  -- the floor of the root lies between the two squares
  constructor
  · rw [Real.le_sqrt (Nat.cast_nonneg _) hx] at hlow
    apply Nat.le_floor
    push_cast
    linarith
  · rw [Real.sqrt_lt' (by positivity)] at hhigh
    rw [Nat.floor_lt hx]
    push_cast
    linarith

theorem natFloor_ratCast {q : ℚ} : ⌊(q : ℝ)⌋₊ = ⌊q⌋₊ := by
  rw [← Int.floor_toNat, Rat.floor_cast, Int.floor_toNat]

theorem floorMulSqrt_eq (t : Nat) {q : ℚ} (hq : 0 ≤ q) :
    floorMulSqrt t q = ⌊(t : ℝ) * (q : ℝ) ^ (1 / 2 : ℝ)⌋₊ := by
  have hq' : (0 : ℝ) ≤ (q : ℝ) := by exact_mod_cast hq
  have hprod : (t : ℝ) * (q : ℝ) ^ (1 / 2 : ℝ) = √((t : ℝ) ^ 2 * (q : ℝ)) := by
    rw [← Real.sqrt_eq_rpow, Real.sqrt_mul (by positivity), Real.sqrt_sq (Nat.cast_nonneg t)]
  have hcast : (t : ℝ) ^ 2 * (q : ℝ) = (((t : ℚ) ^ 2 * q : ℚ) : ℝ) := by push_cast; rfl
  rw [hprod, floor_sqrt (by positivity), hcast, natFloor_ratCast, floorMulSqrt]

/-- A factor up to one does not increase. -/
theorem floorMulSqrt_le (t : Nat) {q : ℚ} (hq : q ≤ 1) : floorMulSqrt t q ≤ t := by
  have hfloor : ⌊(t : ℚ) ^ 2 * q⌋₊ ≤ t ^ 2 := by
    apply Nat.floor_le_of_le
    push_cast
    exact mul_le_of_le_one_right (by positivity) hq
  calc floorMulSqrt t q ≤ Nat.sqrt (t ^ 2) := Nat.sqrt_le_sqrt hfloor
    _ = t := Nat.sqrt_eq' t

theorem floorMulSqrt_mono {t : Nat} {q q' : ℚ} (h : q ≤ q') :
    floorMulSqrt t q ≤ floorMulSqrt t q' :=
  Nat.sqrt_le_sqrt (Nat.floor_le_floor (mul_le_mul_of_nonneg_left h (by positivity)))

theorem le_floorMulSqrt {t k : Nat} {q : ℚ} (hq : 0 ≤ q) :
    k ≤ floorMulSqrt t q ↔ (k : ℚ) ^ 2 ≤ (t : ℚ) ^ 2 * q := by
  rw [floorMulSqrt, Nat.le_sqrt', Nat.le_floor_iff (by positivity)]
  push_cast
  exact Iff.rfl

/-- A factor up to `p / r`. -/
theorem mul_floorMulSqrt_le {t p r : Nat} {q : ℚ} (hq : 0 ≤ q)
    (hle : (r : ℚ) ^ 2 * q ≤ (p : ℚ) ^ 2) : r * floorMulSqrt t q ≤ p * t := by
  have hsquare : ((floorMulSqrt t q : Nat) : ℚ) ^ 2 ≤ (t : ℚ) ^ 2 * q :=
    (le_floorMulSqrt hq).mp (Nat.le_refl _)
  -- compared as squares, where the root is a product
  have hcast : ((r * floorMulSqrt t q : Nat) : ℚ) ^ 2 ≤ ((p * t : Nat) : ℚ) ^ 2 := by
    push_cast
    calc ((r : ℚ) * floorMulSqrt t q) ^ 2
      _ = (r : ℚ) ^ 2 * (floorMulSqrt t q : ℚ) ^ 2 := mul_pow _ _ _
      _ ≤ (r : ℚ) ^ 2 * ((t : ℚ) ^ 2 * q) := mul_le_mul_of_nonneg_left hsquare (sq_nonneg _)
      _ = (r : ℚ) ^ 2 * q * (t : ℚ) ^ 2 := by ring
      _ ≤ (p : ℚ) ^ 2 * (t : ℚ) ^ 2 := mul_le_mul_of_nonneg_right hle (sq_nonneg _)
      _ = ((p : ℚ) * t) ^ 2 := (mul_pow _ _ _).symm
  have hpow : (r * floorMulSqrt t q) ^ 2 ≤ (p * t) ^ 2 := by exact_mod_cast hcast
  exact (pow_le_pow_iff_left₀ (Nat.zero_le _) (Nat.zero_le _) two_ne_zero).mp hpow

end FloorSqrt
