import Mathlib.NumberTheory.LucasPrimality
import Mathlib.Tactic.NormNum.Prime
import Mathlib.Tactic.ReduceModChar

/-!
# Trial division

A composite number above 4 has a divisor below its half, rounded down: its least factor, which is
at most the cofactor (`hasDivisor_iff`). 4 itself has none, which is why the bound is needed. The
largest prime below `2 ^ 32` bounds a search for the next prime in 32 bits.
-/

namespace TrialDivision

/-- The divisors that a division up to the half tries. -/
def HasDivisor (n : Nat) : Prop := ∃ d, 2 ≤ d ∧ d < n / 2 ∧ d ∣ n

theorem not_prime_of_hasDivisor {n : Nat} (h : HasDivisor n) : ¬ n.Prime := by
  obtain ⟨d, htwo, hhalf, hdvd⟩ := h
  intro hprime
  rcases hprime.eq_one_or_self_of_dvd d hdvd with hone | hself
  · omega
  · omega

/-- The least factor of a composite number and its cofactor. -/
theorem exists_factors {n : Nat} (htwo : 2 ≤ n) (h : ¬ n.Prime) :
    ∃ d e, n = d * e ∧ 2 ≤ d ∧ d ≤ e := by
  have hpos : 0 < n := by omega
  have hne : n ≠ 1 := by omega
  obtain ⟨e, he⟩ := n.minFac_dvd
  have hmin : 2 ≤ n.minFac := (Nat.minFac_prime hne).two_le
  -- the smallest prime factor, which is at most the other one
  have hsq : n.minFac * n.minFac ≤ n := by
    rw [← sq]
    exact Nat.minFac_sq_le_self hpos h
  refine ⟨n.minFac, e, he, hmin, ?_⟩
  apply Nat.le_of_mul_le_mul_left _ (show 0 < n.minFac by omega)
  rw [← he]
  exact hsq

theorem hasDivisor_of_not_prime {n : Nat} (hfive : 5 ≤ n) (h : ¬ n.Prime) : HasDivisor n := by
  obtain ⟨d, e, rfl, hd, hde⟩ := exists_factors (show 2 ≤ n by omega) h
  have hlt : 2 * d + 2 ≤ d * e := by
    rcases Nat.eq_or_lt_of_le hd with rfl | hthree
    · -- an even number from 6 on
      omega
    · have hmul : 3 * d ≤ d * e := by
        rw [Nat.mul_comm d e]
        exact Nat.mul_le_mul_right d (by omega)
      omega
  exact ⟨d, hd, by omega, Nat.dvd_mul_right d e⟩

/-- **Trial division up to the half is exact from 5 on.** -/
theorem hasDivisor_iff {n : Nat} (h : 5 ≤ n) : HasDivisor n ↔ ¬ n.Prime :=
  ⟨not_prime_of_hasDivisor, hasDivisor_of_not_prime h⟩

/-- Four is composite, and its only proper divisor is its half. -/
theorem not_hasDivisor_four : ¬ HasDivisor 4 := by
  rintro ⟨d, htwo, hhalf, -⟩
  omega

theorem exists_isLeast_prime_gt (n : Nat) : ∃ p, IsLeast {p | p.Prime ∧ n < p} p := by
  obtain ⟨p, hlt, hprime⟩ := Nat.exists_infinite_primes (n + 1)
  have hexists : ∃ p : Nat, p.Prime ∧ n < p := ⟨p, hprime, hlt⟩
  exact ⟨Nat.find hexists, Nat.find_spec hexists, fun _ hp => Nat.find_min' hexists hp⟩

/-! ## The largest prime below `2 ^ 32` -/

theorem prime_22605091 : Nat.Prime 22605091 := by norm_num

/-- Lucas's test with the witness 2; the number before the prime is `2 * 5 * 19 * 22605091`. -/
theorem prime_4294967291 : Nat.Prime 4294967291 := by
  refine lucas_primality _ 2 (by reduce_mod_char) fun q hq hdvd => ?_
  have hfactor : q ∣ 2 * 5 * 19 * 22605091 := hdvd
  rw [hq.dvd_mul, hq.dvd_mul, hq.dvd_mul, Nat.prime_dvd_prime_iff_eq hq Nat.prime_two,
    Nat.prime_dvd_prime_iff_eq hq Nat.prime_five,
    Nat.prime_dvd_prime_iff_eq hq (show Nat.Prime 19 by norm_num),
    Nat.prime_dvd_prime_iff_eq hq prime_22605091] at hfactor
  rcases hfactor with ((rfl | rfl) | rfl) | rfl <;> norm_num <;> reduce_mod_char <;> decide

end TrialDivision
