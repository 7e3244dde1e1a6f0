import Mathlib.Algebra.Order.Ring.Nat
import Mathlib.Data.Nat.Bits

/-!
# Rounding natural numbers to a bounded significand

A binary floating-point format with a `p`-bit significand represents exactly the naturals
whose binary form has at most `p` significant bits. Converting an integer to such a format
rounds to the nearest representable one, ties to the even significand. This module is that
rounding on naturals (no exponent range: every natural considered is far below the largest
finite value), with the one fact an integer computation carried out in floating point rests
on: naturals up to `2 ^ p` are left alone.
-/

namespace Rounding

/-- `n` rounded to the nearest natural with at most `p` significant bits, ties to even.
`s` is the number of low bits the format has to drop. -/
def roundBits (p n : Nat) : Nat :=
  let s := n.log2 + 1 - p
  let q := n / 2 ^ s
  let r := n % 2 ^ s
  if 2 ^ s < 2 * r ∨ (2 * r = 2 ^ s ∧ q % 2 = 1) then (q + 1) * 2 ^ s else q * 2 ^ s

theorem roundBits_of_dvd {p n : Nat} (h : n % 2 ^ (n.log2 + 1 - p) = 0) :
    roundBits p n = n := by
  have hpos : 0 < 2 ^ (n.log2 + 1 - p) := Nat.two_pow_pos _
  have hcond : ¬ (2 ^ (n.log2 + 1 - p) < 2 * 0 ∨
      (2 * 0 = 2 ^ (n.log2 + 1 - p) ∧ n / 2 ^ (n.log2 + 1 - p) % 2 = 1)) := by omega
  simp only [roundBits, h]
  rw [if_neg hcond]
  exact Nat.div_mul_cancel (Nat.dvd_of_mod_eq_zero h)

theorem roundBits_of_lt {p n : Nat} (h : n < 2 ^ p) : roundBits p n = n := by
  apply roundBits_of_dvd
  rcases Nat.eq_zero_or_pos n with rfl | hn
  · simp
  · have hlog : n.log2 < p := (Nat.log2_lt (Nat.ne_of_gt hn)).mpr h
    rw [show n.log2 + 1 - p = 0 from by omega]
    simp [Nat.mod_one]

/-- So is `2 ^ p` itself, the first natural past them (the format needs one bit for it). -/
theorem roundBits_of_le {p n : Nat} (hp : 0 < p) (h : n ≤ 2 ^ p) : roundBits p n = n := by
  rcases Nat.lt_or_eq_of_le h with hlt | heq
  · exact roundBits_of_lt hlt
  · subst heq
    apply roundBits_of_dvd
    rw [Nat.log2_two_pow, show p + 1 - p = 1 from by omega]
    obtain ⟨k, rfl⟩ : ∃ k, p = k + 1 := ⟨p - 1, by omega⟩
    simp [Nat.pow_succ]

/-! ## Rounding is monotone -/

/-- `n` rounded to a multiple of `2 ^ s`. -/
def roundAt (s n : Nat) : Nat :=
  if 2 ^ s < 2 * (n % 2 ^ s) ∨ (2 * (n % 2 ^ s) = 2 ^ s ∧ n / 2 ^ s % 2 = 1) then
    (n / 2 ^ s + 1) * 2 ^ s
  else n / 2 ^ s * 2 ^ s

theorem roundBits_eq_roundAt (p n : Nat) : roundBits p n = roundAt (n.log2 + 1 - p) n := rfl

theorem le_roundAt (s n : Nat) : n / 2 ^ s * 2 ^ s ≤ roundAt s n := by
  unfold roundAt
  split
  · exact Nat.mul_le_mul_right _ (Nat.le_succ _)
  · exact Nat.le_refl _

theorem roundAt_le (s n : Nat) : roundAt s n ≤ (n / 2 ^ s + 1) * 2 ^ s := by
  unfold roundAt
  split
  · exact Nat.le_refl _
  · exact Nat.mul_le_mul_right _ (Nat.le_succ _)

/-- With one spacing: the quotients decide, or, between two multiples, the remainders. -/
theorem roundAt_mono (s : Nat) {m n : Nat} (h : m ≤ n) : roundAt s m ≤ roundAt s n := by
  -- by the quotient: a larger one leaves no room, an equal one leaves the remainder to decide
  rcases Nat.lt_or_eq_of_le (Nat.div_le_div_right (c := 2 ^ s) h) with hlt | heq
  · calc roundAt s m ≤ (m / 2 ^ s + 1) * 2 ^ s := roundAt_le s m
      _ ≤ n / 2 ^ s * 2 ^ s := Nat.mul_le_mul_right _ hlt
      _ ≤ roundAt s n := le_roundAt s n
  · have hm := Nat.div_add_mod m (2 ^ s)
    have hn := Nat.div_add_mod n (2 ^ s)
    have hmod : m % 2 ^ s ≤ n % 2 ^ s := by
      rw [heq] at hm
      omega
    unfold roundAt
    rw [heq]
    split
    · rename_i hup
      rw [if_pos (by omega)]
    · split
      · exact Nat.mul_le_mul_right _ (Nat.le_succ _)
      · exact Nat.le_refl _

section Spacing

variable {p n : Nat}

/-- What is left of `n` above the dropped bits fits the significand. -/
theorem div_spacing_lt (p n : Nat) : n / 2 ^ (n.log2 + 1 - p) < 2 ^ p := by
  rw [Nat.div_lt_iff_lt_mul (Nat.two_pow_pos _), ← Nat.pow_add]
  exact Nat.lt_of_lt_of_le Nat.lt_log2_self (Nat.pow_le_pow_right (by omega) (by omega))

theorem roundBits_le_two_pow {k : Nat} (hp : 0 < p) (h : n ≤ 2 ^ k) : roundBits p n ≤ 2 ^ k := by
  rcases Nat.lt_or_eq_of_le h with hlt | rfl
  · rcases Nat.eq_zero_or_pos n with rfl | hn
    · rw [roundBits_of_lt (Nat.two_pow_pos p)]
      exact Nat.zero_le _
    · have hlog : n.log2 < k := (Nat.log2_lt (Nat.ne_of_gt hn)).mpr hlt
      -- the power is itself a multiple of the spacing of `n`
      have hsplit : 2 ^ k = 2 ^ (k - (n.log2 + 1 - p)) * 2 ^ (n.log2 + 1 - p) := by
        rw [← Nat.pow_add]
        congr 1
        omega
      have hquot : n / 2 ^ (n.log2 + 1 - p) < 2 ^ (k - (n.log2 + 1 - p)) := by
        rw [Nat.div_lt_iff_lt_mul (Nat.two_pow_pos _), ← hsplit]
        exact hlt
      rw [roundBits_eq_roundAt]
      refine (roundAt_le _ _).trans ?_
      rw [hsplit]
      exact Nat.mul_le_mul_right _ hquot
  · -- the power has a single significant bit
    refine (roundBits_of_dvd ?_).le
    rw [Nat.log2_two_pow]
    exact Nat.mod_eq_zero_of_dvd (Nat.pow_dvd_pow 2 (by omega))

theorem two_pow_log2_le_roundBits (hp : 0 < p) (hn : n ≠ 0) : 2 ^ n.log2 ≤ roundBits p n := by
  have hsplit : 2 ^ n.log2 = 2 ^ (n.log2 - (n.log2 + 1 - p)) * 2 ^ (n.log2 + 1 - p) := by
    rw [← Nat.pow_add]
    congr 1
    omega
  have hquot : 2 ^ (n.log2 - (n.log2 + 1 - p)) ≤ n / 2 ^ (n.log2 + 1 - p) := by
    rw [Nat.le_div_iff_mul_le (Nat.two_pow_pos _), ← hsplit]
    exact Nat.log2_self_le hn
  rw [roundBits_eq_roundAt, hsplit]
  exact (Nat.mul_le_mul_right _ hquot).trans (le_roundAt _ _)

/-- Rounding is monotone: a larger exponent only means a power of two in between. -/
theorem roundBits_mono {m : Nat} (hp : 0 < p) (h : m ≤ n) : roundBits p m ≤ roundBits p n := by
  rcases Nat.eq_zero_or_pos m with rfl | hm
  · rw [roundBits_of_lt (Nat.two_pow_pos p)]
    exact Nat.zero_le _
  have hn : n ≠ 0 := by omega
  have hlog : m.log2 ≤ n.log2 := (Nat.le_log2 hn).mpr ((Nat.log2_self_le (by omega)).trans h)
  rcases Nat.lt_or_eq_of_le hlog with hlt | heq
  · calc roundBits p m ≤ 2 ^ (m.log2 + 1) := roundBits_le_two_pow hp Nat.lt_log2_self.le
      _ ≤ 2 ^ n.log2 := Nat.pow_le_pow_right (by omega) hlt
      _ ≤ roundBits p n := two_pow_log2_le_roundBits hp hn
  · rw [roundBits_eq_roundAt, roundBits_eq_roundAt, heq]
    exact roundAt_mono _ h

end Spacing

/-! ## Representable naturals -/

/-- `x` has at most `p` significant bits. -/
def Fits (p x : Nat) : Prop := ∃ q s, q < 2 ^ p ∧ x = q * 2 ^ s

section Fits

variable {p x n : Nat}

theorem fits_zero (p : Nat) : Fits p 0 := ⟨0, 0, Nat.two_pow_pos p, rfl⟩

theorem fits_of_lt (h : x < 2 ^ p) : Fits p x := ⟨x, 0, h, by rw [Nat.pow_zero, Nat.mul_one]⟩

theorem Fits.mono {p' : Nat} (h : Fits p x) (hp : p ≤ p') : Fits p' x := by
  obtain ⟨q, s, hq, rfl⟩ := h
  exact ⟨q, s, Nat.lt_of_lt_of_le hq (Nat.pow_le_pow_right (by omega) hp), rfl⟩

theorem Fits.min (hx : Fits p x) (hn : Fits p n) : Fits p (min x n) := by
  rcases Nat.le_total x n with hle | hle
  · rwa [Nat.min_eq_left hle]
  · rwa [Nat.min_eq_right hle]

theorem fits_roundBits (hp : 0 < p) (n : Nat) : Fits p (roundBits p n) := by
  have hquot := div_spacing_lt p n
  rw [roundBits_eq_roundAt]
  unfold roundAt
  split
  · rcases Nat.lt_or_eq_of_le (Nat.succ_le_of_lt hquot) with hlt | heq
    · exact ⟨_, _, hlt, rfl⟩
    · -- the significand overflows into the next power of two
      refine ⟨1, p + (n.log2 + 1 - p), Nat.one_lt_two_pow (by omega), ?_⟩
      rw [Nat.pow_add, Nat.one_mul]
      exact congrArg (· * _) heq
  · exact ⟨_, _, hquot, rfl⟩

theorem Fits.roundBits_eq (h : Fits p x) : roundBits p x = x := by
  obtain ⟨q, s, hq, rfl⟩ := h
  rcases Nat.eq_zero_or_pos q with rfl | hpos
  · rw [Nat.zero_mul]
    exact roundBits_of_lt (Nat.two_pow_pos p)
  · have hne : q * 2 ^ s ≠ 0 := Nat.ne_of_gt (Nat.mul_pos hpos (Nat.two_pow_pos s))
    have hlog : (q * 2 ^ s).log2 < p + s := by
      rw [Nat.log2_lt hne, Nat.pow_add]
      exact Nat.mul_lt_mul_of_pos_right hq (Nat.two_pow_pos s)
    apply roundBits_of_dvd
    have hdvd : 2 ^ ((q * 2 ^ s).log2 + 1 - p) ∣ 2 ^ s := Nat.pow_dvd_pow 2 (by omega)
    exact Nat.mod_eq_zero_of_dvd (hdvd.trans (Nat.dvd_mul_left _ _))

theorem Fits.le_roundBits (hp : 0 < p) (h : Fits p x) (hle : x ≤ n) : x ≤ roundBits p n :=
  h.roundBits_eq.symm.le.trans (roundBits_mono hp hle)

theorem Fits.roundBits_le (hp : 0 < p) (h : Fits p x) (hle : n ≤ x) : roundBits p n ≤ x :=
  (roundBits_mono hp hle).trans h.roundBits_eq.le

/-- Below a power of two, what fits leaves room for the next step of its spacing. -/
theorem Fits.add_spacing_le {w : Nat} (h : Fits p x) (hx : x < 2 ^ (p + w)) :
    x + 2 ^ w ≤ 2 ^ (p + w) := by
  obtain ⟨q, s, hq, rfl⟩ := h
  rcases Nat.le_total w s with hws | hsw
  · -- `2 ^ w` divides both
    obtain ⟨d, rfl⟩ := Nat.exists_eq_add_of_le hws
    have hlt : q * 2 ^ d < 2 ^ p := by
      rw [Nat.pow_add, Nat.pow_add, Nat.mul_left_comm, Nat.mul_comm (2 ^ p)] at hx
      exact Nat.lt_of_mul_lt_mul_left hx
    calc q * 2 ^ (w + d) + 2 ^ w = (q * 2 ^ d + 1) * 2 ^ w := by
          rw [Nat.pow_add, Nat.add_mul, Nat.one_mul, Nat.mul_assoc, Nat.mul_comm (2 ^ d)]
      _ ≤ 2 ^ p * 2 ^ w := Nat.mul_le_mul_right _ hlt
      _ = 2 ^ (p + w) := (Nat.pow_add 2 p w).symm
  · calc q * 2 ^ s + 2 ^ w ≤ q * 2 ^ w + 2 ^ w :=
          Nat.add_le_add_right (Nat.mul_le_mul_left _ (Nat.pow_le_pow_right (by omega) hsw)) _
      _ = (q + 1) * 2 ^ w := (Nat.succ_mul q _).symm
      _ ≤ 2 ^ p * 2 ^ w := Nat.mul_le_mul_right _ hq
      _ = 2 ^ (p + w) := (Nat.pow_add 2 p w).symm

end Fits

end Rounding
