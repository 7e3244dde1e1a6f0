import FHFCapturing.RemovalThreshold

/-!
# Where the adaptation leads

Under an overload the threshold doubles with every call as long as the usage is at least the cube
root of 2 times the target and the product fits into 64 bits, up to the first threshold
(`overload_restores`); while the tables are used up to the target only, it falls by a tenth or more
in every four calls, down to 1 (`idle_lowers`). Both hold from every state that a run of calls
reaches.

At 1 the truncation shows: a usage above the target that is less than the cube root of 2 times as
large does not raise the threshold, for any number of calls, nor does one so large that the product
overflows (`stays_at_one_iff`).
-/

namespace FHF

namespace Analyzer

/-- The factor of a raise is at least 2, that is, the usage is at least the cube root of 2 times the
target; and the product is below `2 ^ 64`. -/
def Overloaded (a : Analyzer) : Prop :=
  2 ≤ (a.usage / target) ^ adjustUp ∧
    (a.t_threshold : ℚ) * (a.usage / target) ^ adjustUp < 2 ^ 64

instance (a : Analyzer) : Decidable a.Overloaded := inferInstanceAs (Decidable (_ ∧ _))

/-! ## One call -/

section Call

variable {a : Analyzer}

/-- Twice the threshold or more is a raise. -/
theorem Overloaded.raises (h : a.Overloaded) : a.usage > target := by
  by_contra hnot
  have hratio : a.usage / target ≤ 1 :=
    (div_le_one₀ (by norm_num [target])).mpr (not_lt.mp hnot)
  have hnonneg : 0 ≤ a.usage / target := div_nonneg a.usage_nonneg (by norm_num [target])
  have hpow : (a.usage / target) ^ adjustUp ≤ 1 := pow_le_one₀ hnonneg hratio
  have htwo := h.1
  linarith

/-- An overload, as it is meant here, does not overflow. -/
theorem Overloaded.fits (h : a.Overloaded) : ¬ a.Overflows := fun hover =>
  absurd h.2 (not_lt.mpr hover.2)

/-- A call under an overload doubles the threshold, or restores the first one. -/
theorem Overloaded.le_update_thresholds (h : a.Overloaded) :
    min a.first_t_threshold (2 * a.t_threshold) ≤ a.update_thresholds.t_threshold := by
  have hraised : 2 * a.t_threshold ≤ a.raisedThreshold := by
    rw [raisedThreshold_of_fits h.raises h.fits]
    refine Nat.le_floor ?_
    push_cast
    rw [mul_comm]
    exact mul_le_mul_of_nonneg_left h.1 (Nat.cast_nonneg _)
  rw [update_thresholds_of_raise h.raises]
  exact le_clampThreshold ((Nat.min_le_right _ _).trans hraised) (Nat.min_le_left _ _)

/-- A call that lowers the threshold takes away a tenth or more. -/
theorem update_thresholds_le_of_lower (h : ¬ a.usage > target) (hquiet : 3 ≤ a.noVarIntervals) :
    a.update_thresholds.t_threshold ≤ max 1 (9 * a.t_threshold / 10) := by
  have husage := a.usage_nonneg
  have hlow : 10 * a.loweredThreshold ≤ 9 * a.t_threshold := by
    refine (Nat.mul_le_mul_left 10 (toULong_le _)).trans ?_
    refine FloorSqrt.mul_floorMulSqrt_le (by unfold target; positivity) ?_
    unfold target at h ⊢
    push_cast
    linarith
  have hclamp := clampThreshold_le_max a.first_t_threshold a.loweredThreshold
  rw [update_thresholds_of_lower h hquiet]
  dsimp only
  omega

end Call

/-! ## Overload -/

section Runs

variable {a : Analyzer} {used : Nat → UInt32}

/-- Induction on the calls under the overload. -/
theorem le_afterCalls_of_overloaded {i k : Nat}
    (h : ∀ j, i ≤ j → j < i + k → (a.atCall used j).Overloaded) :
    min a.first_t_threshold (2 ^ k * (a.afterCalls used i).t_threshold) ≤
      (a.afterCalls used (i + k)).t_threshold := by
  induction k with
  | zero =>
    -- no call: the least of two is at most the second
    rw [Nat.pow_zero, Nat.one_mul]
    exact Nat.min_le_right _ _
  | succ k ih =>
    have hbefore := ih fun j hj hlt => h j hj (by omega)
    -- call `i + k` doubles the threshold, unless the first threshold stops it
    have hcall := (h (i + k) (by omega) (by omega)).le_update_thresholds
    rw [show (a.atCall used (i + k)).first_t_threshold = a.first_t_threshold
      from first_t_threshold_afterCalls a used (i + k)] at hcall
    have hdouble : 2 ^ (k + 1) * (a.afterCalls used i).t_threshold =
        2 * (2 ^ k * (a.afterCalls used i).t_threshold) := by
      rw [Nat.pow_succ, Nat.mul_comm (2 ^ k), Nat.mul_assoc]
    have hnow : (a.atCall used (i + k)).t_threshold = (a.afterCalls used (i + k)).t_threshold := rfl
    rw [hdouble, ← Nat.add_assoc, afterCalls_succ]
    omega

/-! ## Idle tables -/

/-- Without a usage above the target the threshold does not rise. -/
theorem afterCalls_le_of_idle (hb : a.Bounded) {i k : Nat}
    (h : ∀ j, i ≤ j → j < i + k → (a.atCall used j).usage ≤ target) :
    (a.afterCalls used (i + k)).t_threshold ≤ (a.afterCalls used i).t_threshold := by
  induction k with
  | zero => exact Nat.le_refl _
  | succ k ih =>
    have hcall := (bounded_atCall (hb.afterCalls used (i + k))).le_of_not_raise
      (not_lt.mpr (h (i + k) (by omega) (by omega)))
    rw [← Nat.add_assoc, afterCalls_succ]
    exact hcall.trans (ih fun j hj hlt => h j hj (by omega))

/-- Until it reaches three, the counter counts the calls. -/
theorem noVarIntervals_of_idle {i m : Nat}
    (hm : (a.afterCalls used i).noVarIntervals.toNat + m ≤ 3)
    (h : ∀ j, i ≤ j → j < i + m → (a.atCall used j).usage ≤ target) :
    (a.afterCalls used (i + m)).noVarIntervals.toNat =
      (a.afterCalls used i).noVarIntervals.toNat + m := by
  induction m with
  | zero => rfl
  | succ m ih =>
    -- the earlier calls have counted `m`
    have hbefore := ih (by omega) fun j hj hlt => h j hj (by omega)
    have hraise : ¬ (a.atCall used (i + m)).usage > target :=
      not_lt.mpr (h (i + m) (by omega) (by omega))
    -- less than three are counted, so the call only counts itself
    have hquiet : ¬ 3 ≤ (a.atCall used (i + m)).noVarIntervals := by
      rw [UInt32.le_iff_toNat_le, atCall_noVarIntervals, hbefore]
      show ¬ 3 ≤ _
      omega
    rw [← Nat.add_assoc, afterCalls_succ, update_thresholds_of_wait hraise hquiet]
    dsimp only
    rw [atCall_noVarIntervals, UInt32.toNat_add, hbefore, UInt32.toNat_one]
    omega

/-- One of four idle calls lowers the threshold. -/
theorem afterCalls_four_le_of_idle (hb : a.Bounded) {i : Nat}
    (h : ∀ j, i ≤ j → j < i + 4 → (a.atCall used j).usage ≤ target) :
    (a.afterCalls used (i + 4)).t_threshold ≤
      max 1 (9 * (a.afterCalls used i).t_threshold / 10) := by
  -- the call that finds the counter at three, or past it
  obtain ⟨m, hm, hquiet⟩ : ∃ m ≤ 3, 3 ≤ (a.atCall used (i + m)).noVarIntervals := by
    by_cases hpast : 3 ≤ (a.afterCalls used i).noVarIntervals.toNat
    · exact ⟨0, by omega, UInt32.le_iff_toNat_le.mpr hpast⟩
    · refine ⟨3 - (a.afterCalls used i).noVarIntervals.toNat, by omega, ?_⟩
      rw [UInt32.le_iff_toNat_le, atCall_noVarIntervals,
        noVarIntervals_of_idle (by omega) fun j hj hlt => h j hj (by omega)]
      show 3 ≤ _
      omega
  have hbefore := afterCalls_le_of_idle hb (k := m) fun j hj hlt => h j hj (by omega)
  have hlowered := update_thresholds_le_of_lower
    (not_lt.mpr (h (i + m) (by omega) (by omega))) hquiet
  have hafter : (a.afterCalls used (i + m + 1 + (3 - m))).t_threshold ≤
      (a.afterCalls used (i + m + 1)).t_threshold :=
    afterCalls_le_of_idle hb fun j hj hlt => h j (by omega) (by omega)
  have hnow : (a.atCall used (i + m)).t_threshold = (a.afterCalls used (i + m)).t_threshold := rfl
  rw [← afterCalls_succ] at hlowered
  rw [show i + m + 1 + (3 - m) = i + 4 by omega] at hafter
  omega

/-- Induction on the groups of four calls. -/
theorem afterCalls_le_of_idle_groups (hb : a.Bounded) {i k : Nat}
    (h : ∀ j, i ≤ j → j < i + 4 * k → (a.atCall used j).usage ≤ target) :
    (a.afterCalls used (i + 4 * k)).t_threshold ≤
      max 1 (9 ^ k * (a.afterCalls used i).t_threshold / 10 ^ k) := by
  induction k with
  | zero => simp
  | succ k ih =>
    have hbefore := ih fun j hj hlt => h j hj (by omega)
    -- four calls in a row take off a tenth
    have hgroup : (a.afterCalls used (i + 4 * k + 4)).t_threshold ≤
        max 1 (9 * (a.afterCalls used (i + 4 * k)).t_threshold / 10) :=
      afterCalls_four_le_of_idle hb fun j hj hlt => h j (by omega) (by omega)
    -- and a tenth of what is left, rounded down, is at most that of the exact value
    have htenth : 9 * (9 ^ k * (a.afterCalls used i).t_threshold / 10 ^ k) / 10 ≤
        9 ^ (k + 1) * (a.afterCalls used i).t_threshold / 10 ^ (k + 1) := by
      rw [Nat.pow_succ 10, ← Nat.div_div_eq_div_mul, Nat.pow_succ, Nat.mul_comm (9 ^ k) 9,
        Nat.mul_assoc]
      exact Nat.div_le_div_right (Nat.mul_div_le_mul_div_assoc _ _ _)
    rw [Nat.mul_succ, ← Nat.add_assoc]
    omega

/-! ## Stuck at one -/

/-- At 1 the multiple is truncated to 1 again, unless its factor is at least 2, or it overflows and
is clamped to 1. -/
theorem update_thresholds_eq_one_iff (hb : a.Bounded) (hone : a.t_threshold = 1)
    (hfirst : 2 ≤ a.first_t_threshold) :
    a.update_thresholds.t_threshold = 1 ↔ ¬ a.Overloaded := by
  have hle := hb.update_thresholds.one_le
  constructor
  · intro heq hover
    have hdouble := hover.le_update_thresholds
    omega
  · intro hover
    by_cases hraise : a.usage > target
    · by_cases hlost : a.Overflows
      · exact update_thresholds_of_overflows hlost (by omega)
      · -- above the target, but a factor below 2 is truncated
        have hfits := not_le.mp fun hle => hlost ⟨hraise, hle⟩
        have hnot : ¬ 2 ≤ clampThreshold a.first_t_threshold a.raisedThreshold := by
          rw [le_clamped_raised_iff hraise hlost (Nat.le_refl 2)]
          intro h
          have htwo := h.2
          rw [hone, Nat.cast_one, one_mul] at htwo
          exact hover ⟨htwo, hfits⟩
        have heq : a.update_thresholds.t_threshold =
            clampThreshold a.first_t_threshold a.raisedThreshold := by
          rw [update_thresholds_of_raise hraise]
        omega
    · have hstay := hb.le_of_not_raise hraise
      omega

end Runs

/-- **Overload.** From every state that calls lead to: after `k` more calls, each with a usage of at
least the cube root of 2 times the target and a product that fits into 64 bits, the threshold is
`2 ^ k` times what it was, or the first threshold. -/
theorem overload_restores (w : Worker) (used : Nat → UInt32) (i k : Nat)
    (h : ∀ j, i ≤ j → j < i + k → ((new w).atCall used j).Overloaded) :
    min w.getThreshold.toNat (2 ^ k * ((new w).afterCalls used i).t_threshold) ≤
      ((new w).afterCalls used (i + k)).t_threshold :=
  le_afterCalls_of_overloaded h

/-- Four idle calls lower the threshold from 1000 to 27, two overloaded ones raise it again. -/
theorem overload_restores_worker1000 :
    min worker1000.getThreshold.toNat (2 ^ 2 *
        ((new worker1000).afterCalls (fun j => if j < 4 then 1 else 2000) 4).t_threshold) ≤
      ((new worker1000).afterCalls (fun j => if j < 4 then 1 else 2000) (4 + 2)).t_threshold :=
  overload_restores worker1000 (fun j => if j < 4 then 1 else 2000) 4 2 (by decide +kernel)

/-- **Idle tables.** From every state that calls lead to: after `4 * k` more calls that find no
usage above the target, the threshold is at most `0.9 ^ k` times what it was, or 1. -/
theorem idle_lowers (w : Worker) (hw : 1 ≤ w.getThreshold.toNat) (used : Nat → UInt32) (i k : Nat)
    (h : ∀ j, i ≤ j → j < i + 4 * k → ((new w).atCall used j).usage ≤ target) :
    ((new w).afterCalls used (i + 4 * k)).t_threshold ≤
      max 1 (9 ^ k * ((new w).afterCalls used i).t_threshold / 10 ^ k) :=
  afterCalls_le_of_idle_groups (bounded_new hw) h

theorem idle_lowers_worker1000 :
    ((new worker1000).afterCalls (fun _ => 1) (0 + 4 * 2)).t_threshold ≤
      max 1 (9 ^ 2 * ((new worker1000).afterCalls (fun _ => 1) 0).t_threshold / 10 ^ 2) :=
  idle_lowers worker1000 (by decide) (fun _ => 1) 0 2 (by decide +kernel)

/-- **Stuck at one.** Once the threshold is 1, below a first threshold of 2 or more, it stays 1
through `k` calls iff none of them finds a usage of at least the cube root of 2 times the target
with a product below `2 ^ 64`. -/
theorem stays_at_one_iff (w : Worker) (hw : 2 ≤ w.getThreshold.toNat) (used : Nat → UInt32)
    (i k : Nat) (hone : ((new w).afterCalls used i).t_threshold = 1) :
    (∀ j ≤ k, ((new w).afterCalls used (i + j)).t_threshold = 1) ↔
      ∀ j < k, ¬ ((new w).atCall used (i + j)).Overloaded := by
  have hb := (bounded_new (w := w) (by omega)).afterCalls used
  have hcall : ∀ j, ((new w).afterCalls used (i + j)).t_threshold = 1 →
      (((new w).afterCalls used (i + (j + 1))).t_threshold = 1 ↔
        ¬ ((new w).atCall used (i + j)).Overloaded) := by
    intro j hj
    have hfirst : ((new w).atCall used (i + j)).first_t_threshold = w.getThreshold.toNat :=
      first_t_threshold_afterCalls (new w) used (i + j)
    exact update_thresholds_eq_one_iff (bounded_atCall (hb (i + j))) hj (hw.trans_eq hfirst.symm)
  constructor
  · intro hall j hj
    exact (hcall j (hall j (by omega))).mp (hall (j + 1) (by omega))
  · -- induction on the calls
    intro hnone j
    induction j with
    | zero => exact fun _ => hone
    | succ j ih => exact fun hj => (hcall j (ih (by omega))).mpr (hnone j (by omega))

/-- Eight idle calls, and then 1300 entries of 1201. -/
theorem stays_at_one_iff_worker1000 :
    (∀ j ≤ 2, ((new worker1000).afterCalls (fun j => if j < 8 then 1 else 1300)
        (8 + j)).t_threshold = 1) ↔
      ∀ j < 2, ¬ ((new worker1000).atCall (fun j => if j < 8 then 1 else 1300)
        (8 + j)).Overloaded :=
  stays_at_one_iff worker1000 (by decide) (fun j => if j < 8 then 1 else 1300) 8 2
    (by decide +kernel)

end Analyzer

end FHF
