import FHFCapturing.Adaptation

/-!
# The control law of the adaptation

The comment in `update_thresholds` gives the law: the threshold is multiplied by
`(usage/target)^adjustUp` above the target usage, and by `(usage/target)^adjustDown` below it
after three intervals without an increase. The code has `usage * target` for the second factor,
and so lowers the threshold by a further factor of the target, 0.9. After truncation and the
clamps the two results differ exactly when the square of an integer from 2 on lies between the
squares of the two products (`Understated`). For the first factor they differ when the product does
not fit into 64 bits: the law gives the first threshold then, the code 1.
-/

namespace FHF

namespace Analyzer

/-- The threshold that the comment `ADAPTTHRESHOLD` asks for, truncated and clamped. -/
def adaptThreshold (a : Analyzer) : Nat :=
  if a.usage > target then
    clampThreshold a.first_t_threshold ⌊a.t_threshold * (a.usage / target) ^ adjustUp⌋₊
  else if a.noVarIntervals ≥ 3 then
    clampThreshold a.first_t_threshold
      (FloorSqrt.floorMulSqrt a.t_threshold (a.usage / target))
  else a.t_threshold

/-- The square of an integer of at least 2 lies above the square of the product the code computes
and not above that of the product it should compute. -/
def Understated (a : Analyzer) : Prop :=
  ∃ k : Nat, 2 ≤ k ∧ (a.t_threshold : ℚ) ^ 2 * (a.usage * target) < (k : ℚ) ^ 2 ∧
    (k : ℚ) ^ 2 ≤ (a.t_threshold : ℚ) ^ 2 * (a.usage / target)

section Lower

variable {a : Analyzer}

/-- The code multiplies by a number below 1 where the comment divides by it. -/
theorem usage_mul_target_le (a : Analyzer) : a.usage * target ≤ a.usage / target := by
  have := a.usage_nonneg
  unfold target
  linarith

/-- The product of a lowering fits, being at most the threshold. -/
theorem loweredThreshold_of_fits (h : ¬ a.usage > target) (hlong : a.t_threshold < 2 ^ 64) :
    a.loweredThreshold = FloorSqrt.floorMulSqrt a.t_threshold (a.usage * target) :=
  toULong_of_lt <|
    (FloorSqrt.floorMulSqrt_le _ (usage_mul_target_le_one h)).trans_lt hlong

/-- With the square roots truncated, as the code and the comment have them: an integer from 2 on
lies between the two products. -/
theorem understated_iff (a : Analyzer) :
    a.Understated ↔ ∃ k, 2 ≤ k ∧
      FloorSqrt.floorMulSqrt a.t_threshold (a.usage * target) < k ∧
      k ≤ FloorSqrt.floorMulSqrt a.t_threshold (a.usage / target) := by
  have husage := a.usage_nonneg
  have hmul : 0 ≤ a.usage * target := by unfold target; positivity
  have hdiv : 0 ≤ a.usage / target := by unfold target; positivity
  refine exists_congr fun k => and_congr_right fun _ => ?_
  rw [← Nat.not_le, FloorSqrt.le_floorMulSqrt hmul, FloorSqrt.le_floorMulSqrt hdiv, not_le]

/-- Both products are at most the threshold, so of the clamps only the lower one matters. -/
theorem lowered_eq_iff (h : ¬ a.usage > target) (hone : 1 ≤ a.t_threshold)
    (hfirst : a.t_threshold ≤ a.first_t_threshold) (hlong : a.t_threshold < 2 ^ 64) :
    clampThreshold a.first_t_threshold a.loweredThreshold =
        clampThreshold a.first_t_threshold
          (FloorSqrt.floorMulSqrt a.t_threshold (a.usage / target)) ↔
      ¬ a.Understated := by
  -- neither value is above the threshold, so neither meets the upper clamp
  have hspec : FloorSqrt.floorMulSqrt a.t_threshold (a.usage / target) ≤ a.t_threshold := by
    apply FloorSqrt.floorMulSqrt_le
    unfold target at h ⊢
    linarith
  have hle : a.loweredThreshold ≤ FloorSqrt.floorMulSqrt a.t_threshold (a.usage / target) :=
    (toULong_le _).trans (FloorSqrt.floorMulSqrt_mono (usage_mul_target_le a))
  rw [understated_iff, ← loweredThreshold_of_fits h hlong,
    clampThreshold_of_le ((loweredThreshold_le h).trans hfirst) (hone.trans hfirst),
    clampThreshold_of_le (hspec.trans hfirst) (hone.trans hfirst)]
  constructor
  · -- equal values leave no integer between them
    rintro heq ⟨k, hk, hlt, hle'⟩
    omega
  · intro hno
    by_contra hne
    -- the specified value is itself such an integer
    exact hno ⟨_, by omega, by omega, Nat.le_refl _⟩

end Lower

/-- What the law gives for a product of 65 bits or more is the first threshold, the code's threshold
is 1 then. -/
theorem raised_eq_iff {a : Analyzer} (hraise : a.usage > target) (hone : 1 ≤ a.t_threshold)
    (hfirst : a.t_threshold ≤ a.first_t_threshold) (hlong : a.first_t_threshold < 2 ^ 64) :
    clampThreshold a.first_t_threshold a.raisedThreshold =
        clampThreshold a.first_t_threshold ⌊a.t_threshold * (a.usage / target) ^ adjustUp⌋₊ ↔
      ¬ a.Overflows ∨ a.first_t_threshold = 1 := by
  by_cases hover : a.Overflows
  · -- the law is above the cap there, so it asks for the first threshold
    have hlaw : 2 ^ 64 ≤ ⌊(a.t_threshold : ℚ) * (a.usage / target) ^ adjustUp⌋₊ := by
      refine Nat.le_floor ?_
      exact_mod_cast hover.2
    have hcapped : clampThreshold a.first_t_threshold
        ⌊(a.t_threshold : ℚ) * (a.usage / target) ^ adjustUp⌋₊ = a.first_t_threshold :=
      Nat.le_antisymm (clampThreshold_le _ _)
        (le_clampThreshold (hlong.le.trans hlaw) (Nat.le_refl _))
    -- and the code, with nothing stored, goes to 1
    rw [hcapped, raisedThreshold_of_overflows hover, clampThreshold_zero (hone.trans hfirst)]
    simp only [hover, not_true, false_or]
    exact eq_comm
  · rw [raisedThreshold_of_fits hraise hover]
    exact iff_of_true rfl (Or.inl hover)

/-- **The control law.** For a threshold between 1 and the first one, which is an `unsigned long`,
and a usage above zero, the new threshold is the one the comment asks for iff one of these holds:
the usage is above the target, and the product fits into 64 bits or the first threshold is 1; the
usage is not above the target, and fewer than three intervals have passed without a change, or no
square of an integer from 2 on lies above `0.9 * usage * t^2` and not above `usage * t^2 / 0.9`. -/
theorem update_thresholds_eq_adaptThreshold_iff (a : Analyzer) (hone : 1 ≤ a.t_threshold)
    (hfirst : a.t_threshold ≤ a.first_t_threshold) (hlong : a.first_t_threshold < 2 ^ 64) :
    a.update_thresholds.t_threshold = a.adaptThreshold ↔
      (a.usage > target ∧ (¬ a.Overflows ∨ a.first_t_threshold = 1)) ∨
        (¬ a.usage > target ∧ (a.noVarIntervals < 3 ∨ ¬ a.Understated)) := by
  unfold adaptThreshold
  rcases a.update_thresholds_cases with
    ⟨hraise, heq⟩ | ⟨hraise, hquiet, heq⟩ | ⟨hraise, hquiet, heq⟩
  · -- the three branches of the source, as in the comment's law
    rw [heq, if_pos hraise, raised_eq_iff hraise hone hfirst hlong]
    simp only [hraise, not_true, true_and, false_and, or_false]
  · rw [heq, if_neg hraise, if_pos hquiet,
      lowered_eq_iff hraise hone hfirst (hfirst.trans_lt hlong)]
    have hnot : ¬ a.noVarIntervals < 3 := UInt32.not_lt.mpr hquiet
    simp only [hraise, hnot, not_false_eq_true, true_and, false_and, false_or]
  · rw [heq, if_neg hraise, if_neg hquiet]
    exact iff_of_true rfl (Or.inr ⟨hraise, Or.inl (UInt32.not_le.mp hquiet)⟩)

/-- The fourth call of an analyzer that finds one entry of 1201 used. -/
def lowering : Analyzer := { new worker1000 with entriesUsedAVG := 1, noVarIntervals := 3 }

/-- The threshold falls from 1000 to 27, where the comment asks for 30. -/
theorem adaptThreshold_fails :
    ¬ ∀ a : Analyzer, 1 ≤ a.t_threshold → a.t_threshold ≤ a.first_t_threshold → 0 < a.usage →
      a.update_thresholds.t_threshold = a.adaptThreshold := by
  intro hall
  have heq := hall lowering (by decide) (by decide) (by decide +kernel)
  have hcode : lowering.update_thresholds.t_threshold = 27 := by decide +kernel
  have hlaw : lowering.adaptThreshold = 30 := by decide +kernel
  rw [hcode, hlaw] at heq
  cases heq

theorem update_thresholds_eq_adaptThreshold_iff_lowering :
    lowering.update_thresholds.t_threshold = lowering.adaptThreshold ↔
      (lowering.usage > target ∧ (¬ lowering.Overflows ∨ lowering.first_t_threshold = 1)) ∨
        (¬ lowering.usage > target ∧ (lowering.noVarIntervals < 3 ∨ ¬ lowering.Understated)) :=
  update_thresholds_eq_adaptThreshold_iff lowering (by decide) (by decide) (by decide)

end Analyzer

end FHF
