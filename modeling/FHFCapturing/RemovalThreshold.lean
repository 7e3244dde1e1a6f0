import FHFCapturing.Adaptation
import Mathlib.Algebra.Order.Floor.Semifield

/-!
# The early-removal threshold over time

`Analyzer.h` describes `r_threshold` as `t_threshold * r_mul`. The constructor computes it so, and
so does a call of `update_thresholds` that lowers the threshold; a call that raises it leaves
`r_threshold` as it was. The two are still in step, for `r_mul` is a fifth and the product is
truncated, unless the raised threshold has reached the next multiple of 5 (`Outgrows`), or the
product has overflowed and the threshold has fallen from 5 or more to 1 (`Collapses`). Along a run
of calls the relation holds throughout exactly when no call does either (`r_threshold_tracks_iff`).
-/

namespace FHF

namespace Analyzer

/-- `r_threshold` is the truncation of `r_mul * t_threshold`. -/
def Tracks (a : Analyzer) : Prop := a.r_threshold = ⌊a.t_threshold * r_mul⌋₊

instance (a : Analyzer) : Decidable a.Tracks := inferInstanceAs (Decidable (_ = _))

/-- The usage is above the target, and a multiple of 5 above the threshold is neither above the
first threshold nor above the threshold times `(usage / target)^3`, a product that fits. -/
def Outgrows (a : Analyzer) : Prop :=
  a.usage > target ∧ ¬ a.Overflows ∧ ∃ k : Nat,
    a.t_threshold < 5 * k ∧ 5 * k ≤ a.first_t_threshold ∧
      ((5 * k : Nat) : ℚ) ≤ a.t_threshold * (a.usage / target) ^ 3

/-- The product does not fit, and the threshold that is lost was at least 5. -/
def Collapses (a : Analyzer) : Prop := a.Overflows ∧ 5 ≤ a.t_threshold

/-! ## One call -/

/-- A fifth, rounded down. -/
theorem floor_r_mul (t : Nat) : ⌊t * r_mul⌋₊ = t / 5 := by
  rw [← Nat.floor_div_eq_div (K := ℚ) t 5]
  unfold r_mul
  rw [show (t : ℚ) * (1 / 5) = (t : ℚ) / (5 : Nat) by push_cast; ring]

theorem tracks_iff (a : Analyzer) : a.Tracks ↔ a.r_threshold = a.t_threshold / 5 := by
  unfold Tracks
  rw [floor_r_mul]

/-- The fifths of two numbers differ when a multiple of 5 lies between them. -/
theorem div_five_ne_iff {t t' : Nat} (hle : t ≤ t') :
    t / 5 ≠ t' / 5 ↔ ∃ k, t < 5 * k ∧ 5 * k ≤ t' := by
  constructor
  · intro hne
    exact ⟨t' / 5, by omega, by omega⟩
  · rintro ⟨k, hlt, hle'⟩
    omega

/-- Clamping raises a threshold to 1 at most. -/
theorem clampThreshold_le_max (first t : Nat) : clampThreshold first t ≤ max 1 t := by
  unfold clampThreshold
  dsimp only
  split_ifs <;> omega

section Call

variable {a : Analyzer}

/-- Which numbers from 2 on the raised and clamped threshold reaches. -/
theorem le_clamped_raised_iff (hraise : a.usage > target) (hfits : ¬ a.Overflows) {n : Nat}
    (hn : 2 ≤ n) :
    n ≤ clampThreshold a.first_t_threshold a.raisedThreshold ↔
      n ≤ a.first_t_threshold ∧ (n : ℚ) ≤ a.t_threshold * (a.usage / target) ^ 3 := by
  -- the code rounds the product down, and `n` is an integer
  have hfloor : n ≤ a.raisedThreshold ↔
      (n : ℚ) ≤ a.t_threshold * (a.usage / target) ^ 3 := by
    rw [raisedThreshold_of_fits hraise hfits]
    exact Nat.le_floor_iff a.raise_product_nonneg
  rw [← hfloor]
  constructor
  · intro hle
    -- a threshold of 2 or more is not the one that the lower clamp gives
    have hmax := clampThreshold_le_max a.first_t_threshold a.raisedThreshold
    exact ⟨hle.trans (clampThreshold_le _ _), by omega⟩
  · -- below both bounds, so below the least of them
    rintro ⟨hfirst, hraised⟩
    exact le_clampThreshold hraised hfirst

/-- A call that raises the threshold and leaves `r_threshold`. -/
theorem tracks_of_raise_iff (h : a.Tracks) (hfirst : a.t_threshold ≤ a.first_t_threshold)
    (hraise : a.usage > target) (hfits : ¬ a.Overflows) :
    a.update_thresholds.Tracks ↔ ¬ a.Outgrows := by
  -- a raise that fits does not lower the threshold
  have hle : a.t_threshold ≤ clampThreshold a.first_t_threshold a.raisedThreshold :=
    le_clampThreshold (le_raisedThreshold hraise hfits) hfirst
  rw [tracks_iff] at h ⊢
  rw [update_thresholds_of_raise hraise]
  dsimp only
  rw [h, ← not_iff_not, not_not]
  -- a fifth changes when a multiple of 5 is passed
  refine (div_five_ne_iff hle).trans ?_
  unfold Outgrows
  rw [and_iff_right hraise, and_iff_right hfits]
  refine exists_congr fun k => and_congr_right fun hlt => ?_
  exact le_clamped_raised_iff hraise hfits (by omega)

/-- A call that should raise it and lets it fall to 1. -/
theorem tracks_of_overflows_iff (h : a.Tracks) (hfirst : a.t_threshold ≤ a.first_t_threshold)
    (hover : a.Overflows) : a.update_thresholds.Tracks ↔ ¬ a.Collapses := by
  -- a product that does not fit is not 0
  have hpos : 1 ≤ a.t_threshold := by
    by_contra hzero
    have hlarge := hover.2
    rw [show a.t_threshold = 0 by omega, Nat.cast_zero, zero_mul] at hlarge
    norm_num at hlarge
  have hone := update_thresholds_of_overflows hover (hpos.trans hfirst)
  have hr : a.update_thresholds.r_threshold = a.r_threshold := by
    rw [update_thresholds_of_raise hover.1]
  rw [tracks_iff] at h ⊢
  rw [hone, hr, h]
  unfold Collapses
  rw [and_iff_right hover]
  omega

/-- A call keeps the relation unless the threshold outgrows it or collapses. -/
theorem tracks_update_thresholds_iff (h : a.Tracks)
    (hfirst : a.t_threshold ≤ a.first_t_threshold) :
    a.update_thresholds.Tracks ↔ ¬ a.Outgrows ∧ ¬ a.Collapses := by
  rcases a.update_thresholds_cases with ⟨hraise, -⟩ | ⟨hraise, -, heq⟩ | ⟨hraise, -, heq⟩
  · by_cases hover : a.Overflows
    · rw [tracks_of_overflows_iff h hfirst hover]
      exact (and_iff_right fun hout => hout.2.1 hover).symm
    · rw [tracks_of_raise_iff h hfirst hraise hover]
      exact (and_iff_left fun hcol => hover hcol.1).symm
  · -- `r_threshold` is computed again
    have htracks : a.update_thresholds.Tracks := by
      rw [heq]
      rfl
    exact iff_of_true htracks ⟨fun hout => hraise hout.1, fun hcol => hraise hcol.1.1⟩
  · have htracks : a.update_thresholds.Tracks := by
      rw [heq]
      exact h
    exact iff_of_true htracks ⟨fun hout => hraise hout.1, fun hcol => hraise hcol.1.1⟩

/-- An adaptation leaves the threshold at or below the first one. -/
theorem update_thresholds_le_first (h : a.t_threshold ≤ a.first_t_threshold) :
    a.update_thresholds.t_threshold ≤ a.first_t_threshold := by
  rcases a.update_thresholds_cases with ⟨-, heq⟩ | ⟨-, -, heq⟩ | ⟨-, -, heq⟩
  · rw [heq]
    exact clampThreshold_le _ _
  · rw [heq]
    exact clampThreshold_le _ _
  · rw [heq]
    exact h

end Call

/-! ## Runs of calls -/

theorem t_threshold_le_first (w : Worker) (used : Nat → UInt32) (k : Nat) :
    ((new w).afterCalls used k).t_threshold ≤ ((new w).afterCalls used k).first_t_threshold := by
  induction k with
  | zero => exact Nat.le_refl _
  | succ k ih =>
    rw [afterCalls_succ, (update_thresholds_old _).2.2]
    exact update_thresholds_le_first ih

/-- **The early-removal threshold follows the threshold.** For any worker, averages and number of
calls: `r_threshold` is the truncation of `r_mul * t_threshold` after construction and after each
of the calls iff in none of the calls the threshold outgrows it or collapses. -/
theorem r_threshold_tracks_iff (w : Worker) (used : Nat → UInt32) (n : Nat) :
    (∀ k ≤ n, ((new w).afterCalls used k).r_threshold =
        ⌊((new w).afterCalls used k).t_threshold * r_mul⌋₊) ↔
      ∀ k < n, ¬ ((new w).atCall used k).Outgrows ∧ ¬ ((new w).atCall used k).Collapses := by
  have hcall : ∀ k, ((new w).afterCalls used k).Tracks →
      (((new w).afterCalls used (k + 1)).Tracks ↔
        ¬ ((new w).atCall used k).Outgrows ∧ ¬ ((new w).atCall used k).Collapses) :=
    fun k htracks => tracks_update_thresholds_iff (a := (new w).atCall used k) htracks
      (t_threshold_le_first w used k)
  constructor
  · intro hall k hk
    exact (hcall k (hall k (by omega))).mp (hall (k + 1) (by omega))
  · intro hcalls k hk
    -- induction on the calls made so far
    induction k with
    | zero => rfl
    | succ k ih => exact (hcall k (ih (by omega))).mpr (hcalls k (by omega))

/-- Four quiet calls, and then one with the table full. -/
def fillsUp (k : Nat) : UInt32 := if k < 4 then 1 else 1201

/-- The fourth call lowers the thresholds to 27 and 5; the fifth raises the first to 37. -/
theorem r_threshold_tracks_fails :
    ¬ ∀ (w : Worker) (used : Nat → UInt32) (k : Nat),
      ((new w).afterCalls used k).r_threshold =
        ⌊((new w).afterCalls used k).t_threshold * r_mul⌋₊ := by
  intro hall
  have heq := hall worker1000 fillsUp 5
  rw [show ((new worker1000).afterCalls fillsUp 5).r_threshold = 5 by decide +kernel,
    show ((new worker1000).afterCalls fillsUp 5).t_threshold = 37 by decide +kernel,
    floor_r_mul] at heq
  omega

end Analyzer

end FHF
