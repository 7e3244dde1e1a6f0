import FHFCapturing.Analyzer

/-!
# The adaptation of the thresholds over time

`update_thresholds` is called once an interval, with whatever average number of entries the last
intervals give. Along every such run the threshold stays between 1 and the first one
(`thresholds_bounded`): raising multiplies by more than one and lowering by less, so the two
clamps only ever correct the end they are for, as long as the product of a raise fits into the 64
bits that it is assigned to. One that does not (`Overflows`) is stored as 0, which the first clamp
makes 1: the call that should raise the threshold lets it fall to the bottom.

The counter `noVarIntervals` counts the calls just made that found no reason to raise and changed
nothing (`Quiet`). A lowering needs three of them, and resets it, as a raising does; so the
threshold cannot fall early, nor twice within four calls, unless a product overflows
(`falls_after_three_quiet_calls_iff`).
-/

namespace FHF

namespace Analyzer

/-! ## One call -/

section Call

variable {a : Analyzer}

/-- The product of a raise does not fit into the `unsigned long` it is assigned to. -/
def Overflows (a : Analyzer) : Prop :=
  a.usage > target ∧ 2 ^ 64 ≤ (a.t_threshold : ℚ) * (a.usage / target) ^ adjustUp

instance (a : Analyzer) : Decidable a.Overflows := inferInstanceAs (Decidable (_ ∧ _))

/-- The product of a raise is not negative, so its truncation is a natural number. -/
theorem raise_product_nonneg (a : Analyzer) :
    0 ≤ (a.t_threshold : ℚ) * (a.usage / target) ^ adjustUp := by
  have := a.usage_nonneg
  unfold target
  positivity

/-- A product that fits is the raised threshold, truncated. -/
theorem raisedThreshold_of_fits (hraise : a.usage > target) (hfits : ¬ a.Overflows) :
    a.raisedThreshold = ⌊(a.t_threshold : ℚ) * (a.usage / target) ^ adjustUp⌋₊ := by
  refine toULong_of_lt ((Nat.floor_lt a.raise_product_nonneg).mpr ?_)
  have hlt := not_le.mp fun hle => hfits ⟨hraise, hle⟩
  exact_mod_cast hlt

/-- One that does not fit is lost. -/
theorem raisedThreshold_of_overflows (h : a.Overflows) : a.raisedThreshold = 0 := by
  refine toULong_of_le (Nat.le_floor ?_)
  exact_mod_cast h.2

/-- A raise that overflows leaves the threshold at 1. -/
theorem update_thresholds_of_overflows (h : a.Overflows) (hfirst : 1 ≤ a.first_t_threshold) :
    a.update_thresholds.t_threshold = 1 := by
  rw [update_thresholds_of_raise h.1]
  dsimp only
  rw [raisedThreshold_of_overflows h, clampThreshold_zero hfirst]

/-- Above the target usage the factor is more than one. -/
theorem le_raisedThreshold (h : a.usage > target) (hfits : ¬ a.Overflows) :
    a.t_threshold ≤ a.raisedThreshold := by
  have hone : 1 ≤ a.usage / target := (one_le_div₀ (by norm_num [target])).mpr h.le
  rw [raisedThreshold_of_fits h hfits]
  apply Nat.le_floor
  exact le_mul_of_one_le_right (Nat.cast_nonneg _) (one_le_pow₀ hone)

/-- Up to the target usage the factor is less than one. -/
theorem usage_mul_target_le_one (h : ¬ a.usage > target) : a.usage * target ≤ 1 := by
  have husage := a.usage_nonneg
  unfold target at h ⊢
  linarith

/-- While the usage is not above the target, the multiple of a lowering is at most the threshold. -/
theorem loweredThreshold_le (h : ¬ a.usage > target) : a.loweredThreshold ≤ a.t_threshold :=
  (toULong_le _).trans (FloorSqrt.floorMulSqrt_le _ (usage_mul_target_le_one h))

/-- The thresholds between two calls. -/
structure Bounded (a : Analyzer) : Prop where
  one_le : 1 ≤ a.t_threshold
  le_first : a.t_threshold ≤ a.first_t_threshold
  filter_eq : a.filter_threshold = a.t_threshold

/-- A call above the target usage does not lower the threshold. -/
theorem Bounded.le_of_raise (h : a.Bounded) (hraise : a.usage > target)
    (hfits : ¬ a.Overflows) : a.t_threshold ≤ a.update_thresholds.t_threshold := by
  rw [update_thresholds_of_raise hraise]
  exact le_clampThreshold (le_raisedThreshold hraise hfits) h.le_first

/-- A call up to the target usage does not raise it. -/
theorem Bounded.le_of_not_raise (h : a.Bounded) (hraise : ¬ a.usage > target) :
    a.update_thresholds.t_threshold ≤ a.t_threshold := by
  by_cases hquiet : 3 ≤ a.noVarIntervals
  · have hlow := loweredThreshold_le hraise
    have hone := h.one_le
    rw [update_thresholds_of_lower hraise hquiet]
    dsimp only
    rw [clampThreshold_of_le (hlow.trans h.le_first) (hone.trans h.le_first)]
    omega
  · rw [update_thresholds_of_wait hraise hquiet]

/-- Whatever the usage, and also on an overflow. -/
theorem Bounded.update_thresholds (h : a.Bounded) : a.update_thresholds.Bounded := by
  have hone := h.one_le.trans h.le_first
  rcases a.update_thresholds_cases with ⟨-, heq⟩ | ⟨-, -, heq⟩ | ⟨-, -, heq⟩
  · rw [heq]
    exact ⟨one_le_clampThreshold hone _, clampThreshold_le _ _, rfl⟩
  · rw [heq]
    exact ⟨one_le_clampThreshold hone _, clampThreshold_le _ _, rfl⟩
  · rw [heq]
    exact ⟨h.one_le, h.le_first, rfl⟩

/-- The early-removal threshold is not above the threshold after a call that does not overflow. -/
theorem Bounded.r_le_update_thresholds (h : a.Bounded) (hr : a.r_threshold ≤ a.t_threshold)
    (hfits : ¬ a.Overflows) :
    a.update_thresholds.r_threshold ≤ a.update_thresholds.t_threshold := by
  rcases a.update_thresholds_cases with ⟨hraise, heq⟩ | ⟨-, -, heq⟩ | ⟨-, -, heq⟩
  · -- it stays, and the threshold does not fall below it
    have hle := h.le_of_raise hraise hfits
    rw [heq] at hle ⊢
    exact hr.trans hle
  · -- both are computed again
    rw [heq]
    exact floor_r_mul_le _
  · rw [heq]
    exact hr

end Call

/-! ## Runs of calls -/

/-- The analyzer after the first calls, when call `k` finds the average `used k`. -/
def afterCalls (a : Analyzer) (used : Nat → UInt32) : Nat → Analyzer
  | 0 => a
  | k + 1 => { afterCalls a used k with entriesUsedAVG := used k }.update_thresholds

/-- The analyzer as call `k` gets it. -/
def atCall (a : Analyzer) (used : Nat → UInt32) (k : Nat) : Analyzer :=
  { afterCalls a used k with entriesUsedAVG := used k }

/-- One call more is a call of `update_thresholds` with the next average. -/
theorem afterCalls_succ (a : Analyzer) (used : Nat → UInt32) (k : Nat) :
    a.afterCalls used (k + 1) = (a.atCall used k).update_thresholds := rfl

@[simp] theorem atCall_noVarIntervals (a : Analyzer) (used : Nat → UInt32) (k : Nat) :
    (a.atCall used k).noVarIntervals = (a.afterCalls used k).noVarIntervals := rfl

/-- Setting the average, as the analysis does before it calls, leaves the thresholds bounded. -/
theorem bounded_atCall {a : Analyzer} {used : Nat → UInt32} {k : Nat}
    (h : (a.afterCalls used k).Bounded) : (a.atCall used k).Bounded :=
  ⟨h.one_le, h.le_first, h.filter_eq⟩

/-- The constructor takes both thresholds from the worker, so a first threshold of at least 1 is
enough. -/
theorem bounded_new {w : Worker} (hw : 1 ≤ w.getThreshold.toNat) : (new w).Bounded where
  one_le := hw
  le_first := Nat.le_refl _
  filter_eq := rfl

theorem first_t_threshold_afterCalls (a : Analyzer) (used : Nat → UInt32) (k : Nat) :
    (a.afterCalls used k).first_t_threshold = a.first_t_threshold := by
  induction k with
  | zero => rfl
  | succ k ih =>
    rw [afterCalls_succ, (update_thresholds_old _).2.2]
    exact ih

/-- The bounds hold after any number of calls: induction on it. -/
theorem Bounded.afterCalls {a : Analyzer} (h : a.Bounded) (used : Nat → UInt32) (k : Nat) :
    (a.afterCalls used k).Bounded := by
  induction k with
  | zero => exact h
  | succ k ih => exact (bounded_atCall ih).update_thresholds

/-- Induction on the calls, none of which overflows. -/
theorem r_threshold_afterCalls_le {a : Analyzer} (h : a.Bounded)
    (hr : a.r_threshold ≤ a.t_threshold) {used : Nat → UInt32} {k : Nat}
    (hfits : ∀ j < k, ¬ (a.atCall used j).Overflows) :
    (a.afterCalls used k).r_threshold ≤ (a.afterCalls used k).t_threshold := by
  induction k with
  | zero => exact hr
  | succ k ih =>
    have hbefore := ih fun j hj => hfits j (by omega)
    exact (bounded_atCall (h.afterCalls used k)).r_le_update_thresholds hbefore
      (hfits k (by omega))

/-- **Threshold bounds.** For a first threshold of at least 1 and any averages: after any number of
calls the threshold is between 1 and the first one, and the filters get the threshold. As long as no
product has overflowed, the early-removal threshold is not above it. -/
theorem thresholds_bounded (w : Worker) (hw : 1 ≤ w.getThreshold.toNat) (used : Nat → UInt32)
    (k : Nat) :
    1 ≤ ((new w).afterCalls used k).t_threshold ∧
      ((new w).afterCalls used k).t_threshold ≤ w.getThreshold.toNat ∧
      ((new w).afterCalls used k).first_t_threshold = w.getThreshold.toNat ∧
      ((new w).afterCalls used k).filter_threshold = ((new w).afterCalls used k).t_threshold ∧
      ((∀ j < k, ¬ ((new w).atCall used j).Overflows) →
        ((new w).afterCalls used k).r_threshold ≤ ((new w).afterCalls used k).t_threshold) := by
  have hfirst := first_t_threshold_afterCalls (new w) used k
  obtain ⟨hone, hle, hfilter⟩ := (bounded_new hw).afterCalls used k
  exact ⟨hone, hle.trans_eq hfirst, hfirst, hfilter, fun hfits =>
    r_threshold_afterCalls_le (bounded_new hw) (floor_r_mul_le _) hfits⟩

/-- A worker with the threshold 1000. -/
def worker1000 : Worker :=
  .new 1201 [StageContainer.zeroHash] StageContainer.single_ne_nil 1000

/-- Five calls that find one entry used. -/
theorem thresholds_bounded_worker1000 :
    1 ≤ ((new worker1000).afterCalls (fun _ => 1) 5).t_threshold ∧
      ((new worker1000).afterCalls (fun _ => 1) 5).t_threshold ≤ worker1000.getThreshold.toNat ∧
      ((new worker1000).afterCalls (fun _ => 1) 5).first_t_threshold =
        worker1000.getThreshold.toNat ∧
      ((new worker1000).afterCalls (fun _ => 1) 5).filter_threshold =
        ((new worker1000).afterCalls (fun _ => 1) 5).t_threshold ∧
      ((∀ j < 5, ¬ ((new worker1000).atCall (fun _ => 1) j).Overflows) →
        ((new worker1000).afterCalls (fun _ => 1) 5).r_threshold ≤
          ((new worker1000).afterCalls (fun _ => 1) 5).t_threshold) :=
  thresholds_bounded worker1000 (by decide) (fun _ => 1) 5

/-! ## Hysteresis -/

/-- Call `k` lowers the threshold. -/
def Falls (a : Analyzer) (used : Nat → UInt32) (k : Nat) : Prop :=
  (a.afterCalls used (k + 1)).t_threshold < (a.afterCalls used k).t_threshold

/-- Call `k` raises the threshold. -/
def Rises (a : Analyzer) (used : Nat → UInt32) (k : Nat) : Prop :=
  (a.afterCalls used k).t_threshold < (a.afterCalls used (k + 1)).t_threshold

/-- Call `k` finds no usage above the target and leaves the threshold as it is. -/
def Quiet (a : Analyzer) (used : Nat → UInt32) (k : Nat) : Prop :=
  (a.atCall used k).usage ≤ target ∧
    (a.afterCalls used (k + 1)).t_threshold = (a.afterCalls used k).t_threshold

section Hysteresis

variable {a : Analyzer} {used : Nat → UInt32} {k : Nat}

/-- What `noVarIntervals` counts: up to three quiet calls just made. -/
structure CountsQuiet (a : Analyzer) (used : Nat → UInt32) (k : Nat) : Prop where
  le_three : (a.afterCalls used k).noVarIntervals.toNat ≤ 3
  le_calls : (a.afterCalls used k).noVarIntervals.toNat ≤ k
  quiet : ∀ j, k - (a.afterCalls used k).noVarIntervals.toNat ≤ j → j < k → a.Quiet used j

theorem countsQuiet_of_zero (h : (a.afterCalls used k).noVarIntervals = 0) :
    CountsQuiet a used k := by
  have hzero : (a.afterCalls used k).noVarIntervals.toNat = 0 := by
    rw [h]
    rfl
  exact ⟨by omega, by omega, fun j hj hlt => by omega⟩

/-- A call that waits is quiet, and counted. -/
theorem CountsQuiet.succ_of_wait (h : CountsQuiet a used k)
    (hraise : ¬ (a.atCall used k).usage > target)
    (hquiet : ¬ 3 ≤ (a.atCall used k).noVarIntervals) : CountsQuiet a used (k + 1) := by
  have hlt : (a.afterCalls used k).noVarIntervals.toNat < 3 := by
    rw [UInt32.le_iff_toNat_le] at hquiet
    exact Nat.lt_of_not_le hquiet
  -- three is not reached, so counting one more does not wrap
  have hcount : (a.afterCalls used (k + 1)).noVarIntervals.toNat =
      (a.afterCalls used k).noVarIntervals.toNat + 1 := by
    rw [afterCalls_succ, update_thresholds_of_wait hraise hquiet]
    dsimp only
    rw [atCall_noVarIntervals, UInt32.toNat_add, UInt32.toNat_one]
    exact Nat.mod_eq_of_lt (by omega)
  have hthis : a.Quiet used k := by
    refine ⟨not_lt.mp hraise, ?_⟩
    rw [afterCalls_succ, update_thresholds_of_wait hraise hquiet]
    rfl
  have hle := h.le_calls
  refine ⟨by omega, by omega, fun j hj hlt' => ?_⟩
  -- this call, or one that was counted already
  by_cases hk : j = k
  · exact hk ▸ hthis
  · exact h.quiet j (by omega) (by omega)

/-- Any other call starts the count again. -/
theorem CountsQuiet.succ (h : CountsQuiet a used k) : CountsQuiet a used (k + 1) := by
  rcases (a.atCall used k).update_thresholds_cases with
    ⟨-, heq⟩ | ⟨-, -, heq⟩ | ⟨hraise, hquiet, -⟩
  · apply countsQuiet_of_zero
    rw [afterCalls_succ, heq]
  · apply countsQuiet_of_zero
    rw [afterCalls_succ, heq]
  · exact h.succ_of_wait hraise hquiet

/-- From construction on the counter says how many of the calls just made were quiet, up to
three. -/
theorem countsQuiet_new (w : Worker) (used : Nat → UInt32) (k : Nat) :
    CountsQuiet (new w) used k := by
  induction k with
  | zero => exact countsQuiet_of_zero rfl
  | succ k ih => exact ih.succ

/-- Only a raise takes the threshold up. -/
theorem usage_of_rises (hb : (a.afterCalls used k).Bounded) (h : a.Rises used k) :
    target < (a.atCall used k).usage := by
  by_contra hraise
  have hle := (bounded_atCall hb).le_of_not_raise hraise
  rw [← afterCalls_succ] at hle
  exact absurd h (Nat.not_lt.mpr hle)

/-- Without an overflow, only a call that lowers lets the threshold fall, and it comes after three
quiet ones. -/
theorem quiet_of_falls (hb : (a.afterCalls used k).Bounded) (hq : CountsQuiet a used k)
    (hfits : ¬ (a.atCall used k).Overflows) (h : a.Falls used k) :
    (a.atCall used k).usage ≤ target ∧ 3 ≤ k ∧ ∀ j, k ≤ j + 3 → j < k → a.Quiet used j := by
  -- without an overflow a raise never ends below where it started
  have hraise : ¬ (a.atCall used k).usage > target := by
    intro hraise
    have hle := (bounded_atCall hb).le_of_raise hraise hfits
    rw [← afterCalls_succ] at hle
    exact absurd h (Nat.not_lt.mpr hle)
  -- and a call that only waits keeps the threshold
  have hthree : 3 ≤ (a.afterCalls used k).noVarIntervals.toNat := by
    by_contra hlt
    have hquiet : ¬ 3 ≤ (a.atCall used k).noVarIntervals := by
      rwa [UInt32.le_iff_toNat_le]
    unfold Falls at h
    rw [afterCalls_succ, update_thresholds_of_wait hraise hquiet] at h
    exact lt_irrefl _ h
  have hle := hq.le_three
  have hcalls := hq.le_calls
  exact ⟨not_lt.mp hraise, by omega, fun j hj hlt => hq.quiet j (by omega) hlt⟩

/-- A call that overflows lets the threshold fall to 1, unless it is there already. -/
theorem falls_of_overflows_iff (hb : (a.afterCalls used k).Bounded)
    (h : (a.atCall used k).Overflows) :
    a.Falls used k ↔ (a.afterCalls used k).t_threshold ≠ 1 := by
  have hone : (a.afterCalls used (k + 1)).t_threshold = 1 := by
    rw [afterCalls_succ]
    exact update_thresholds_of_overflows h (hb.one_le.trans hb.le_first)
  have hle := hb.one_le
  unfold Falls
  omega

end Hysteresis

/-- **Hysteresis.** For a first threshold of at least 1 and any averages, among the first `n` calls:
a call that raises the threshold finds the usage above the target; a call that lowers it does not,
and comes right after three calls that found the same and left the threshold as it was, so that
there is no fall in the first three calls and two falls are at least four calls apart. All this
holds iff no product overflows with the threshold above 1. -/
theorem falls_after_three_quiet_calls_iff (w : Worker) (hw : 1 ≤ w.getThreshold.toNat)
    (used : Nat → UInt32) (n : Nat) :
    ((∀ k < n, (new w).Rises used k → target < ((new w).atCall used k).usage) ∧
      (∀ k < n, (new w).Falls used k → ((new w).atCall used k).usage ≤ target ∧ 3 ≤ k ∧
        ∀ j, k ≤ j + 3 → j < k → (new w).Quiet used j) ∧
      ∀ i j, j < n → (new w).Falls used i → (new w).Falls used j → i < j → i + 4 ≤ j) ↔
    ∀ k < n, ((new w).atCall used k).Overflows →
      ((new w).afterCalls used k).t_threshold = 1 := by
  have hb := (bounded_new hw).afterCalls used
  constructor
  · -- a fall by an overflow comes with a usage above the target
    rintro ⟨-, hfalls, -⟩ k hk hover
    by_contra hne
    have hle := (hfalls k hk ((falls_of_overflows_iff (hb k) hover).mpr hne)).1
    exact absurd hover.1 (not_lt.mpr hle)
  · intro hone
    have hfalls : ∀ k < n, (new w).Falls used k → ((new w).atCall used k).usage ≤ target ∧
        3 ≤ k ∧ ∀ j, k ≤ j + 3 → j < k → (new w).Quiet used j := by
      intro k hk h
      refine quiet_of_falls (hb k) (countsQuiet_new w used k) (fun hover => ?_) h
      exact (falls_of_overflows_iff (hb k) hover).mp h (hone k hk hover)
    refine ⟨fun k _ h => usage_of_rises (hb k) h, hfalls, fun i j hjn hi hj hlt => ?_⟩
    -- a call that falls is not quiet, so it is not one of the three before another that falls
    by_contra hclose
    obtain ⟨-, -, hquiet⟩ := hfalls j hjn hj
    have hstay := (hquiet i (by omega) hlt).2
    unfold Falls at hi
    rw [hstay] at hi
    exact lt_irrefl _ hi

theorem falls_after_three_quiet_calls_iff_worker1000 :
    ((∀ k < 8, (new worker1000).Rises (fun _ => 1) k →
        target < ((new worker1000).atCall (fun _ => 1) k).usage) ∧
      (∀ k < 8, (new worker1000).Falls (fun _ => 1) k →
        ((new worker1000).atCall (fun _ => 1) k).usage ≤ target ∧ 3 ≤ k ∧
          ∀ j, k ≤ j + 3 → j < k → (new worker1000).Quiet (fun _ => 1) j) ∧
      ∀ i j, j < 8 → (new worker1000).Falls (fun _ => 1) i →
        (new worker1000).Falls (fun _ => 1) j → i < j → i + 4 ≤ j) ↔
    ∀ k < 8, ((new worker1000).atCall (fun _ => 1) k).Overflows →
      ((new worker1000).afterCalls (fun _ => 1) k).t_threshold = 1 :=
  falls_after_three_quiet_calls_iff worker1000 (by decide) (fun _ => 1) 8

/-- A worker with the largest threshold. -/
def workerMax : Worker :=
  .new 1201 [StageContainer.zeroHash] StageContainer.single_ne_nil 4294967295

/-- The first call finds two million entries used: the product has 65 bits, and the threshold falls
from 4294967295 to 1. -/
theorem falls_after_three_quiet_calls_fails :
    ¬ ∀ (w : Worker), 1 ≤ w.getThreshold.toNat → ∀ used : Nat → UInt32,
      (∀ k, (new w).Rises used k → target < ((new w).atCall used k).usage) ∧
        (∀ k, (new w).Falls used k → ((new w).atCall used k).usage ≤ target ∧ 3 ≤ k ∧
          ∀ j, k ≤ j + 3 → j < k → (new w).Quiet used j) ∧
        ∀ i j, (new w).Falls used i → (new w).Falls used j → i < j → i + 4 ≤ j := by
  intro hall
  obtain ⟨-, hfalls, -⟩ := hall workerMax (by decide) fun _ => 2000000
  have hfall : (new workerMax).Falls (fun _ => 2000000) 0 := by
    unfold Falls
    decide +kernel
  obtain ⟨-, hthree, -⟩ := hfalls 0 hfall
  exact absurd hthree (by decide)

end Analyzer

end FHF
