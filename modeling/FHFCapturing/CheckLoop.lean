import FHFCapturing.MultistageFilter
import Mathlib.Data.List.Find

/-!
# The checking loop

While no 64-bit addition wraps, which a threshold below `2 ^ 64 - 2 ^ 32` and counters not above
it guarantee (`NoWrap`), the first stage that fails decides everything: the packet passes when
there is none, and otherwise the minimum the loop carries is the counter of that stage, since
the passing stages before it have larger counters and the stages after it are not read
(`checkLoop_spec`). So `filter` on a drop updates every stage with the cap that the first failing
stage sets (`filter_of_failing`).
-/

namespace FHF

open MultistageFilter

/-- A counter up to the threshold and a packet add up without wrapping. -/
def NoWrap (S : UInt64) : Prop := S.toNat + 2 ^ 32 ≤ 2 ^ 64

/-- A sum of a 64-bit counter and a packet that does not wrap. -/
theorem toNat_add_of_lt {c : UInt64} {d : UInt32} (h : c.toNat + d.toNat < 2 ^ 64) :
    (c + d.toUInt64).toNat = c.toNat + d.toNat := by
  rw [UInt64.toNat_add, UInt32.toNat_toUInt64]
  exact Nat.mod_eq_of_lt h

/-- A counter up to the threshold has room for a packet. -/
theorem toNat_add_dOctets {c S : UInt64} (hS : NoWrap S) (hc : c.toNat ≤ S.toNat) (d : UInt32) :
    (c + d.toUInt64).toNat = c.toNat + d.toNat := by
  have hd : d.toNat < 2 ^ 32 := d.toNat_lt
  unfold NoWrap at hS
  exact toNat_add_of_lt (by omega)

namespace MultistageFilter

/-- Every stage has the threshold `S`: the filter sets them all at once. -/
def HasThreshold (f : MultistageFilter) (S : UInt64) : Prop := ∀ st ∈ f.stages, st.threshold = S

/-- Updating counters keeps the thresholds. -/
theorem HasThreshold.mapStages {f : MultistageFilter} {S : UInt64} (h : f.HasThreshold S)
    {g : StageContainer → StageContainer} (hg : ∀ st, (g st).threshold = st.threshold) :
    (f.mapStages g).HasThreshold S :=
  forall_mapStages.mpr fun st hst => (hg st).trans (h st hst)

theorem HasThreshold.reset {f : MultistageFilter} {S : UInt64} (h : f.HasThreshold S) :
    f.reset.HasThreshold S :=
  h.mapStages StageContainer.reset_threshold

/-- The stage that decides a drop: the first whose counter plus the packet does not exceed the
threshold. -/
def firstFailing (f : MultistageFilter) (fup : FlowUpdate) : Option StageContainer :=
  f.stages.find? fun st => !(st.check fup).1

end MultistageFilter

section CheckLoop

variable {S : UInt64} {fup : FlowUpdate}

/-- Whether a stage is passed, on counters that do not wrap. -/
theorem check_fst {st : StageContainer} (hS : NoWrap S) (hthr : st.threshold = S)
    (hle : (st.counter fup.fid).toNat ≤ S.toNat) :
    (st.check fup).1 = decide (S.toNat < (st.counter fup.fid).toNat + fup.dOctets.toNat) := by
  unfold StageContainer.check
  simp only [hthr, gt_iff_lt, UInt64.lt_iff_toNat_lt, toNat_add_dOctets hS hle]

@[simp] theorem check_snd (st : StageContainer) : (st.check fup).2 = st.counter fup.fid := rfl

/-- Once a stage has failed no further stage is read, and the minimum stands. -/
theorem foldl_next_of_fail (sts : List StageContainer) {c : CheckLoop} (hfail : c.pass = false)
    (hmin : c.minVal = c.parVal) :
    (sts.foldl (CheckLoop.next fup) c).pass = false ∧
      (sts.foldl (CheckLoop.next fup) c).minVal = c.minVal := by
  induction sts generalizing c with
  | nil => exact ⟨hfail, rfl⟩
  | cons st sts ih =>
    have hnext : CheckLoop.next fup c st = c := by
      cases c
      simp_all [CheckLoop.next]
    rw [List.foldl_cons, hnext]
    exact ih hfail hmin

/-- While every stage read so far has passed, the minimum is that of passing counters; the first
failing stage's counter is below all of them and becomes the minimum. Induction on the stages. -/
theorem foldl_next_of_pass (hS : NoWrap S) (sts : List StageContainer)
    (hthr : ∀ st ∈ sts, st.threshold = S)
    (hle : ∀ st ∈ sts, (st.counter fup.fid).toNat ≤ S.toNat) {c : CheckLoop}
    (hpass : c.pass = true) (hmin : S.toNat < c.minVal.toNat + fup.dOctets.toNat) :
    match sts.find? fun st => (st.counter fup.fid).toNat + fup.dOctets.toNat ≤ S.toNat with
    | none => (sts.foldl (CheckLoop.next fup) c).pass = true
    | some low => (sts.foldl (CheckLoop.next fup) c).pass = false ∧
        (sts.foldl (CheckLoop.next fup) c).minVal = low.counter fup.fid := by
  induction sts generalizing c with
  | nil => simpa using hpass
  | cons st sts ih =>
    have hcheck : (st.check fup).1 =
        decide (S.toNat < (st.counter fup.fid).toNat + fup.dOctets.toNat) :=
      check_fst hS (hthr st (by simp)) (hle st (by simp))
    by_cases hlow : (st.counter fup.fid).toNat + fup.dOctets.toNat ≤ S.toNat
    · -- `st` fails: its counter is below the minimum of the passing ones
      have hlt : ¬ c.minVal < st.counter fup.fid := by
        rw [UInt64.lt_iff_toNat_lt]; omega
      have hnext : CheckLoop.next fup c st =
          { pass := false, minVal := st.counter fup.fid, parVal := st.counter fup.fid } := by
        simp [CheckLoop.next, hpass, hcheck, hlt, Nat.not_lt.mpr hlow]
      rw [List.find?_cons_of_pos (by simpa using hlow), List.foldl_cons, hnext]
      exact foldl_next_of_fail sts rfl rfl
    · -- `st` passes, and the new minimum still is a passing counter
      have hgt : S.toNat < (st.counter fup.fid).toNat + fup.dOctets.toNat := by omega
      rw [List.find?_cons_of_neg (by simpa using hgt), List.foldl_cons]
      refine ih (fun s hs => hthr s (by simp [hs])) (fun s hs => hle s (by simp [hs])) ?_ ?_
      · simp [CheckLoop.next, hpass, hcheck, hgt]
      · simp only [CheckLoop.next, hpass, ↓reduceIte, check_snd]
        split <;> omega

end CheckLoop

section Filter

variable {f : MultistageFilter} {S : UInt64} {fup : FlowUpdate}

/-- The stage that stops the loop is the first whose counter and the packet together stay up to the
threshold. -/
theorem firstFailing_eq (hS : NoWrap S) (hthr : f.HasThreshold S)
    (hle : ∀ st ∈ f.stages, (st.counter fup.fid).toNat ≤ S.toNat) :
    f.firstFailing fup =
      f.stages.find? fun st => (st.counter fup.fid).toNat + fup.dOctets.toNat ≤ S.toNat := by
  apply List.find?_congr
  intro st hst
  rw [check_fst hS (hthr st hst) (hle st hst)]
  simp only [← decide_not, Nat.not_lt]

/-- **The checking loop.** The packet passes when no stage fails; otherwise the minimum is the
counter of the first failing stage. -/
theorem checkLoop_spec (hS : NoWrap S) (hthr : f.HasThreshold S)
    (hle : ∀ st ∈ f.stages, (st.counter fup.fid).toNat ≤ S.toNat) :
    match f.firstFailing fup with
    | none => (f.checkLoop fup).pass = true
    | some low => (f.checkLoop fup).pass = false ∧
        (f.checkLoop fup).minVal = low.counter fup.fid := by
  have hinit : S.toNat < (0xFFFFFFFFFFFFFFFF : UInt64).toNat + fup.dOctets.toNat := by
    rw [show (0xFFFFFFFFFFFFFFFF : UInt64).toNat = 2 ^ 64 - 1 from rfl]
    unfold NoWrap at hS
    omega
  rw [firstFailing_eq hS hthr hle]
  exact foldl_next_of_pass hS f.stages hthr hle rfl hinit

/-- A packet that passes every stage leaves the filter as it is. -/
theorem filter_of_not_failing (hS : NoWrap S) (hthr : f.HasThreshold S)
    (hle : ∀ st ∈ f.stages, (st.counter fup.fid).toNat ≤ S.toNat)
    (hnone : f.firstFailing fup = none) : f.filter fup = (true, f) := by
  have hloop := checkLoop_spec hS hthr hle
  rw [hnone] at hloop
  have hpass : (f.filter fup).1 = true := by rw [filter_fst, hloop]
  exact Prod.ext hpass (filter_of_pass hpass)

/-- A drop: the counter of the first failing stage plus the packet is the cap of every stage. -/
theorem filter_of_failing (hS : NoWrap S) (hthr : f.HasThreshold S)
    (hle : ∀ st ∈ f.stages, (st.counter fup.fid).toNat ≤ S.toNat) {low : StageContainer}
    (hlow : f.firstFailing fup = some low) :
    f.filter fup = (false, f.mapStages fun st =>
      st.conservativeUpdate fup (toDouble (low.counter fup.fid + fup.dOctets.toUInt64))) := by
  have hloop := checkLoop_spec hS hthr hle
  rw [hlow] at hloop
  have hdrop : (f.filter fup).1 = false := by rw [filter_fst, hloop.1]
  refine Prod.ext hdrop ?_
  rw [filter_of_drop hdrop, hloop.2]

end Filter

end FHF
