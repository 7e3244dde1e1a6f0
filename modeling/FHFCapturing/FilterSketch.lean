import FHFCapturing.CheckLoop
import FHFCapturing.Lib.Sketch

/-!
# The filter is a sketch

A stage stands for a row of counters (`toRow`); `conservativeUpdate` stores in the packet's
counter the smaller of the sum and the cap, both rounded to a `double`
(`conservativeUpdate_count`). With a threshold of at most `2 ^ 39`, which is what 32-bit worker
thresholds give, and counters not above it, every conversion is exact, and the filter is
`Sketch.offer` on the rows its stages stand for (`filter_refines`): the same answer, and the same
counters afterwards.
-/

namespace FHF

open Rounding

namespace StageContainer

/-- A stage as a row of the sketch: the hash function and the counters as natural numbers. -/
def toRow (st : StageContainer) : Row FlowID Nat where
  hash fid := (st.hfun fid).val
  count i := if h : i < st.stageSize then (st.countArray ⟨i, h⟩).toNat else 0

/-- Reading a flow's counter in the row or in the stage is the same. -/
@[simp] theorem toRow_read (st : StageContainer) (fid : FlowID) :
    st.toRow.read fid = (st.counter fid).toNat := by
  simp [Row.read, toRow, counter]

/-- Two flows share a counter in the row exactly when they do in the stage. -/
theorem toRow_hash_eq {st : StageContainer} {f g : FlowID} :
    st.toRow.hash f = st.toRow.hash g ↔ st.hfun f = st.hfun g :=
  Fin.ext_iff.symm

theorem toRow_reset_count (st : StageContainer) (i : Nat) : st.reset.toRow.count i = 0 := by
  simp [toRow, reset]

theorem toRow_update_count (st : StageContainer) (j : Fin st.stageSize) (v : UInt64) (i : Nat) :
    ({ st with countArray := Function.update st.countArray j v } : StageContainer).toRow.count i =
      if i = j.val then v.toNat else st.toRow.count i := by
  unfold toRow
  dsimp only
  by_cases hi : i = j.val
  · subst hi
    simp
  · by_cases hsize : i < st.stageSize
    · have hne : (⟨i, hsize⟩ : Fin st.stageSize) ≠ j := fun h => hi (congrArg Fin.val h)
      simp [hi, hsize, hne]
    · simp [hi, hsize]

@[simp] theorem conservativeUpdate_hash (st : StageContainer) (fup : FlowUpdate) (cap : Nat) :
    (st.conservativeUpdate fup cap).toRow.hash = st.toRow.hash := by
  unfold conservativeUpdate
  split <;> rfl

/-- **One stage's update**: a counter below the threshold becomes the smaller of the rounded sum
and the cap, and no other counter changes. -/
theorem conservativeUpdate_count {st : StageContainer} {S : UInt64} {fup : FlowUpdate} {cap : Nat}
    (hS : NoWrap S) (hthr : st.threshold = S) (hle : (st.counter fup.fid).toNat ≤ S.toNat)
    (hcap : cap < 2 ^ 64) (i : Nat) :
    (st.conservativeUpdate fup cap).toRow.count i =
      if i = st.toRow.hash fup.fid ∧ (st.counter fup.fid).toNat < S.toNat then
        min (roundBits 53 ((st.counter fup.fid).toNat + fup.dOctets.toNat)) cap
      else st.toRow.count i := by
  subst hthr
  unfold conservativeUpdate
  simp only [UInt64.lt_iff_toNat_lt]
  by_cases hlt : (st.counter fup.fid).toNat < st.threshold.toNat
  · -- the stored value is the smaller of the two, and fits the counter
    have hval : (if toDouble (st.counter fup.fid + fup.dOctets.toUInt64) > cap then cap
        else toDouble (st.counter fup.fid + fup.dOctets.toUInt64)) =
        min (roundBits 53 ((st.counter fup.fid).toNat + fup.dOctets.toNat)) cap := by
      rw [toDouble, toNat_add_dOctets hS hle]
      split <;> omega
    have hfit : ∀ x : Nat, (ofDouble (min x cap)).toNat = min x cap := by
      intro x
      rw [ofDouble, UInt64.toNat_ofNat']
      exact Nat.mod_eq_of_lt (by omega)
    rw [if_pos hlt, hval, toRow_update_count, hfit]
    simp only [hlt, and_true]
    rfl
  · -- a counter at the threshold is left alone
    rw [if_neg hlt, if_neg fun h => hlt h.2]

end StageContainer

namespace MultistageFilter

/-- The filter as a sketch, stage by stage. -/
def toSketch (f : MultistageFilter) : List (Row FlowID Nat) := f.stages.map StageContainer.toRow

/-- The largest threshold the exactness results are for. -/
def maxThreshold : Nat := 2 ^ 39

end MultistageFilter

open MultistageFilter

/-- Below the largest threshold no sum wraps. -/
theorem noWrap_of_le_maxThreshold {S : UInt64} (hS : S.toNat ≤ maxThreshold) : NoWrap S := by
  unfold maxThreshold at hS
  unfold NoWrap
  omega

/-- A sum that the filter forms under such a threshold is exact as a `double`. -/
theorem roundBits_add_dOctets {S c : UInt64} (hS : S.toNat ≤ maxThreshold)
    (hc : c.toNat ≤ S.toNat) (d : UInt32) :
    roundBits 53 (c.toNat + d.toNat) = c.toNat + d.toNat := by
  have hd : d.toNat < 2 ^ 32 := d.toNat_lt
  unfold maxThreshold at hS
  exact roundBits_of_lt (by omega)

section Refinement

variable {f : MultistageFilter} {S : UInt64} (fup : FlowUpdate)

/-- The bound of the sketch for one counter of a stage. -/
theorem counter_le_of_bounded (hB : Sketch.Bounded S.toNat f.toSketch) {st : StageContainer}
    (hst : st ∈ f.stages) (fid : FlowID) : (st.counter fid).toNat ≤ S.toNat := by
  rw [← StageContainer.toRow_read]
  exact hB _ (List.mem_map_of_mem hst) _

/-- The stage that stops the loop is the first low row of the sketch. -/
theorem firstLow_toSketch (hS : S.toNat ≤ maxThreshold) (hthr : f.HasThreshold S)
    (hB : Sketch.Bounded S.toNat f.toSketch) :
    Sketch.firstLow S.toNat f.toSketch fup.fid fup.dOctets.toNat =
      (f.firstFailing fup).map StageContainer.toRow := by
  rw [Sketch.firstLow, toSketch, List.find?_map, firstFailing_eq (noWrap_of_le_maxThreshold hS) hthr
    fun st hst => counter_le_of_bounded hB hst fup.fid]
  congr 1
  apply List.find?_congr
  intro st hst
  simp only [Function.comp_apply, StageContainer.toRow_read]

/-- One stage's update records the packet up to the cap. -/
theorem conservativeUpdate_toRow {st : StageContainer} (hS : S.toNat ≤ maxThreshold)
    (hthr : st.threshold = S) (hle : (st.counter fup.fid).toNat ≤ S.toNat) {cap : Nat}
    (hcap : cap ≤ S.toNat) :
    (st.conservativeUpdate fup cap).toRow =
      st.toRow.raise S.toNat cap fup.dOctets.toNat fup.fid := by
  have hcount : ∀ i, (st.conservativeUpdate fup cap).toRow.count i =
      (st.toRow.raise S.toNat cap fup.dOctets.toNat fup.fid).count i := by
    intro i
    -- the code's sum neither wraps nor is rounded, so both take the same minimum
    rw [StageContainer.conservativeUpdate_count (noWrap_of_le_maxThreshold hS) hthr hle
        (hcap.trans_lt S.toNat_lt), roundBits_add_dOctets hS hle, Row.raise_count,
      StageContainer.toRow_read]
  have hhash : (st.conservativeUpdate fup cap).toRow.hash =
      (st.toRow.raise S.toNat cap fup.dOctets.toNat fup.fid).hash := by
    rw [StageContainer.conservativeUpdate_hash, Row.raise_hash]
  exact Row.ext hhash (funext hcount)

/-- **The filter is the sketch's offer**: the same answer, the same counters after, and the
stages keep their threshold. -/
theorem filter_refines (hS : S.toNat ≤ maxThreshold) (hthr : f.HasThreshold S)
    (hB : Sketch.Bounded S.toNat f.toSketch) :
    (f.filter fup).1 =
        (Sketch.offer S.toNat f.toSketch fup.fid fup.dOctets.toNat).1 ∧
      (f.filter fup).2.toSketch =
        (Sketch.offer S.toNat f.toSketch fup.fid fup.dOctets.toNat).2 ∧
      (f.filter fup).2.HasThreshold S := by
  have hnowrap := noWrap_of_le_maxThreshold hS
  have hle : ∀ st ∈ f.stages, (st.counter fup.fid).toNat ≤ S.toNat := fun st hst =>
    counter_le_of_bounded hB hst fup.fid
  have hlow := firstLow_toSketch fup hS hthr hB
  cases hfirst : f.firstFailing fup with
  | none =>
    -- every stage is over the threshold, here and in the sketch
    rw [hfirst] at hlow
    rw [Sketch.offer_of_none hlow, filter_of_not_failing hnowrap hthr hle hfirst]
    exact ⟨rfl, rfl, hthr⟩
  | some low =>
    rw [hfirst] at hlow
    have hlowle := hle low (List.mem_of_find?_eq_some hfirst)
    have hcap := (Sketch.firstLow_spec hlow).2
    -- the cap is exact: nothing wraps, and the sum fits a `double`
    have hmax : toDouble (low.counter fup.fid + fup.dOctets.toUInt64) =
        low.toRow.read fup.fid + fup.dOctets.toNat := by
      rw [toDouble, toNat_add_dOctets hnowrap hlowle, roundBits_add_dOctets hS hlowle,
        StageContainer.toRow_read]
    rw [Sketch.offer_of_some hlow, filter_of_failing hnowrap hthr hle hfirst, hmax]
    refine ⟨rfl, ?_, hthr.mapStages fun st => st.conservativeUpdate_threshold fup _⟩
    rw [toSketch, toSketch, mapStages_stages, List.map_map, List.map_map]
    apply List.map_congr_left
    intro st hst
    exact conservativeUpdate_toRow fup hS (hthr st hst) (hle st hst) hcap

/-- A packet keeps the bound. -/
theorem bounded_filter (hS : S.toNat ≤ maxThreshold) (hthr : f.HasThreshold S)
    (hB : Sketch.Bounded S.toNat f.toSketch) :
    Sketch.Bounded S.toNat (f.filter fup).2.toSketch := by
  rw [(filter_refines fup hS hthr hB).2.1]
  exact Sketch.bounded_offer hB

theorem bounded_reset (f : MultistageFilter) (n : Nat) : Sketch.Bounded n f.reset.toSketch :=
  List.forall_mem_map.mpr (forall_mapStages.mpr fun st _ i =>
    (StageContainer.toRow_reset_count st i).trans_le (Nat.zero_le n))

end Refinement

end FHF
