import FHFCapturing.FilterSketch

/-!
# Runs of a filter

Between two analyses packets go through the filter; at an analysis the analyzer sets its
threshold and resets it. Along every such run the counters stay at or below the common threshold
of the stages and are values a `double` holds (`Sound`), so no addition wraps. Under a threshold
of at most `2 ^ 39` no conversion to `double` rounds either (`counters_never_overflow`), which
answers the source's TODO about the overflow time: there is none.
-/

namespace FHF

open Rounding

/-- A packet, or what the analyzer does to the filter at the end of an interval. -/
inductive FilterEvent where
  | packet (fup : FlowUpdate)
  | renew (newThreshold : UInt64)

namespace MultistageFilter

/-- One event of a filter; a packet is counted whether it passes or not. -/
def next (f : MultistageFilter) : FilterEvent → MultistageFilter
  | .packet fup => (f.filter fup).2
  | .renew newThreshold => (f.updateThreshold newThreshold).reset

def runEvents (f : MultistageFilter) (es : List FilterEvent) : MultistageFilter := es.foldl next f

/-- The filters of the program: a constructed one after any run. The constructor's threshold is
one whose product with the oversampling factor an `unsigned long` can hold; for others the
conversion from `float` is undefined. -/
def Reachable (f : MultistageFilter) : Prop :=
  ∃ (stageSize : Nat) (hfuns : List (FlowID → Fin stageSize)) (hne : hfuns ≠ [])
    (threshold : UInt64) (es : List FilterEvent),
    toFloat (toFloat threshold.toNat * filter_oversampling_factor) < 2 ^ 64 ∧
      f = (init stageSize hfuns hne threshold).runEvents es

/-! ## Thresholds -/

/-- A threshold the stages can have: a `double` holds it, and sums below it do not wrap. -/
structure Storable (S : UInt64) : Prop where
  fits : Fits 53 S.toNat
  noWrap : NoWrap S

/-- Up to `maxThreshold` every threshold is storable. -/
theorem storable_of_le_maxThreshold {S : UInt64} (hS : S.toNat ≤ maxThreshold) : Storable S where
  fits := fits_of_lt (by unfold maxThreshold at hS; omega)
  noWrap := noWrap_of_le_maxThreshold hS

/-- A `float` below `2 ^ 64` is at least `2 ^ 40` below it, more than a packet can add. -/
theorem storable_oversampled {threshold : UInt64}
    (h : toFloat (toFloat threshold.toNat * filter_oversampling_factor) < 2 ^ 64) :
    Storable (oversampled threshold) := by
  -- below `2 ^ 64` the conversion to `unsigned long` keeps the value
  have hval : (oversampled threshold).toNat =
      toFloat (toFloat threshold.toNat * filter_oversampling_factor) := by
    unfold oversampled
    rw [UInt64.toNat_ofNat']
    exact Nat.mod_eq_of_lt h
  -- the value is a `float`, so the next `double` above it is far enough for a packet
  have hfits : Fits 24 (oversampled threshold).toNat := by
    rw [hval]
    exact fits_roundBits (by omega) _
  have hroom := hfits.add_spacing_le (w := 40) (hval ▸ h)
  refine ⟨hfits.mono (by omega), ?_⟩
  unfold NoWrap
  omega

/-- The thresholds of the workers are 32-bit, and a multiple of them by 100 is below `2 ^ 39`. -/
theorem oversampled_le_maxThreshold (threshold : UInt32) :
    (oversampled threshold.toUInt64).toNat ≤ maxThreshold := by
  have ht : threshold.toUInt64.toNat ≤ 2 ^ 32 := by
    rw [UInt32.toNat_toUInt64]
    exact threshold.toNat_lt.le
  have hfloat : toFloat threshold.toUInt64.toNat ≤ 2 ^ 32 :=
    roundBits_le_two_pow (by omega) ht
  have hprod : toFloat (toFloat threshold.toUInt64.toNat * filter_oversampling_factor) ≤ 2 ^ 39 :=
    roundBits_le_two_pow (by omega) (by unfold filter_oversampling_factor; omega)
  unfold oversampled maxThreshold
  rw [UInt64.toNat_ofNat']
  exact (Nat.mod_le _ _).trans hprod

/-! ## The invariant -/

/-- The stages share a threshold, and no counter is above it. -/
structure Sound (S : UInt64) (f : MultistageFilter) : Prop where
  storable : Storable S
  threshold : f.HasThreshold S
  count_le : ∀ st ∈ f.stages, ∀ i, st.toRow.count i ≤ S.toNat
  count_fits : ∀ st ∈ f.stages, ∀ i, Fits 53 (st.toRow.count i)

namespace Sound

variable {S : UInt64} {f : MultistageFilter}

theorem counter_le (h : f.Sound S) (fid : FlowID) :
    ∀ st ∈ f.stages, (st.counter fid).toNat ≤ S.toNat := by
  intro st hst
  rw [← StageContainer.toRow_read]
  exact h.count_le st hst _

theorem counter_fits (h : f.Sound S) {st : StageContainer} (hst : st ∈ f.stages)
    (fid : FlowID) : Fits 53 (st.counter fid).toNat := by
  rw [← StageContainer.toRow_read]
  exact h.count_fits st hst _

/-- After a reset all counters are zero. -/
theorem reset {S : UInt64} {f : MultistageFilter} (hS : Storable S) (hthr : f.HasThreshold S) :
    f.reset.Sound S where
  storable := hS
  threshold := hthr.reset
  count_le := by
    refine forall_mapStages.mpr fun st _ i => ?_
    rw [StageContainer.toRow_reset_count]
    exact Nat.zero_le _
  count_fits := by
    refine forall_mapStages.mpr fun st _ i => ?_
    rw [StageContainer.toRow_reset_count]
    exact fits_zero 53

theorem bounded (h : f.Sound S) : Sketch.Bounded S.toNat f.toSketch :=
  List.forall_mem_map.mpr h.count_le

/-- In a sound state a packet that no stage fails changes nothing. -/
theorem filter_of_not_failing (h : f.Sound S) {fup : FlowUpdate}
    (hnone : f.firstFailing fup = none) : f.filter fup = (true, f) :=
  FHF.filter_of_not_failing h.storable.noWrap h.threshold (h.counter_le fup.fid) hnone

/-- In a sound state the first failing stage sets the cap of every stage. -/
theorem filter_of_failing (h : f.Sound S) {fup : FlowUpdate} {low : StageContainer}
    (hlow : f.firstFailing fup = some low) :
    f.filter fup = (false, f.mapStages fun st =>
      st.conservativeUpdate fup (toDouble (low.counter fup.fid + fup.dOctets.toUInt64))) :=
  FHF.filter_of_failing h.storable.noWrap h.threshold (h.counter_le fup.fid) hlow

/-- The loop stops at the first failing stage, with the counter it has found there. -/
theorem minVal_of_failing (h : f.Sound S) {fup : FlowUpdate} {low : StageContainer}
    (hlow : f.firstFailing fup = some low) :
    (f.checkLoop fup).minVal = low.counter fup.fid := by
  have hloop := checkLoop_spec h.storable.noWrap h.threshold (h.counter_le fup.fid)
  rw [hlow] at hloop
  exact hloop.2

/-- What the first failing stage makes the cap of a drop: at most the threshold, and a `double`. -/
theorem cap_spec (h : f.Sound S) {fup : FlowUpdate} {low : StageContainer}
    (hlow : f.firstFailing fup = some low) :
    low ∈ f.stages ∧ (low.counter fup.fid).toNat + fup.dOctets.toNat ≤ S.toNat ∧
      toDouble (low.counter fup.fid + fup.dOctets.toUInt64) =
        roundBits 53 ((low.counter fup.fid).toNat + fup.dOctets.toNat) ∧
      toDouble (low.counter fup.fid + fup.dOctets.toUInt64) ≤ S.toNat := by
  have hle := h.counter_le fup.fid
  rw [firstFailing_eq h.storable.noWrap h.threshold hle] at hlow
  have hmem := List.mem_of_find?_eq_some hlow
  -- the first failing stage is one that fails
  have hfail : (low.counter fup.fid).toNat + fup.dOctets.toNat ≤ S.toNat := by
    simpa using List.find?_some hlow
  -- and no sum below its threshold wraps, so only the rounding to `double` is left
  have hdouble : toDouble (low.counter fup.fid + fup.dOctets.toUInt64) =
      roundBits 53 ((low.counter fup.fid).toNat + fup.dOctets.toNat) := by
    rw [toDouble, toNat_add_dOctets h.storable.noWrap (hle low hmem)]
  exact ⟨hmem, hfail, hdouble, hdouble ▸ h.storable.fits.roundBits_le (by omega) hfail⟩

/-- A drop, counter by counter: the sum is rounded to a `double`, and the cap is not exceeded. -/
theorem conservativeUpdate_count (h : f.Sound S) {fup : FlowUpdate} {st : StageContainer}
    (hst : st ∈ f.stages) {cap : Nat} (hcap : cap ≤ S.toNat) (i : Nat) :
    (st.conservativeUpdate fup cap).toRow.count i =
      if i = st.toRow.hash fup.fid ∧ (st.counter fup.fid).toNat < S.toNat then
        min (roundBits 53 ((st.counter fup.fid).toNat + fup.dOctets.toNat)) cap
      else st.toRow.count i :=
  StageContainer.conservativeUpdate_count h.storable.noWrap (h.threshold st hst)
    (h.counter_le fup.fid st hst) (hcap.trans_lt S.toNat_lt) i

/-- **A packet keeps the counters at or below the threshold**: the cap is. -/
theorem filter (h : f.Sound S) (fup : FlowUpdate) : (f.filter fup).2.Sound S := by
  cases hfirst : f.firstFailing fup with
  | none => rwa [h.filter_of_not_failing hfirst]
  | some low =>
    obtain ⟨-, -, hdouble, hcap⟩ := h.cap_spec hfirst
    rw [h.filter_of_failing hfirst]
    refine { storable := h.storable, threshold := ?_, count_le := ?_, count_fits := ?_ }
    · -- the thresholds are not touched
      exact h.threshold.mapStages fun st => st.conservativeUpdate_threshold fup _
    · -- the counters that change are stored below the cap
      refine forall_mapStages.mpr fun st hst i => ?_
      rw [h.conservativeUpdate_count hst hcap]
      split
      · exact (Nat.min_le_right _ _).trans hcap
      · exact h.count_le st hst i
    · refine forall_mapStages.mpr fun st hst i => ?_
      rw [h.conservativeUpdate_count hst hcap]
      split
      · -- and they are stored from a `double`
        rw [hdouble]
        exact (fits_roundBits (by omega) _).min (fits_roundBits (by omega) _)
      · exact h.count_fits st hst i

/-- Conditions on a packet that agree in sound states agree along a sequence. -/
theorem allPackets_congr {C D : MultistageFilter → FlowUpdate → Prop}
    (hstep : ∀ (f : MultistageFilter) (fup : FlowUpdate), f.Sound S → (C f fup ↔ D f fup))
    (h : f.Sound S) (fups : List FlowUpdate) : AllPackets C f fups ↔ AllPackets D f fups := by
  induction fups generalizing f with
  | nil => exact Iff.rfl
  | cons fup fups ih => exact and_congr (hstep f fup h) (ih (h.filter fup))

/-- After an analysis the threshold is 0 or 1, and the counters are zero. -/
theorem renew (f : MultistageFilter) (newThreshold : UInt64) :
    ∃ S, S.toNat ≤ 1 ∧ (f.updateThreshold newThreshold).reset.Sound S := by
  let rth := oversampled newThreshold
  have hone : (if rth = 0 then rth else 1).toNat ≤ 1 := by
    split
    · rename_i hzero
      rw [hzero]
      exact Nat.zero_le 1
    · exact Nat.le_refl 1
  refine ⟨if rth = 0 then rth else 1, hone, reset (storable_of_le_maxThreshold ?_) ?_⟩
  · exact hone.trans (by unfold maxThreshold; omega)
  · exact forall_mapStages.mpr fun _ _ => rfl

/-- **A run keeps the counters at or below the current threshold**, which is the first one or what
an analysis stored. Induction on the events. -/
theorem runEvents (h : f.Sound S) (es : List FilterEvent) :
    ∃ S', S'.toNat ≤ max S.toNat 1 ∧ (f.runEvents es).Sound S' := by
  induction es generalizing f S with
  | nil => exact ⟨S, Nat.le_max_left _ _, h⟩
  | cons e es ih =>
    cases e with
    | packet fup => exact ih (h.filter fup)
    | renew newThreshold =>
      obtain ⟨S₁, hone, h₁⟩ := renew f newThreshold
      obtain ⟨S', hle, h'⟩ := ih h₁
      exact ⟨S', by omega, h'⟩

end Sound

theorem init_reset (stageSize : Nat) (hfuns : List (FlowID → Fin stageSize)) (hne : hfuns ≠ [])
    (threshold : UInt64) :
    (init stageSize hfuns hne threshold).reset = init stageSize hfuns hne threshold := by
  simp only [MultistageFilter.reset, mapStages, init, List.map_map, mk.injEq]
  rfl

/-- The constructor gives every stage the same threshold. -/
theorem init_hasThreshold (stageSize : Nat) (hfuns : List (FlowID → Fin stageSize))
    (hne : hfuns ≠ []) (threshold : UInt64) :
    (init stageSize hfuns hne threshold).HasThreshold (oversampled threshold) := by
  intro st hst
  obtain ⟨h, -, rfl⟩ := List.mem_map.mp hst
  rfl

/-- Every filter that is constructed with a threshold in range is reachable. -/
theorem reachable_init (stageSize : Nat) (hfuns : List (FlowID → Fin stageSize)) (hne : hfuns ≠ [])
    (threshold : UInt64)
    (hrange : toFloat (toFloat threshold.toNat * filter_oversampling_factor) < 2 ^ 64) :
    (init stageSize hfuns hne threshold).Reachable :=
  ⟨stageSize, hfuns, hne, threshold, [], hrange, rfl⟩

theorem Reachable.filter {f : MultistageFilter} (h : f.Reachable) (fup : FlowUpdate) :
    (f.filter fup).2.Reachable := by
  obtain ⟨stageSize, hfuns, hne, threshold, es, hrange, rfl⟩ := h
  refine ⟨stageSize, hfuns, hne, threshold, es ++ [.packet fup], hrange, ?_⟩
  unfold MultistageFilter.runEvents
  rw [List.foldl_append]
  rfl

/-- Every reachable filter is sound: packets and renewals keep the invariant. -/
theorem Reachable.sound {f : MultistageFilter} (h : f.Reachable) : ∃ S, f.Sound S := by
  obtain ⟨stageSize, hfuns, hne, threshold, es, hrange, rfl⟩ := h
  have hstart := Sound.reset (storable_oversampled hrange)
    (init_hasThreshold stageSize hfuns hne threshold)
  rw [init_reset] at hstart
  obtain ⟨S, -, hS⟩ := hstart.runEvents es
  exact ⟨S, hS⟩

/-! ## No overflow -/

/-- A counter and a packet add up without wrapping, below `2 ^ 53` and exactly in a `double`. -/
def ExactSum (c : UInt64) (d : UInt32) : Prop :=
  (c + d.toUInt64).toNat = c.toNat + d.toNat ∧ c.toNat + d.toNat < 2 ^ 53 ∧
    toDouble (c + d.toUInt64) = c.toNat + d.toNat

/-- Neither the sum of a counter and a packet nor its rounding overflows. -/
theorem exactSum_of_le {S c : UInt64} (hS : S.toNat ≤ maxThreshold) (hc : c.toNat ≤ S.toNat)
    (d : UInt32) : ExactSum c d := by
  have hsum := toNat_add_dOctets (noWrap_of_le_maxThreshold hS) hc d
  have hd : d.toNat < 2 ^ 32 := d.toNat_lt
  refine ⟨hsum, ?_, ?_⟩
  · unfold maxThreshold at hS
    omega
  · rw [toDouble, hsum, roundBits_add_dOctets hS hc]

/-- The sums of one call of `filter`: those of `check` and `conservativeUpdate`, one for each
stage, and on a drop that of the cap. -/
theorem Sound.exactSum {S : UInt64} {f : MultistageFilter} (h : f.Sound S)
    (hS : S.toNat ≤ maxThreshold) (fup : FlowUpdate) :
    (∀ st ∈ f.stages, ExactSum (st.counter fup.fid) fup.dOctets) ∧
      ((f.filter fup).1 = false → ExactSum (f.checkLoop fup).minVal fup.dOctets) := by
  have hle := h.counter_le fup.fid
  refine ⟨fun st hst => exactSum_of_le hS (hle st hst) _, fun hdrop => ?_⟩
  cases hfirst : f.firstFailing fup with
  | none =>
    rw [h.filter_of_not_failing hfirst] at hdrop
    cases hdrop
  | some low =>
    rw [h.minVal_of_failing hfirst]
    exact exactSum_of_le hS (hle low (h.cap_spec hfirst).1) _

/-- **Filter counters never overflow.** Start from reset counters under a common stage threshold of
at most `2 ^ 39`, and let packets of any sizes and analyses with any thresholds follow. The
stages share a threshold of at most `2 ^ 39`, no counter is above it, and no sum that the next
packet forms wraps, reaches `2 ^ 53` or is rounded. -/
theorem counters_never_overflow (f : MultistageFilter) (S : UInt64) (hthr : f.HasThreshold S)
    (hS : S.toNat ≤ 2 ^ 39) (es : List FilterEvent) :
    (∃ S', S'.toNat ≤ 2 ^ 39 ∧ (f.reset.runEvents es).HasThreshold S') ∧
      (∀ st ∈ (f.reset.runEvents es).stages, ∀ i, st.countArray i ≤ st.threshold) ∧
      ∀ fup : FlowUpdate,
        (∀ st ∈ (f.reset.runEvents es).stages, ExactSum (st.counter fup.fid) fup.dOctets) ∧
          (((f.reset.runEvents es).filter fup).1 = false →
            ExactSum ((f.reset.runEvents es).checkLoop fup).minVal fup.dOctets) := by
  obtain ⟨S', hle, h⟩ := (Sound.reset (storable_of_le_maxThreshold hS) hthr).runEvents es
  have hS' : S'.toNat ≤ 2 ^ 39 := by omega
  refine ⟨⟨S', hS', h.threshold⟩, fun st hst i => ?_, h.exactSum hS'⟩
  have hcount := h.count_le st hst i.val
  -- the bound of the sketch, in the code's own counters
  rw [h.threshold st hst, UInt64.le_iff_toNat_le]
  simpa [StageContainer.toRow] using hcount

/-- A packet in each of two intervals. -/
def twoIntervals : List FilterEvent :=
  [.packet ⟨⟨1, 9, 1000, 80, 6⟩, 150, 54⟩, .renew 7, .packet ⟨⟨1, 9, 1000, 80, 6⟩, 20, 34⟩]

theorem counters_never_overflow_twoIntervals :
    (∃ S', S'.toNat ≤ 2 ^ 39 ∧ (oneStage.reset.runEvents twoIntervals).HasThreshold S') ∧
      (∀ st ∈ (oneStage.reset.runEvents twoIntervals).stages, ∀ i,
        st.countArray i ≤ st.threshold) ∧
      ∀ fup : FlowUpdate,
        (∀ st ∈ (oneStage.reset.runEvents twoIntervals).stages,
            ExactSum (st.counter fup.fid) fup.dOctets) ∧
          (((oneStage.reset.runEvents twoIntervals).filter fup).1 = false →
            ExactSum ((oneStage.reset.runEvents twoIntervals).checkLoop fup).minVal fup.dOctets) :=
  counters_never_overflow oneStage (oversampled 5) (init_hasThreshold _ _ _ 5)
    (oversampled_le_maxThreshold 5) twoIntervals

end MultistageFilter

end FHF
