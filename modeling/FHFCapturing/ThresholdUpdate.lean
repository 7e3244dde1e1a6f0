import FHFCapturing.FilterSketch

/-!
# Setting a filter's threshold later

A threshold reaches a filter in two ways: through `init`, for the first interval, and through
`updateThreshold` followed by `reset`, for every later one. The first stores the oversampled
threshold; the second stores 1, because its conditional has the arms the wrong way round. Both
leave the counters at zero, so as long as packets pass nothing else tells the two filters apart:
they agree on a sequence of IP packets exactly when both pass all of it
(`updated_agrees_iff`), and no filter agrees on every sequence.
-/

namespace FHF

open Rounding

namespace MultistageFilter

/-- The counters of all the stages. -/
def counters (f : MultistageFilter) : List (List UInt64) :=
  f.stages.map fun st => List.ofFn st.countArray

/-- The filter with the same hash functions freshly initialised with `threshold`. -/
def fresh (f : MultistageFilter) (threshold : UInt64) : MultistageFilter :=
  f.mapStages fun st => StageContainer.init st.stageSize st.hfun threshold

/-- What the analyzer makes of a filter at the end of an interval. -/
def updated (f : MultistageFilter) (threshold : UInt64) : MultistageFilter :=
  (f.updateThreshold threshold).reset

/-- The same answers on a sequence of packets, and the same counters at its end. -/
def Agree (f g : MultistageFilter) (fups : List FlowUpdate) : Prop :=
  (f.filterAll fups).1 = (g.filterAll fups).1 ∧
    (f.filterAll fups).2.counters = (g.filterAll fups).2.counters

/-! ## Filters with zero counters -/

/-- Every counter is zero and every stage has threshold `S`. -/
def Cleared (f : MultistageFilter) (S : UInt64) : Prop :=
  f.HasThreshold S ∧ ∀ st ∈ f.stages, ∀ fid, st.counter fid = 0

/-- A cleared filter passes the packets larger than its threshold. -/
theorem Cleared.filter_fst {f : MultistageFilter} {S : UInt64} (h : f.Cleared S)
    (fup : FlowUpdate) : (f.filter fup).1 = decide (S.toNat < fup.dOctets.toNat) := by
  have hstage : ∀ st ∈ f.stages, (st.check fup).1 = decide (S.toNat < fup.dOctets.toNat) := by
    intro st hst
    simp [StageContainer.check, h.1 st hst, h.2 st hst, UInt64.lt_iff_toNat_lt]
  rw [MultistageFilter.filter_fst, checkLoop_pass]
  obtain ⟨st, hst⟩ := List.exists_mem_of_ne_nil _ f.stages_ne_nil
  cases hbig : decide (S.toNat < fup.dOctets.toNat) with
  | true => exact List.all_eq_true.mpr fun st hst => (hstage st hst).trans hbig
  | false => exact List.all_eq_false.mpr ⟨st, hst, by simp [hstage st hst, hbig]⟩

/-- A cleared filter passes a whole sequence exactly when every packet is larger than its
threshold, and then it has not changed. Induction on the packets. -/
theorem Cleared.filterAll_iff {f : MultistageFilter} {S : UInt64} (h : f.Cleared S)
    (fups : List FlowUpdate) :
    ((f.filterAll fups).1 = fups.map fun _ => true) ↔
      ∀ fup ∈ fups, S.toNat < fup.dOctets.toNat := by
  induction fups with
  | nil => simp [filterAll]
  | cons fup fups ih =>
    rw [filterAll_cons, List.map_cons, List.forall_mem_cons, ← ih]
    have hfst := h.filter_fst fup
    -- the first packet passes and changes nothing, or the sequence has failed already
    by_cases hbig : S.toNat < fup.dOctets.toNat
    · rw [decide_eq_true hbig] at hfst
      rw [filter_of_pass hfst]
      simp [hfst, hbig]
    · rw [decide_eq_false hbig] at hfst
      simp [hfst, hbig]

/-- A sequence that passes leaves the filter as it is. -/
theorem Cleared.filterAll_snd {f : MultistageFilter} {S : UInt64} (h : f.Cleared S)
    {fups : List FlowUpdate} (hbig : ∀ fup ∈ fups, S.toNat < fup.dOctets.toNat) :
    (f.filterAll fups).2 = f := by
  induction fups with
  | nil => rfl
  | cons fup fups ih =>
    obtain ⟨hfup, hfups⟩ := List.forall_mem_cons.mp hbig
    have hpass : (f.filter fup).1 = true := by rw [h.filter_fst, decide_eq_true hfup]
    rw [filterAll_cons, filter_of_pass hpass]
    exact ih hfups

/-! ## The two ways -/

/-- Up to `2 ^ 24` the product is exact in single precision. -/
theorem oversampled_toNat {T : UInt64} (h : 100 * T.toNat ≤ 2 ^ 24) :
    (oversampled T).toNat = 100 * T.toNat := by
  have hT : toFloat T.toNat = T.toNat := roundBits_of_le (by decide) (by omega)
  have hprod : toFloat (T.toNat * 100) = T.toNat * 100 := roundBits_of_le (by decide) (by omega)
  rw [oversampled, filter_oversampling_factor, hT, hprod, UInt64.toNat_ofNat', Nat.mul_comm]
  exact Nat.mod_eq_of_lt (by omega)

theorem cleared_fresh (f : MultistageFilter) (T : UInt64) :
    (f.fresh T).Cleared (oversampled T) := by
  constructor
  · exact forall_mapStages.mpr fun _ _ => rfl
  · exact forall_mapStages.mpr fun _ _ _ => rfl

/-- An updated one is too, with threshold 1. -/
theorem cleared_updated (f : MultistageFilter) {T : UInt64} (hne : oversampled T ≠ 0) :
    (f.updated T).Cleared 1 := by
  constructor
  · intro st' hst'
    simp only [updated, reset_stages, updateThreshold_stages, List.map_map] at hst'
    obtain ⟨st, -, rfl⟩ := List.mem_map.mp hst'
    simp [StageContainer.updateThreshold, hne]
  · intro st' hst' fid
    obtain ⟨st, -, rfl⟩ := List.mem_map.mp hst'
    rfl

/-- The counters do not tell the two apart before the first packet. -/
theorem counters_updated (f : MultistageFilter) (T : UInt64) :
    (f.updated T).counters = (f.fresh T).counters := by
  simp only [counters, updated, fresh, reset_stages, updateThreshold_stages, mapStages_stages,
    List.map_map]
  rfl

/-- **Agreement on a sequence of packets.** For packets of at least two bytes, the updated and the
fresh filter agree exactly when every packet is larger than the oversampled threshold. -/
theorem updated_agrees_iff (f : MultistageFilter) {T : UInt64} (hT : 1 ≤ T.toNat)
    (hexact : 100 * T.toNat ≤ 2 ^ 24) {fups : List FlowUpdate}
    (hsize : ∀ fup ∈ fups, 2 ≤ fup.dOctets.toNat) :
    Agree (f.updated T) (f.fresh T) fups ↔ ∀ fup ∈ fups, 100 * T.toNat < fup.dOctets.toNat := by
  have hover := oversampled_toNat hexact
  have hne : oversampled T ≠ 0 := by
    intro h0
    rw [h0] at hover
    simp at hover
    omega
  have hupdated := cleared_updated f hne
  have hfresh := cleared_fresh f T
  have hall : ∀ fup ∈ fups, (1 : UInt64).toNat < fup.dOctets.toNat := hsize
  -- the updated filter passes everything
  have hpass := (hupdated.filterAll_iff fups).mpr hall
  rw [Agree, hpass, hupdated.filterAll_snd hall, ← hover, ← hfresh.filterAll_iff fups]
  constructor
  · exact fun h => h.1.symm
  · intro hans
    have hbig := (hfresh.filterAll_iff fups).mp hans
    exact ⟨hans.symm, by rw [hfresh.filterAll_snd hbig, counters_updated]⟩

/-- **The two ways never agree.** For every filter and every threshold there are packets on which
they differ; on any one sequence of packets of at least two bytes they agree exactly when every
packet is larger than the oversampled threshold. -/
theorem updated_disagrees (f : MultistageFilter) (T : UInt64) (hT : 1 ≤ T.toNat)
    (hexact : 100 * T.toNat ≤ 2 ^ 24) :
    (¬ ∀ fups, Agree (f.updated T) (f.fresh T) fups) ∧
      ∀ fups : List FlowUpdate, (∀ fup ∈ fups, 2 ≤ fup.dOctets.toNat) →
        (Agree (f.updated T) (f.fresh T) fups ↔
          ∀ fup ∈ fups, 100 * T.toNat < fup.dOctets.toNat) := by
  refine ⟨fun hall => ?_, fun fups hsize => updated_agrees_iff f hT hexact hsize⟩
  have hsize : ∀ fup ∈ [(⟨⟨1, 9, 1000, 80, 6⟩, 20, 34⟩ : FlowUpdate)], 2 ≤ fup.dOctets.toNat := by
    decide
  have hbig := (updated_agrees_iff f hT hexact hsize).mp (hall _) _ List.mem_cons_self
  rw [show ((20 : UInt32).toNat) = 20 from rfl] at hbig
  omega

/-- One packet of 20 bytes, after an interval that ended with threshold 7. -/
theorem updated_disagrees_on_one_packet :
    ¬ ∀ (f : MultistageFilter) (T : UInt64), 1 ≤ T.toNat → 100 * T.toNat ≤ 2 ^ 24 →
      ∀ fups, Agree (f.updated T) (f.fresh T) fups := by
  intro hall
  have hagree := hall oneStage 7 (by decide) (by decide) [⟨⟨1, 9, 1000, 80, 6⟩, 20, 34⟩]
  exact absurd hagree.1 (by decide)

theorem updated_disagrees_oneStage :
    (¬ ∀ fups, Agree (oneStage.updated 7) (oneStage.fresh 7) fups) ∧
      ∀ fups : List FlowUpdate, (∀ fup ∈ fups, 2 ≤ fup.dOctets.toNat) →
        (Agree (oneStage.updated 7) (oneStage.fresh 7) fups ↔
          ∀ fup ∈ fups, 100 * (7 : UInt64).toNat < fup.dOctets.toNat) :=
  updated_disagrees oneStage 7 (by decide) (by decide)

end MultistageFilter

end FHF
