import FHFCapturing.FilterRun

/-!
# The plain parallel multistage filter

Without conservative update every packet adds its bytes to its counter in every stage, whether it
passes or not. The conservative filter admits no packet that this plain one drops: its counters
never exceed the plain ones (`Dominated`), because an update adds at most the packet and a cap
only takes away from that.
-/

namespace FHF

namespace StageContainer

/-- The packet's counter grows by its bytes. -/
def plainUpdate (st : StageContainer) (fup : FlowUpdate) : StageContainer :=
  { st with countArray := Function.update st.countArray (st.hfun fup.fid)
              (st.counter fup.fid + fup.dOctets.toUInt64) }

/-- If the sum does not wrap, the update adds to the row. -/
theorem plainUpdate_toRow {st : StageContainer} {fup : FlowUpdate}
    (h : (st.counter fup.fid).toNat + fup.dOctets.toNat < 2 ^ 64) :
    (st.plainUpdate fup).toRow = st.toRow.add fup.dOctets.toNat fup.fid := by
  refine Row.ext rfl (funext fun i => ?_)
  rw [plainUpdate, toRow_update_count, toNat_add_of_lt h, Row.add_count, toRow_read]
  rfl

end StageContainer

namespace MultistageFilter

/-- The packet passes iff every stage's counter plus the packet exceeds the threshold. -/
def plainFilter (f : MultistageFilter) (fup : FlowUpdate) : Bool × MultistageFilter :=
  (f.stages.all fun st => (st.check fup).1, f.mapStages fun st => st.plainUpdate fup)

/-- The answers for a sequence of packets, and the plain filter after it. -/
def plainFilterAll (f : MultistageFilter) : List FlowUpdate → List Bool × MultistageFilter
  | [] => ([], f)
  | fup :: fups =>
      let (pass, f') := f.plainFilter fup
      let (answers, f'') := f'.plainFilterAll fups
      (pass :: answers, f'')

/-- The counters of the plain filter are at most the bytes `b` so far, and at least those of the
conservative filter with the same hash functions and threshold. -/
structure Dominated (S : UInt64) (b : Nat) (f p : MultistageFilter) : Prop where
  sound : f.Sound S
  threshold : p.HasThreshold S
  count_le : ∀ st ∈ p.stages, ∀ i, st.toRow.count i ≤ b
  below : Sketch.Below f.toSketch p.toSketch

/-- From reset counters both start at zero. -/
theorem dominated_reset {f : MultistageFilter} {S : UInt64} (hS : Storable S)
    (hthr : f.HasThreshold S) : Dominated S 0 f.reset f.reset where
  sound := Sound.reset hS hthr
  threshold := (Sound.reset hS hthr).threshold
  count_le := forall_mapStages.mpr fun st _ i => (StageContainer.toRow_reset_count st i).le
  below := Sketch.Below.refl _

namespace Dominated

variable {S : UInt64} {b : Nat} {f p : MultistageFilter} {fup : FlowUpdate}

/-- A counter of the plain filter is at most the bytes seen. -/
theorem counter_le (h : Dominated S b f p) {st : StageContainer} (hst : st ∈ p.stages)
    (fid : FlowID) : (st.counter fid).toNat ≤ b := by
  rw [← StageContainer.toRow_read]
  exact h.count_le st hst _

/-- A packet is recorded in every row of the sketch. -/
theorem toSketch_plainFilter (h : Dominated S b f p) (hb : b + fup.dOctets.toNat < 2 ^ 63) :
    (p.plainFilter fup).2.toSketch =
      Sketch.record p.toSketch fup.fid fup.dOctets.toNat := by
  rw [toSketch, plainFilter, mapStages_stages, Sketch.record, toSketch, List.map_map, List.map_map]
  apply List.map_congr_left
  intro st hst
  have hle := h.counter_le hst fup.fid
  exact StageContainer.plainUpdate_toRow (by omega)

/-- One packet keeps the plain counters above, and passes the plain filter if it passes the
conservative one. -/
theorem step (h : Dominated S b f p) (hS : S.toNat ≤ maxThreshold) (fup : FlowUpdate)
    (hb : b + fup.dOctets.toNat < 2 ^ 63) :
    Dominated S (b + fup.dOctets.toNat) (f.filter fup).2 (p.plainFilter fup).2 ∧
      ((f.filter fup).1 = true → (p.plainFilter fup).1 = true) := by
  obtain ⟨hans, hrows, -⟩ := filter_refines fup hS h.sound.threshold h.sound.bounded
  refine ⟨{ sound := h.sound.filter fup, threshold := ?_, count_le := ?_, below := ?_ }, ?_⟩
  · exact h.threshold.mapStages fun _ => rfl
  · refine forall_mapStages.mpr fun st hst i => ?_
    have hread := h.counter_le hst fup.fid
    have hcount := h.count_le st hst i
    rw [StageContainer.plainUpdate_toRow (by omega), Row.add_count, StageContainer.toRow_read]
    split <;> omega
  · rw [hrows, h.toSketch_plainFilter hb]
    exact h.below.offer fup.fid fup.dOctets.toNat
  · intro hpass
    rw [hans] at hpass
    have hover := h.below.pass hpass
    unfold plainFilter
    rw [List.all_eq_true]
    intro st hst
    have hrow := hover st.toRow (List.mem_map_of_mem hst)
    have hread := h.counter_le hst fup.fid
    rw [StageContainer.toRow_read] at hrow
    -- the sum of `check` does not wrap
    have hsum : (st.counter fup.fid + fup.dOctets.toUInt64).toNat =
        (st.counter fup.fid).toNat + fup.dOctets.toNat := toNat_add_of_lt (by omega)
    simp only [StageContainer.check, h.threshold st hst, gt_iff_lt, UInt64.lt_iff_toNat_lt, hsum]
    exact decide_eq_true hrow

/-- A whole sequence. Induction on the packets. -/
theorem run (h : Dominated S b f p) (hS : S.toNat ≤ maxThreshold) {fups : List FlowUpdate}
    (hb : b + totalBytes fups < 2 ^ 63) {k : Nat} (hk : (f.filterAll fups).1[k]? = some true) :
    (p.plainFilterAll fups).1[k]? = some true := by
  induction fups generalizing b f p k with
  | nil => simp [filterAll] at hk
  | cons fup fups ih =>
    rw [totalBytes_cons] at hb
    -- both filters take the first packet, and if the first lets it pass so does the second
    obtain ⟨hnext, hpass⟩ := h.step hS fup (by omega)
    rw [filterAll_cons] at hk
    cases k with
    | zero =>
      simp only [List.getElem?_cons_zero, Option.some.injEq] at hk
      simp [plainFilterAll, hpass hk]
    | succ k =>
      simp only [List.getElem?_cons_succ] at hk
      -- the rest of the sequence, on the filters after it
      exact ih hnext (by omega) hk

end Dominated

/-- **Conservative update never admits more.** From reset counters under a common threshold of at
most `2 ^ 39`, on packets of fewer than `2 ^ 63` bytes together: whenever the filter passes the
`k`-th packet, so does the plain filter. -/
theorem plain_passes_of_passes (f : MultistageFilter) (S : UInt64) (hthr : f.HasThreshold S)
    (hS : S.toNat ≤ 2 ^ 39) (fups : List FlowUpdate) (hbytes : totalBytes fups < 2 ^ 63) (k : Nat)
    (hk : (f.reset.filterAll fups).1[k]? = some true) :
    (f.reset.plainFilterAll fups).1[k]? = some true :=
  (dominated_reset (storable_of_le_maxThreshold hS) hthr).run hS (by omega) hk

/-- The second of two packets of 300 bytes takes the counter over 500. -/
theorem plain_passes_of_passes_oneStage :
    (oneStage.reset.plainFilterAll
      [⟨⟨1, 9, 1000, 80, 6⟩, 300, 54⟩, ⟨⟨1, 9, 1000, 80, 6⟩, 300, 54⟩]).1[1]? = some true :=
  plain_passes_of_passes oneStage (oversampled 5) (init_hasThreshold _ _ _ 5)
    (oversampled_le_maxThreshold 5) _ (by decide) 1 (by decide +kernel)

end MultistageFilter

end FHF
