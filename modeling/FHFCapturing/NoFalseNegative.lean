import FHFCapturing.MonotoneCounters
import FHFCapturing.Worker

/-!
# When a heavy flow cannot escape the filter

A multistage filter has no false negatives: a flow whose bytes since the counters were reset
exceed the stage threshold must have been admitted. The reason is that every counter of a flow
that is still outside the table is at least the bytes the flow has sent (`Tracked`), so the
packet that takes it over the threshold finds every stage above it.

`conservativeUpdate` does not keep that invariant. Its comment says that a counter above the cap
is not incremented; the code stores the cap there, and so takes the counter *back* whenever the
cap, which comes from the dropped packet's own first failing stage, is below the value other
flows left in it (`LowersCounterOf`). `noFalseNegative_fails` is such a run. The guarantee does
hold in every run in which no packet of another flow takes a counter of the flow back before it
is recorded (`heavyFlow_recorded`).
-/

namespace FHF

open MultistageFilter Worker

variable {P : IterMap.Placement FlowID FlowDescriptor}

/-- Handling `fup` would take one of the counters of the unrecorded flow `f` back: `fup` belongs to
another unrecorded flow, some stage drops it, and the cap (the counter of the first failing
stage plus the packet) lies below a counter the two flows share and that is still under the
threshold. -/
def LowersCounterOf (f : FlowID) (w : Worker) (fup : FlowUpdate) : Prop :=
  fup.fid ≠ f ∧ w.ht.lookupFlow f = false ∧ w.ht.lookupFlow fup.fid = false ∧
    ∃ low, w.mfilter.firstFailing fup = some low ∧
      ∃ st ∈ w.mfilter.stages, st.hfun f = st.hfun fup.fid ∧
        (low.counter fup.fid).toNat + fup.dOctets.toNat < (st.counter f).toNat ∧
        st.counter f < st.threshold

/-- The state of a flow the filter still keeps out of the table: the counters are bounded by the
common threshold and cover the `b` bytes the flow has sent. -/
structure Tracked (S : UInt64) (f : FlowID) (b : Nat) (w : Worker) : Prop where
  threshold : w.mfilter.HasThreshold S
  bounded : Sketch.Bounded S.toNat w.mfilter.toSketch
  covers : Sketch.Covers w.mfilter.toSketch f b
  unrecorded : w.ht.lookupFlow f = false

/-- A tracked flow has sent no more than the threshold: its counters, of which there is at least
one, are in between. -/
theorem Tracked.le_threshold {S : UInt64} {f : FlowID} {b : Nat} {w : Worker}
    (h : Tracked S f b w) : b ≤ S.toNat := by
  obtain ⟨st, hst⟩ := List.exists_mem_of_ne_nil _ w.mfilter.stages_ne_nil
  have hrow : st.toRow ∈ w.mfilter.toSketch := List.mem_map_of_mem hst
  exact (h.covers _ hrow).trans (h.bounded _ hrow _)

section Step

variable {S : UInt64} {f : FlowID} {b : Nat} {w w' : Worker} {fup : FlowUpdate}

/-- A packet that lowers a counter of the sketch lowers it in the code. -/
theorem lowersCounterOf_of_lowers (hS : S.toNat ≤ 2 ^ 39) (h : Tracked S f b w)
    (hne : fup.fid ≠ f) (hnew : w.ht.lookupFlow fup.fid = false)
    (hlow : Sketch.Lowers S.toNat w.mfilter.toSketch fup.fid fup.dOctets.toNat f) :
    LowersCounterOf f w fup := by
  obtain ⟨row, hfirst, r, hr, hshare, hcap, hlt⟩ := hlow
  rw [firstLow_toSketch fup hS h.threshold h.bounded] at hfirst
  obtain ⟨low, hfail, rfl⟩ := Option.map_eq_some_iff.mp hfirst
  obtain ⟨st, hst, rfl⟩ := List.mem_map.mp hr
  simp only [StageContainer.toRow_read] at hcap hlt
  refine ⟨hne, h.unrecorded, hnew, low, hfail, st, hst, Fin.ext hshare, hcap, ?_⟩
  rw [h.threshold st hst, UInt64.lt_iff_toNat_lt]
  exact hlt

/-- One packet: the flow is recorded, or it stays tracked with the packet's bytes added if the
packet is its own. -/
theorem Tracked.step (hS : S.toNat ≤ 2 ^ 39) (h : Tracked S f b w)
    (hno : ¬ LowersCounterOf f w fup) (hsvc : Svc P w fup w') :
    w'.ht.lookupFlow f = true ∨
      Tracked S f (b + if fup.fid = f then fup.dOctets.toNat else 0) w' := by
  obtain ⟨hans, hrows, hthr⟩ := filter_refines fup hS h.threshold h.bounded
  have hbound := bounded_filter fup hS h.threshold h.bounded
  cases hrec : w'.ht.lookupFlow f with
  | true => exact Or.inl rfl
  | false =>
    refine Or.inr ?_
    by_cases hself : fup.fid = f
    · -- the flow's own packet was dropped, so it is covered by the updated counters
      subst hself
      have hdrop : (w.mfilter.filter fup).1 = false := by
        rw [← hsvc.lookup_self h.unrecorded, hrec]
      cases hsvc with
      | recorded hlook => rw [h.unrecorded] at hlook; cases hlook
      | admitted _ hpass => rw [hdrop] at hpass; cases hpass
      | dropped _ _ =>
        rw [hans] at hdrop
        refine ⟨hthr, hbound, ?_, h.unrecorded⟩
        rw [if_pos rfl, hrows]
        exact Sketch.covers_offer_self h.covers hdrop
    · -- another flow's packet; only a dropped one changes counters
      rw [if_neg hself, Nat.add_zero]
      cases hsvc with
      | recorded _ => exact ⟨h.threshold, h.bounded, h.covers, hrec⟩
      | admitted _ _ => exact ⟨h.threshold, h.bounded, h.covers, hrec⟩
      | dropped hnew _ =>
        refine ⟨hthr, hbound, ?_, hrec⟩
        rw [hrows]
        exact Sketch.covers_offer_of_not_lowers h.covers fun hlow =>
          hno (lowersCounterOf_of_lowers hS h hself hnew hlow)

/-- A whole run: the flow is recorded or tracked with all its bytes. Once recorded it stays
recorded. -/
theorem Tracked.run (hS : S.toNat ≤ 2 ^ 39) {fups : List FlowUpdate} (h : Tracked S f b w)
    (hkeep : Run.AllSteps (svc P) (fun w fup => ¬ LowersCounterOf f w fup) w fups) :
    ∃ w', w.svcAll P fups = .ok w' ∧
      (w'.ht.lookupFlow f = true ∨ Tracked S f (b + bytesOf f fups) w') := by
  refine Run.run_events_invariant_of_allSteps
    (I := fun pre w' => w'.ht.lookupFlow f = true ∨ Tracked S f (b + bytesOf f pre) w')
    ?_ (Or.inr h) hkeep
  intro pre w fup hI hno
  obtain ⟨w', hok, hsvc⟩ := svc_cases P w fup
  refine ⟨w', hok, ?_⟩
  rw [bytesOf_append, bytesOf_singleton, ← Nat.add_assoc]
  rcases hI with hrec | htrack
  · -- recorded once, recorded for ever
    exact Or.inl (hsvc.lookup_mono hrec)
  · -- not yet recorded: no counter of the flow has been taken back, so they cover its bytes
    exact htrack.step hS hno hsvc

end Step

/-- **No false negatives without a counter taken back.** Start from reset counters under a common
stage threshold `S`, with `f` not recorded. If the bytes of `f` in the packets `pre` exceed `S`,
and none of these takes back a counter of `f` while it is unrecorded, then `f` is recorded after
`pre`, and still is after any further packets `post`. -/
theorem heavyFlow_recorded (w : Worker) (S : UInt64) (hS : S.toNat ≤ 2 ^ 39)
    (hthr : w.mfilter.HasThreshold S) (f : FlowID) (hnew : w.ht.lookupFlow f = false)
    (pre post : List FlowUpdate)
    (hkeep : Run.AllSteps (svc P) (fun w fup => ¬ LowersCounterOf f w fup) w.clean_filter pre)
    (hbytes : S.toNat < bytesOf f pre) :
    ∃ w₁ w₂, w.clean_filter.svcAll P pre = .ok w₁ ∧ w₁.ht.lookupFlow f = true ∧
      w₁.svcAll P post = .ok w₂ ∧ w₂.ht.lookupFlow f = true := by
  have hstart : Tracked S f 0 w.clean_filter :=
    ⟨hthr.reset, bounded_reset w.mfilter S.toNat, Sketch.covers_zero _ f, hnew⟩
  obtain ⟨w₁, hrun, hout⟩ := hstart.run hS hkeep
  have hrec : w₁.ht.lookupFlow f = true := by
    refine hout.resolve_right fun htrack => ?_
    -- a tracked flow has sent no more than the threshold
    have hle := htrack.le_threshold
    omega
  obtain ⟨w₂, hrun₂, hrec₂⟩ := svcAll_recorded hrec post
  exact ⟨w₁, w₂, hrun, hrec, hrun₂, hrec₂⟩

/-! ## A heavy flow that escapes -/

namespace Lowering

/-- Two stages under the threshold 100. -/
def worker : Worker := Worker.new 1201 [byteStage, StageContainer.zeroHash] (List.cons_ne_nil _ _) 1

/-- The other flow's 20 bytes take the shared counter from 60 back to 20. -/
def packets : List FlowUpdate := [⟨heavy, 60, 54⟩, ⟨other, 20, 54⟩, ⟨heavy, 60, 54⟩]

/-- The factor of 100 is applied once. -/
theorem worker_threshold : worker.mfilter.HasThreshold 100 := by
  intro st hst
  simp only [worker, Worker.new, MultistageFilter.init, List.map_cons, List.map_nil,
    List.mem_cons, List.not_mem_nil, or_false] at hst
  rcases hst with rfl | rfl <;> rfl

/-- After the packets the heavy flow is not recorded. -/
theorem packets_dropped :
    (worker.clean_filter.svcAll .atEnd packets).map (·.ht.lookupFlow heavy) = .ok false := by
  decide

end Lowering

/-- The guarantee as it should be, for every run from reset counters, fails: the heavy flow sends
120 bytes over a threshold of 100 and is not recorded. -/
theorem noFalseNegative_fails :
    ¬ ∀ (P : IterMap.Placement FlowID FlowDescriptor) (w : Worker) (S : UInt64),
      S.toNat ≤ 2 ^ 39 → w.mfilter.HasThreshold S → ∀ f : FlowID, w.ht.lookupFlow f = false →
      ∀ fups : List FlowUpdate, S.toNat < bytesOf f fups →
        ∃ w', w.clean_filter.svcAll P fups = .ok w' ∧ w'.ht.lookupFlow f = true := by
  intro hall
  obtain ⟨w', hrun, hrec⟩ := hall .atEnd Lowering.worker 100 (by decide)
    Lowering.worker_threshold Lowering.heavy rfl Lowering.packets (by decide)
  have hdropped := Lowering.packets_dropped
  rw [hrun] at hdropped
  simp only [Except.map, Except.ok.injEq] at hdropped
  rw [hrec] at hdropped
  cases hdropped

/-- The other flow's packet coming first takes nothing back, and the heavy flow is recorded. -/
theorem heavyFlow_recorded_lowering :
    ∃ w₁ w₂, Lowering.worker.clean_filter.svcAll .atEnd
        [⟨Lowering.other, 20, 54⟩, ⟨Lowering.heavy, 60, 54⟩, ⟨Lowering.heavy, 60, 54⟩] = .ok w₁ ∧
      w₁.ht.lookupFlow Lowering.heavy = true ∧
      w₁.svcAll .atEnd [⟨Lowering.heavy, 60, 54⟩] = .ok w₂ ∧
      w₂.ht.lookupFlow Lowering.heavy = true := by
  refine heavyFlow_recorded Lowering.worker 100 (by decide) Lowering.worker_threshold
    Lowering.heavy rfl _ _ ?_ (by decide)
  -- counters are zero at the first packet; the other packets are the flow's own
  refine ⟨?_, fun w₁ _ => ⟨fun h => h.1 rfl, fun w₂ _ => ⟨fun h => h.1 rfl, fun _ _ => trivial⟩⟩⟩
  rintro ⟨-, -, -, low, -, st, hst, -, hlt, -⟩
  obtain ⟨st₀, -, rfl⟩ := List.mem_map.mp hst
  simp at hlt

end FHF
