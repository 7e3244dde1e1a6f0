import FHFCapturing.MonotoneCounters
import FHFCapturing.Worker

/-!
# A flow alone on its counters

Where a flow shares no counter with the other flows of a run, the filter measures it exactly:
each of its counters is its bytes so far (`Measured`), and the packet that takes these over the
stage threshold is the one that admits it (`recorded_iff_over`). The cap then never cuts
anything off, and the skip at the threshold only skips packets of no bytes.
-/

namespace FHF

open MultistageFilter Worker

variable {P : IterMap.Placement FlowID FlowDescriptor}

/-- The state of a flow that is still outside the table and shares no counter with the flows of
`G`: all its counters are the `b` bytes it has sent. -/
structure Measured (S : UInt64) (f : FlowID) (G : FlowID → Prop) (b : Nat) (w : Worker) : Prop where
  threshold : w.mfilter.HasThreshold S
  bounded : Sketch.Bounded S.toNat w.mfilter.toSketch
  exactly : Sketch.Exact w.mfilter.toSketch f b
  alone : Sketch.Alone w.mfilter.toSketch f G
  unrecorded : w.ht.lookupFlow f = false

namespace Measured

variable {S : UInt64} {f : FlowID} {G : FlowID → Prop} {b : Nat} {w w' : Worker} {fup : FlowUpdate}

theorem toSketch_ne_nil (w : Worker) : w.mfilter.toSketch ≠ [] := by
  simpa [toSketch] using w.mfilter.stages_ne_nil

theorem counter_eq (h : Measured S f G b w) {st : StageContainer} (hst : st ∈ w.mfilter.stages) :
    (st.counter f).toNat = b := by
  rw [← StageContainer.toRow_read]
  exact h.exactly _ (List.mem_map_of_mem hst)

/-- A measured flow has sent no more than the threshold. -/
theorem le_threshold (h : Measured S f G b w) : b ≤ S.toNat := by
  obtain ⟨st, hst⟩ := List.exists_mem_of_ne_nil _ w.mfilter.stages_ne_nil
  rw [← h.counter_eq hst]
  exact counter_le_of_bounded h.bounded hst f

/-- The flow's own packet admits it if it takes its bytes over the threshold, and otherwise is
added to all its counters. -/
theorem step_own (hS : S.toNat ≤ maxThreshold) (h : Measured S f G b w) (hf : fup.fid = f)
    (hsvc : Svc P w fup w') :
    (w'.ht.lookupFlow f = true ∧ S.toNat < b + fup.dOctets.toNat) ∨
      Measured S f G (b + fup.dOctets.toNat) w' := by
  subst hf
  obtain ⟨hans, hrows, hthr⟩ := filter_refines fup hS h.threshold h.bounded
  have hlook := hsvc.lookup_self h.unrecorded
  cases hsvc with
  | recorded hrec => rw [h.unrecorded] at hrec; cases hrec
  | admitted _ hpass =>
    -- every counter of the flow is exact, so what passes is over the threshold
    rw [hpass] at hlook
    rw [hans] at hpass
    exact Or.inl ⟨hlook, Sketch.exact_offer_pass h.exactly (toSketch_ne_nil w) hpass⟩
  | dropped hnew hdrop =>
    rw [hans] at hdrop
    refine Or.inr { threshold := hthr, bounded := bounded_filter fup hS h.threshold h.bounded
                    exactly := ?_, alone := ?_, unrecorded := hnew }
    · rw [hrows]
      exact (Sketch.exact_offer_self h.exactly hdrop).1
    · rw [hrows]
      exact Sketch.alone_offer h.alone _ _

/-- A packet of a flow of `G` leaves the counters of `f` as they are. -/
theorem step_other (hS : S.toNat ≤ maxThreshold) (h : Measured S f G b w) (hf : fup.fid ≠ f)
    (hG : G fup.fid) (hsvc : Svc P w fup w') : Measured S f G b w' := by
  obtain ⟨-, hrows, hthr⟩ := filter_refines fup hS h.threshold h.bounded
  -- the packet of another flow records only that flow
  have hnew : w'.ht.lookupFlow f = false := by
    rw [HashTable.lookupFlow_eq, hsvc.descriptor?_of_ne (Ne.symm hf), ← HashTable.lookupFlow_eq]
    exact h.unrecorded
  cases hsvc with
  -- only a drop changes the filter
  | recorded _ => exact { h with unrecorded := hnew }
  | admitted _ _ => exact { h with unrecorded := hnew }
  | dropped _ _ =>
    refine { threshold := hthr, bounded := bounded_filter fup hS h.threshold h.bounded
             exactly := ?_, alone := ?_, unrecorded := hnew }
    · rw [hrows]
      -- it hashes elsewhere in every stage, so the counters of `f` stay
      exact Sketch.exact_offer_of_ne h.exactly fun r hr => h.alone r hr _ hG
    · rw [hrows]
      exact Sketch.alone_offer h.alone _ _

/-- One packet, of the flow itself or of a flow of `G`. -/
theorem step (hS : S.toNat ≤ maxThreshold) (h : Measured S f G b w)
    (hG : fup.fid ≠ f → G fup.fid) (hsvc : Svc P w fup w') :
    (w'.ht.lookupFlow f = true ∧ S.toNat < b + bytesOf f [fup]) ∨
      Measured S f G (b + bytesOf f [fup]) w' := by
  rw [bytesOf_singleton]
  by_cases hf : fup.fid = f
  · rw [if_pos hf]
    exact h.step_own hS hf hsvc
  · rw [if_neg hf]
    exact Or.inr (h.step_other hS hf (hG hf) hsvc)

/-- A whole run: the flow has been admitted with bytes over the threshold, or is measured with
all its bytes. Once recorded it stays recorded. -/
theorem run (hS : S.toNat ≤ maxThreshold) {fups : List FlowUpdate} (h : Measured S f G b w)
    (hG : ∀ fup ∈ fups, fup.fid ≠ f → G fup.fid) :
    ∃ w', w.svcAll P fups = .ok w' ∧
      ((w'.ht.lookupFlow f = true ∧ S.toNat < b + bytesOf f fups) ∨
        Measured S f G (b + bytesOf f fups) w') := by
  refine Run.run_events_invariant_of_allSteps
    (I := fun pre w' => (w'.ht.lookupFlow f = true ∧ S.toNat < b + bytesOf f pre) ∨
      Measured S f G (b + bytesOf f pre) w')
    (C := fun _ fup => fup.fid ≠ f → G fup.fid) ?_ (Or.inr h)
    (Run.allSteps_of_forall (fun fup hfup _ => hG fup hfup) w)
  intro pre w fup hI hfup
  obtain ⟨w', hok, hsvc⟩ := svc_cases P w fup
  refine ⟨w', hok, ?_⟩
  rw [bytesOf_append, ← Nat.add_assoc]
  -- recorded before, and still
  rcases hI with ⟨hrec, hover⟩ | hmeas
  · exact Or.inl ⟨hsvc.lookup_mono hrec, by omega⟩
  · -- not recorded yet: one packet by the step lemma
    exact hmeas.step hS hfup hsvc

end Measured

/-- **Exact measurement without collisions.** Start from reset counters under a common stage
threshold `S`, with `f` not recorded, and let the packets `fups` come, none of whose other flows
shares a counter with `f` in any stage. After every prefix of them `f` is recorded iff its bytes
so far exceed `S`, and as long as they do not each of its counters is its bytes so far. -/
theorem recorded_iff_over (P : IterMap.Placement FlowID FlowDescriptor) (w : Worker) (S : UInt64)
    (hS : S.toNat ≤ 2 ^ 39) (hthr : w.mfilter.HasThreshold S) (f : FlowID)
    (hnew : w.ht.lookupFlow f = false) (fups : List FlowUpdate)
    (halone : ∀ fup ∈ fups, fup.fid ≠ f → ∀ st ∈ w.mfilter.stages, st.hfun f ≠ st.hfun fup.fid)
    (pre : List FlowUpdate) (hpre : pre <+: fups) :
    ∃ w', w.clean_filter.svcAll P pre = .ok w' ∧
      (w'.ht.lookupFlow f = true ↔ S.toNat < bytesOf f pre) ∧
      (bytesOf f pre ≤ S.toNat →
        ∀ st ∈ w'.mfilter.stages, (st.counter f).toNat = bytesOf f pre) := by
  let G : FlowID → Prop := fun g => ∃ fup ∈ fups, fup.fid = g ∧ g ≠ f
  -- the analyzer has just reset the filter
  have hstart : Measured S f G 0 w.clean_filter := by
    refine { threshold := hthr.reset, bounded := bounded_reset w.mfilter S.toNat
             exactly := ?_, alone := ?_, unrecorded := hnew }
    · exact List.forall_mem_map.mpr (forall_mapStages.mpr fun st _ =>
        StageContainer.toRow_reset_count st _)
    · refine List.forall_mem_map.mpr (forall_mapStages.mpr fun st hst => ?_)
      rintro g ⟨fup, hfup, rfl, hne⟩ heq
      exact halone fup hfup hne st hst (StageContainer.toRow_hash_eq.mp heq)
  have hG : ∀ fup ∈ pre, fup.fid ≠ f → G fup.fid := fun fup hfup hne =>
    ⟨fup, hpre.subset hfup, rfl, hne⟩
  obtain ⟨w', hrun, hout⟩ := hstart.run (P := P) hS hG
  rw [Nat.zero_add] at hout
  refine ⟨w', hrun, ?_⟩
  rcases hout with ⟨hrec, hover⟩ | hmeas
  · -- recorded: the bytes seen are over the threshold
    exact ⟨iff_of_true hrec hover, fun hle => absurd hover (Nat.not_lt.mpr hle)⟩
  · -- still measured by its counters alone
    have hle := hmeas.le_threshold
    refine ⟨iff_of_false ?_ (by omega), fun _ st hst => hmeas.counter_eq hst⟩
    rw [hmeas.unrecorded]
    exact Bool.false_ne_true

namespace Measured

theorem byteStage_ne_nil : [Lowering.byteStage] ≠ [] := List.cons_ne_nil _ _

/-- One stage, in which the two flows have counters of their own. -/
def worker : Worker := Worker.new 1201 [Lowering.byteStage] byteStage_ne_nil 1

/-- Two packets of the flow, and one between them of a flow that shares no counter with it. -/
def packets : List FlowUpdate :=
  [⟨Lowering.heavy, 60, 54⟩, ⟨Lowering.other, 20, 54⟩, ⟨Lowering.heavy, 60, 54⟩]

end Measured

theorem recorded_iff_over_worker :
    ∃ w', Measured.worker.clean_filter.svcAll .atEnd Measured.packets = .ok w' ∧
      (w'.ht.lookupFlow Lowering.heavy = true ↔
        (oversampled 1).toNat < bytesOf Lowering.heavy Measured.packets) ∧
      (bytesOf Lowering.heavy Measured.packets ≤ (oversampled 1).toNat →
        ∀ st ∈ w'.mfilter.stages,
          (st.counter Lowering.heavy).toNat = bytesOf Lowering.heavy Measured.packets) :=
  recorded_iff_over .atEnd Measured.worker (oversampled 1) (oversampled_le_maxThreshold 1)
    (init_hasThreshold _ _ Measured.byteStage_ne_nil 1) Lowering.heavy rfl Measured.packets
    (by decide) Measured.packets (List.prefix_refl _)

end FHF
