import FHFCapturing.Worker

/-!
# Shielding

A packet of a recorded flow is accounted in the table and never reaches the filter. So the filter
cannot tell whether a recorded flow sends anything: with and without that flow's packets a
worker goes through states that differ in that flow's descriptor only (`SameButFor`).
-/

namespace FHF

namespace Worker

variable {P : IterMap.Placement FlowID FlowDescriptor}

/-- Two workers that agree on everything but the descriptor of `f`, which both have. -/
structure SameButFor (f : FlowID) (w₁ w₂ : Worker) : Prop where
  mfilter : w₁.mfilter = w₂.mfilter
  recorded_left : w₁.ht.lookupFlow f = true
  recorded_right : w₂.ht.lookupFlow f = true
  descriptor : ∀ g, g ≠ f → w₁.ht.descriptor? g = w₂.ht.descriptor? g

namespace SameButFor

variable {f : FlowID} {w₁ w₂ w₁' w₂' : Worker} {fup : FlowUpdate}

/-- The two workers have recorded the same flows. -/
theorem lookupFlow (h : SameButFor f w₁ w₂) (g : FlowID) :
    w₁.ht.lookupFlow g = w₂.ht.lookupFlow g := by
  by_cases hg : g = f
  · rw [hg, h.recorded_left, h.recorded_right]
  · rw [HashTable.lookupFlow_eq, HashTable.lookupFlow_eq, h.descriptor g hg]

/-- A packet of `f` changes nothing but that descriptor. -/
theorem svc_own (h : SameButFor f w₁ w₂) (hf : fup.fid = f) (hsvc : Svc P w₁ fup w₁') :
    SameButFor f w₁' w₂ := by
  have hdesc : ∀ g, g ≠ f → w₁'.ht.descriptor? g = w₂.ht.descriptor? g := by
    intro g hg
    rw [hsvc.descriptor?_of_ne (hf ▸ hg), h.descriptor g hg]
  have hrec := h.recorded_left
  have hrec' := hsvc.lookup_mono hrec
  cases hsvc with
  | recorded _ => exact ⟨h.mfilter, hrec', h.recorded_right, hdesc⟩
  | admitted hnew _ => rw [hf, hrec] at hnew; cases hnew
  | dropped hnew _ => rw [hf, hrec] at hnew; cases hnew

/-- A packet finds its flow recorded in both or in neither, and the same filter, so `svc` takes the
same branch in both. -/
theorem svc_both (h : SameButFor f w₁ w₂) (h₁ : Svc P w₁ fup w₁') (h₂ : Svc P w₂ fup w₂') :
    SameButFor f w₁' w₂' := by
  have hlook := h.lookupFlow fup.fid
  have hrec₁ := h₁.lookup_mono h.recorded_left
  have hrec₂ := h₂.lookup_mono h.recorded_right
  -- both workers know the flow or neither does, and the filters answer alike
  cases h₁ with
  | recorded hrec =>
    cases h₂ with
    | recorded _ =>
      refine ⟨h.mfilter, hrec₁, hrec₂, fun g hg => ?_⟩
      rw [HashTable.descriptor?_accounted, HashTable.descriptor?_accounted, h.descriptor g hg]
    | admitted hnew _ => rw [hlook, hnew] at hrec; cases hrec
    | dropped hnew _ => rw [hlook, hnew] at hrec; cases hrec
  | admitted hnew hpass =>
    cases h₂ with
    | recorded hrec => rw [hlook, hrec] at hnew; cases hnew
    | admitted hnew' _ =>
      refine ⟨h.mfilter, hrec₁, hrec₂, fun g hg => ?_⟩
      rw [HashTable.descriptor?_insertFlow hnew, HashTable.descriptor?_insertFlow hnew',
        h.descriptor g hg]
    | dropped _ hdrop => rw [h.mfilter, hdrop] at hpass; cases hpass
  | dropped hnew hdrop =>
    cases h₂ with
    | recorded hrec => rw [hlook, hrec] at hnew; cases hnew
    | admitted _ hpass => rw [h.mfilter, hpass] at hdrop; cases hdrop
    | dropped _ _ =>
      exact ⟨congrArg (fun m => (m.filter fup).2) h.mfilter, hrec₁, hrec₂, h.descriptor⟩

end SameButFor

/-- **Shielding.** For a recorded flow `f` and any packets: leaving the packets of `f` out gives the
same filter, the same recorded flows and the same descriptors of all other flows. -/
theorem shielding (P : IterMap.Placement FlowID FlowDescriptor) (w : Worker) (f : FlowID)
    (hrec : w.ht.lookupFlow f = true) (fups : List FlowUpdate) :
    ∃ w₁ w₂, w.svcAll P fups = .ok w₁ ∧
      w.svcAll P (fups.filter fun fup => decide (fup.fid ≠ f)) = .ok w₂ ∧
      w₁.mfilter = w₂.mfilter ∧ (∀ g, w₁.ht.lookupFlow g = w₂.ht.lookupFlow g) ∧
      ∀ g, g ≠ f → w₁.ht.descriptor? g = w₂.ht.descriptor? g := by
  -- a packet of another flow, in both runs
  have hkeep : ∀ (w₁ w₂ : Worker) (fup : FlowUpdate), SameButFor f w₁ w₂ →
      decide (fup.fid ≠ f) = true →
      ∃ w₁' w₂', w₁.svc P fup = .ok w₁' ∧ w₂.svc P fup = .ok w₂' ∧ SameButFor f w₁' w₂' := by
    intro w₁ w₂ fup h _
    obtain ⟨w₁', hok₁, h₁⟩ := svc_cases P w₁ fup
    obtain ⟨w₂', hok₂, h₂⟩ := svc_cases P w₂ fup
    exact ⟨w₁', w₂', hok₁, hok₂, h.svc_both h₁ h₂⟩
  -- a packet of `f`, in the first run only
  have hskip : ∀ (w₁ w₂ : Worker) (fup : FlowUpdate), SameButFor f w₁ w₂ →
      decide (fup.fid ≠ f) = false → ∃ w₁', w₁.svc P fup = .ok w₁' ∧ SameButFor f w₁' w₂ := by
    intro w₁ w₂ fup h hown
    obtain ⟨w₁', hok₁, h₁⟩ := svc_cases P w₁ fup
    exact ⟨w₁', hok₁, h.svc_own (not_not.mp (of_decide_eq_false hown)) h₁⟩
  have hstart : SameButFor f w w := ⟨rfl, hrec, hrec, fun _ _ => rfl⟩
  obtain ⟨w₁, w₂, hrun₁, hrun₂, h⟩ := Run.run_filter_related hkeep hskip hstart fups
  exact ⟨w₁, w₂, hrun₁, hrun₂, h.mfilter, h.lookupFlow, h.descriptor⟩

namespace SameButFor

def flow : FlowID := ⟨1, 9, 1000, 80, 6⟩

/-- A worker that has recorded one flow. -/
def worker : Worker :=
  { new 1201 [StageContainer.zeroHash] StageContainer.single_ne_nil 5 with
    ht := (HashTable.new 1201).insertFlow .atEnd ⟨flow, 510, 54⟩ }

/-- Packets of the recorded flow around one of another. -/
def packets : List FlowUpdate :=
  [⟨flow, 300, 54⟩, ⟨⟨2, 9, 1000, 80, 6⟩, 300, 54⟩, ⟨flow, 300, 54⟩]

end SameButFor

open SameButFor in
theorem shielding_packets :
    ∃ w₁ w₂, worker.svcAll .atEnd packets = .ok w₁ ∧
      worker.svcAll .atEnd (packets.filter fun fup => decide (fup.fid ≠ flow)) = .ok w₂ ∧
      w₁.mfilter = w₂.mfilter ∧ (∀ g, w₁.ht.lookupFlow g = w₂.ht.lookupFlow g) ∧
      ∀ g, g ≠ flow → w₁.ht.descriptor? g = w₂.ht.descriptor? g :=
  shielding .atEnd worker flow (by decide) packets

end Worker

end FHF
