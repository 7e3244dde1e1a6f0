import FHFCapturing.FilterRun

/-!
# Counters within an interval

Conservative update means that between two resets no counter falls: a packet raises the counters
of its flow up to the cap, and a counter above the cap stays as it is. The source says so
(`no increment if oldVal > max`) and `conservativeUpdate` does not do so: below the threshold it
stores the cap in every counter whose sum would exceed it, and so lowers the counters that
already were above it. A packet keeps the counters (`CountersKept`) exactly when every counter
above its cap has reached the threshold (`CapRespected`).
-/

namespace FHF

namespace MultistageFilter

/-- The cap of a drop: the minimum of the checking loop plus the packet. -/
def cap (f : MultistageFilter) (fup : FlowUpdate) : UInt64 :=
  (f.checkLoop fup).minVal + fup.dOctets.toUInt64

/-- What a packet should do to the counters: lower none, leave those above the cap as they are,
and touch no others than its flow's. -/
structure CountersKept (f : MultistageFilter) (fup : FlowUpdate) : Prop where
  not_lower : List.Forall₂ (fun st st' => ∀ i, st.toRow.count i ≤ st'.toRow.count i)
    f.stages (f.filter fup).2.stages
  above_cap : List.Forall₂ (fun st st' => f.cap fup < st.counter fup.fid →
    st'.toRow.count (st.toRow.hash fup.fid) = st.toRow.count (st.toRow.hash fup.fid))
    f.stages (f.filter fup).2.stages
  untouched : List.Forall₂ (fun st st' => ∀ i, i ≠ st.toRow.hash fup.fid →
    st'.toRow.count i = st.toRow.count i) f.stages (f.filter fup).2.stages

/-- Every counter of the packet's flow that is above the cap, which the first failing stage sets,
has reached the threshold. -/
def CapRespected (f : MultistageFilter) (fup : FlowUpdate) : Prop :=
  ∀ low, f.firstFailing fup = some low → ∀ st ∈ f.stages,
    toDouble (low.counter fup.fid + fup.dOctets.toUInt64) < (st.counter fup.fid).toNat →
      st.threshold ≤ st.counter fup.fid

instance (f : MultistageFilter) (fup : FlowUpdate) : Decidable (CapRespected f fup) :=
  inferInstanceAs (Decidable (∀ low ∈ f.firstFailing fup, ∀ st ∈ f.stages,
    toDouble (low.counter fup.fid + fup.dOctets.toUInt64) < (st.counter fup.fid).toNat →
      st.threshold ≤ st.counter fup.fid))

/-- A relation between the stages before and after is one on each stage. -/
theorem forall₂_mapStages {f : MultistageFilter} {g : StageContainer → StageContainer}
    {R : StageContainer → StageContainer → Prop} :
    List.Forall₂ R f.stages (f.mapStages g).stages ↔ ∀ st ∈ f.stages, R st (g st) := by
  rw [mapStages_stages, List.forall₂_map_right_iff, List.forall₂_same]

theorem forall₂_trans {α : Type*} {R : α → α → Prop} (hR : ∀ {a b c}, R a b → R b c → R a c)
    {l₁ l₂ l₃ : List α} (h₁ : List.Forall₂ R l₁ l₂) (h₂ : List.Forall₂ R l₂ l₃) :
    List.Forall₂ R l₁ l₃ := by
  induction h₁ generalizing l₃ with
  | nil => exact h₂
  | cons hab _ ih =>
    cases h₂ with
    | cons hbc htail => exact .cons (hR hab hbc) (ih htail)

section Step

open Rounding

variable {S : UInt64} {f : MultistageFilter} {fup : FlowUpdate} {low : StageContainer}

/-- The minimum of the checking loop is the counter of the first failing stage. -/
theorem Sound.cap_eq (h : f.Sound S) (hlow : f.firstFailing fup = some low) :
    f.cap fup = low.counter fup.fid + fup.dOctets.toUInt64 := by
  unfold cap
  rw [h.minVal_of_failing hlow]

section Drop

variable {st : StageContainer}

/-- A drop changes the counter of the packet's flow only. -/
theorem Sound.count_of_ne (h : f.Sound S) (hlow : f.firstFailing fup = some low)
    (hst : st ∈ f.stages) {i : Nat} (hi : i ≠ st.toRow.hash fup.fid) :
    (st.conservativeUpdate fup
      (toDouble (low.counter fup.fid + fup.dOctets.toUInt64))).toRow.count i =
        st.toRow.count i := by
  rw [h.conservativeUpdate_count hst (h.cap_spec hlow).2.2.2, if_neg fun hup => hi hup.1]

/-- The counter of the packet's flow after a drop. -/
theorem Sound.count_hash (h : f.Sound S) (hlow : f.firstFailing fup = some low)
    (hst : st ∈ f.stages) :
    (st.conservativeUpdate fup
      (toDouble (low.counter fup.fid + fup.dOctets.toUInt64))).toRow.count
        (st.toRow.hash fup.fid) =
      if (st.counter fup.fid).toNat < S.toNat then
        min (roundBits 53 ((st.counter fup.fid).toNat + fup.dOctets.toNat))
          (toDouble (low.counter fup.fid + fup.dOctets.toUInt64))
      else (st.counter fup.fid).toNat := by
  rw [h.conservativeUpdate_count hst (h.cap_spec hlow).2.2.2, ← StageContainer.toRow_read,
    Row.read]
  simp only [true_and]

/-- A counter is a `double`, so rounding its sum with the packet does not take it below. -/
theorem Sound.counter_le_roundBits (h : f.Sound S) (hst : st ∈ f.stages) (fup : FlowUpdate) :
    (st.counter fup.fid).toNat ≤
      roundBits 53 ((st.counter fup.fid).toNat + fup.dOctets.toNat) :=
  (h.counter_fits hst fup.fid).le_roundBits (by omega) (Nat.le_add_right _ _)

/-- A drop lowers the counter of the packet's flow exactly when it is above the cap and below the
threshold. -/
theorem Sound.not_lower_iff (h : f.Sound S) (hlow : f.firstFailing fup = some low)
    (hst : st ∈ f.stages) :
    (∀ i, st.toRow.count i ≤ (st.conservativeUpdate fup
        (toDouble (low.counter fup.fid + fup.dOctets.toUInt64))).toRow.count i) ↔
      (toDouble (low.counter fup.fid + fup.dOctets.toUInt64) < (st.counter fup.fid).toNat →
        S.toNat ≤ (st.counter fup.fid).toNat) := by
  have hread : st.toRow.count (st.toRow.hash fup.fid) = (st.counter fup.fid).toNat :=
    StageContainer.toRow_read st fup.fid
  -- the counter is below the rounded sum, so the minimum can lower it only by the cap
  have hround := h.counter_le_roundBits hst fup
  have hself := h.count_hash hlow hst
  constructor
  · -- a counter above the cap that may be stored is stored as the cap
    intro hnot habove
    have hcount := hnot (st.toRow.hash fup.fid)
    rw [hread, hself] at hcount
    split at hcount <;> omega
  · intro habove i
    by_cases hi : i = st.toRow.hash fup.fid
    · -- the counter of the flow
      rw [hi, hread, hself]
      split <;> omega
    · -- all other counters of the stage stay
      rw [h.count_of_ne hlow hst hi]

/-- A counter above the cap stays, if the drop does not lower it: the cap, a sum, is rounded to
the counter at most. -/
theorem Sound.count_of_above_cap (h : f.Sound S) (hlow : f.firstFailing fup = some low)
    (hst : st ∈ f.stages)
    (hnot : toDouble (low.counter fup.fid + fup.dOctets.toUInt64) < (st.counter fup.fid).toNat →
      S.toNat ≤ (st.counter fup.fid).toNat) (habove : f.cap fup < st.counter fup.fid) :
    (st.conservativeUpdate fup
      (toDouble (low.counter fup.fid + fup.dOctets.toUInt64))).toRow.count
        (st.toRow.hash fup.fid) = st.toRow.count (st.toRow.hash fup.fid) := by
  have hread : st.toRow.count (st.toRow.hash fup.fid) = (st.counter fup.fid).toNat :=
    StageContainer.toRow_read st fup.fid
  have hround := h.counter_le_roundBits hst fup
  -- a counter above the exact cap is above the rounded one, since it is a `double` itself
  have hcap : toDouble (low.counter fup.fid + fup.dOctets.toUInt64) ≤
      (st.counter fup.fid).toNat := by
    rw [h.cap_eq hlow, UInt64.lt_iff_toNat_lt] at habove
    exact (h.counter_fits hst fup.fid).roundBits_le (by omega) habove.le
  rw [hread, h.count_hash hlow hst]
  split <;> omega

end Drop

/-- **One packet** keeps the counters exactly when it respects the cap. -/
theorem Sound.countersKept_iff (h : f.Sound S) (fup : FlowUpdate) :
    CountersKept f fup ↔ CapRespected f fup := by
  cases hfirst : f.firstFailing fup with
  | none =>
    -- the packet passes, and no counter changes
    have hpass : (f.filter fup).2 = f := congrArg Prod.snd (h.filter_of_not_failing hfirst)
    refine ⟨fun _ low hlow => (by rw [hfirst] at hlow; cases hlow), fun _ => ?_⟩
    refine { not_lower := ?_, above_cap := ?_, untouched := ?_ } <;> rw [hpass]
    · exact List.forall₂_same.mpr fun _ _ _ => Nat.le_refl _
    · exact List.forall₂_same.mpr fun _ _ _ => rfl
    · exact List.forall₂_same.mpr fun _ _ _ _ => rfl
  | some low =>
    have hdrop := congrArg Prod.snd (h.filter_of_failing hfirst)
    -- what the condition says when `low` is the failing stage that decides
    have hresp : CapRespected f fup ↔ ∀ st ∈ f.stages,
        toDouble (low.counter fup.fid + fup.dOctets.toUInt64) < (st.counter fup.fid).toNat →
          S.toNat ≤ (st.counter fup.fid).toNat := by
      unfold CapRespected
      rw [hfirst]
      simp only [Option.some.injEq, forall_eq', UInt64.le_iff_toNat_le]
      exact forall₂_congr fun st hst => by rw [h.threshold st hst]
    dsimp only at hdrop
    rw [hresp]
    constructor
    · rintro ⟨hnot, -, -⟩
      rw [hdrop, forall₂_mapStages] at hnot
      exact fun st hst => (h.not_lower_iff hfirst hst).mp (hnot st hst)
    · intro hnot
      refine { not_lower := ?_, above_cap := ?_, untouched := ?_ } <;>
        rw [hdrop, forall₂_mapStages] <;> intro st hst
      · exact (h.not_lower_iff hfirst hst).mpr (hnot st hst)
      · exact h.count_of_above_cap hfirst hst (hnot st hst)
      · exact fun i hi => h.count_of_ne hfirst hst hi

end Step

/-! ## Runs -/

section Run

variable {S : UInt64} {f : MultistageFilter}

/-- While every packet keeps the counters, they only grow. Induction on the packets. -/
theorem count_le_filterAll {fups : List FlowUpdate} (hkept : AllPackets CountersKept f fups) :
    List.Forall₂ (fun st st' => ∀ i, st.toRow.count i ≤ st'.toRow.count i)
      f.stages (f.filterAll fups).2.stages := by
  induction fups generalizing f with
  | nil => exact List.forall₂_same.mpr fun _ _ _ => Nat.le_refl _
  | cons fup fups ih =>
    exact forall₂_trans (fun hab hbc i => (hab i).trans (hbc i)) hkept.1.not_lower (ih hkept.2)

/-- **Counters within an interval.** From any reachable state, the packets of a sequence all keep
the counters iff they all respect the cap; and then the counters at the end are at least those at
the start. -/
theorem countersKept_iff_capRespected (f : MultistageFilter) (h : f.Reachable)
    (fups : List FlowUpdate) :
    (AllPackets CountersKept f fups ↔ AllPackets CapRespected f fups) ∧
      (AllPackets CapRespected f fups →
        List.Forall₂ (fun st st' => ∀ i, st.toRow.count i ≤ st'.toRow.count i)
          f.stages (f.filterAll fups).2.stages) := by
  obtain ⟨S, hS⟩ := h.sound
  have hiff : AllPackets CountersKept f fups ↔ AllPackets CapRespected f fups :=
    hS.allPackets_congr (fun _ fup hf => hf.countersKept_iff fup) fups
  exact ⟨hiff, fun hresp => count_le_filterAll (hiff.mpr hresp)⟩

end Run

end MultistageFilter

/-! ## A counter taken back

Two stages of 1201 counters under the stage threshold 100. The first hashes the last byte of the
source address (coefficient 1 for that byte of the key, 0 for the others), the second has all
coefficients 0, so the two flows share their second counter only. -/

namespace Lowering

/-- The hash function of the first stage. -/
def byteStage (fid : FlowID) : Fin (1201 : UInt32).toNat :=
  ⟨fid.srcaddr.toNat % 256, Nat.lt_trans (Nat.mod_lt _ (by decide)) (by decide)⟩

theorem stages_ne_nil : [byteStage, StageContainer.zeroHash] ≠ [] := List.cons_ne_nil _ _

/-- Both stages with no packet seen. -/
def twoStages : MultistageFilter :=
  MultistageFilter.init (1201 : UInt32).toNat [byteStage, StageContainer.zeroHash] stages_ne_nil 1

/-- The flow whose counter falls. -/
def heavy : FlowID := ⟨1, 9, 1000, 80, 6⟩

/-- The flow that shares the second counter with it. -/
def other : FlowID := ⟨2, 9, 1000, 80, 6⟩

/-- After a first packet of 60 bytes both counters of `heavy` are 60. -/
def heavySeen : MultistageFilter := (twoStages.filter ⟨heavy, 60, 54⟩).2

theorem twoStages_reachable : twoStages.Reachable :=
  MultistageFilter.reachable_init _ _ stages_ne_nil 1 (by decide)

theorem heavySeen_reachable : heavySeen.Reachable :=
  twoStages_reachable.filter _

end Lowering

namespace MultistageFilter

open Lowering

/-- The counters fall: the other flow's 20 bytes take the shared counter from 60 to 20. -/
theorem countersKept_fails : ¬ ∀ f : MultistageFilter, f.Reachable → ∀ fup, CountersKept f fup := by
  intro hall
  have hnot := (hall heavySeen heavySeen_reachable ⟨other, 20, 54⟩).not_lower
  have hshared := (List.forall₂_iff_get.mp hnot).2 1 (by decide) (by decide) 0
  revert hshared
  decide +kernel

/-- The first packet finds all counters zero. The second, of the other flow, has the cap 90 and
finds the shared counter at 60, below it. -/
theorem countersKept_iff_capRespected_twoStages :
    List.Forall₂ (fun st st' => ∀ i, st.toRow.count i ≤ st'.toRow.count i)
      twoStages.stages (twoStages.filterAll [⟨heavy, 60, 54⟩, ⟨other, 90, 54⟩]).2.stages :=
  (countersKept_iff_capRespected twoStages twoStages_reachable
    [⟨heavy, 60, 54⟩, ⟨other, 90, 54⟩]).2 ⟨by decide +kernel, by decide +kernel, trivial⟩

end MultistageFilter

end FHF
