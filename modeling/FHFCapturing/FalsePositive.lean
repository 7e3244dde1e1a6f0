import FHFCapturing.FilterRun
import FHFCapturing.FlowHash
import FHFCapturing.Schedule
import FHFCapturing.Lib.Collisions

/-!
# Small flows are seldom recorded

The filter admits a flow below the threshold only when other flows share its counters. Its counters
are at most those of the plain sketch, which are the tallies of all packets by index; so when a flow
is recorded, all packets at its index exceed the threshold, in every stage
(`tally_of_recorded`). What its own packets lack to that must collide with it, in each of `d`
stages with hash functions drawn from a universal family, and few draws make it so: the bound is
that of the multistage filter without shielding and conservative update, for any schedule of the
farm in its first interval (`small_flow_seldom_recorded`).
-/

namespace FHF

open MultistageFilter UniversalFamily

/-- What a packet weighs. -/
def FlowUpdate.octets (fup : FlowUpdate) : Nat := fup.dOctets.toNat

/-! ## A recorded flow's counters -/

namespace Worker

/-- The bytes of the packets at the flow's index. -/
def bytesAt (hash : FlowID → Nat) (f : FlowID) (fups : List FlowUpdate) : Nat :=
  Tally.tally (fun fup => hash fup.fid) FlowUpdate.octets (hash f) fups

/-- The filter's counters are below those of the plain sketch, and if the flow is recorded its
counters in the plain sketch exceed the threshold. -/
structure Shared (S : UInt64) (hashes : List (FlowID → Nat)) (f : FlowID) (pre : List FlowUpdate)
    (w : Worker) : Prop where
  sound : w.mfilter.Sound S
  below : Sketch.Below w.mfilter.toSketch
    (Sketch.tallies FlowUpdate.fid FlowUpdate.octets hashes pre)
  recorded : w.ht.lookupFlow f = true → ∀ hash ∈ hashes, S.toNat < bytesAt hash f pre

section Step

variable {P : IterMap.Placement FlowID FlowDescriptor} {S : UInt64}
  {hashes : List (FlowID → Nat)} {f : FlowID} {pre : List FlowUpdate} {w w' : Worker}

theorem Shared.recorded_append (h : Shared S hashes f pre w) (fup : FlowUpdate)
    (hrec : w.ht.lookupFlow f = true) :
    ∀ hash ∈ hashes, S.toNat < bytesAt hash f (pre ++ [fup]) := fun hash hmem =>
  (h.recorded hrec hash hmem).trans_le (Tally.tally_le_of_sublist (List.sublist_append_left _ _) _)

/-- The plain sketch counts every packet, so that the filter's counters stay below its own. -/
theorem Shared.below_append (h : Shared S hashes f pre w) (fup : FlowUpdate) :
    Sketch.Below w.mfilter.toSketch
      (Sketch.tallies FlowUpdate.fid FlowUpdate.octets hashes (pre ++ [fup])) := by
  rw [← Sketch.record_tallies]
  exact h.below.record _ _

/-- The three things a packet can do. -/
theorem Shared.step (hS : S.toNat ≤ maxThreshold) (h : Shared S hashes f pre w)
    {fup : FlowUpdate} (hsvc : Svc P w fup w') : Shared S hashes f (pre ++ [fup]) w' := by
  obtain ⟨hans, hrows, -⟩ := filter_refines fup hS h.sound.threshold h.sound.bounded
  have hother : f ≠ fup.fid → w'.ht.lookupFlow f = true → w.ht.lookupFlow f = true :=
    fun hne hrec => hsvc.lookup_of_ne hne hrec
  cases hsvc with
  | recorded hlook =>
    -- the filter is not asked
    refine ⟨h.sound, h.below_append fup, fun hrec => ?_⟩
    by_cases hf : f = fup.fid
    · exact h.recorded_append fup (hf ▸ hlook)
    · exact h.recorded_append fup (hother hf hrec)
  | admitted hnew hpass =>
    -- the packet passes the plain sketch too
    refine ⟨h.sound, h.below_append fup, fun hrec => ?_⟩
    by_cases hf : f = fup.fid
    · subst hf
      rw [hans] at hpass
      exact h.below.tally_pass hpass
    · exact h.recorded_append fup (hother hf hrec)
  | dropped hnew hdrop =>
    refine ⟨h.sound.filter fup, ?_, fun hrec => h.recorded_append fup hrec⟩
    show Sketch.Below (w.mfilter.filter fup).2.toSketch _
    rw [hrows, ← Sketch.record_tallies]
    exact h.below.offer fup.fid fup.octets

end Step

section New

variable {tableSize threshold : UInt32} {hfuns : List (FlowID → Fin tableSize.toNat)}

/-- The hash functions of the stages. -/
def indices (hfuns : List (FlowID → Fin tableSize.toNat)) : List (FlowID → Nat) :=
  hfuns.map fun h fid => (h fid).val

/-- A new worker's counters are those of the plain sketch of no packets. -/
theorem toSketch_new (hne : hfuns ≠ []) :
    (new tableSize hfuns hne threshold).mfilter.toSketch =
      Sketch.tallies FlowUpdate.fid FlowUpdate.octets (indices hfuns) [] := by
  show ((hfuns.map _).map _) = (hfuns.map _).map _
  rw [List.map_map, List.map_map]
  apply List.map_congr_left
  intro h _
  refine Row.ext rfl (funext fun i => ?_)
  show (StageContainer.init tableSize.toNat h threshold.toUInt64).toRow.count i = 0
  simp [StageContainer.toRow, StageContainer.init]

theorem shared_new (hne : hfuns ≠ []) (f : FlowID) :
    Shared (oversampled threshold.toUInt64) (indices hfuns) f []
      (new tableSize hfuns hne threshold) where
  sound := by
    have hreset := Sound.reset (storable_of_le_maxThreshold (oversampled_le_maxThreshold threshold))
      (init_hasThreshold tableSize.toNat hfuns hne threshold.toUInt64)
    rwa [init_reset] at hreset
  below := toSketch_new hne ▸ Sketch.Below.refl _
  recorded := fun hrec => by cases hrec

/-- **A recorded flow's counters.** When a new worker has recorded a flow, the packets at the
flow's index exceed the threshold, in every stage. -/
theorem tally_of_recorded {P : IterMap.Placement FlowID FlowDescriptor} (hne : hfuns ≠ [])
    {fups : List FlowUpdate} {w' : Worker} {f : FlowID}
    (hrun : (new tableSize hfuns hne threshold).svcAll P fups = .ok w')
    (hrec : w'.ht.lookupFlow f = true) {h : FlowID → Fin tableSize.toNat} (hmem : h ∈ hfuns) :
    (oversampled threshold.toUInt64).toNat <
      Tally.tally (fun fup => h fup.fid) FlowUpdate.octets (h f) fups := by
  -- each packet keeps what is shared with the other flows at the index
  have hstep : ∀ (pre : List FlowUpdate) (w : Worker) (fup : FlowUpdate),
      Shared (oversampled threshold.toUInt64) (indices hfuns) f pre w →
      ∃ w', w.svc P fup = .ok w' ∧
        Shared (oversampled threshold.toUInt64) (indices hfuns) f (pre ++ [fup]) w' := by
    intro pre w fup hshared
    obtain ⟨w₁, hok, hsvc⟩ := svc_cases P w fup
    exact ⟨w₁, hok, hshared.step (oversampled_le_maxThreshold threshold) hsvc⟩
  obtain ⟨w₁, hrun₁, hshared⟩ := Run.run_events_invariant hstep (shared_new hne f) fups
  obtain rfl : w₁ = w' := Except.ok.inj (hrun₁.symm.trans hrun)
  -- the stage is one of those that were drawn
  have hover := hshared.recorded hrec _ (List.mem_map_of_mem hmem)
  rw [bytesAt] at hover
  exact hover.trans_eq (Tally.tally_comp Fin.val_injective (h f) fups)

end New

end Worker

/-! ## In the farm -/

namespace Farm

variable {n : Nat} {B : Boost}

/-- The packets captured in a run. -/
def captured (es : List (Event n)) : List FlowUpdate :=
  es.filterMap fun
    | .capture fup => some fup
    | _ => none

/-- What a worker has handled was captured, in this order. -/
theorem packetsAt_sublist (i : Fin n) (es : List (Event n)) :
    (packetsAt B i (es.filterMap visible)).Sublist (captured es) := by
  induction es with
  | nil => exact List.Sublist.refl _
  | cons e es ih =>
    cases e with
    -- the packet is one of the worker's, or it is skipped
    | capture fup =>
      show (packetsAt B i ([.packet fup] ++ es.filterMap visible)).Sublist (fup :: captured es)
      rw [packetsAt_append, packetsAt_packet]
      split
      · exact ih.cons_cons _
      · exact ih.cons _
    | svc j => exact ih
    | analysis startT stopT => exact ih

/-- In the first interval a worker has handled some of the captured packets, and a flow is
recorded only at the worker that the dispatch selects. -/
theorem run_first_interval (cfg : Config n) {es : List (Event n)}
    (hes : ∀ e ∈ es, e.isAnalysis = false) :
    ∃ s, (init cfg).run B es = .ok s ∧ ∀ i,
      (∃ fups, (cfg.worker i).svcAll B.placement fups = .ok (s.workers i) ∧
        fups.Sublist (captured es)) ∧
      ∀ f, (s.workers i).ht.lookupFlow f = true → dispatchPolicy B n f = i := by
  obtain ⟨s, h, hrun, hlin⟩ := run_linearized B cfg es
  -- the handling order has no analysis, since the events have none
  have hquiet : ∀ e ∈ h, e.isAnalysis = false := by
    have hnone : (es.filterMap visible).filter MeterEvent.isAnalysis = [] := by
      refine List.filter_eq_nil_iff.mpr fun e he => ?_
      obtain ⟨e₀, he₀, hvis⟩ := List.mem_filterMap.mp he
      have hevent := hes e₀ he₀
      cases e₀ <;> cases hvis
      · exact Bool.false_ne_true
      · cases hevent
    have hlist := hlin.analyses.trans hnone
    intro e he
    simpa using List.filter_eq_nil_iff.mp hlist e he
  refine ⟨s, hrun, fun i => ⟨⟨_, svcAll_of_run hlin.run hquiet i, ?_⟩, hlin.dispatched.recorded i⟩⟩
  -- what worker `i` has handled is the beginning of what was captured for it
  have hhandled : (packetsAt B i h).Sublist (packetsAt B i (es.filterMap visible)) := by
    rw [← hlin.packets i]
    exact List.sublist_append_left _ _
  exact hhandled.trans (packetsAt_sublist i es)

/-! ## Over the draws of the hash functions -/

open UniversalHashFunction

section Draws

variable {stageSize threshold : UInt32} {d : Nat}

/-- A farm whose workers have drawn the hash functions of their stages. -/
def Config.drawn (hn : 0 < n) (hd : 0 < d) (hstage : 0 < stageSize)
    (hfits : SizeFits stageSize FlowID.KEY_LEN) (threshold : UInt32)
    (perms : Fin n → Fin d → RandomValues stageSize FlowID.KEY_LEN) : Config n where
  workers_pos := hn
  tableSize := stageSize
  tableSize_pos := hstage
  firstThreshold := threshold
  hfuns i := List.ofFn fun j => index hstage hfits (perms i j)
  hfuns_ne_nil _ := List.ofFn_eq_nil_iff.not.mpr (Nat.ne_of_gt hd)

/-- The bytes that collide with a flow under a draw. -/
def collidingBytes (hstage : 0 < stageSize) (hfits : SizeFits stageSize FlowID.KEY_LEN)
    (f : FlowID) (fups : List FlowUpdate) (perm : RandomValues stageSize FlowID.KEY_LEN) : Nat :=
  collidingWeight (fun perm => index hstage hfits perm) FlowUpdate.fid FlowUpdate.octets f perm fups

/-- **A false positive needs collisions**: in every stage of the flow's worker, with as many bytes
as the flow lacks to exceed the threshold. -/
theorem collidingBytes_of_recorded {hn : 0 < n} {hd : 0 < d} {hstage : 0 < stageSize}
    {hfits : SizeFits stageSize FlowID.KEY_LEN}
    {perms : Fin n → Fin d → RandomValues stageSize FlowID.KEY_LEN} {es : List (Event n)}
    (hes : ∀ e ∈ es, e.isAnalysis = false) {f : FlowID} {s : Farm n} {i : Fin n}
    (hrun : (init (.drawn hn hd hstage hfits threshold perms)).run B es = .ok s)
    (hrec : (s.workers i).ht.lookupFlow f = true) :
    dispatchPolicy B n f = i ∧ ∀ j, (oversampled threshold.toUInt64).toNat + 1 -
        bytesOf f (captured es) ≤ collidingBytes hstage hfits f (captured es) (perms i j) := by
  obtain ⟨s₁, hrun₁, hfirst⟩ :=
    run_first_interval (B := B) (.drawn hn hd hstage hfits threshold perms) hes
  obtain rfl : s₁ = s := Except.ok.inj (hrun₁.symm.trans hrun)
  obtain ⟨⟨fups, hsvc, hsub⟩, hdispatch⟩ := hfirst i
  refine ⟨hdispatch f hrec, fun j => ?_⟩
  have hover : (oversampled threshold.toUInt64).toNat <
      Tally.tally (fun fup => index hstage hfits (perms i j) fup.fid) FlowUpdate.octets
        (index hstage hfits (perms i j) f) fups :=
    Worker.tally_of_recorded _ hsvc hrec (List.mem_ofFn.mpr ⟨j, rfl⟩)
  -- own packets and collisions, both among the captured packets
  have hsplit : Tally.tally (fun fup => index hstage hfits (perms i j) fup.fid) FlowUpdate.octets
      (index hstage hfits (perms i j) f) fups =
      bytesOf f fups + collidingBytes hstage hfits f fups (perms i j) :=
    tally_hash (perms i j) fups
  have hown : bytesOf f fups ≤ bytesOf f (captured es) := Tally.tally_le_of_sublist hsub f
  have hcollide : collidingBytes hstage hfits f fups (perms i j) ≤
      collidingBytes hstage hfits f (captured es) (perms i j) :=
    collidingWeight_le_of_sublist hsub
  omega

theorem collidingBytes_of_exists_recorded {hn : 0 < n} {hd : 0 < d} {hstage : 0 < stageSize}
    {hfits : SizeFits stageSize FlowID.KEY_LEN}
    {es : List (Event n)} (hes : ∀ e ∈ es, e.isAnalysis = false) {f : FlowID}
    (perms : Fin n → Fin d → RandomValues stageSize FlowID.KEY_LEN)
    (h : ∃ s i, (init (.drawn hn hd hstage hfits threshold perms)).run B es = .ok s ∧
      (s.workers i).ht.lookupFlow f = true) :
    ∀ j, (oversampled threshold.toUInt64).toNat + 1 - bytesOf f (captured es) ≤
      collidingBytes hstage hfits f (captured es)
        (perms ⟨dispatchPolicy B n f, Nat.mod_lt _ hn⟩ j) := by
  obtain ⟨s, i, hrun, hrec⟩ := h
  obtain ⟨hi, hcollide⟩ := collidingBytes_of_recorded hes hrun hrec
  rwa [show i = ⟨dispatchPolicy B n f, Nat.mod_lt _ hn⟩ from Fin.ext hi.symm] at hcollide

theorem finite_randomValues (hle : stageSize.toNat ≤ 2 ^ 23) :
    Finite (RandomValues stageSize FlowID.KEY_LEN) :=
  Finite.of_surjective _ (RandomValues.ofFn_bijective hle).2

/-- The bytes of the other flows are all bytes without the flow's own. -/
theorem otherWeight_eq (f : FlowID) (fups : List FlowUpdate) :
    otherWeight FlowUpdate.fid FlowUpdate.octets f fups = totalBytes fups - bytesOf f fups := by
  have hsum : bytesOf f fups + otherWeight FlowUpdate.fid FlowUpdate.octets f fups =
      totalBytes fups := tally_add_otherWeight fups
  omega

/-- Few draws let `t` bytes collide with the flow in every stage. -/
theorem card_collidingBytes_mul_le (hstage : 0 < stageSize) (hprime : stageSize.toNat.Prime)
    (hbyte : 255 < stageSize.toNat) (hle : stageSize.toNat ≤ 2 ^ 23) (t : Nat) (f : FlowID)
    (fups : List FlowUpdate) :
    Nat.card {perms : Fin d → RandomValues stageSize FlowID.KEY_LEN //
        ∀ j, t ≤ collidingBytes hstage (.inl hle) f fups (perms j)} * (stageSize.toNat * t) ^ d ≤
      (totalBytes fups - bytesOf f fups) ^ d *
        Nat.card (Fin d → RandomValues stageSize FlowID.KEY_LEN) := by
  have hfinite := finite_randomValues hle
  have huniversal := universal_index hstage hprime hbyte hle
  -- the indices of a stage are as many as its counters
  have hindices : Nat.card (Fin stageSize.toNat) = stageSize.toNat := by
    rw [Nat.card_eq_fintype_card, Fintype.card_fin]
  have hbound : Nat.card {perms : Fin d → RandomValues stageSize FlowID.KEY_LEN //
        ∀ j, t ≤ collidingBytes hstage (.inl hle) f fups (perms j)} *
        (Nat.card (Fin stageSize.toNat) * t) ^ d ≤
      otherWeight FlowUpdate.fid FlowUpdate.octets f fups ^ d *
        Nat.card (Fin d → RandomValues stageSize FlowID.KEY_LEN) :=
    huniversal.card_heavy_pi_mul_le t fups
  rwa [hindices, otherWeight_eq] at hbound

end Draws

/-- **Small flows are seldom recorded.** Let `nextPrime` have found the size of the stages, above
255 and up to `2 ^ 23`, and let the `n` workers draw the hash functions of their `d` stages. For any
schedule of the first interval and any flow, with `s` the flow's captured bytes, `C` all the
captured bytes and `S` the stage threshold: the flow is recorded under at most a fraction of
`((C - s) / (stageSize * (S + 1 - s))) ^ d` of the draws. -/
theorem small_flow_seldom_recorded (B : Boost) {num stageSize : UInt32} (hnum : 255 ≤ num)
    (hlt : num < 4294967291) (hsize : nextPrime num = some stageSize) (hstage : 0 < stageSize)
    (hle : stageSize.toNat ≤ 2 ^ 23) (hn : 0 < n) {d : Nat} (hd : 0 < d) (threshold : UInt32)
    {es : List (Event n)} (hes : ∀ e ∈ es, e.isAnalysis = false) (f : FlowID) :
    Nat.card {perms : Fin n → Fin d → RandomValues stageSize FlowID.KEY_LEN //
        ∃ s i, (init (.drawn hn hd hstage (.inl hle) threshold perms)).run B es = .ok s ∧
          (s.workers i).ht.lookupFlow f = true} *
        (stageSize.toNat *
          ((oversampled threshold.toUInt64).toNat + 1 - bytesOf f (captured es))) ^ d ≤
      (totalBytes (captured es) - bytesOf f (captured es)) ^ d *
        Nat.card (Fin n → Fin d → RandomValues stageSize FlowID.KEY_LEN) := by
  have hnum' : 255 ≤ num.toNat := UInt32.le_iff_toNat_le.mp hnum
  obtain ⟨hprime, hgt⟩ := prime_of_nextPrime hlt hsize
  have hgt' := UInt32.lt_iff_toNat_lt.mp hgt
  have hfinite := finite_randomValues hle
  have hheavy := card_collidingBytes_mul_le (d := d) hstage hprime (by omega) hle
    ((oversampled threshold.toUInt64).toNat + 1 - bytesOf f (captured es)) f (captured es)
  refine (Nat.mul_le_mul_right _ ?_).trans
    (card_coordinate_mul_le ⟨dispatchPolicy B n f, Nat.mod_lt _ hn⟩ hheavy)
  -- only such draws record the flow
  exact Nat.card_le_card_of_injective
    (Subtype.map id (collidingBytes_of_exists_recorded hes))
    (Subtype.map_injective _ fun _ _ h => h)

/-! A flow of 100 bytes next to one of 450, with two stages of 257 counters and a threshold of
500. -/

namespace TwoFlows

/-- The flow of 100 bytes. -/
def small : FlowID := ⟨1, 9, 1000, 80, 6⟩

/-- Both flows are captured, then handled. -/
def events : List (Event 1) :=
  [.capture ⟨small, 100, 34⟩, .capture ⟨⟨2, 9, 1000, 80, 6⟩, 450, 34⟩,
    .svc ⟨0, Nat.one_pos⟩, .svc ⟨0, Nat.one_pos⟩]

end TwoFlows

open TwoFlows in
theorem small_flow_seldom_recorded_twoFlows :
    Nat.card {perms : Fin 1 → Fin 2 → RandomValues 257 FlowID.KEY_LEN //
        ∃ s i, (init (.drawn Nat.one_pos Nat.two_pos size257_pos (.inl size257_le) 5 perms)).run
            Boost.standard events = .ok s ∧
          (s.workers i).ht.lookupFlow small = true} *
        ((257 : UInt32).toNat * ((oversampled (5 : UInt32).toUInt64).toNat + 1 -
          bytesOf small (captured events))) ^ 2 ≤
      (totalBytes (captured events) - bytesOf small (captured events)) ^ 2 *
        Nat.card (Fin 1 → Fin 2 → RandomValues 257 FlowID.KEY_LEN) :=
  small_flow_seldom_recorded Boost.standard (show (255 : UInt32) ≤ 255 from UInt32.le_refl 255)
    (by decide) (by decide +kernel) size257_pos size257_le Nat.one_pos Nat.two_pos 5 (by decide)
    small

end Farm

end FHF
