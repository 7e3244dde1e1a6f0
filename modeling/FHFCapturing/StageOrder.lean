import FHFCapturing.MonotoneCounters

/-!
# The order of the stages

The cap of a drop is meant to be the minimum of the packet's counters over all stages (the loop
is commented `find the minimum value of each counter`), and then it does not matter in which
order the stages stand. But `pass && stages[i].check(...)` stops reading counters at the first
stage that fails, so the cap is that stage's counter, and another failing stage, were it the
first, would set another one. The order is irrelevant to a packet (`OrderIrrelevant`) exactly
when all stages that fail its check hold the same counter (`SameFailing`).
-/

namespace FHF

/-! ## Reordering a list -/

/-- The elements of `l` at the positions `js`. -/
def reorder {α : Type*} (js : List Nat) (l : List α) : List α := js.filterMap (l[·]?)

section Reorder

variable {α β : Type*} {js : List Nat} {l : List α}

theorem reorder_range (l : List α) : reorder (List.range l.length) l = l := by
  induction l with
  | nil => rfl
  | cons a l ih =>
    unfold reorder at ih ⊢
    rw [List.length_cons, List.range_succ_eq_map,
      List.filterMap_cons_some (List.getElem?_cons_zero), List.filterMap_map]
    exact congrArg (a :: ·) ih

/-- A permutation of the positions gives a permutation of the list. -/
theorem reorder_perm (h : js.Perm (List.range l.length)) : (reorder js l).Perm l := by
  have hperm := h.filterMap (l[·]?)
  rwa [← reorder, ← reorder, reorder_range] at hperm

theorem reorder_map (g : α → β) : reorder js (l.map g) = (reorder js l).map g := by
  unfold reorder
  rw [List.map_filterMap]
  simp only [List.getElem?_map]

/-- Any element can come first. -/
theorem exists_reorder_cons {a : α} (h : a ∈ l) :
    ∃ js, js.Perm (List.range l.length) ∧ ∃ l', reorder js l = a :: l' := by
  obtain ⟨j, hj, rfl⟩ := List.getElem_of_mem h
  have hmem : j ∈ List.range l.length := List.mem_range.mpr hj
  refine ⟨j :: (List.range l.length).erase j, (List.perm_cons_erase hmem).symm,
    reorder ((List.range l.length).erase j) l, ?_⟩
  rw [reorder, List.filterMap_cons_some (List.getElem?_eq_getElem hj), ← reorder]

end Reorder

namespace MultistageFilter

/-- The stages of `p` are those of `f`, each with its hash function and counters, at the positions
`js`. -/
structure Reordered (js : List Nat) (f p : MultistageFilter) : Prop where
  perm : js.Perm (List.range f.stages.length)
  stages : p.stages = reorder js f.stages

theorem Reordered.stages_perm {js : List Nat} {f p : MultistageFilter} (h : Reordered js f p) :
    p.stages.Perm f.stages :=
  h.stages ▸ reorder_perm h.perm

/-- Whatever holds of every stage does so in either order. -/
theorem Reordered.mem_iff {js : List Nat} {f p : MultistageFilter} (h : Reordered js f p)
    {st : StageContainer} : st ∈ p.stages ↔ st ∈ f.stages :=
  h.stages_perm.mem_iff

theorem Reordered.mapStages {js : List Nat} {f p : MultistageFilter} (h : Reordered js f p)
    (g : StageContainer → StageContainer) : Reordered js (f.mapStages g) (p.mapStages g) where
  perm := by simpa using h.perm
  stages := by rw [mapStages_stages, mapStages_stages, h.stages, reorder_map]

/-- The cap of a drop is the minimum of the packet's counters over all stages plus the packet. -/
def CapIsMin (f : MultistageFilter) (fup : FlowUpdate) : Prop :=
  (f.filter fup).1 = false → ∃ low ∈ f.stages,
    f.cap fup = low.counter fup.fid + fup.dOctets.toUInt64 ∧
      ∀ st ∈ f.stages, low.counter fup.fid ≤ st.counter fup.fid

/-- However the stages stand, the packet gets the same answer and leaves the same counters, and
the cap is the minimum. -/
structure OrderIrrelevant (f : MultistageFilter) (fup : FlowUpdate) : Prop where
  answer : ∀ js p, Reordered js f p → (p.filter fup).1 = (f.filter fup).1
  counters : ∀ js p, Reordered js f p → Reordered js (f.filter fup).2 (p.filter fup).2
  cap_min : ∀ js p, Reordered js f p → CapIsMin p fup

/-- All stages that fail the packet's check hold the same counter. -/
def SameFailing (f : MultistageFilter) (fup : FlowUpdate) : Prop :=
  ∀ st ∈ f.stages, ∀ st' ∈ f.stages, (st.check fup).1 = false → (st'.check fup).1 = false →
    st.counter fup.fid = st'.counter fup.fid

section Step

variable {S : UInt64} {f p : MultistageFilter} {fup : FlowUpdate} {js : List Nat}

theorem firstFailing_spec {low : StageContainer} (h : f.firstFailing fup = some low) :
    low ∈ f.stages ∧ (low.check fup).1 = false :=
  ⟨List.mem_of_find?_eq_some h, by simpa using List.find?_some h⟩

theorem firstFailing_of_drop (h : (f.filter fup).1 = false) :
    ∃ low, f.firstFailing fup = some low := by
  rw [filter_fst, checkLoop_pass, List.all_eq_false] at h
  obtain ⟨st, hst, hfail⟩ := h
  unfold firstFailing
  rw [← Option.isSome_iff_exists, List.find?_isSome]
  exact ⟨st, hst, by simpa using hfail⟩

/-- The invariant of a reachable filter does not depend on the order. -/
theorem Reordered.sound (h : Reordered js f p) (hS : f.Sound S) : p.Sound S where
  storable := hS.storable
  threshold := fun st hst => hS.threshold st (h.mem_iff.mp hst)
  count_le := fun st hst => hS.count_le st (h.mem_iff.mp hst)
  count_fits := fun st hst => hS.count_fits st (h.mem_iff.mp hst)

theorem Reordered.sameFailing (h : Reordered js f p) (hsame : SameFailing f fup) :
    SameFailing p fup :=
  fun st hst st' hst' => hsame st (h.mem_iff.mp hst) st' (h.mem_iff.mp hst')

/-- The answer asks for all stages, in whatever order. -/
theorem Reordered.answer_eq (h : Reordered js f p) (fup : FlowUpdate) :
    (p.filter fup).1 = (f.filter fup).1 := by
  rw [filter_fst, filter_fst, checkLoop_pass, checkLoop_pass]
  exact h.stages_perm.all_eq

/-- A failing stage's counter is below that of a passing one. -/
theorem Sound.counter_le_of_check (h : f.Sound S) {low st : StageContainer}
    (hlow : low ∈ f.stages) (hfail : (low.check fup).1 = false) (hst : st ∈ f.stages)
    (hpass : (st.check fup).1 = true) : low.counter fup.fid ≤ st.counter fup.fid := by
  rw [check_fst h.storable.noWrap (h.threshold low hlow) (h.counter_le fup.fid low hlow),
    decide_eq_false_iff_not] at hfail
  rw [check_fst h.storable.noWrap (h.threshold st hst) (h.counter_le fup.fid st hst),
    decide_eq_true_iff] at hpass
  rw [UInt64.le_iff_toNat_le]
  omega

/-- If the failing counters are equal, the first of them is the minimum. -/
theorem Sound.capIsMin_of_sameFailing (h : f.Sound S) (hsame : SameFailing f fup) :
    CapIsMin f fup := by
  intro hdrop
  obtain ⟨low, hfirst⟩ := firstFailing_of_drop hdrop
  obtain ⟨hlow, hfail⟩ := firstFailing_spec hfirst
  refine ⟨low, hlow, h.cap_eq hfirst, fun st hst => ?_⟩
  cases hcheck : (st.check fup).1 with
  | true => exact h.counter_le_of_check hlow hfail hst hcheck
  | false => exact UInt64.le_of_eq (hsame low hlow st hst hfail hcheck)

/-- The failing stage that comes first sets the cap, and it has the same counter in any order. -/
theorem Sound.reordered_filter (h : f.Sound S) (hsame : SameFailing f fup)
    (hp : Reordered js f p) : Reordered js (f.filter fup).2 (p.filter fup).2 := by
  have hpS := hp.sound h
  cases hans : (f.filter fup).1 with
  -- both pass, or both drop
  | true =>
    have hans' : (p.filter fup).1 = true := (hp.answer_eq fup).trans hans
    rw [filter_of_pass hans, filter_of_pass hans']
    exact hp
  | false =>
    have hans' : (p.filter fup).1 = false := (hp.answer_eq fup).trans hans
    -- each has a first failing stage, perhaps not the same one
    obtain ⟨low, hfirst⟩ := firstFailing_of_drop hans
    obtain ⟨low', hfirst'⟩ := firstFailing_of_drop hans'
    obtain ⟨hlow, hfail⟩ := firstFailing_spec hfirst
    obtain ⟨hlow', hfail'⟩ := firstFailing_spec hfirst'
    -- but a counter that is the same, and with it the cap
    have hcap : low'.counter fup.fid = low.counter fup.fid :=
      hsame low' (hp.mem_iff.mp hlow') low hlow hfail' hfail
    rw [h.filter_of_failing hfirst, hpS.filter_of_failing hfirst', hcap]
    exact hp.mapStages _

/-- Put first, a failing stage sets the cap; if that is the minimum in every order, its counter
is at most that of any other stage. -/
theorem OrderIrrelevant.counter_le (h : f.Sound S) (hirr : OrderIrrelevant f fup)
    {st st' : StageContainer} (hst : st ∈ f.stages) (hfail : (st.check fup).1 = false)
    (hst' : st' ∈ f.stages) : st.counter fup.fid ≤ st'.counter fup.fid := by
  obtain ⟨js, hjs, sts, hfirst⟩ := exists_reorder_cons hst
  -- the order in which the failing stage comes first
  let p : MultistageFilter := ⟨st :: sts, List.cons_ne_nil _ _⟩
  have hp : Reordered js f p := ⟨hjs, hfirst.symm⟩
  have hpfirst : p.firstFailing fup = some st :=
    List.find?_cons_of_pos (by simpa using hfail)
  have hpS := hp.sound h
  have hdrop : (p.filter fup).1 = false := by rw [hpS.filter_of_failing hpfirst]
  -- in this order too the cap comes from the least counter
  obtain ⟨low, -, hcap, hmin⟩ := hirr.cap_min js p hp hdrop
  rw [hpS.cap_eq hpfirst, UInt64.add_left_inj] at hcap
  rw [hcap]
  exact hmin st' (hp.mem_iff.mpr hst')

/-- **One packet** is treated alike in every order exactly when its failing stages agree. -/
theorem Sound.orderIrrelevant_iff (h : f.Sound S) (fup : FlowUpdate) :
    OrderIrrelevant f fup ↔ SameFailing f fup := by
  constructor
  · intro hirr st hst st' hst' hfail hfail'
    exact UInt64.le_antisymm (hirr.counter_le h hst hfail hst')
      (hirr.counter_le h hst' hfail' hst)
  · intro hsame
    exact { answer := fun _ _ hp => hp.answer_eq fup
            counters := fun _ _ hp => h.reordered_filter hsame hp
            cap_min := fun _ _ hp => (hp.sound h).capIsMin_of_sameFailing (hp.sameFailing hsame) }

end Step

/-! ## Sequences of packets -/

section Run

variable {S : UInt64} {f p : MultistageFilter} {js : List Nat}

/-- While the order is irrelevant, the reordered filter stays the reordered one. Induction on the
packets. -/
theorem Reordered.filterAll (hp : Reordered js f p) {fups : List FlowUpdate}
    (hirr : AllPackets OrderIrrelevant f fups) :
    (p.filterAll fups).1 = (f.filterAll fups).1 ∧
      Reordered js (f.filterAll fups).2 (p.filterAll fups).2 := by
  induction fups generalizing f p with
  | nil => exact ⟨rfl, hp⟩
  | cons fup fups ih =>
    obtain ⟨hans, hend⟩ := ih (hirr.1.counters js p hp) hirr.2
    rw [filterAll_cons, filterAll_cons]
    exact ⟨congrArg₂ List.cons (hirr.1.answer js p hp) hans, hend⟩

/-- **The order of the stages.** From any reachable state, the order is irrelevant to every packet
of a sequence iff the stages each of them fails agree on its counter; and then the filter with
its stages reordered gives the same answers and ends with the reordered counters. -/
theorem orderIrrelevant_iff_sameFailing (f : MultistageFilter) (h : f.Reachable)
    (fups : List FlowUpdate) :
    (AllPackets OrderIrrelevant f fups ↔ AllPackets SameFailing f fups) ∧
      (AllPackets SameFailing f fups → ∀ js p, Reordered js f p →
        (p.filterAll fups).1 = (f.filterAll fups).1 ∧
          Reordered js (f.filterAll fups).2 (p.filterAll fups).2) := by
  obtain ⟨S, hS⟩ := h.sound
  have hiff : AllPackets OrderIrrelevant f fups ↔ AllPackets SameFailing f fups :=
    hS.allPackets_congr (fun _ fup hf => hf.orderIrrelevant_iff fup) fups
  exact ⟨hiff, fun hsame _ _ hp => hp.filterAll (hiff.mpr hsame)⟩

end Run

open Lowering

/-- `heavySeen` with its second stage first. -/
def heavySeenSwapped : MultistageFilter where
  stages := reorder [1, 0] heavySeen.stages
  stages_ne_nil := by decide

theorem heavySeenSwapped_reordered : Reordered [1, 0] heavySeen heavySeenSwapped where
  perm := by decide
  stages := rfl

/-- The order matters: 20 bytes of the other flow take the shared counter, which is 60, to 20 when
its own counter, which is 0, is read first, and to 80 when the shared one is. -/
theorem orderIrrelevant_fails :
    ¬ ∀ f : MultistageFilter, f.Reachable → ∀ fup, OrderIrrelevant f fup := by
  intro hall
  have hswap := ((hall heavySeen heavySeen_reachable ⟨other, 20, 54⟩).counters _ _
    heavySeenSwapped_reordered).stages
  have hcounts := congrArg (List.map fun st => st.toRow.count 0) hswap
  revert hcounts
  decide +kernel

/-- Both stages fail on this packet with the counter at 60. -/
theorem sameFailing_heavySeen : SameFailing heavySeen ⟨heavy, 10, 54⟩ := by
  have hcounter : ∀ st ∈ heavySeen.stages, st.counter heavy = 60 := by decide +kernel
  intro st hst st' hst' _ _
  exact (hcounter st hst).trans (hcounter st' hst').symm

/-- Both counters of the heavy flow are 60, and the order does not matter to its next packet. -/
theorem orderIrrelevant_iff_sameFailing_heavySeen :
    (heavySeenSwapped.filterAll [⟨heavy, 10, 54⟩]).1 =
        (heavySeen.filterAll [⟨heavy, 10, 54⟩]).1 ∧
      Reordered [1, 0] (heavySeen.filterAll [⟨heavy, 10, 54⟩]).2
        (heavySeenSwapped.filterAll [⟨heavy, 10, 54⟩]).2 :=
  (orderIrrelevant_iff_sameFailing heavySeen heavySeen_reachable [⟨heavy, 10, 54⟩]).2
    ⟨sameFailing_heavySeen, trivial⟩ _ _ heavySeenSwapped_reordered

end MultistageFilter

end FHF
