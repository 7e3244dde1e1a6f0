import FHFCapturing.DataStructures
import FHFCapturing.Lib.Rounding

/-!
# The multistage filter

`StageContainer` and `MultistageFilter` of `MultistageFilter.cpp`. Counters and thresholds are
64-bit unsigned; where the source computes in `float` or `double` the value is rounded to the
significand of that type (`Rounding.roundBits`). A stage's hash function is any function into
its counter array: the draw of `UniversalHashFunction::functionGenerator` is the argument
`hfun` of `init`, and the counter array is the function from its indices.
-/

namespace FHF

open Rounding

/-- `float` keeps 24 significant bits of an integer. -/
def toFloat (n : Nat) : Nat := roundBits 24 n

/-- `double` keeps 53. -/
def toDouble (n : UInt64) : Nat := roundBits 53 n.toNat

/-- Assignment of a (non-negative, integral) `double` to an `unsigned long`. -/
def ofDouble (x : Nat) : UInt64 := UInt64.ofNat x

/-- The constant of `MultistageFilter.h`. -/
def filter_oversampling_factor : Nat := 100

/-- A threshold times the oversampling factor, in single precision. -/
def oversampled (threshold : UInt64) : UInt64 :=
  UInt64.ofNat (toFloat (toFloat threshold.toNat * filter_oversampling_factor))

/-! ## One stage -/

/-- A stage: its hash function and its counters. -/
structure StageContainer where
  stageSize : Nat
  hfun : FlowID → Fin stageSize
  threshold : UInt64
  countArray : Fin stageSize → UInt64

namespace StageContainer

/-- `init`, with the hash function the generator drew. The check that `stageSize` is not zero is
the type of `hfun`. -/
def init (stageSize : Nat) (hfun : FlowID → Fin stageSize) (threshold : UInt64) :
    StageContainer where
  stageSize := stageSize
  hfun := hfun
  threshold := oversampled threshold
  countArray := fun _ => 0

/-- The counter that a flow hashes to. -/
def counter (st : StageContainer) (fid : FlowID) : UInt64 := st.countArray (st.hfun fid)

/-- The answer, and the counter value stored through `fieldValue`. -/
def check (st : StageContainer) (fup : FlowUpdate) : Bool × UInt64 :=
  let fieldValue := st.counter fup.fid
  (decide (fieldValue + fup.dOctets.toUInt64 > st.threshold), fieldValue)

/-- `max` is a `double`, so the comparison and both arms of the conditional are too. -/
def conservativeUpdate (st : StageContainer) (fup : FlowUpdate) (max : Nat) : StageContainer :=
  if st.counter fup.fid < st.threshold then
    let val := st.counter fup.fid + fup.dOctets.toUInt64
    { st with
      countArray := Function.update st.countArray (st.hfun fup.fid)
        (ofDouble (if toDouble val > max then max else toDouble val)) }
  else st

/-- All counters go back to zero; the threshold stays. -/
def reset (st : StageContainer) : StageContainer := { st with countArray := fun _ => 0 }

/-- The conditional yields `rth` when it is zero and one otherwise. -/
def updateThreshold (st : StageContainer) (newThreshold : UInt64) : StageContainer :=
  let rth := oversampled newThreshold
  { st with threshold := if rth = 0 then rth else 1 }

/-- The hash function of a generator that drew only zero coefficients, for a stage of 1201
counters. -/
def zeroHash : FlowID → Fin (1201 : UInt32).toNat := fun _ => ⟨0, by decide⟩

theorem single_ne_nil : [zeroHash] ≠ [] := List.cons_ne_nil _ _

@[simp] theorem init_threshold (m : Nat) (h : FlowID → Fin m) (t : UInt64) :
    (init m h t).threshold = oversampled t := rfl

@[simp] theorem init_counter (m : Nat) (h : FlowID → Fin m) (t : UInt64) (fid : FlowID) :
    (init m h t).counter fid = 0 := rfl

@[simp] theorem reset_threshold (st : StageContainer) : st.reset.threshold = st.threshold := rfl

@[simp] theorem reset_counter (st : StageContainer) (fid : FlowID) :
    st.reset.counter fid = 0 := rfl

@[simp] theorem conservativeUpdate_threshold (st : StageContainer) (fup : FlowUpdate) (max : Nat) :
    (st.conservativeUpdate fup max).threshold = st.threshold := by
  unfold conservativeUpdate; split <;> rfl

end StageContainer

/-! ## The stages together -/

/-- At least one stage: the constructor throws on `numOfStages == 0`. -/
structure MultistageFilter where
  stages : List StageContainer
  stages_ne_nil : stages ≠ []

namespace MultistageFilter

/-- The same operation on every stage. -/
def mapStages (f : MultistageFilter) (g : StageContainer → StageContainer) : MultistageFilter where
  stages := f.stages.map g
  stages_ne_nil := by simpa using f.stages_ne_nil

@[simp] theorem mapStages_stages (f : MultistageFilter) (g : StageContainer → StageContainer) :
    (f.mapStages g).stages = f.stages.map g := rfl

theorem forall_mapStages {f : MultistageFilter} {g : StageContainer → StageContainer}
    {p : StageContainer → Prop} :
    (∀ st ∈ (f.mapStages g).stages, p st) ↔ ∀ st ∈ f.stages, p (g st) :=
  List.forall_mem_map

/-- The constructor, with the hash functions drawn for the stages. -/
def init (stageSize : Nat) (hfuns : List (FlowID → Fin stageSize)) (hne : hfuns ≠ [])
    (threshold : UInt64) : MultistageFilter where
  stages := hfuns.map fun h => StageContainer.init stageSize h threshold
  stages_ne_nil := by simpa using hne

/-- The locals of the loop over the stages in `filter`. -/
structure CheckLoop where
  pass : Bool := true
  minVal : UInt64 := 0xFFFFFFFFFFFFFFFF
  parVal : UInt64 := 0

/-- One iteration: `pass && check(...)` is short-circuited, so a stage after the first failing
one is not read and `parVal` keeps its value. -/
def CheckLoop.next (fup : FlowUpdate) (c : CheckLoop) (st : StageContainer) : CheckLoop :=
  let (pass, parVal) := if c.pass then st.check fup else (false, c.parVal)
  { pass, parVal, minVal := if c.minVal < parVal then c.minVal else parVal }

def checkLoop (f : MultistageFilter) (fup : FlowUpdate) : CheckLoop :=
  f.stages.foldl (CheckLoop.next fup) {}

/-- Whether the update passes every stage, and the filter after; only a drop changes it. -/
def filter (f : MultistageFilter) (fup : FlowUpdate) : Bool × MultistageFilter :=
  if (f.checkLoop fup).pass then (true, f)
  else
    let parVal := (f.checkLoop fup).minVal + fup.dOctets.toUInt64
    (false, f.mapStages fun st => st.conservativeUpdate fup (toDouble parVal))

/-- Every stage gets the new threshold. -/
def updateThreshold (f : MultistageFilter) (newThreshold : UInt64) : MultistageFilter :=
  f.mapStages fun st => st.updateThreshold newThreshold

/-- Every stage is reset. -/
def reset (f : MultistageFilter) : MultistageFilter := f.mapStages StageContainer.reset

@[simp] theorem updateThreshold_stages (f : MultistageFilter) (t : UInt64) :
    (f.updateThreshold t).stages = f.stages.map (·.updateThreshold t) := rfl

@[simp] theorem reset_stages (f : MultistageFilter) :
    f.reset.stages = f.stages.map StageContainer.reset := rfl

/-- Once `pass` is false it stays so. -/
theorem foldl_next_pass (fup : FlowUpdate) (sts : List StageContainer) (c : CheckLoop) :
    (sts.foldl (CheckLoop.next fup) c).pass = (c.pass && sts.all fun st => (st.check fup).1) := by
  induction sts generalizing c with
  | nil => simp
  | cons st sts ih =>
    rw [List.foldl_cons, ih, List.all_cons, ← Bool.and_assoc]
    cases hpass : c.pass <;> simp [CheckLoop.next, hpass]

/-- A packet passes iff every stage lets it pass. -/
theorem checkLoop_pass (f : MultistageFilter) (fup : FlowUpdate) :
    (f.checkLoop fup).pass = f.stages.all fun st => (st.check fup).1 := by
  rw [checkLoop, foldl_next_pass, Bool.true_and]

theorem filter_fst (f : MultistageFilter) (fup : FlowUpdate) :
    (f.filter fup).1 = (f.checkLoop fup).pass := by
  unfold filter
  split
  · simp_all
  · simp_all

/-- A packet that passes leaves the filter as it is. -/
theorem filter_of_pass {f : MultistageFilter} {fup : FlowUpdate}
    (h : (f.filter fup).1 = true) : (f.filter fup).2 = f := by
  rw [filter_fst] at h
  simp [filter, h]

/-- A packet that is dropped updates every stage, with the cap of the checking loop. -/
theorem filter_of_drop {f : MultistageFilter} {fup : FlowUpdate}
    (h : (f.filter fup).1 = false) :
    (f.filter fup).2 = f.mapStages fun st =>
      st.conservativeUpdate fup (toDouble ((f.checkLoop fup).minVal + fup.dOctets.toUInt64)) := by
  rw [filter_fst] at h
  simp [filter, h]

/-! ## Sequences of packets -/

/-- The answers for a sequence of packets, and the filter after it. -/
def filterAll (f : MultistageFilter) : List FlowUpdate → List Bool × MultistageFilter
  | [] => ([], f)
  | fup :: fups =>
      let (pass, f') := f.filter fup
      let (answers, f'') := f'.filterAll fups
      (pass :: answers, f'')

theorem filterAll_cons (f : MultistageFilter) (fup : FlowUpdate) (fups : List FlowUpdate) :
    f.filterAll (fup :: fups) =
      ((f.filter fup).1 :: ((f.filter fup).2.filterAll fups).1,
        ((f.filter fup).2.filterAll fups).2) := rfl

/-- Every packet of the sequence meets `C` in the state the filter is in when it comes. -/
def AllPackets (C : MultistageFilter → FlowUpdate → Prop) :
    MultistageFilter → List FlowUpdate → Prop
  | _, [] => True
  | f, fup :: fups => C f fup ∧ AllPackets C (f.filter fup).2 fups

/-- One stage of 1201 counters with a hash function of zero coefficients, and threshold 500. -/
def oneStage : MultistageFilter :=
  init (1201 : UInt32).toNat [StageContainer.zeroHash] StageContainer.single_ne_nil 5

end MultistageFilter

end FHF
