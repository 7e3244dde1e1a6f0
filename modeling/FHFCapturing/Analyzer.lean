import FHFCapturing.Worker
import FHFCapturing.Lib.FloorSqrt
import FHFCapturing.Lib.IndexLoop

/-!
# The analyzer

`Analyzer` of `Analyzer.cpp`: the scan of a worker's table (`checkCleanHashTable`), the
adaptation of the thresholds (`update_thresholds`) and the analysis of one interval
(`do_boundedAnalysis`), whose results `output_results` hands to the exporter.

Thresholds are `unsigned long` in the source and naturals here: the floating-point arithmetic of the
adaptation is read as exact, and truncated to 64 bits where it is assigned (`toULong`), the only
place where a threshold could leave them. Counts are 32-bit unsigned as in the source. The parts of
the interval analysis are definitions of their own, because `FHFCapturing.Interleaving` runs them as
separate steps of the analyzer's thread.
-/

namespace FHF

/-- A truncated `double` assigned to an `unsigned long`. C++ leaves open what a value gives that
does not fit; the code compiled for 64-bit x86 stores 0. -/
def toULong (x : Nat) : Nat := if x < 2 ^ 64 then x else 0

/-- A value of at most 64 bits is stored as it is. -/
theorem toULong_of_lt {x : Nat} (h : x < 2 ^ 64) : toULong x = x := if_pos h

/-- A value of more than 64 bits is lost. -/
theorem toULong_of_le {x : Nat} (h : 2 ^ 64 ≤ x) : toULong x = 0 := if_neg (Nat.not_lt.mpr h)

theorem toULong_le (x : Nat) : toULong x ≤ x := by
  unfold toULong
  split <;> omega

/-- The private members of the class that the modelled functions use, in their order there. -/
structure Analyzer where
  intervalCounter : UInt32
  startT : Int
  stopT : Int
  first_t_threshold : Nat
  t_threshold : Nat
  old_t_threshold : Nat
  r_threshold : Nat
  old_r_threshold : Nat
  e1 : UInt32
  e2 : UInt32
  e3 : UInt32
  entriesUsedAVG : UInt32
  flowMemSize : UInt32
  noVarIntervals : UInt32
  filter_threshold : Nat
  deriving DecidableEq, Repr

namespace Analyzer

/-- The part of the threshold that keeps an entry which is not reported. -/
def r_mul : ℚ := 1 / 5

/-- The exponent of a raise; that of a lowering is a half, and stands in `loweredThreshold`. -/
def adjustUp : Nat := 3

/-- The usage of the flow memory that the adaptation aims at. -/
def target : ℚ := 9 / 10

/-- The constructor reads the table size and the threshold of the first worker. -/
def new (w : Worker) : Analyzer :=
  let t := w.getThreshold.toNat
  { intervalCounter := 0, startT := 0, stopT := 0,
    first_t_threshold := t, t_threshold := t, old_t_threshold := t,
    r_threshold := ⌊t * r_mul⌋₊, old_r_threshold := ⌊t * r_mul⌋₊,
    e1 := w.getHashTableSize, e2 := w.getHashTableSize, e3 := w.getHashTableSize,
    entriesUsedAVG := 0, flowMemSize := w.getHashTableSize,
    noVarIntervals := 0, filter_threshold := t }

/-! ## Adapting the thresholds -/

/-- `(float)entriesUsedAVG / (float)flowMemSize`, an exact quotient here. -/
def usage (a : Analyzer) : ℚ := a.entriesUsedAVG.toNat / a.flowMemSize.toNat

/-- The two corrections after a multiplication: not zero, and not above the first threshold. -/
def clampThreshold (first t : Nat) : Nat :=
  let t := if t = 0 then 1 else t
  if t > first then first else t

/-- `t_threshold * pow((usage / target), adjustUp)`, assigned to `t_threshold`. -/
def raisedThreshold (a : Analyzer) : Nat :=
  toULong ⌊a.t_threshold * (a.usage / target) ^ adjustUp⌋₊

/-- `t_threshold * pow((usage * target), adjustDown)`, with `adjustDown` one half, assigned to
`t_threshold`. -/
def loweredThreshold (a : Analyzer) : Nat :=
  toULong (FloorSqrt.floorMulSqrt a.t_threshold (a.usage * target))

/-- The adaptation of the thresholds: a raise, a lowering after three quiet intervals, or a wait. -/
def update_thresholds (a : Analyzer) : Analyzer :=
  let a := { a with old_t_threshold := a.t_threshold, old_r_threshold := a.r_threshold }
  let a :=
    if a.usage > target then
      { a with
        t_threshold := clampThreshold a.first_t_threshold a.raisedThreshold
        noVarIntervals := 0 }
    else if a.noVarIntervals ≥ 3 then
      let t := clampThreshold a.first_t_threshold a.loweredThreshold
      { a with noVarIntervals := 0, t_threshold := t, r_threshold := ⌊t * r_mul⌋₊ }
    else { a with noVarIntervals := a.noVarIntervals + 1 }
  { a with filter_threshold := a.t_threshold }

/-- The second clamp comes last. -/
theorem clampThreshold_le (first t : Nat) : clampThreshold first t ≤ first := by
  unfold clampThreshold
  dsimp only
  split_ifs <;> omega

/-- What is below a value and below the first threshold stays below the clamped value. -/
theorem le_clampThreshold {first t n : Nat} (ht : n ≤ t) (hfirst : n ≤ first) :
    n ≤ clampThreshold first t := by
  unfold clampThreshold
  dsimp only
  split_ifs <;> omega

/-- A clamped threshold is at least 1, unless the first one is 0. -/
theorem one_le_clampThreshold {first : Nat} (hfirst : 1 ≤ first) (t : Nat) :
    1 ≤ clampThreshold first t := by
  unfold clampThreshold
  dsimp only
  split_ifs <;> omega

/-- Below the first threshold only a zero is corrected. -/
theorem clampThreshold_of_le {first t : Nat} (ht : t ≤ first) (hfirst : 1 ≤ first) :
    clampThreshold first t = max 1 t := by
  unfold clampThreshold
  dsimp only
  split_ifs <;> omega

/-- A product that came out as 0 is corrected to 1. -/
theorem clampThreshold_zero {first : Nat} (hfirst : 1 ≤ first) : clampThreshold first 0 = 1 :=
  clampThreshold_of_le (Nat.zero_le _) hfirst

/-- `r_mul` is less than 1. -/
theorem floor_r_mul_le (t : Nat) : ⌊t * r_mul⌋₊ ≤ t := by
  apply Nat.floor_le_of_le
  have ht : (0 : ℚ) ≤ t := Nat.cast_nonneg t
  unfold r_mul
  linarith

theorem usage_nonneg (a : Analyzer) : 0 ≤ a.usage := by
  unfold usage; positivity

/-- The computed multiple is the truncated real one. -/
theorem loweredThreshold_eq (a : Analyzer) :
    a.loweredThreshold =
      toULong ⌊(a.t_threshold : ℝ) * ((a.usage * target : ℚ) : ℝ) ^ (1 / 2 : ℝ)⌋₊ := by
  refine congrArg toULong (FloorSqrt.floorMulSqrt_eq _ ?_)
  have := a.usage_nonneg
  unfold target
  positivity

/-- The branch that raises: `r_threshold` stays what it is. -/
theorem update_thresholds_of_raise {a : Analyzer} (h : a.usage > target) :
    a.update_thresholds =
      { a with
        old_t_threshold := a.t_threshold
        old_r_threshold := a.r_threshold
        t_threshold := clampThreshold a.first_t_threshold a.raisedThreshold
        noVarIntervals := 0
        filter_threshold := clampThreshold a.first_t_threshold a.raisedThreshold } := by
  unfold usage at h
  simp [update_thresholds, raisedThreshold, usage, h]

/-- The branch that lowers: `r_threshold` is computed anew, and the count of quiet intervals starts
again. -/
theorem update_thresholds_of_lower {a : Analyzer} (h : ¬ a.usage > target)
    (hquiet : 3 ≤ a.noVarIntervals) :
    a.update_thresholds =
      { a with
        old_t_threshold := a.t_threshold
        old_r_threshold := a.r_threshold
        t_threshold := clampThreshold a.first_t_threshold a.loweredThreshold
        r_threshold := ⌊clampThreshold a.first_t_threshold a.loweredThreshold * r_mul⌋₊
        noVarIntervals := 0
        filter_threshold := clampThreshold a.first_t_threshold a.loweredThreshold } := by
  unfold usage at h
  simp [update_thresholds, loweredThreshold, usage, h, hquiet]

/-- The branch that waits: one more quiet interval. -/
theorem update_thresholds_of_wait {a : Analyzer} (h : ¬ a.usage > target)
    (hquiet : ¬ 3 ≤ a.noVarIntervals) :
    a.update_thresholds =
      { a with
        old_t_threshold := a.t_threshold
        old_r_threshold := a.r_threshold
        noVarIntervals := a.noVarIntervals + 1
        filter_threshold := a.t_threshold } := by
  unfold usage at h
  simp [update_thresholds, usage, h, hquiet]

/-- **What a call can do**: raise the threshold, lower both thresholds, or wait. -/
theorem update_thresholds_cases (a : Analyzer) :
    (a.usage > target ∧ a.update_thresholds =
      { a with
        old_t_threshold := a.t_threshold
        old_r_threshold := a.r_threshold
        t_threshold := clampThreshold a.first_t_threshold a.raisedThreshold
        noVarIntervals := 0
        filter_threshold := clampThreshold a.first_t_threshold a.raisedThreshold }) ∨
    (¬ a.usage > target ∧ 3 ≤ a.noVarIntervals ∧ a.update_thresholds =
      { a with
        old_t_threshold := a.t_threshold
        old_r_threshold := a.r_threshold
        t_threshold := clampThreshold a.first_t_threshold a.loweredThreshold
        r_threshold := ⌊clampThreshold a.first_t_threshold a.loweredThreshold * r_mul⌋₊
        noVarIntervals := 0
        filter_threshold := clampThreshold a.first_t_threshold a.loweredThreshold }) ∨
    (¬ a.usage > target ∧ ¬ 3 ≤ a.noVarIntervals ∧ a.update_thresholds =
      { a with
        old_t_threshold := a.t_threshold
        old_r_threshold := a.r_threshold
        noVarIntervals := a.noVarIntervals + 1
        filter_threshold := a.t_threshold }) := by
  -- the source tests the usage first, and the counter only when the usage is not above the target
  by_cases hraise : a.usage > target
  · exact Or.inl ⟨hraise, update_thresholds_of_raise hraise⟩
  · by_cases hquiet : 3 ≤ a.noVarIntervals
    · exact Or.inr (Or.inl ⟨hraise, hquiet, update_thresholds_of_lower hraise hquiet⟩)
    · exact Or.inr (Or.inr ⟨hraise, hquiet, update_thresholds_of_wait hraise hquiet⟩)

/-- Every call first saves both thresholds, and none writes the first one. -/
theorem update_thresholds_old (a : Analyzer) :
    a.update_thresholds.old_t_threshold = a.t_threshold ∧
      a.update_thresholds.old_r_threshold = a.r_threshold ∧
      a.update_thresholds.first_t_threshold = a.first_t_threshold := by
  rcases a.update_thresholds_cases with ⟨-, heq⟩ | ⟨-, -, heq⟩ | ⟨-, -, heq⟩ <;> simp [heq]

/-! ## Scanning a table -/

/-- What the loop of `checkCleanHashTable` does with one entry: what it pushes to the results,
and what it leaves in the table (`none` when it erases the entry). -/
def checkEntry (old_t old_r : Nat) (fd : FlowDescriptor) :
    List FlowDescriptor × Option FlowDescriptor :=
  if fd.cycles = 0 ∧ fd.dOctets.toNat > old_r ∧ fd.dOctets.toNat ≤ old_t then
    -- added to the table in this interval: left in it
    ([], some { fd with cycles := fd.cycles + 1, dOctets := 0 })
  else if fd.cycles ≥ 0 ∧ fd.dOctets.toNat > old_t then
    -- over the threshold: collected, and left in the table
    ([fd], some { fd with cycles := fd.cycles + 1, dOctets := 0 })
  else ([], none)

/-- The entry as the next interval finds it, if it is left in the table. -/
def nextInterval (fd : FlowDescriptor) : FlowDescriptor :=
  { fd with cycles := fd.cycles + 1, dOctets := 0 }

@[simp] theorem nextInterval_fid (fd : FlowDescriptor) : (nextInterval fd).fid = fd.fid := rfl

@[simp] theorem nextInterval_dPkts (fd : FlowDescriptor) :
    (nextInterval fd).dPkts = fd.dPkts := rfl

@[simp] theorem nextInterval_dOctets (fd : FlowDescriptor) : (nextInterval fd).dOctets = 0 := rfl

@[simp] theorem nextInterval_cycles (fd : FlowDescriptor) :
    (nextInterval fd).cycles = fd.cycles + 1 := rfl

/-- The three-way branch of the scan: an entry over the threshold is reported and kept, one of
this interval that is over the early-removal threshold is kept unreported, any other is
erased. -/
theorem checkEntry_cases (t r : Nat) (fd : FlowDescriptor) :
    (t < fd.dOctets.toNat ∧ checkEntry t r fd = ([fd], some (nextInterval fd))) ∨
    (fd.dOctets.toNat ≤ t ∧ fd.cycles = 0 ∧ r < fd.dOctets.toNat ∧
      checkEntry t r fd = ([], some (nextInterval fd))) ∨
    (fd.dOctets.toNat ≤ t ∧ (fd.cycles = 0 → fd.dOctets.toNat ≤ r) ∧
      checkEntry t r fd = ([], none)) := by
  unfold checkEntry
  split_ifs with h₁ h₂
  · -- the branches in the order of the source: kept silently, reported, erased
    exact Or.inr (Or.inl ⟨h₁.2.2, h₁.1, h₁.2.1, rfl⟩)
  · exact Or.inl ⟨h₂.2, rfl⟩
  · refine Or.inr (Or.inr ⟨?_, ?_, rfl⟩)
    · -- not reported, so not over the threshold
      exact Nat.le_of_not_lt fun hover => h₂ ⟨UInt32.zero_le, hover⟩
    · -- and if this was its first scan, not over the early-removal threshold either
      intro hcycles
      by_contra hr
      exact h₂ ⟨UInt32.zero_le, Nat.lt_of_not_le fun hle =>
        h₁ ⟨hcycles, Nat.lt_of_not_le hr, hle⟩⟩

/-- Whatever survives a scan starts the next interval with no bytes and one more cycle. -/
theorem eq_nextInterval_of_kept {t r : Nat} {fd fd' : FlowDescriptor}
    (h : (checkEntry t r fd).2 = some fd') : fd' = nextInterval fd := by
  rcases checkEntry_cases t r fd with ⟨-, heq⟩ | ⟨-, -, -, heq⟩ | ⟨-, -, heq⟩ <;>
    rw [heq] at h <;> cases h
  · rfl
  · rfl

/-- The scan pushes a copy of the entry exactly when it is over the threshold. -/
theorem mem_checkEntry_fst {t r : Nat} {fd fd' : FlowDescriptor} :
    fd' ∈ (checkEntry t r fd).1 ↔ fd' = fd ∧ t < fd.dOctets.toNat := by
  rcases checkEntry_cases t r fd with ⟨hover, heq⟩ | ⟨hle, -, -, heq⟩ | ⟨hle, -, heq⟩
  · simp [heq, hover]
  · simp [heq, Nat.not_lt.mpr hle]
  · simp [heq, Nat.not_lt.mpr hle]

/-- One scan with the thresholds `old_t` and `old_r`, appending to `results`. -/
def scanTable (old_t old_r : Nat) (ht : HashTable) (results : List FlowDescriptor) :
    HashTable × List FlowDescriptor :=
  ({ fmap := (ht.fmap.scan (checkEntry old_t old_r) results).1
     tableSize := ht.tableSize
     fid_eq_key := by
      rintro ⟨k, fd'⟩ hmem
      obtain ⟨fd, hold, hkeep⟩ := IterMap.mem_scan.mp hmem
      obtain rfl := eq_nextInterval_of_kept hkeep
      exact ht.fid_eq_key (k, fd) hold },
    (ht.fmap.scan (checkEntry old_t old_r) results).2)

/-- The scan of one table with the thresholds of the interval that ends. -/
def checkCleanHashTable (a : Analyzer) (ht : HashTable) (results : List FlowDescriptor) :
    HashTable × List FlowDescriptor :=
  scanTable a.old_t_threshold a.old_r_threshold ht results

/-! ## The analysis of an interval -/

section Analysis

variable {n : Nat}

/-- The clock readings of `do_work` around its wait for the end of the interval. -/
def waited (a : Analyzer) (startT stopT : Int) : Analyzer := { a with startT, stopT }

/-- `e3 = e2; e2 = e1; e1 = 0`, before the workers are locked. -/
def shiftEntries (a : Analyzer) : Analyzer := { a with e3 := a.e2, e2 := a.e1, e1 := 0 }

/-- `old_t_threshold = t_threshold`, once they are. -/
def enterScan (a : Analyzer) : Analyzer := { a with old_t_threshold := a.t_threshold }

/-- The scan of the table of worker `i`, which pushes to the results of the workers before it. -/
def scanWorker (a : Analyzer) (s : (Fin n → Worker) × List FlowDescriptor) (i : Fin n) :
    (Fin n → Worker) × List FlowDescriptor :=
  (Function.update s.1 i { s.1 i with ht := (a.checkCleanHashTable (s.1 i).ht s.2).1 },
    (a.checkCleanHashTable (s.1 i).ht s.2).2)

/-- The population count and the average of the last three intervals. -/
def counted (a : Analyzer) (results : List FlowDescriptor) : Analyzer :=
  let a := { a with e1 := a.e1 + UInt32.ofNat results.length }
  { a with entriesUsedAVG := (a.e1 + a.e2 + a.e3) / 3 + 1 }

/-- The analysis between the scan and the filters: the average of three intervals, and
`update_thresholds`. -/
def adapt (a : Analyzer) (results : List FlowDescriptor) : Analyzer :=
  (a.counted results).update_thresholds

/-- The filter of one worker gets the new threshold and is reset. -/
def refilter (a : Analyzer) (w : Worker) : Worker :=
  (w.update_filter_threshold (UInt64.ofNat a.filter_threshold)).clean_filter

/-- The body of the loop that sets and resets the filters. -/
def refilterWorker (a : Analyzer) (ws : Fin n → Worker) (i : Fin n) : Fin n → Worker :=
  Function.update ws i (a.refilter (ws i))

/-- The analysis with all workers locked, as one step. -/
def do_boundedAnalysis (a : Analyzer) (ws : Fin n → Worker) (results : List FlowDescriptor) :
    Analyzer × (Fin n → Worker) × List FlowDescriptor :=
  let a := a.shiftEntries.enterScan
  let s := IndexLoop.loopTo a.scanWorker (ws, results) n
  let a := a.adapt s.2
  (a, IndexLoop.loopTo a.refilterWorker s.1 n, s.2)

/-- The descriptor of the interval, with the thresholds that its scan has used. -/
def output_results (a : Analyzer) : IntervalDescriptor :=
  .new a.intervalCounter a.startT a.stopT a.old_t_threshold a.old_r_threshold

end Analysis

/-! ## Scan and analysis in closed form -/

/-- The scan decides on each entry by itself. -/
theorem descriptor?_scanTable (t r : Nat) (ht : HashTable) (results : List FlowDescriptor)
    (fid : FlowID) :
    (scanTable t r ht results).1.descriptor? fid =
      (ht.descriptor? fid).bind fun fd => (checkEntry t r fd).2 :=
  IterMap.find?_scan (checkEntry t r) ht.fmap results fid

/-- The entries a scan reports, in iteration order. -/
def reported (t r : Nat) (ht : HashTable) : List FlowDescriptor :=
  ht.fmap.entries.flatMap fun e => (checkEntry t r e.2).1

/-- The scan of a table appends its reports to those of the tables before. -/
theorem scanTable_snd (t r : Nat) (ht : HashTable) (results : List FlowDescriptor) :
    (scanTable t r ht results).2 = results ++ reported t r ht :=
  IterMap.scan_output (checkEntry t r) ht.fmap results

/-- What is in the table after the scan does not depend on the results so far. -/
theorem scanTable_fst (t r : Nat) (ht : HashTable) (results : List FlowDescriptor) :
    (scanTable t r ht results).1 = (scanTable t r ht []).1 := by
  simp only [scanTable, HashTable.mk.injEq, and_true]
  have hentries : (ht.fmap.scan (checkEntry t r) results).1.entries =
      (ht.fmap.scan (checkEntry t r) []).1.entries := by
    rw [IterMap.scan_entries, IterMap.scan_entries]
  cases hl : (ht.fmap.scan (checkEntry t r) results).1
  cases hr : (ht.fmap.scan (checkEntry t r) []).1
  simp only [hl, hr] at hentries
  simp [hentries]

/-- The reports of a table are the entries over the threshold, as they were before the scan. -/
theorem mem_reported {t r : Nat} {ht : HashTable} {fd : FlowDescriptor} :
    fd ∈ reported t r ht ↔ ht.descriptor? fd.fid = some fd ∧ t < fd.dOctets.toNat := by
  simp only [reported, List.mem_flatMap, HashTable.descriptor?_eq_some, mem_checkEntry_fst]
  constructor
  · rintro ⟨⟨k, fd₀⟩, hmem, rfl, hover⟩
    have hkey : fd.fid = k := ht.fid_eq_key _ hmem
    exact ⟨hkey ▸ hmem, hover⟩
  · rintro ⟨hmem, hover⟩
    exact ⟨_, hmem, rfl, hover⟩

/-- A recorded flow is reported exactly when its octets are over the threshold. -/
theorem mem_reported_fids {t r : Nat} {ht : HashTable} {fid : FlowID}
    {fd : FlowDescriptor} (hfd : ht.descriptor? fid = some fd) :
    fid ∈ (reported t r ht).map FlowDescriptor.fid ↔ t < fd.dOctets.toNat := by
  rw [List.mem_map]
  constructor
  · rintro ⟨fd', hmem, rfl⟩
    obtain ⟨hfd', hover⟩ := mem_reported.mp hmem
    obtain rfl := Option.some.inj (hfd'.symm.trans hfd)
    exact hover
  · intro hover
    have hfid := HashTable.fid_of_descriptor? hfd
    exact ⟨fd, mem_reported.mpr ⟨hfid ▸ hfd, hover⟩, hfid⟩

/-- What an analysis with thresholds `t` and `r` makes of one worker's table. -/
def scanned (t r : Nat) (w : Worker) : Worker := { w with ht := (scanTable t r w.ht []).1 }

/-- The loop over the workers visits each table once, with the results as accumulator. -/
theorem scanWorker_eq_visit {n : Nat} (a : Analyzer) :
    a.scanWorker (n := n) = IndexLoop.visit fun _ w =>
      (scanned a.old_t_threshold a.old_r_threshold w,
        reported a.old_t_threshold a.old_r_threshold w.ht) := by
  funext s i
  simp only [scanWorker, checkCleanHashTable, IndexLoop.visit, IndexLoop.updateAt, scanned]
  rw [scanTable_snd, scanTable_fst]

/-- The second loop updates each worker by itself. -/
theorem refilterWorker_eq_updateAt {n : Nat} (a : Analyzer) :
    a.refilterWorker (n := n) = IndexLoop.updateAt fun _ w => a.refilter w := rfl

/-- **The analysis in closed form.** With `t` the threshold and `r` the early-removal threshold of
the previous adaptation: the results are the entries over `t`, worker by worker; every worker is
scanned and refiltered; the analyzer adapts to the number of results. -/
theorem do_boundedAnalysis_eq {n : Nat} (a : Analyzer) (ws : Fin n → Worker)
    (results : List FlowDescriptor) :
    a.do_boundedAnalysis ws results =
      let out := results ++
        (List.finRange n).flatMap fun i => reported a.t_threshold a.old_r_threshold (ws i).ht
      let a' := a.shiftEntries.enterScan.adapt out
      (a', fun i => a'.refilter (scanned a.t_threshold a.old_r_threshold (ws i)), out) := by
  unfold do_boundedAnalysis
  simp only [scanWorker_eq_visit, IndexLoop.loopTo_visit_self, refilterWorker_eq_updateAt,
    IndexLoop.loopTo_updateAt_self]
  rfl

@[simp] theorem refilter_ht (a : Analyzer) (w : Worker) : (a.refilter w).ht = w.ht := rfl

/-- The old threshold is the one in force during the interval that ends. -/
@[simp] theorem adapt_old_t (a : Analyzer) (results : List FlowDescriptor) :
    (a.adapt results).old_t_threshold = a.t_threshold :=
  (update_thresholds_old _).1

@[simp] theorem adapt_old_r (a : Analyzer) (results : List FlowDescriptor) :
    (a.adapt results).old_r_threshold = a.r_threshold :=
  (update_thresholds_old _).2.1

end Analyzer

end FHF
