import FHFCapturing.HashTable
import FHFCapturing.MultistageFilter
import FHFCapturing.Lib.Run

/-!
# A worker of the farm

`Worker` of `ParallelStages.cpp`: a flow table behind a multistage filter. `svc` handles one
packet: a recorded flow is updated (and so bypasses the filter), any other goes through the
filter and is recorded if it passes. The mutex around `svc` is the subject of
`FHFCapturing.Interleaving`; here `svc` is the body between lock and unlock.
-/

namespace FHF

/-- A worker: its flow table, its filter, and the threshold it was given. -/
structure Worker where
  ht : HashTable
  mfilter : MultistageFilter
  threshold : UInt32

namespace Worker

variable (P : IterMap.Placement FlowID FlowDescriptor)

/-- The constructor: the table and the stages share one size, and `hfuns` are the hash functions
drawn for the stages. -/
def new (tableSize : UInt32) (hfuns : List (FlowID → Fin tableSize.toNat)) (hne : hfuns ≠ [])
    (threshold : UInt32) : Worker where
  ht := HashTable.new tableSize
  mfilter := MultistageFilter.init tableSize.toNat hfuns hne threshold.toUInt64
  threshold := threshold

/-- What `svc` does with a task between lock and unlock. -/
def svc (w : Worker) (fup : FlowUpdate) : Except String Worker :=
  if w.ht.lookupFlow fup.fid then
    match w.ht.updateTable fup with
    | .ok ht => .ok { w with ht }
    | .error msg => .error msg
  else
    let (pass, mfilter) := w.mfilter.filter fup
    if pass then .ok { w with mfilter, ht := w.ht.insertFlow P fup }
    else .ok { w with mfilter }

/-- The analyzer's update of the filter; the worker's own copy of the threshold is an
`unsigned int`. -/
def update_filter_threshold (w : Worker) (newThreshold : UInt64) : Worker :=
  { w with mfilter := w.mfilter.updateThreshold newThreshold,
           threshold := newThreshold.toUInt32 }

def clean_filter (w : Worker) : Worker := { w with mfilter := w.mfilter.reset }

/-- The analyzer asks the first worker for this. -/
def getHashTableSize (w : Worker) : UInt32 := w.ht.getTableMaxSize

/-- The analyzer's first threshold is that of the first worker. -/
def getThreshold (w : Worker) : UInt64 := w.threshold.toUInt64

@[simp] theorem update_filter_threshold_ht (w : Worker) (t : UInt64) :
    (w.update_filter_threshold t).ht = w.ht := rfl

@[simp] theorem clean_filter_ht (w : Worker) : w.clean_filter.ht = w.ht := rfl

@[simp] theorem clean_filter_mfilter (w : Worker) :
    w.clean_filter.mfilter = w.mfilter.reset := rfl

/-! ## What one packet does -/

/-- The three things `svc` can do. -/
inductive Svc (w : Worker) (fup : FlowUpdate) : Worker → Prop where
  | recorded (hrec : w.ht.lookupFlow fup.fid = true) :
      Svc w fup { w with ht := w.ht.accounted fup }
  | admitted (hnew : w.ht.lookupFlow fup.fid = false)
      (hpass : (w.mfilter.filter fup).1 = true) :
      Svc w fup { w with ht := w.ht.insertFlow P fup }
  | dropped (hnew : w.ht.lookupFlow fup.fid = false)
      (hdrop : (w.mfilter.filter fup).1 = false) :
      Svc w fup { w with mfilter := (w.mfilter.filter fup).2 }

/-- **A step of a worker**: `svc` never throws, and it does one of three things. -/
theorem svc_cases (w : Worker) (fup : FlowUpdate) :
    ∃ w', w.svc P fup = .ok w' ∧ Svc P w fup w' := by
  cases hrec : w.ht.lookupFlow fup.fid with
  -- the entry that was looked up is still there, so `updateTable` does not throw
  | true =>
    refine ⟨_, ?_, Svc.recorded hrec⟩
    simp [svc, hrec, HashTable.updateTable_of_recorded hrec]
  | false =>
    cases hpass : (w.mfilter.filter fup).1 with
    | true =>
      refine ⟨_, ?_, Svc.admitted hrec hpass⟩
      simp [svc, hrec, hpass, MultistageFilter.filter_of_pass hpass]
    | false =>
      refine ⟨_, ?_, Svc.dropped hrec hpass⟩
      simp [svc, hrec, hpass]

/-- The packets of a sequence, one after the other. -/
def svcAll (w : Worker) (fups : List FlowUpdate) : Except String Worker :=
  Run.run (svc P) w fups

variable {P}

/-- A packet removes no entry. -/
theorem Svc.lookup_mono {w w' : Worker} {fup : FlowUpdate} (h : Svc P w fup w') {fid : FlowID}
    (hrec : w.ht.lookupFlow fid = true) : w'.ht.lookupFlow fid = true := by
  rw [HashTable.lookupFlow_eq] at hrec ⊢
  cases h with
  | recorded hlook =>
    rw [HashTable.descriptor?_accounted]
    split <;> simpa using hrec
  | admitted hnew hpass =>
    rw [HashTable.descriptor?_insertFlow hnew]
    split
    · rfl
    · exact hrec
  | dropped hnew hdrop => exact hrec

theorem svcAll_recorded {w : Worker} {fid : FlowID} (hrec : w.ht.lookupFlow fid = true)
    (fups : List FlowUpdate) :
    ∃ w', w.svcAll P fups = .ok w' ∧ w'.ht.lookupFlow fid = true := by
  refine Run.run_invariant (I := fun w : Worker => w.ht.lookupFlow fid = true) ?_ hrec fups
  intro w fup hrec
  obtain ⟨w', hok, hsvc⟩ := svc_cases P w fup
  exact ⟨w', hok, hsvc.lookup_mono hrec⟩

/-- After a packet of a flow that was not recorded, the flow is recorded exactly if it passed the
filter. -/
theorem Svc.lookup_self {w w' : Worker} {fup : FlowUpdate} (h : Svc P w fup w')
    (hnew : w.ht.lookupFlow fup.fid = false) :
    w'.ht.lookupFlow fup.fid = (w.mfilter.filter fup).1 := by
  cases h with
  | recorded hlook => rw [hnew] at hlook; cases hlook
  | admitted _ hpass =>
    rw [HashTable.lookupFlow_eq, HashTable.descriptor?_insertFlow hnew, if_pos rfl, hpass]
    rfl
  | dropped _ hdrop => rw [hdrop]; exact hnew

/-- A packet leaves the entries of other flows as they are. -/
theorem Svc.descriptor?_of_ne {w w' : Worker} {fup : FlowUpdate} (h : Svc P w fup w') {fid : FlowID}
    (hne : fid ≠ fup.fid) : w'.ht.descriptor? fid = w.ht.descriptor? fid := by
  cases h with
  | recorded _ => rw [HashTable.descriptor?_accounted, if_neg hne]
  | admitted hnew _ => rw [HashTable.descriptor?_insertFlow hnew, if_neg hne]
  | dropped _ _ => rfl

end Worker

end FHF
