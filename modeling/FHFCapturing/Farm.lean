import FHFCapturing.Analyzer

/-!
# The farm

The system of `main`: an emitter that dispatches captured packets to `n` workers
(`Emitter::dispatchPolicy`), one queue per worker (FastFlow delivers each task once, in order,
to the selected worker), the workers, and the analyzer, whose analysis of an interval is one
step here (`FHFCapturing.Atomicity` justifies that). A run is a list of events in any order:
the emitter dispatches a packet, worker `i` handles the packet at the head of its queue, or the
analyzer analyses the interval and exports the results.

`Boost` is what the code takes from that library: `hash_combine` at the three field types, and
the iteration order of `boost::unordered_map`.
-/

namespace FHF

/-- The functions of Boost that the code calls; the order of iteration is where a new entry is
placed. -/
structure Boost where
  hash_combine32 : UInt64 → UInt32 → UInt64
  hash_combine16 : UInt64 → UInt16 → UInt64
  hash_combine8 : UInt64 → UInt8 → UInt64
  placement : IterMap.Placement FlowID FlowDescriptor

/-- The worker that a flow is sent to: the same one for all its packets. -/
def dispatchPolicy (B : Boost) (numWorkers : Nat) (e : FlowID) : Nat :=
  let seed : UInt64 := 0
  let seed := B.hash_combine32 seed e.dstaddr
  let seed := B.hash_combine16 seed e.dstport
  let seed := B.hash_combine8 seed e.prot
  let seed := B.hash_combine32 seed e.srcaddr
  let seed := B.hash_combine16 seed e.srcport
  seed.toNat % numWorkers

/-- `hash_combine` of a value whose own hash is `v`, with a 64-bit `size_t`. -/
def hash_combine (seed v : UInt64) : UInt64 :=
  seed ^^^ (v + 0x9e3779b9 + (seed <<< (6 : UInt64)) + (seed >>> (2 : UInt64)))

/-- Boost with that `hash_combine`, where integers hash to themselves, and with new entries
iterated last. -/
def Boost.standard : Boost where
  hash_combine32 seed v := hash_combine seed v.toUInt64
  hash_combine16 seed v := hash_combine seed v.toUInt64
  hash_combine8 seed v := hash_combine seed v.toUInt64
  placement := .atEnd

/-- The state of the farm between its events: the queues, the workers, and the analyzer with what it
has exported. -/
structure Farm (n : Nat) where
  queue : Fin n → List FlowUpdate
  workers : Fin n → Worker
  analyzer : Analyzer
  -- What the exporter was given, interval by interval.
  exported : List (IntervalDescriptor × List FlowDescriptor)

/-- What happens in the farm. -/
inductive Event (n : Nat) where
  | capture (fup : FlowUpdate)
  | svc (i : Fin n)
  | analysis (startT stopT : Int)
  deriving DecidableEq, Repr

namespace Event

variable {n : Nat}

/-- Whether the emitter makes the step. -/
def isCapture : Event n → Bool
  | .capture _ => true
  | _ => false

/-- Whether the analyzer makes the step. -/
def isAnalysis : Event n → Bool
  | .analysis _ _ => true
  | _ => false

end Event

namespace Farm

variable {n : Nat} (B : Boost)

/-- The emitter hands a packet to the queue of the selected worker. -/
def capture (s : Farm n) (fup : FlowUpdate) : Farm n :=
  if h : dispatchPolicy B n fup.fid < n then
    { s with queue := Function.update s.queue ⟨_, h⟩ (s.queue ⟨_, h⟩ ++ [fup]) }
  else s

/-- Worker `i` handles the packet at the head of its queue; with an empty queue it waits. -/
def svc (s : Farm n) (i : Fin n) : Except String (Farm n) :=
  match s.queue i with
  | [] => .ok s
  | fup :: rest =>
      match (s.workers i).svc B.placement fup with
      | .ok w => .ok { s with queue := Function.update s.queue i rest,
                              workers := Function.update s.workers i w }
      | .error msg => .error msg

/-- One turn of the loop in `do_work` whose wait ran from `startT` to `stopT`:
`do_boundedAnalysis` on an empty vector of results, then `output_results`, then the next interval
number. -/
def analysis (s : Farm n) (startT stopT : Int) : Farm n :=
  let (a, ws, results) := (s.analyzer.waited startT stopT).do_boundedAnalysis s.workers []
  { s with
    workers := ws
    analyzer := { a with intervalCounter := a.intervalCounter + 1 }
    exported := s.exported ++ [(a.output_results, results)] }

/-- One event; only a worker can fail, by the exception of `updateTable`. -/
def step (s : Farm n) : Event n → Except String (Farm n)
  | .capture fup => .ok (s.capture B fup)
  | .svc i => s.svc B i
  | .analysis startT stopT => .ok (s.analysis startT stopT)

/-- A sequence of events. -/
def run (s : Farm n) (es : List (Event n)) : Except String (Farm n) := Run.run (step B) s es

/-! ## The start of the program -/

/-- What `main` builds the farm from: the number of workers, the table size, the first threshold
(an `unsigned int` in the worker's constructor) and the hash functions drawn for each worker's
stages, with what the constructors check. -/
structure Config (n : Nat) where
  workers_pos : 0 < n
  tableSize : UInt32
  tableSize_pos : 0 < tableSize
  firstThreshold : UInt32
  hfuns : Fin n → List (FlowID → Fin tableSize.toNat)
  hfuns_ne_nil : ∀ i, hfuns i ≠ []

/-- A worker as `main` constructs it. -/
def Config.worker (cfg : Config n) (i : Fin n) : Worker :=
  Worker.new cfg.tableSize (cfg.hfuns i) (cfg.hfuns_ne_nil i) cfg.firstThreshold

/-- One worker with one stage, a table of 1201 entries, and a hash function with all coefficients
zero. -/
def Config.single (firstThreshold : UInt32) : Config 1 where
  workers_pos := Nat.one_pos
  tableSize := 1201
  tableSize_pos := by decide
  firstThreshold := firstThreshold
  hfuns := fun _ => [StageContainer.zeroHash]
  hfuns_ne_nil := fun _ => StageContainer.single_ne_nil

/-- The farm before the first packet. -/
def init (cfg : Config n) : Farm n where
  queue := fun _ => []
  workers := cfg.worker
  analyzer := Analyzer.new (cfg.worker ⟨0, cfg.workers_pos⟩)
  exported := []

/-! ## What an event does -/

variable {B}

theorem svc_of_nil {s : Farm n} {i : Fin n} (h : s.queue i = []) : s.svc B i = .ok s := by
  simp [svc, h]

/-- A worker with a packet handles it, and does not fail. -/
theorem svc_of_cons {s : Farm n} {i : Fin n} {fup : FlowUpdate} {rest : List FlowUpdate}
    (h : s.queue i = fup :: rest) :
    ∃ w, Worker.Svc B.placement (s.workers i) fup w ∧
      s.svc B i = .ok { s with queue := Function.update s.queue i rest,
                               workers := Function.update s.workers i w } := by
  obtain ⟨w, hok, hsvc⟩ := Worker.svc_cases B.placement (s.workers i) fup
  exact ⟨w, hsvc, by simp [svc, h, hok]⟩

/-- What handling a packet can do to the farm: nothing if the queue is empty, else what `svc` does
to the worker. -/
theorem svc_cases {s s' : Farm n} {i : Fin n} (h : s.svc B i = .ok s') :
    (s.queue i = [] ∧ s' = s) ∨
    ∃ fup rest w, s.queue i = fup :: rest ∧ Worker.Svc B.placement (s.workers i) fup w ∧
      s' = { s with queue := Function.update s.queue i rest,
                    workers := Function.update s.workers i w } := by
  cases hq : s.queue i with
  | nil => exact Or.inl ⟨rfl, Except.ok.inj (h.symm.trans (svc_of_nil hq))⟩
  | cons fup rest =>
    obtain ⟨w, hsvc, hok⟩ := svc_of_cons (B := B) hq
    exact Or.inr ⟨fup, rest, w, rfl, hsvc, Except.ok.inj (h.symm.trans hok)⟩

/-- A worker takes the head of its own queue, and nothing from the other queues. -/
theorem svc_queue {s s' : Farm n} {j : Fin n} (h : s.svc B j = .ok s') (i : Fin n) :
    (if j = i then (s.queue i).head?.toList else []) ++ s'.queue i = s.queue i := by
  rcases svc_cases h with ⟨hq, rfl⟩ | ⟨fup, rest, w, hq, -, rfl⟩
  · by_cases hi : j = i
    · subst hi
      simp [hq]
    · simp [hi]
  · by_cases hi : j = i
    · subst hi
      simp [hq]
    · simp [hi, Ne.symm hi]

/-- The workers do not touch the analyzer. -/
theorem svc_analyzer {s s' : Farm n} {j : Fin n} (h : s.svc B j = .ok s') :
    s'.analyzer = s.analyzer := by
  rcases svc_cases h with ⟨-, rfl⟩ | ⟨_, _, _, -, -, rfl⟩ <;> rfl

theorem svc_exported {s s' : Farm n} {j : Fin n} (h : s.svc B j = .ok s') :
    s'.exported = s.exported := by
  rcases svc_cases h with ⟨-, rfl⟩ | ⟨_, _, _, -, -, rfl⟩ <;> rfl

/-- The results of the next analysis: the entries over the threshold, worker by worker. -/
def results (s : Farm n) : List FlowDescriptor :=
  (List.finRange n).flatMap fun i =>
    Analyzer.reported s.analyzer.t_threshold s.analyzer.old_r_threshold (s.workers i).ht

/-- The analyzer when the next analysis has adapted its thresholds. -/
def adapted (s : Farm n) (startT stopT : Int) : Analyzer :=
  (s.analyzer.waited startT stopT).shiftEntries.enterScan.adapt s.results

/-- The analysis in one piece: scan, adapt, set and reset the filters, export. -/
theorem analysis_eq (s : Farm n) (startT stopT : Int) :
    s.analysis startT stopT =
      { s with
        workers := fun i => (s.adapted startT stopT).refilter
          (Analyzer.scanned s.analyzer.t_threshold s.analyzer.old_r_threshold (s.workers i))
        analyzer := { s.adapted startT stopT with
          intervalCounter := (s.adapted startT stopT).intervalCounter + 1 }
        exported := s.exported ++ [((s.adapted startT stopT).output_results, s.results)] } := by
  simp only [analysis, Analyzer.do_boundedAnalysis_eq, List.nil_append]
  rfl

/-- What the analysis does to one entry of a table. -/
theorem descriptor?_analysis (s : Farm n) (startT stopT : Int) (i : Fin n) (fid : FlowID) :
    ((s.analysis startT stopT).workers i).ht.descriptor? fid =
      ((s.workers i).ht.descriptor? fid).bind fun fd =>
        (Analyzer.checkEntry s.analyzer.t_threshold s.analyzer.old_r_threshold fd).2 := by
  rw [analysis_eq]
  simp only [Analyzer.refilter_ht]
  exact Analyzer.descriptor?_scanTable _ _ (s.workers i).ht [] fid

@[simp] theorem capture_workers (s : Farm n) (fup : FlowUpdate) :
    (s.capture B fup).workers = s.workers := by
  unfold capture; split <;> rfl

@[simp] theorem capture_analyzer (s : Farm n) (fup : FlowUpdate) :
    (s.capture B fup).analyzer = s.analyzer := by
  unfold capture; split <;> rfl

@[simp] theorem capture_exported (s : Farm n) (fup : FlowUpdate) :
    (s.capture B fup).exported = s.exported := by
  unfold capture; split <;> rfl

theorem capture_queue (s : Farm n) (fup : FlowUpdate) (i : Fin n) :
    (s.capture B fup).queue i =
      s.queue i ++ if dispatchPolicy B n fup.fid = i then [fup] else [] := by
  unfold Farm.capture
  by_cases hi : dispatchPolicy B n fup.fid = i
  · have hlt : dispatchPolicy B n fup.fid < n := hi ▸ i.isLt
    obtain rfl : i = ⟨_, hlt⟩ := Fin.ext hi.symm
    rw [dif_pos hlt, if_pos rfl]
    exact Function.update_self ..
  · rw [if_neg hi, List.append_nil]
    split
    next hlt => exact Function.update_of_ne (fun h => hi (congrArg Fin.val h).symm) _ _
    next => rfl

/-- No event of the farm fails; the exception of `updateTable` is never raised. -/
theorem step_ok (s : Farm n) (e : Event n) : ∃ s', s.step B e = .ok s' := by
  cases e with
  | capture fup => exact ⟨_, rfl⟩
  | analysis startT stopT => exact ⟨_, rfl⟩
  | svc i =>
    cases hq : s.queue i with
    | nil => exact ⟨s, svc_of_nil hq⟩
    | cons fup rest =>
      obtain ⟨w, -, hok⟩ := svc_of_cons (B := B) hq
      exact ⟨_, hok⟩

end Farm

end FHF
