import FHFCapturing.Lib.SepLogic
import FHFCapturing.Shutdown

/-!
# The program on the heap

The same program as in `FHFCapturing.Shutdown`, with the objects that the source allocates and
deletes: the emitter's handler makes a `Task` that owns a `FlowUpdate`, the worker that handles it
deletes both; a flow table owns a map from flow IDs to descriptors that it allocates one by one, and
the analyzer deletes the descriptors it erases; each turn of `do_work` allocates a vector of results
and an interval descriptor; `main` allocates the workers, the exporter and the analyzer and deletes
them at the end. A pointer is an address, and following one that points to no object of its type is
a fault.

The multistage filter is one object here: its stages, their counters and their hash functions are
allocated by its constructor and deleted by its destructor, and never in between. What `main` has on
its stack (the farm, the emitter, the two vectors of pointers to the workers) is no object of this
heap, nor is what the libraries allocate for it.
-/

namespace FHF

open SepLogic

/-- What the program allocates. -/
inductive Obj where
  | task (fd : Addr)
  | flowUpdate (fup : FlowUpdate)
  | flowDescriptor (fd : FlowDescriptor)
  | flowMap (m : IterMap FlowID Addr)
  | hashTable (fmap : Addr) (tableSize : UInt32)
  | multistageFilter (mfilter : MultistageFilter)
  | worker (ht mfilter : Addr) (threshold : UInt32)
  | analyzer (a : Analyzer) (exporter : Addr)
  -- the file it writes outlives it
  | fileExporter
  | results (fds : List FlowDescriptor)
  | intervalDescriptor (it : IntervalDescriptor)

namespace Obj

def task? : Obj → Option Addr
  | .task fd => some fd
  | _ => none

def flowUpdate? : Obj → Option FlowUpdate
  | .flowUpdate fup => some fup
  | _ => none

def flowDescriptor? : Obj → Option FlowDescriptor
  | .flowDescriptor fd => some fd
  | _ => none

def flowMap? : Obj → Option (IterMap FlowID Addr)
  | .flowMap m => some m
  | _ => none

def hashTable? : Obj → Option (Addr × UInt32)
  | .hashTable fmap tableSize => some (fmap, tableSize)
  | _ => none

def multistageFilter? : Obj → Option MultistageFilter
  | .multistageFilter mfilter => some mfilter
  | _ => none

def worker? : Obj → Option (Addr × Addr × UInt32)
  | .worker ht mfilter threshold => some (ht, mfilter, threshold)
  | _ => none

def analyzer? : Obj → Option (Analyzer × Addr)
  | .analyzer a exporter => some (a, exporter)
  | _ => none

def fileExporter? : Obj → Option Unit
  | .fileExporter => some ()
  | _ => none

def results? : Obj → Option (List FlowDescriptor)
  | .results fds => some fds
  | _ => none

def intervalDescriptor? : Obj → Option IntervalDescriptor
  | .intervalDescriptor it => some it
  | _ => none

end Obj

namespace Pointer

variable {A : Allocator Obj} (C : IterMap.KeyPlacement FlowID)

/-! ## Tasks -/

/-- `new Task()`, whose constructor allocates the update. -/
def newTask : Mem A Addr := do
  let fd ← new (.flowUpdate { fid := ⟨0, 0, 0, 0, 0⟩ })
  new (.task fd)

/-- `delete t`, whose destructor deletes the update. -/
def deleteTask (t : Addr) : Mem A Unit := do
  let fd ← loadAs Obj.task? t
  delete fd
  delete t

/-! ## The flow table -/

/-- `new HashTable`, whose constructor allocates the map. -/
def newHashTable (tableSize : UInt32) : Mem A Addr := do
  let fmap ← new (.flowMap IterMap.empty)
  new (.hashTable fmap tableSize)

/-- The table's pointer to its map. -/
def getFlowMap (ht : Addr) : Mem A Addr := do
  let (fmap, _) ← loadAs Obj.hashTable? ht
  pure fmap

/-- `find`, compared with `end`. -/
def lookupFlow (ht : Addr) (fid : FlowID) : Mem A Bool := do
  let fmap ← getFlowMap ht
  let m ← loadAs Obj.flowMap? fmap
  pure (m.contains fid)

/-- The descriptor is changed in place. -/
def updateTable (ht fup : Addr) : Mem A Unit := do
  let update ← loadAs Obj.flowUpdate? fup
  let fmap ← getFlowMap ht
  let m ← loadAs Obj.flowMap? fmap
  match m.find? update.fid with
  | some p =>
      let fd ← loadAs Obj.flowDescriptor? p
      store p (.flowDescriptor (fd.incrementd_0ctects update.dOctets).increment_dPkts)
  | none => throw (.thrown "Updating value of non stored Flow")

/-- An insertion under a key that the map has would drop the pointer to the new descriptor. -/
def insertFlow (ht fup : Addr) : Mem A Unit := do
  let update ← loadAs Obj.flowUpdate? fup
  let fd ← new (.flowDescriptor
    { fid := update.fid, dOctets := update.dOctets : FlowDescriptor }.increment_dPkts)
  let fmap ← getFlowMap ht
  let m ← loadAs Obj.flowMap? fmap
  store fmap (.flowMap (m.insert (C.placement Addr) update.fid fd))

/-- The destructor's loop over the descriptors. -/
def clearTable (ht : Addr) : Mem A Unit := do
  let fmap ← getFlowMap ht
  let m ← loadAs Obj.flowMap? fmap
  m.entries.forM fun e => delete e.2
  store fmap (.flowMap IterMap.empty)

def deleteHashTable (ht : Addr) : Mem A Unit := do
  clearTable ht
  let fmap ← getFlowMap ht
  delete fmap
  delete ht

/-! ## The worker -/

/-- `new Worker`; the filter is drawn by the configuration. -/
def newWorker (tableSize : UInt32) (mfilter : MultistageFilter) (threshold : UInt32) :
    Mem A Addr := do
  let mfilter ← new (.multistageFilter mfilter)
  let ht ← newHashTable tableSize
  new (.worker ht mfilter threshold)

def deleteWorker (w : Addr) : Mem A Unit := do
  let (ht, mfilter, _) ← loadAs Obj.worker? w
  deleteHashTable ht
  delete mfilter
  delete w

def filter (mfilter fup : Addr) : Mem A Bool := do
  let mf ← loadAs Obj.multistageFilter? mfilter
  let update ← loadAs Obj.flowUpdate? fup
  store mfilter (.multistageFilter (mf.filter update).2)
  pure (mf.filter update).1

/-- `svc` between the lock and the unlock. -/
def record (ht mfilter fup : Addr) : Mem A Unit := do
  let update ← loadAs Obj.flowUpdate? fup
  if ← lookupFlow ht update.fid then updateTable ht fup
  else if ← filter mfilter fup then insertFlow C ht fup

/-- The task is deleted after the unlock. -/
def svc (w t : Addr) : Mem A Unit := do
  let (ht, mfilter, _) ← loadAs Obj.worker? w
  let fup ← loadAs Obj.task? t
  record C ht mfilter fup
  deleteTask t

/-- The analyzer's update of the filter. -/
def update_filter_threshold (w : Addr) (newThreshold : UInt64) : Mem A Unit := do
  let (ht, mfilter, _) ← loadAs Obj.worker? w
  let mf ← loadAs Obj.multistageFilter? mfilter
  store mfilter (.multistageFilter (mf.updateThreshold newThreshold))
  store w (.worker ht mfilter newThreshold.toUInt32)

/-- Every stage is reset. -/
def clean_filter (w : Addr) : Mem A Unit := do
  let (_, mfilter, _) ← loadAs Obj.worker? w
  let mf ← loadAs Obj.multistageFilter? mfilter
  store mfilter (.multistageFilter mf.reset)

/-- The worker's pointer to its table. -/
def getHashTable (w : Addr) : Mem A Addr := do
  let (ht, _, _) ← loadAs Obj.worker? w
  pure ht

/-! ## The analysis -/

/-- The loop of `checkCleanHashTable` from an iterator on; `erase` gives the next iterator. -/
def checkCleanLoop (old_t old_r : Nat) (fmap results : Addr) :
    List (FlowID × Addr) → Mem A Unit
  | [] => pure ()
  | (k, p) :: rest => do
      let fd ← loadAs Obj.flowDescriptor? p
      if fd.cycles = 0 ∧ fd.dOctets.toNat > old_r ∧ fd.dOctets.toNat ≤ old_t then
        store p (.flowDescriptor { fd with cycles := fd.cycles + 1, dOctets := 0 })
        -- kept without a report: the first scan, and between the two thresholds
        checkCleanLoop old_t old_r fmap results rest
      else if fd.cycles ≥ 0 ∧ fd.dOctets.toNat > old_t then
        -- reported: a copy goes to the results, and the entry stays
        let fds ← loadAs Obj.results? results
        store results (.results (fds ++ [fd]))
        store p (.flowDescriptor { fd with cycles := fd.cycles + 1, dOctets := 0 })
        checkCleanLoop old_t old_r fmap results rest
      else
        -- erased, and its descriptor deleted
        delete p
        let m ← loadAs Obj.flowMap? fmap
        store fmap (.flowMap (m.erase k))
        checkCleanLoop old_t old_r fmap results rest

/-- The scan of one table. -/
def checkCleanHashTable (a : Analyzer) (ht results : Addr) : Mem A Unit := do
  let fmap ← getFlowMap ht
  let m ← loadAs Obj.flowMap? fmap
  checkCleanLoop a.old_t_threshold a.old_r_threshold fmap results m.entries

/-- The analysis: a scan of each worker, the adaptation, and each worker's filter. -/
def do_boundedAnalysis {n : Nat} (a : Analyzer) (workers : Fin n → Addr) (results : Addr) :
    Mem A Analyzer := do
  let a := a.shiftEntries.enterScan
  (List.finRange n).forM fun i => do
    let ht ← getHashTable (workers i)
    checkCleanHashTable a ht results
  let fds ← loadAs Obj.results? results
  let a := a.adapt fds
  (List.finRange n).forM fun i => do
    update_filter_threshold (workers i) (UInt64.ofNat a.filter_threshold)
    clean_filter (workers i)
  pure a

/-- What `FileExporter::exportFlow` writes. -/
def exportFlow (exporter results it : Addr) :
    Mem A (IntervalDescriptor × List FlowDescriptor) := do
  loadAs Obj.fileExporter? exporter
  let descr ← loadAs Obj.intervalDescriptor? it
  let fds ← loadAs Obj.results? results
  pure (descr, fds)

/-- The header lives until the export returns. -/
def output_results (a : Analyzer) (exporter results : Addr) :
    Mem A (IntervalDescriptor × List FlowDescriptor) := do
  let it ← new (.intervalDescriptor a.output_results)
  let exported ← exportFlow exporter results it
  delete it
  pure exported

/-! ## The program -/

/-- Where the analyzer is in `do_work`, as in `FHF.DoWorkPc`; the results are behind its local
variable. -/
inductive DoWorkPc where
  | testing
  | waiting
  | stopping
  | analysing (signalled : Bool)
  | outputting (signalled : Bool)
  | setting
  | exited
  deriving DecidableEq, Repr

/-- The state of `FHF.Program` with pointers; the flag is a field of the analyzer that only `stop`
and `do_work` write. -/
structure Program (n : Nat) where
  queue : Fin n → List Addr
  task : Fin n → Option Addr
  workers : Fin n → Addr
  analyze : Addr
  fex : Addr
  exported : List (IntervalDescriptor × List FlowDescriptor)
  emitter : EmitterPc
  breakloop : Bool
  pc : DoWorkPc
  -- the local variable of `do_work`
  results : Addr
  m_stoprequested : Bool
  stopped : Bool

namespace Program

variable {n : Nat} (B : Boost)

/-- `Emitter::handler` for the packet read: a new task, filled in, to the queue of the worker
selected by its flow. -/
def handler (s : Program n) (fup : FlowUpdate) : Mem A (Program n) := do
  let t ← newTask
  let fd ← loadAs Obj.task? t
  store fd (.flowUpdate fup)
  let update ← loadAs Obj.flowUpdate? fd
  if h : dispatchPolicy B n update.fid < n then
    pure { s with queue := Function.update s.queue ⟨_, h⟩ (s.queue ⟨_, h⟩ ++ [t]),
                  emitter := .polling }
  else pure { s with emitter := .polling }

/-- Worker `i` takes the task at the head of its queue, or handles the one it has. -/
def svc (s : Program n) (i : Fin n) : Mem A (Program n) :=
  match s.task i with
  | none =>
      match s.queue i with
      | [] => pure s
      | t :: rest =>
          pure { s with queue := Function.update s.queue i rest,
                        task := Function.update s.task i (some t) }
  | some t => do
      Pointer.svc C (s.workers i) t
      pure { s with task := Function.update s.task i none }

/-- One step of the analyzer, as in `FHF.Program.do_work`. -/
def do_work (s : Program n) (wake : Wake) (startT stopT : Int) : Mem A (Program n) := do
  let (a, exporter) ← loadAs Obj.analyzer? s.analyze
  match s.pc with
  | .testing =>
      if s.m_stoprequested then pure { s with pc := .exited }
      else do
        let results ← new (.results [])
        pure { s with pc := .waiting, results }
  | .waiting =>
      store s.analyze (.analyzer (a.waited startT stopT) exporter)
      match wake with
      | .timeout => pure { s with pc := .analysing false }
      | .signal => pure { s with pc := .stopping }
      -- `continue`: the next turn overwrites the only pointer to the results
      | .failed => pure { s with pc := .testing }
  | .stopping => pure { s with breakloop := true, pc := .analysing true }
  | .analysing signalled =>
      let a ← do_boundedAnalysis a s.workers s.results
      store s.analyze (.analyzer a exporter)
      pure { s with pc := .outputting signalled }
  | .outputting signalled =>
      let exported ← output_results a exporter s.results
      let a := if signalled then a else { a with intervalCounter := a.intervalCounter + 1 }
      store s.analyze (.analyzer a exporter)
      delete s.results
      pure { s with exported := s.exported ++ [exported],
                    pc := if signalled then .setting else .testing }
  | .setting => pure { s with m_stoprequested := true, pc := .testing }
  | .exited => pure s

/-- The farm has ended: nothing is read, queued or in a worker's hands any more. -/
def Drained (s : Program n) : Prop :=
  s.emitter = .returned ∧ ∀ i, s.queue i = [] ∧ s.task i = none

instance (s : Program n) : Decidable s.Drained :=
  inferInstanceAs (Decidable (_ ∧ ∀ i, s.queue i = [] ∧ s.task i = none))

/-- One step of the program, as in `FHF.Program.step`. -/
def step (s : Program n) : Action n → Mem A (Program n)
  -- a polling emitter sees `breakloop` before it reads
  | .read fup =>
      match s.emitter with
      | .polling =>
          pure { s with emitter := if s.breakloop then .returned else .delivering fup }
      | _ => pure s
  | .deliver =>
      match s.emitter with
      | .delivering fup => s.handler B fup
      | _ => pure s
  | .captureEnds =>
      match s.emitter with
      | .polling => pure { s with emitter := .returned }
      | _ => pure s
  | .svc i => s.svc C i
  -- only once, when the farm has ended
  | .stop =>
      if s.Drained ∧ ¬ s.stopped then do
        let _ ← loadAs Obj.analyzer? s.analyze
        pure { s with m_stoprequested := true, stopped := true }
      else pure s
  | .analyzer wake startT stopT => s.do_work wake startT stopT

/-- `main` until the farm runs: the workers, one after the other, the exporter and the analyzer. -/
def start (cfg : Farm.Config n) : Mem A (Program n) := do
  let workers ← (List.finRange n).foldlM (fun ws i => do
    let w ← newWorker cfg.tableSize (cfg.worker i).mfilter cfg.firstThreshold
    pure (Function.update ws i w)) fun _ => 0
  let fex ← new .fileExporter
  let analyze ← new (.analyzer (.new (cfg.worker ⟨0, cfg.workers_pos⟩)) fex)
  pure
    { queue := fun _ => [], task := fun _ => none, workers, analyze, fex, exported := [],
      emitter := .polling, breakloop := false, pc := .testing, results := 0,
      m_stoprequested := false, stopped := false }

/-- A run, with the heap it needs. -/
def run (s : Program n) (es : List (Action n)) : Mem A (Program n) := es.foldlM (step C B) s

/-- The end of `main`, up to `exit(0)`, which destroys nothing that is on the stack. -/
def cleanUp (s : Program n) : Mem A Unit := do
  (List.finRange n).forM fun i => deleteWorker (s.workers i)
  delete s.analyze
  delete s.fex

/-- `main` from the first allocation to the last `delete`. -/
def main (cfg : Farm.Config n) (es : List (Action n)) : Mem A (Program n) := do
  let s ← start cfg
  let s ← s.run C B es
  s.cleanUp
  pure s

end Program

end Pointer

end FHF
