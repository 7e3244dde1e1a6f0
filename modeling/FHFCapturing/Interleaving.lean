import FHFCapturing.WorkerRun

/-!
# The threads of the program

Each worker thread runs `Worker::svc` on one task after the other: take a task, lock the worker's
mutex, look the flow up, update its entry or filter the packet and perhaps insert the flow,
unlock. The analyzer thread runs `do_work`: wait, lock the workers one by one, scan, adapt,
refilter, unlock them one by one, export. A turn lets one thread make one step; a thread that
waits for a mutex makes none. `Conc` is the state of all threads, and any list of turns is an
interleaving.

A mutex remembers its holder here, so that the proofs can speak of it; the code only asks whether
it is free.
-/

namespace FHF

/-- Who holds a mutex. -/
inductive Holder where
  | worker
  | analyzer
  deriving DecidableEq, Repr

/-! ## A worker thread -/

/-- Where a worker thread is in `svc`; `fup` is the packet of the task it took. -/
inductive SvcPc where
  -- between tasks
  | idle
  -- before `pthread_mutex_lock`
  | entered (fup : FlowUpdate)
  -- before `lookupFlow`
  | locked (fup : FlowUpdate)
  -- before `updateTable`
  | updating (fup : FlowUpdate)
  -- before `filter`
  | filtering (fup : FlowUpdate)
  -- before `insertFlow`
  | inserting (fup : FlowUpdate)
  -- before `pthread_mutex_unlock`
  | unlocking
  -- an exception left `svc`, with the mutex still held
  | thrown (msg : String)

/-- A worker thread: where it is, the tasks FastFlow has queued for it, its table and filter, and
the holder of its mutex. -/
structure Thread where
  pc : SvcPc
  queue : List FlowUpdate
  worker : Worker
  lock : Option Holder

/-- One step of a worker thread. -/
def Thread.next (P : IterMap.Placement FlowID FlowDescriptor) (th : Thread) : Thread :=
  match th.pc with
  -- FastFlow calls `svc` with the next task
  | .idle =>
      match th.queue with
      | [] => th
      | fup :: rest => { th with pc := .entered fup, queue := rest }
  -- blocked while the analyzer has the mutex
  | .entered fup =>
      match th.lock with
      | none => { th with pc := .locked fup, lock := some .worker }
      | some _ => th
  | .locked fup =>
      if th.worker.ht.lookupFlow fup.fid then { th with pc := .updating fup }
      else { th with pc := .filtering fup }
  | .updating fup =>
      match th.worker.ht.updateTable fup with
      | .ok ht => { th with pc := .unlocking, worker := { th.worker with ht } }
      | .error msg => { th with pc := .thrown msg }
  | .filtering fup =>
      let (pass, mfilter) := th.worker.mfilter.filter fup
      { th with worker := { th.worker with mfilter },
                pc := if pass then .inserting fup else .unlocking }
  | .inserting fup =>
      { th with pc := .unlocking,
                worker := { th.worker with ht := th.worker.ht.insertFlow P fup } }
  | .unlocking => { th with pc := .idle, lock := none }
  -- FastFlow's loop has ended with the exception
  | .thrown _ => th

/-! ## The analyzer thread -/

/-- Where the analyzer thread is; `k` is the index of the loop it is in. -/
inductive AnalyzerPc where
  | waiting
  | acquiring (k : Nat)
  | scanning (k : Nat)
  | adapting
  | refiltering (k : Nat)
  | releasing (k : Nat)
  | exporting
  deriving DecidableEq, Repr

/-- The analyzer thread, with the records of its current analysis and all that it has exported. -/
structure AnalyzerThread where
  pc : AnalyzerPc
  analyzer : Analyzer
  results : List FlowDescriptor
  exported : List (IntervalDescriptor × List FlowDescriptor)

/-! ## All threads -/

/-- The state of all threads between two steps. -/
structure Conc (n : Nat) where
  threads : Fin n → Thread
  analyst : AnalyzerThread

inductive Turn (n : Nat) where
  | worker (i : Fin n)
  -- The clock is read around the analyzer's wait, so only that step uses the readings.
  | analyzer (startT stopT : Int)
  deriving DecidableEq, Repr

namespace Conc

variable {n : Nat}

/-- The tables and filters of all workers, as the analyzer sees them. -/
def workers (c : Conc n) (i : Fin n) : Worker := (c.threads i).worker

/-- The analyzer has written to tables or filters; queues and locks stay. -/
def setWorkers (c : Conc n) (ws : Fin n → Worker) : Conc n :=
  { c with threads := fun i => { c.threads i with worker := ws i } }

/-- A `pthread_mutex_lock` or `pthread_mutex_unlock` of the analyzer on one worker. -/
def setLock (c : Conc n) (i : Fin n) (l : Option Holder) : Conc n :=
  { c with threads := Function.update c.threads i { c.threads i with lock := l } }

/-- The analyzer goes on to its next statement. -/
def setPc (c : Conc n) (pc : AnalyzerPc) : Conc n := { c with analyst := { c.analyst with pc } }

/-- One step of the analyzer thread. The loops over the workers take one worker a step. -/
def nextAnalyzer (c : Conc n) (startT stopT : Int) : Conc n :=
  match c.analyst.pc with
  -- the wait returned; `do_boundedAnalysis` shifts the counts first
  | .waiting =>
      { c with analyst := { c.analyst with
          pc := .acquiring 0
          analyzer := (c.analyst.analyzer.waited startT stopT).shiftEntries
          results := [] } }
  -- the first loop; blocked while a worker has the mutex
  | .acquiring k =>
      if h : k < n then
        match (c.threads ⟨k, h⟩).lock with
        | none => (c.setLock ⟨k, h⟩ (some .analyzer)).setPc (.acquiring (k + 1))
        | some _ => c
      else
        { c with analyst := { c.analyst with
            pc := .scanning 0, analyzer := c.analyst.analyzer.enterScan } }
  -- the loop of `checkCleanHashTable`
  | .scanning k =>
      if h : k < n then
        let (ws, results) :=
          c.analyst.analyzer.scanWorker (c.workers, c.analyst.results) ⟨k, h⟩
        { c.setWorkers ws with analyst := { c.analyst with pc := .scanning (k + 1), results } }
      else c.setPc .adapting
  | .adapting =>
      { c with analyst := { c.analyst with
          pc := .refiltering 0, analyzer := c.analyst.analyzer.adapt c.analyst.results } }
  -- the loop that sets and resets the filters
  | .refiltering k =>
      if h : k < n then
        (c.setWorkers (c.analyst.analyzer.refilterWorker c.workers ⟨k, h⟩)).setPc
          (.refiltering (k + 1))
      else c.setPc (.releasing 0)
  -- the last loop
  | .releasing k =>
      if h : k < n then (c.setLock ⟨k, h⟩ none).setPc (.releasing (k + 1))
      else c.setPc .exporting
  | .exporting =>
      { c with analyst := { c.analyst with
          pc := .waiting
          analyzer := { c.analyst.analyzer with
            intervalCounter := c.analyst.analyzer.intervalCounter + 1 }
          exported := c.analyst.exported ++
            [(c.analyst.analyzer.output_results, c.analyst.results)] } }

/-- One step of the thread whose turn it is. -/
def next (B : Boost) (c : Conc n) : Turn n → Conc n
  | .worker i =>
      { c with threads := Function.update c.threads i ((c.threads i).next B.placement) }
  | .analyzer startT stopT => c.nextAnalyzer startT stopT

/-- All threads at the top of their loops, with no mutex held, on the data of a farm. -/
def start (s : Farm n) : Conc n where
  threads := fun i => ⟨.idle, s.queue i, s.workers i, none⟩
  analyst := ⟨.waiting, s.analyzer, [], s.exported⟩

def runTurns (B : Boost) (c : Conc n) (turns : List (Turn n)) : Conc n := turns.foldl (next B) c

@[simp] theorem setPc_workers (c : Conc n) (pc : AnalyzerPc) : (c.setPc pc).workers = c.workers :=
  rfl

@[simp] theorem setPc_threads (c : Conc n) (pc : AnalyzerPc) : (c.setPc pc).threads = c.threads :=
  rfl

@[simp] theorem setWorkers_workers (c : Conc n) (ws : Fin n → Worker) :
    (c.setWorkers ws).workers = ws := rfl

@[simp] theorem setLock_workers (c : Conc n) (i : Fin n) (l : Option Holder) :
    (c.setLock i l).workers = c.workers := by
  funext j
  simp only [workers, setLock, Function.update_apply]
  split
  next h => rw [h]
  next => rfl

theorem setLock_threads_self (c : Conc n) (i : Fin n) (l : Option Holder) :
    (c.setLock i l).threads i = { c.threads i with lock := l } := by
  simp [setLock]

theorem setLock_threads_of_ne (c : Conc n) {i j : Fin n} (h : j ≠ i) (l : Option Holder) :
    (c.setLock i l).threads j = c.threads j := by
  simp [setLock, h]

/-- A worker thread's step changes that worker's table and filter only. -/
theorem next_worker_workers (B : Boost) (c : Conc n) (i : Fin n) :
    (c.next B (.worker i)).workers =
      Function.update c.workers i ((c.threads i).next B.placement).worker := by
  funext j
  simp only [next, workers, Function.update_apply]
  split <;> rfl

end Conc

/-! ## What a step of a worker thread does -/

/-- The mutex while the thread is outside its critical section: held by the analyzer, or free. -/
def outsideLock (held : Bool) : Option Holder := if held then some .analyzer else none

/-- The states of a worker thread, whose mutex the analyzer holds if `held`, that has yet to
handle the packets of the last argument: a task taken is still to be handled until its effect is
in the worker. -/
inductive Thread.Stands : Bool → Thread → List FlowUpdate → Prop where
  | idle {held q w} : Stands held ⟨.idle, q, w, outsideLock held⟩ q
  | entered {held q w fup} : Stands held ⟨.entered fup, q, w, outsideLock held⟩ (fup :: q)
  | locked {q w fup} : Stands false ⟨.locked fup, q, w, some .worker⟩ (fup :: q)
  | updating {q w fup} (hrec : w.ht.lookupFlow fup.fid = true) :
      Stands false ⟨.updating fup, q, w, some .worker⟩ (fup :: q)
  | filtering {q w fup} (hnew : w.ht.lookupFlow fup.fid = false) :
      Stands false ⟨.filtering fup, q, w, some .worker⟩ (fup :: q)
  | inserting {q w fup} (hnew : w.ht.lookupFlow fup.fid = false)
      (hpass : (w.mfilter.filter fup).1 = true) :
      Stands false ⟨.inserting fup, q, w, some .worker⟩ (fup :: q)
  | unlocking {q w} : Stands false ⟨.unlocking, q, w, some .worker⟩ q

namespace Thread

variable {P : IterMap.Placement FlowID FlowDescriptor}

/-- **A step of a worker thread.** It leaves the worker and the packets to be handled as they
are, or it is the step that completes a packet: then the analyzer does not hold the mutex, and
the worker is as `svc` leaves it. -/
theorem Stands.next {held : Bool} {th : Thread} {q : List FlowUpdate} (h : Stands held th q) :
    (Stands held (th.next P) q ∧ (th.next P).worker = th.worker) ∨
    held = false ∧ ∃ fup rest, q = fup :: rest ∧ Stands false (th.next P) rest ∧
      th.worker.svc P fup = .ok (th.next P).worker := by
  cases h with
  | @idle _ q w =>
    cases q with
    | nil => exact Or.inl ⟨.idle, rfl⟩
    | cons fup rest => exact Or.inl ⟨.entered, rfl⟩
  | @entered _ q w fup =>
    cases held with
    -- the analyzer has the mutex, so the thread waits
    | true => exact Or.inl ⟨.entered, rfl⟩
    -- the mutex is free
    | false => exact Or.inl ⟨.locked, rfl⟩
  | @locked q w fup =>
    cases hrec : w.ht.lookupFlow fup.fid with
    | true => exact Or.inl (by simpa [Thread.next, hrec] using Stands.updating hrec)
    | false => exact Or.inl (by simpa [Thread.next, hrec] using Stands.filtering hrec)
  | @updating q w fup hrec =>
    -- the entry is still there, so the update does not throw
    refine Or.inr ⟨rfl, fup, q, rfl, ?_⟩
    have hupdate := HashTable.updateTable_of_recorded hrec
    simp only [Thread.next, hupdate, Worker.svc, hrec, ↓reduceIte, and_true]
    exact .unlocking
  | @filtering q w fup hnew =>
    cases hpass : (w.mfilter.filter fup).1 with
    | true =>
      refine Or.inl ?_
      simp only [Thread.next, hpass, ↓reduceIte, MultistageFilter.filter_of_pass hpass, and_true]
      exact .inserting hnew hpass
    | false =>
      refine Or.inr ⟨rfl, fup, q, rfl, ?_⟩
      simp only [Thread.next, hpass, Bool.false_eq_true, ↓reduceIte, Worker.svc, hnew, and_true]
      exact .unlocking
  | @inserting q w fup hnew hpass =>
    refine Or.inr ⟨rfl, fup, q, rfl, .unlocking, ?_⟩
    simp [Thread.next, Worker.svc, hnew, hpass, MultistageFilter.filter_of_pass hpass]
  | unlocking => exact Or.inl ⟨.idle, rfl⟩

theorem Stands.cast {held held' : Bool} {th : Thread} {q : List FlowUpdate}
    (h : Stands held th q) (heq : held = held') : Stands held' th q := heq ▸ h

/-- While the analyzer holds the mutex, the worker's data may change under the thread. -/
theorem Stands.setWorker {th : Thread} {q : List FlowUpdate} (h : Stands true th q)
    (w : Worker) : Stands true { th with worker := w } q := by
  cases h with
  | idle => exact .idle
  | entered => exact .entered

theorem Stands.acquire {th : Thread} {q : List FlowUpdate} (h : Stands false th q)
    (hfree : th.lock = none) : Stands true { th with lock := some .analyzer } q := by
  cases h with
  | idle => exact .idle
  | entered => exact .entered
  | _ => cases hfree

theorem Stands.release {th : Thread} {q : List FlowUpdate} (h : Stands true th q) :
    Stands false { th with lock := none } q := by
  cases h with
  | idle => exact .idle
  | entered => exact .entered

/-- Between tasks nothing is in the hands of the thread. -/
theorem Stands.queue_of_idle {held : Bool} {th : Thread} {q : List FlowUpdate}
    (h : Stands held th q) (hpc : th.pc = .idle) : th.queue = q := by
  cases h with
  | idle => rfl
  | _ => cases hpc

theorem Stands.lock_of_idle {th : Thread} {q : List FlowUpdate} (h : Stands false th q)
    (hpc : th.pc = .idle) : th.lock = none := by
  cases h with
  | idle => rfl
  | _ => cases hpc

/-- No exception leaves `svc`. -/
theorem Stands.pc_ne_thrown {held : Bool} {th : Thread} {q : List FlowUpdate}
    (h : Stands held th q) (msg : String) : th.pc ≠ .thrown msg := by
  cases h <;> exact fun h => by cases h

end Thread

end FHF
