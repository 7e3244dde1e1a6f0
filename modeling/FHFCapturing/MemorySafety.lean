import FHFCapturing.Ownership
import FHFCapturing.Lib.Run

/-!
# Memory safety

The program on the heap, over whole runs. In every state it owns exactly its analyzer and exporter,
its workers, the tasks in the queues and those that workers have taken, the vector of results of the
turn of `do_work` that is under way, and one vector for each wait that failed before: on a failed
wait `do_work` continues with its loop, which overwrites the only pointer to the vector. From this:
no run follows a dangling pointer, deletes twice or raises the exception of `updateTable`; the run
exports what the model exports; and when `main` has deleted the workers, the analyzer and the
exporter, what is left on the heap is those vectors and nothing else.
-/

open scoped Pointwise

namespace FHF

open SepLogic

/-- The library with a container whose order depends on the keys alone. -/
def Boost.keyed (B : Boost) (C : IterMap.KeyPlacement FlowID) : Boost :=
  { B with placement := C.placement FlowDescriptor }

/-- `do_work` continues after a wait that failed. -/
def Program.waitFails {n : Nat} (p : Program n) : Action n → Bool
  | .analyzer .failed _ _ => p.pc = .waiting
  | _ => false

/-- How many waits fail in a run. -/
def Program.failedWaits {n : Nat} (B : Boost) : Program n → List (Action n) → Nat
  | _, [] => 0
  | p, e :: es =>
      (if p.waitFails e then 1 else 0) +
        match p.step B e with
        | .ok p' => p'.failedWaits B es
        | .error _ => 0

/-- The vector of results that `do_work` holds. -/
def DoWorkPc.vectors : DoWorkPc → Nat
  | .testing => 0
  | .setting => 0
  | .exited => 0
  | _ => 1

/-- The objects the program has pointers to: the analyzer and the exporter; per worker the worker,
its filter, its table, the table's map and a descriptor for each entry; per packet that is not
handled a task and its update. -/
def Program.allocated {n : Nat} (p : Program n) : Nat :=
  2 + (∑ i, (4 + (p.farm.workers i).ht.fmap.size) +
    (∑ i, 2 * ((p.task i).toList ++ p.farm.queue i).length + p.pc.vectors))

namespace Pointer

variable {A : Allocator Obj} {C : IterMap.KeyPlacement FlowID} {B : Boost} {n : Nat}

/-! ## What the program owns -/

/-- Where the structures of the program are, with the values of the tasks. -/
structure Layout (n : Nat) where
  analyze : Addr
  fex : Addr
  workers : Fin n → Addr
  task : Fin n → Option (Addr × FlowUpdate)
  queue : Fin n → List (Addr × FlowUpdate)
  results : Addr

/-- The tasks that worker `i` has still to delete. -/
def Layout.tasks (l : Layout n) (i : Fin n) : List (Addr × FlowUpdate) :=
  (l.task i).toList ++ l.queue i

/-- The tasks are those of `p`. -/
structure Layout.Of (l : Layout n) (p : FHF.Program n) : Prop where
  task : p.task = fun i => (l.task i).map Prod.snd
  queue : p.farm.queue = fun i => (l.queue i).map Prod.snd

/-- Every worker, with its table and filter, at its address. -/
def workersAt (ws : Fin n → Addr) (workers : Fin n → Worker) : Assertion Obj :=
  ∑ i, workerAt (ws i) (workers i)

/-- The tasks not handled yet, with the updates they own. -/
def tasksAt (q : Fin n → List (Addr × FlowUpdate)) : Assertion Obj :=
  ∑ i, ((q i).map fun e => taskAt e.1 e.2).sum

/-- The vector that `do_work` has allocated and not yet deleted. -/
def resultsAt (results : Addr) : FHF.DoWorkPc → Assertion Obj
  | .testing => 0
  | .waiting => pointsTo results (Obj.results [])
  | .stopping => pointsTo results (Obj.results [])
  | .analysing _ => pointsTo results (Obj.results [])
  | .outputting _ fds => pointsTo results (Obj.results fds)
  | .setting => 0
  | .exited => 0

/-- The vectors to which there is no pointer any more. -/
def lostAt : Nat → Assertion Obj
  | 0 => 0
  | lost + 1 => (⋃ a, pointsTo a (Obj.results [])) + lostAt lost

/-- The place in `do_work`, without the results it carries in the model. -/
def DoWorkPc.of : FHF.DoWorkPc → DoWorkPc
  | .testing => .testing
  | .waiting => .waiting
  | .stopping => .stopping
  | .analysing signalled => .analysing signalled
  | .outputting signalled _ => .outputting signalled
  | .setting => .setting
  | .exited => .exited

/-- The program on the heap that represents `p` with its structures at these addresses. -/
def view (p : FHF.Program n) (l : Layout n) : Program n where
  queue i := (l.queue i).map Prod.fst
  task i := (l.task i).map Prod.fst
  workers := l.workers
  analyze := l.analyze
  fex := l.fex
  exported := p.farm.exported
  emitter := p.emitter
  breakloop := p.breakloop
  pc := .of p.pc
  results := l.results
  m_stoprequested := p.m_stoprequested
  stopped := p.stopped

/-- The blocks of `p` laid out as `l` says, and the lost vectors. -/
def blocksAt (p : FHF.Program n) (l : Layout n) (lost : Nat) : Assertion Obj :=
  pointsTo l.analyze (Obj.analyzer p.farm.analyzer l.fex) + (pointsTo l.fex Obj.fileExporter +
    (workersAt l.workers p.farm.workers + (tasksAt l.tasks +
      (resultsAt l.results p.pc + lostAt lost))))

/-- **The invariant**: the state represents `p`, and owns its blocks and the lost ones. -/
def programAt (p : FHF.Program n) (lost : Nat) (s : Program n) : Assertion Obj :=
  ⋃ l : Layout n, Given (s = view p l ∧ l.Of p) (blocksAt p l lost)

/-- To run from the invariant, run from any layout that represents `p`. -/
theorem of_programAt {β : Type} {p : FHF.Program n} {lost : Nat} {s : Program n} {f : Mem A β}
    {Q : β → Assertion Obj}
    (h : ∀ l : Layout n, s = view p l → l.Of p → Triple (blocksAt p l lost) f Q) :
    Triple (programAt p lost s) f Q :=
  .of_exists fun l => .of_given fun ⟨hs, hl⟩ => h l hs hl

/-- Any layout that represents `p` gives the invariant. -/
theorem subset_programAt {p : FHF.Program n} {lost : Nat} {s : Program n} {P : Assertion Obj}
    (l : Layout n) (hs : s = view p l) (hl : l.Of p) (hP : P = blocksAt p l lost) :
    P ⊆ programAt p lost s := by
  subst hP
  exact Set.subset_iUnion_of_subset l fun _ hB => ⟨⟨hs, hl⟩, hB⟩

/-- Only the tasks of worker `i` are others. -/
theorem Layout.tasks_eq_update (l l' : Layout n) (i : Fin n)
    (h : ∀ j ≠ i, l'.task j = l.task j ∧ l'.queue j = l.queue j) :
    l'.tasks = Function.update l.tasks i (l'.tasks i) := by
  funext j
  by_cases hj : j = i
  · subst hj
    rw [Function.update_self]
  · rw [Function.update_of_ne hj, Layout.tasks, (h j hj).1, (h j hj).2, Layout.tasks]

/-- One conjunct of many, apart from the others. -/
theorem sum_split (f : Fin n → Assertion Obj) (i : Fin n) :
    ∃ R, ∑ j, f j = f i + R ∧ ∀ P, ∑ j, Function.update f i P j = P + R := by
  refine ⟨∑ j ∈ Finset.univ \ {i}, f j, ?_, fun P => ?_⟩
  · rw [← Finset.sum_update_of_mem (Finset.mem_univ i) f, Function.update_eq_self]
  · exact Finset.sum_update_of_mem (Finset.mem_univ i) f P

/-- One worker is taken out, and put back changed. -/
theorem workersAt_split (ws : Fin n → Addr) (workers : Fin n → Worker) (i : Fin n) :
    ∃ R, workersAt ws workers = workerAt (ws i) (workers i) + R ∧
      ∀ w, workersAt ws (Function.update workers i w) = workerAt (ws i) w + R := by
  obtain ⟨R, hsum, hupdate⟩ := sum_split (fun j => workerAt (ws j) (workers j)) i
  refine ⟨R, hsum, fun w => ?_⟩
  rw [← hupdate]
  refine Finset.sum_congr rfl fun j _ => ?_
  by_cases hj : j = i
  · subst hj; simp
  · simp [hj]

/-- One worker's tasks are taken out, and other tasks put in their place. -/
theorem tasksAt_update (q : Fin n → List (Addr × FlowUpdate)) (i : Fin n)
    (xs : List (Addr × FlowUpdate)) :
    ∃ R, tasksAt q = ((q i).map fun e => taskAt e.1 e.2).sum + R ∧
      tasksAt (Function.update q i xs) = (xs.map fun e => taskAt e.1 e.2).sum + R := by
  obtain ⟨R, hsum, hupdate⟩ := sum_split (fun j => ((q j).map fun e => taskAt e.1 e.2).sum) i
  refine ⟨R, hsum, ?_⟩
  rw [← hupdate]
  refine Finset.sum_congr rfl fun j _ => ?_
  by_cases hj : j = i
  · subst hj; simp
  · simp [hj]

/-! ## The analysis -/

/-- The sum over the workers as a sum over a list, for the loops. -/
theorem workersAt_eq (ws : Fin n → Addr) (workers : Fin n → Worker) :
    workersAt ws workers = ((List.finRange n).map fun i => workerAt (ws i) (workers i)).sum :=
  Fin.sum_univ_def _

/-- The scan goes through the workers with one vector of results. -/
theorem triple_scanWorkers (a : Analyzer) (ws : Fin n → Addr) (workers : Fin n → Worker)
    (results : Addr) :
    Triple (workersAt ws workers + pointsTo results (Obj.results []))
      ((List.finRange n).forM fun i => do
        let ht ← getHashTable (ws i)
        (checkCleanHashTable a ht results : Mem A Unit))
      fun _ => workersAt ws (fun i =>
          Analyzer.scanned a.old_t_threshold a.old_r_threshold (workers i)) +
        pointsTo results (Obj.results ((List.finRange n).flatMap fun i =>
          Analyzer.reported a.old_t_threshold a.old_r_threshold (workers i).ht)) := by
  -- the workers behind have been scanned and their records collected, those ahead not yet
  refine (Triple.forM (I := fun behind ahead => (behind.map fun i => workerAt (ws i)
      (Analyzer.scanned a.old_t_threshold a.old_r_threshold (workers i))).sum +
    ((ahead.map fun i => workerAt (ws i) (workers i)).sum + pointsTo results (Obj.results
      (behind.flatMap fun i =>
        Analyzer.reported a.old_t_threshold a.old_r_threshold (workers i).ht))))
    fun behind i ahead _ => ?_).conseq ?_ fun _ => ?_
  · rw [List.map_cons, List.sum_cons]
    -- the worker of this iteration and the results, apart from the other workers
    refine .of_eq (P := workerAt (ws i) (workers i) + pointsTo results (Obj.results
      (behind.flatMap fun i => Analyzer.reported a.old_t_threshold a.old_r_threshold
        (workers i).ht)) + ((behind.map fun i => workerAt (ws i)
      (Analyzer.scanned a.old_t_threshold a.old_r_threshold (workers i))).sum +
      (ahead.map fun i => workerAt (ws i) (workers i)).sum)) (by ac_rfl) ?_
    refine (triple_scanWorker a (ws i) results (workers i) _).tail_call fun _ => subset_of_eq ?_
    rw [Analyzer.checkCleanHashTable, Analyzer.scanTable_fst, Analyzer.scanTable_snd,
      List.map_append, List.sum_append, List.map_singleton, List.sum_singleton,
      List.flatMap_append, List.flatMap_singleton]
    change workerAt (ws i) (Analyzer.scanned _ _ (workers i)) + _ + _ = _
    ac_rfl
  · rw [workersAt_eq, List.map_nil, List.sum_nil, zero_add, List.flatMap_nil]
  · rw [workersAt_eq, List.map_nil, List.sum_nil, zero_add]

/-- **The analysis** on the heap is the analysis of the model. -/
theorem triple_do_boundedAnalysis (a : Analyzer) (ws : Fin n → Addr) (workers : Fin n → Worker)
    (results : Addr) :
    Triple (workersAt ws workers + pointsTo results (Obj.results []))
      (do_boundedAnalysis a ws results : Mem A Analyzer)
      fun a' => Given (a' = (a.do_boundedAnalysis workers []).1)
        (workersAt ws (a.do_boundedAnalysis workers []).2.1 +
          pointsTo results (Obj.results (a.do_boundedAnalysis workers []).2.2)) := by
  rw [Analyzer.do_boundedAnalysis_eq]
  unfold do_boundedAnalysis
  refine .bind (triple_scanWorkers _ ws workers results) fun _ => ?_
  rw [add_comm]
  -- the results are read once more, for the number of records
  refine .loadAs_bind rfl ?_
  rw [add_comm, workersAt_eq]
  -- then each worker's filter, one after the other
  refine (Triple.forM_each fun i => triple_refilter _ (ws i) _).call fun _ => .pure fun B hB => ?_
  rw [← workersAt_eq ws fun i => Analyzer.refilter _ _] at hB
  exact ⟨rfl, hB⟩

/-- The interval descriptor is deleted again; the vector of results is not, which `do_work` does. -/
theorem triple_output_results (a : Analyzer) (exporter results : Addr) (fds : List FlowDescriptor) :
    Triple (pointsTo exporter Obj.fileExporter + pointsTo results (Obj.results fds))
      (output_results a exporter results : Mem A _)
      fun exported => Given (exported = (a.output_results, fds))
        (pointsTo exporter Obj.fileExporter + pointsTo results (Obj.results fds)) := by
  unfold output_results exportFlow
  -- the header, its export, and its deletion; the results are only read
  refine .new_bind fun it => ?_
  simp only [bind_assoc, pure_bind]
  rw [add_left_comm]
  refine .loadAs_bind rfl ?_
  rw [add_left_comm]
  refine .loadAs_bind rfl ?_
  refine .of_eq (P := pointsTo results (Obj.results fds) +
    (pointsTo it (Obj.intervalDescriptor a.output_results) + pointsTo exporter Obj.fileExporter))
    (by ac_rfl) <| .loadAs_bind rfl ?_
  rw [add_left_comm]
  refine .delete_bind <| .pure fun B hB => ⟨rfl, ?_⟩
  rwa [add_comm] at hB

/-! ## One step -/

variable {p : FHF.Program n} {l : Layout n}

/-- Forgetting the addresses commutes with the update of one queue. -/
theorem map_update {α β : Type} (f : α → β) (q : Fin n → List α) (i : Fin n) (xs : List α) :
    (fun j => (Function.update q i xs j).map f) =
      Function.update (fun j => (q j).map f) i (xs.map f) :=
  funext fun j => Function.apply_update (fun _ => List.map f) q i xs j

theorem map_update_option {α β : Type} (f : α → β) (t : Fin n → Option α) (i : Fin n)
    (x : Option α) :
    (fun j => (Function.update t i x j).map f) =
      Function.update (fun j => (t j).map f) i (x.map f) :=
  funext fun j => Function.apply_update (fun _ => Option.map f) t i x j

/-- The handler's task goes to the end of the queue. -/
theorem triple_handler (hn : 0 < n) (lost : Nat) (hl : l.Of p) (fup : FlowUpdate) :
    Triple (blocksAt p l lost) ((view p l).handler B fup : Mem A (Program n))
      (programAt { p with farm := p.farm.capture (B.keyed C) fup, emitter := .polling } lost) := by
  rw [← zero_add (blocksAt _ _ _)]
  refine triple_newTask.call fun t => .of_exists_add fun fd => ?_
  rw [add_assoc]
  refine .loadAs_bind rfl ?_
  rw [add_left_comm]
  refine .store_bind <| .loadAs_bind rfl ?_
  have hi : dispatchPolicy B n fup.fid < n := Nat.mod_lt _ hn
  have hcapture : p.farm.capture (B.keyed C) fup = { p.farm with
      queue := Function.update p.farm.queue ⟨_, hi⟩ (p.farm.queue ⟨_, hi⟩ ++ [fup]) } := dif_pos hi
  let l' : Layout n :=
    { l with queue := Function.update l.queue ⟨_, hi⟩ (l.queue ⟨_, hi⟩ ++ [(t, fup)]) }
  have htasks : l'.tasks = Function.update l.tasks ⟨_, hi⟩ (l.tasks ⟨_, hi⟩ ++ [(t, fup)]) := by
    rw [l.tasks_eq_update l' ⟨_, hi⟩ fun j hj => ⟨rfl, Function.update_of_ne hj _ _⟩]
    simp [l', Layout.tasks]
  obtain ⟨R, hold, hnew⟩ := tasksAt_update l.tasks ⟨_, hi⟩ (l.tasks ⟨_, hi⟩ ++ [(t, fup)])
  rw [dif_pos hi]
  -- the task and its update are one
  rw [← add_assoc, add_comm (pointsTo fd _)]
  refine .pure <| (Set.add_subset_add_right (subset_taskAt t fd fup)).trans <|
    subset_programAt l' ?_ ⟨hl.task, ?_⟩ ?_
  · simp only [view, l', map_update, hcapture, List.map_append]
    rfl
  · rw [hcapture, map_update, hl.queue, List.map_append]
    rfl
  · rw [hcapture]
    unfold blocksAt
    rw [htasks, hnew, hold, List.map_append, List.sum_append, List.map_singleton,
      List.sum_singleton]
    ac_rfl

/-- Taking a task moves no block: the task only changes hands. -/
theorem blocksAt_taken {i : Fin n} {e : Addr × FlowUpdate} {rest : List (Addr × FlowUpdate)}
    (lost : Nat) (htask : l.task i = none) (hqueue : l.queue i = e :: rest) :
    blocksAt p l lost = blocksAt (p.taken i e.2 (rest.map Prod.snd)) { l with
      task := Function.update l.task i (some e)
      queue := Function.update l.queue i rest } lost := by
  -- a worker's tasks are the one taken and those queued, so together they are the same
  have htasks : Layout.tasks { l with task := Function.update l.task i (some e),
                                      queue := Function.update l.queue i rest } = l.tasks := by
    rw [l.tasks_eq_update _ i fun j hj =>
      ⟨Function.update_of_ne hj _ _, Function.update_of_ne hj _ _⟩]
    refine Function.update_eq_self_iff.mpr ?_
    simp [Layout.tasks, htask, hqueue]
  unfold blocksAt
  rw [htasks]
  rfl

/-- The state after a worker has taken a task. -/
theorem subset_taken (lost : Nat) (hl : l.Of p) {i : Fin n} {e : Addr × FlowUpdate}
    {rest : List (Addr × FlowUpdate)} (htask : l.task i = none) (hqueue : l.queue i = e :: rest) :
    blocksAt p l lost ⊆ programAt (p.taken i e.2 (rest.map Prod.snd)) lost
      { view p l with
        queue := Function.update (view p l).queue i (rest.map Prod.fst)
        task := Function.update (view p l).task i (some e.1) } := by
  refine subset_programAt { l with
    task := Function.update l.task i (some e), queue := Function.update l.queue i rest }
    ?_ ⟨?_, ?_⟩ (blocksAt_taken lost htask hqueue)
  · simp only [view, map_update, map_update_option, FHF.Program.taken, Option.map_some]
  · rw [map_update_option, FHF.Program.taken, hl.task, Option.map_some]
  · rw [map_update, FHF.Program.taken, hl.queue]

/-- Handling a task deletes its blocks, and records the packet in the worker's. -/
theorem triple_handled (lost : Nat) (hl : l.Of p) {i : Fin n} {t : Addr} {fup : FlowUpdate}
    {w : Worker} (htask : l.task i = some (t, fup))
    (hsvc : Worker.Svc (C.placement FlowDescriptor) (p.farm.workers i) fup w) :
    Triple (blocksAt p l lost)
      (do svc C (l.workers i) t
          pure { view p l with task := Function.update (view p l).task i none } :
        Mem A (Program n))
      (programAt (p.handled i w) lost) := by
  let l' : Layout n := { l with task := Function.update l.task i none }
  have htasks : l'.tasks = Function.update l.tasks i (l.queue i) := by
    rw [l.tasks_eq_update l' i fun j hj => ⟨Function.update_of_ne hj _ _, rfl⟩]
    simp [l', Layout.tasks]
  -- the worker and its tasks are the blocks that `svc` works on; all others stand aside
  obtain ⟨R, hold, hnew⟩ := workersAt_split l.workers p.farm.workers i
  obtain ⟨S, hqold, hqnew⟩ := tasksAt_update l.tasks i (l.queue i)
  rw [show l.tasks i = (t, fup) :: l.queue i by simp [Layout.tasks, htask], List.map_cons,
    List.sum_cons] at hqold
  refine .of_eq (P := workerAt (l.workers i) (p.farm.workers i) + taskAt t fup +
    (pointsTo l.analyze (Obj.analyzer p.farm.analyzer l.fex) +
      (pointsTo l.fex Obj.fileExporter +
        (R + (((l.queue i).map fun e => taskAt e.1 e.2).sum + S +
          (resultsAt l.results p.pc + lostAt lost))))))
    (by rw [blocksAt, hold, hqold]; ac_rfl) ?_
  refine (triple_svc (l.workers i) t hsvc).call fun _ => .pure ?_
  refine subset_programAt l' ?_ ⟨?_, hl.queue⟩ ?_
  · simp only [view, l', map_update_option, FHF.Program.handled, Option.map_none]
  · rw [map_update_option, FHF.Program.handled, hl.task, Option.map_none]
  · have hworkers : (p.handled i w).farm.workers = Function.update p.farm.workers i w := rfl
    rw [blocksAt, htasks, hqnew, hworkers, hnew]
    simp only [FHF.Program.handled, l']
    ac_rfl

/-- **A step of a worker**: it takes the first task of its queue, or handles and deletes the one it
has. -/
theorem triple_svcTurn (lost : Nat) (hl : l.Of p) {i : Fin n} {p' : FHF.Program n}
    (h : p.svc (B.keyed C) i = .ok p') :
    Triple (blocksAt p l lost) ((view p l).svc C i : Mem A (Program n)) (programAt p' lost) := by
  -- the addresses and the model's values are two sides of one layout
  have htaskp : p.task i = (l.task i).map Prod.snd := congrFun hl.task i
  have hqueuep : p.farm.queue i = (l.queue i).map Prod.snd := congrFun hl.queue i
  have htaskv : (view p l).task i = (l.task i).map Prod.fst := rfl
  have hqueuev : (view p l).queue i = (l.queue i).map Prod.fst := rfl
  unfold Program.svc
  unfold FHF.Program.svc at h
  rw [htaskv, hqueuev]
  rw [htaskp, hqueuep] at h
  cases htask : l.task i with
  | none =>
    rw [htask] at h
    cases hqueue : l.queue i with
    | nil =>
      -- nothing taken and nothing queued: no step
      rw [hqueue] at h
      obtain rfl := Except.ok.inj h
      exact .pure (subset_programAt l rfl hl rfl)
    | cons e rest =>
      rw [hqueue] at h
      obtain rfl := Except.ok.inj h
      exact .pure (subset_taken lost hl htask hqueue)
  | some e =>
    obtain ⟨t, fup⟩ := e
    rw [htask] at h
    obtain ⟨w, hok, hsvc⟩ := Worker.svc_cases (B.keyed C).placement (p.farm.workers i) fup
    simp only [Option.map_some, hok] at h
    obtain rfl := Except.ok.inj h
    exact triple_handled lost hl htask hsvc

/-- **A step of the analyzer's thread.** Only a wait that fails loses a block. -/
theorem triple_do_work (lost : Nat) (hl : l.Of p) (wake : Wake) (startT stopT : Int) :
    Triple (blocksAt p l lost) ((view p l).do_work wake startT stopT : Mem A (Program n))
      (programAt (p.do_work wake startT stopT)
        (lost + if p.waitFails (.analyzer wake startT stopT) then 1 else 0)) := by
  have hview : (view p l).pc = .of p.pc := rfl
  have hkeep (hne : p.pc ≠ .waiting) :
      lost + (if p.waitFails (.analyzer wake startT stopT) then 1 else 0) = lost := by
    cases wake <;> simp [FHF.Program.waitFails, hne]
  unfold Program.do_work FHF.Program.do_work
  refine .loadAs_bind rfl ?_
  rw [hview]
  cases hpc : p.pc with
  | testing =>
    rw [hkeep (by simp [hpc])]
    dsimp only [DoWorkPc.of]
    by_cases hstop : p.m_stoprequested = true
    · rw [if_pos hstop, if_pos (show (view p l).m_stoprequested = true from hstop)]
      refine .pure ?_
      exact subset_programAt l rfl ⟨hl.task, hl.queue⟩ rfl
    · rw [if_neg hstop, if_neg (show ¬ (view p l).m_stoprequested = true from hstop)]
      refine .new_bind fun r => .pure ?_
      refine subset_programAt { l with results := r } rfl ⟨hl.task, hl.queue⟩ ?_
      dsimp only [blocksAt, resultsAt, Layout.tasks]
      ac_rfl
  | waiting =>
    have hfails : p.waitFails (.analyzer wake startT stopT) = (wake = .failed : Bool) := by
      cases wake <;> simp [FHF.Program.waitFails, hpc]
    dsimp only [DoWorkPc.of]
    refine .store_bind ?_
    cases wake with
    | timeout =>
      rw [hfails]
      exact .pure (subset_programAt l rfl ⟨hl.task, hl.queue⟩ rfl)
    | signal =>
      rw [hfails]
      exact .pure (subset_programAt l rfl ⟨hl.task, hl.queue⟩ rfl)
    | failed =>
      -- the pointer to the vector is about to be overwritten
      have hlost : pointsTo l.results (Obj.results []) + lostAt lost ⊆ lostAt (lost + 1) :=
        Set.add_subset_add_right
          (Set.subset_iUnion (fun a => pointsTo a (Obj.results [])) l.results)
      rw [hfails]
      refine .pure <| Set.Subset.trans ?_ <|
        subset_programAt l rfl ⟨hl.task, hl.queue⟩ (P := pointsTo l.analyze
          (Obj.analyzer (p.farm.analyzer.waited startT stopT) l.fex) +
            (pointsTo l.fex Obj.fileExporter + (workersAt l.workers p.farm.workers +
              (tasksAt l.tasks + lostAt (lost + 1))))) ?_
      · exact Set.add_subset_add_left <| Set.add_subset_add_left <| Set.add_subset_add_left <|
          Set.add_subset_add_left hlost
      · dsimp only [blocksAt, resultsAt]
        rw [zero_add]
        rfl
  | stopping =>
    rw [hkeep (by simp [hpc])]
    exact .pure (subset_programAt l rfl ⟨hl.task, hl.queue⟩ rfl)
  | analysing signalled =>
    rw [hkeep (by simp [hpc])]
    refine .of_eq (P := workersAt l.workers p.farm.workers +
      pointsTo l.results (Obj.results []) + (pointsTo l.analyze
        (Obj.analyzer p.farm.analyzer l.fex) + (pointsTo l.fex Obj.fileExporter +
          (tasksAt l.tasks + lostAt lost)))) (by rw [resultsAt]; ac_rfl) ?_
    refine (triple_do_boundedAnalysis p.farm.analyzer l.workers p.farm.workers l.results).call
      fun a => .of_given_add ?_
    rintro rfl
    rw [add_left_comm]
    refine .store_bind <| .pure ?_
    refine subset_programAt l rfl ⟨hl.task, hl.queue⟩ ?_
    dsimp only [blocksAt, FHF.Program.analyse, resultsAt]
    ac_rfl
  | outputting signalled fds =>
    rw [hkeep (by simp [hpc])]
    refine .of_eq (P := pointsTo l.fex Obj.fileExporter + pointsTo l.results (Obj.results fds) +
      (pointsTo l.analyze (Obj.analyzer p.farm.analyzer l.fex) +
        (workersAt l.workers p.farm.workers + (tasksAt l.tasks + lostAt lost))))
      (by rw [resultsAt]; ac_rfl) ?_
    refine (triple_output_results p.farm.analyzer l.fex l.results fds).call fun exported =>
      .of_given_add ?_
    rintro rfl
    rw [add_left_comm]
    refine .store_bind ?_
    refine .of_eq (P := pointsTo l.results (Obj.results fds) + (pointsTo l.analyze
      (Obj.analyzer (if signalled then p.farm.analyzer else { p.farm.analyzer with
        intervalCounter := p.farm.analyzer.intervalCounter + 1 }) l.fex) +
          (pointsTo l.fex Obj.fileExporter + (workersAt l.workers p.farm.workers +
            (tasksAt l.tasks + lostAt lost))))) (by ac_rfl) ?_
    refine .delete_bind <| .pure ?_
    refine subset_programAt l (by cases signalled <;> rfl) ⟨hl.task, hl.queue⟩ ?_
    dsimp only [blocksAt, FHF.Program.output]
    rw [show resultsAt l.results (if signalled = true then .setting else .testing) = 0 by
      cases signalled <;> rfl, zero_add]
  | setting =>
    rw [hkeep (by simp [hpc])]
    exact .pure (subset_programAt l rfl ⟨hl.task, hl.queue⟩ rfl)
  | exited =>
    rw [hkeep (by simp [hpc])]
    exact .pure (subset_programAt l rfl ⟨hl.task, hl.queue⟩ (by rw [blocksAt, hpc]))

/-- The farm has ended with its pointers iff it has without. -/
theorem drained_view (hl : l.Of p) : (view p l).Drained ↔ p.Drained := by
  refine and_congr_right fun _ => forall_congr' fun i => and_congr ?_ ?_
  · rw [hl.queue]
    exact List.map_eq_nil_iff.trans List.map_eq_nil_iff.symm
  · rw [hl.task]
    exact Option.map_eq_none_iff.trans Option.map_eq_none_iff.symm

/-- **A step of the program**: it does not fault, and what it represents afterwards is what the
model steps to. -/
theorem triple_step (hn : 0 < n) {p p' : FHF.Program n} {e : Action n}
    (h : p.step (B.keyed C) e = .ok p') (lost : Nat) (s : Program n) :
    Triple (programAt p lost s) (s.step C B e : Mem A (Program n))
      (programAt p' (lost + if p.waitFails e then 1 else 0)) := by
  refine of_programAt fun l hs hl => ?_
  subst hs
  have hemitter : (view p l).emitter = p.emitter := rfl
  cases e with
  | read fup =>
    unfold Program.step
    unfold FHF.Program.step at h
    rw [hemitter]
    -- the emitter's steps but `deliver` change no block
    cases hem : p.emitter <;> simp only [hem, Except.ok.injEq] at h <;> subst h <;> refine .pure ?_
    all_goals exact subset_programAt l rfl ⟨hl.task, hl.queue⟩ rfl
  | deliver =>
    unfold Program.step
    unfold FHF.Program.step at h
    rw [hemitter]
    cases hem : p.emitter <;> simp only [hem, Except.ok.injEq] at h <;> subst h
    case delivering fup => exact triple_handler hn lost hl fup
    all_goals exact .pure (subset_programAt l rfl ⟨hl.task, hl.queue⟩ rfl)
  | captureEnds =>
    unfold Program.step
    unfold FHF.Program.step at h
    rw [hemitter]
    cases hem : p.emitter <;> simp only [hem, Except.ok.injEq] at h <;> subst h <;> refine .pure ?_
    all_goals exact subset_programAt l rfl ⟨hl.task, hl.queue⟩ rfl
  | svc i => exact triple_svcTurn lost hl h
  | stop =>
    have hdrained : (view p l).Drained ↔ p.Drained := drained_view hl
    unfold Program.step
    unfold FHF.Program.step at h
    -- `stop` writes a flag of the analyzer, so its pointer is followed
    by_cases hstop : p.Drained ∧ ¬ p.stopped
    · obtain rfl := Except.ok.inj ((if_pos hstop).symm.trans h)
      rw [if_pos ⟨hdrained.mpr hstop.1, hstop.2⟩]
      refine .loadAs_bind rfl <| .pure ?_
      exact subset_programAt l rfl ⟨hl.task, hl.queue⟩ rfl
    · obtain rfl := Except.ok.inj ((if_neg hstop).symm.trans h)
      rw [if_neg fun hv => hstop ⟨hdrained.mp hv.1, hv.2⟩]
      exact .pure (subset_programAt l rfl ⟨hl.task, hl.queue⟩ rfl)
  | analyzer wake startT stopT =>
    obtain rfl := Except.ok.inj h
    exact triple_do_work lost hl wake startT stopT

/-! ## Whole runs -/

/-- **A run of the program**: induction on the actions. -/
theorem triple_run (hn : 0 < n) {p p' : FHF.Program n} {es : List (Action n)}
    (h : Run.run (FHF.Program.step (B.keyed C)) p es = .ok p') (lost : Nat) (s : Program n) :
    Triple (programAt p lost s) (s.run C B es : Mem A (Program n))
      (programAt p' (lost + p.failedWaits (B.keyed C) es)) := by
  induction es generalizing p lost s with
  | nil =>
    obtain rfl := Except.ok.inj h
    exact .pure subset_rfl
  | cons e es ih =>
    cases hstep : p.step (B.keyed C) e with
    | error msg => simp [Run.run, hstep] at h
    | ok p₁ =>
      rw [Run.run_cons_of_ok hstep] at h
      -- each failed wait of the run adds one lost vector
      have hfailed : p.failedWaits (B.keyed C) (e :: es) =
          (if p.waitFails e then 1 else 0) + p₁.failedWaits (B.keyed C) es := by
        rw [FHF.Program.failedWaits, hstep]
      rw [hfailed, ← Nat.add_assoc]
      exact .bind (triple_step hn hstep lost s) fun s₁ => ih h _ s₁

/-- `main` allocates the workers one after the other, then the exporter and the analyzer. -/
theorem triple_start (cfg : Farm.Config n) :
    Triple 0 (Program.start cfg : Mem A (Program n)) (programAt (.start cfg) 0) := by
  refine .bind (Triple.foldlM (I := fun behind _ ws =>
    (behind.map fun i => workerAt (ws i) (cfg.worker i)).sum) (fun behind i ahead ws hsplit => ?_)
    _) fun ws => .new_bind fun fex => .new_bind fun analyze => .pure ?_
  · rw [← zero_add (List.sum _)]
    refine (triple_newWorker cfg.tableSize _ cfg.firstThreshold).call fun w => .pure ?_
    -- the workers behind stay where they are
    have hnot : i ∉ behind := by
      have hnodup := List.nodup_finRange n
      rw [hsplit, List.nodup_middle, List.nodup_cons] at hnodup
      exact fun hi => hnodup.1 (List.mem_append_left _ hi)
    have hbehind : (behind.map fun j => workerAt (Function.update ws i w j) (cfg.worker j)) =
        behind.map fun j => workerAt (ws j) (cfg.worker j) :=
      List.map_congr_left fun j hj => by
        rw [Function.update_of_ne (ne_of_mem_of_not_mem hj hnot)]
    rw [List.map_append, List.sum_append, hbehind, List.map_singleton, List.sum_singleton,
      Function.update_self, add_comm]
    exact subset_rfl
  · rw [← workersAt_eq]
    refine subset_programAt ⟨analyze, fex, ws, fun _ => none, fun _ => [], 0⟩ rfl ⟨rfl, rfl⟩ ?_
    have htasks : tasksAt (fun _ : Fin n => []) = 0 := Finset.sum_const_zero
    have hnone : Layout.tasks ⟨analyze, fex, ws, fun _ => none, fun _ => [], 0⟩ = fun _ => [] := rfl
    rw [blocksAt, hnone, htasks]
    simp [FHF.Program.start, Farm.init, resultsAt, lostAt]

/-- `main` deletes the workers, the analyzer and the exporter. -/
theorem triple_cleanUp (s : Program n) (workers : Fin n → Worker) (a : Analyzer) :
    Triple (workersAt s.workers workers + (pointsTo s.analyze (Obj.analyzer a s.fex) +
      pointsTo s.fex Obj.fileExporter)) (s.cleanUp : Mem A Unit) fun _ => 0 := by
  rw [workersAt_eq]
  refine (Triple.forM_each (Q := fun _ => 0) fun i => triple_deleteWorker _ _).call fun _ => ?_
  have hnone : ((List.finRange n).map fun _ => (0 : Assertion Obj)).sum = 0 := by
    rw [← Fin.sum_univ_def]
    exact Finset.sum_const_zero
  rw [hnone, zero_add, ← add_zero (pointsTo s.fex _)]
  exact .delete_bind <| .of_bind_pure <| .delete_bind <| .pure subset_rfl

/-! ## How much is allocated -/

theorem sized_taskAt (t : Addr) (fup : FlowUpdate) : Sized (taskAt t fup) 2 :=
  .iUnion fun _ => (Sized.pointsTo _ _).add (.pointsTo _ _)

/-- The worker, its filter, its table, the map, and one descriptor for each entry. -/
theorem sized_workerAt (w : Addr) (worker : Worker) :
    Sized (workerAt w worker) (4 + worker.ht.fmap.size) := by
  refine .iUnion fun ht => .iUnion fun mf => ?_
  have htable : Sized (tableAt ht worker.ht) (2 + worker.ht.fmap.size) := by
    refine .iUnion fun fmap => .iUnion fun m => .given fun hm => ?_
    have hentries : Sized (entriesAt m.entries) worker.ht.fmap.size := by
      have hsize : (m.entries.map fun _ => 1).sum = worker.ht.fmap.size := by
        rw [← hm]
        simp [IterMap.size, IterMap.mapValues]
      exact hsize ▸ Sized.list_sum (fun e => Sized.pointsTo _ _) m.entries
    exact Nat.add_assoc 1 1 _ ▸ (Sized.pointsTo _ _).add ((Sized.pointsTo _ _).add hentries)
  exact Nat.add_assoc 2 2 _ ▸ Nat.add_assoc 1 1 _ ▸
    (Sized.pointsTo _ _).add ((Sized.pointsTo _ _).add htable)

theorem sized_lostAt (lost : Nat) : Sized (lostAt lost) lost := by
  induction lost with
  | zero => exact .zero
  | succ lost ih =>
    have hone : Sized (⋃ a, pointsTo a (Obj.results [])) 1 := .iUnion fun _ => .pointsTo _ _
    have h := hone.add ih
    rwa [Nat.add_comm 1 lost] at h

/-- The blocks the program has pointers to, and the lost ones. -/
theorem sized_blocksAt (p : FHF.Program n) {l : Layout n} (hl : l.Of p) (lost : Nat) :
    Sized (blocksAt p l lost) (p.allocated + lost) := by
  have hworkers : Sized (workersAt l.workers p.farm.workers)
      (∑ i, (4 + (p.farm.workers i).ht.fmap.size)) := .sum fun i => sized_workerAt _ _
  have htasks : Sized (tasksAt l.tasks)
      (∑ i, 2 * ((p.task i).toList ++ p.farm.queue i).length) := by
    refine .sum fun i => ?_
    have hlength : ((l.tasks i).map fun _ => 2).sum =
        2 * ((p.task i).toList ++ p.farm.queue i).length := by
      simp [hl.task, hl.queue, Layout.tasks, Nat.mul_comm, Option.length_toList]
    exact hlength ▸ .list_sum (fun e => sized_taskAt _ _) (l.tasks i)
  have hresults : Sized (resultsAt l.results p.pc) p.pc.vectors := by
    -- no vector outside the loop's body
    cases p.pc
    case testing | setting | exited => exact .zero
    all_goals exact .pointsTo _ _
  have h := (Sized.pointsTo l.analyze (Obj.analyzer p.farm.analyzer l.fex)).add
    ((Sized.pointsTo l.fex Obj.fileExporter).add
      (hworkers.add (htasks.add (hresults.add (sized_lostAt lost)))))
  have hsum : p.allocated + lost = 1 + (1 + (∑ i, (4 + (p.farm.workers i).ht.fmap.size) +
      (∑ i, 2 * ((p.task i).toList ++ p.farm.queue i).length + (p.pc.vectors + lost)))) := by
    unfold FHF.Program.allocated
    omega
  exact hsum ▸ h

/-- The number of blocks does not depend on the layout. -/
theorem sized_programAt (p : FHF.Program n) (lost : Nat) (s : Program n) :
    Sized (programAt p lost s) (p.allocated + lost) :=
  .iUnion fun _ => .given fun ⟨_, hl⟩ => sized_blocksAt p hl lost

/-! ## Memory safety -/

/-- What the program has exported does not depend on the heap. -/
theorem exported_of_mem_programAt {p : FHF.Program n} {lost : Nat} {s : Program n}
    {Bs : Multiset (Block Obj)} (h : Bs ∈ programAt p lost s) : s.exported = p.farm.exported := by
  simp only [programAt, Set.mem_iUnion] at h
  obtain ⟨l, ⟨rfl, -⟩, -⟩ := h
  rfl

theorem eq_results_of_mem_lostAt {lost : Nat} {Bs : Multiset (Block Obj)} (h : Bs ∈ lostAt lost) :
    ∀ b ∈ Bs, b.2 = Obj.results [] := by
  induction lost generalizing Bs with
  | zero => simp [Set.mem_zero.mp h]
  | succ lost ih =>
    obtain ⟨B₁, h₁, B₂, h₂, rfl⟩ := Set.mem_add.mp h
    obtain ⟨a, ha⟩ := Set.mem_iUnion.mp h₁
    rw [Set.mem_singleton_iff.mp ha]
    intro b hb
    rcases Multiset.mem_add.mp hb with hb | hb
    · rw [Multiset.mem_singleton.mp hb]
    · exact ih h₂ b hb

/-- **No run faults**: no dangling pointer is followed, nothing is deleted twice, and the exception
of `updateTable` is not raised. The run exports what the model exports, and what is allocated is
what the state accounts for and a vector for each wait that failed. -/
theorem memory_safe (A : Allocator Obj) (C : IterMap.KeyPlacement FlowID) (B : Boost)
    (cfg : Farm.Config n) (es : List (Action n)) :
    ∃ p s m, Run.run (FHF.Program.step (B.keyed C)) (.start cfg) es = .ok p ∧
      (Program.start cfg >>= fun s => s.run C B es : Mem A (Program n)).run (.empty A) =
        .ok (s, m) ∧
      s.exported = p.farm.exported ∧
      m.heap.entries.card =
        p.allocated + FHF.Program.failedWaits (B.keyed C) (.start cfg) es := by
  -- the model's run does not fail; the run with the heap follows it from the empty heap
  obtain ⟨p, hp, -⟩ := Run.run_invariant (I := fun _ => True)
    (fun s e _ => (FHF.Program.step_ok (B := B.keyed C) s e).imp fun _ h => ⟨h, trivial⟩)
    (s := FHF.Program.start cfg) trivial es
  obtain ⟨s, m, hrun, hm⟩ := ((triple_start (A := A) cfg).bind fun s =>
    triple_run (C := C) (B := B) cfg.workers_pos hp 0 s).run_empty
  refine ⟨p, s, m, hp, hrun, ?_, ?_⟩
  · exact exported_of_mem_programAt hm
  · rw [sized_programAt _ _ _ _ hm, Nat.zero_add]

/-- **What `main` leaves behind.** When the farm has drained and the analyzer's thread has exited,
`main` deletes the workers, the analyzer and the exporter; then all that is left of the objects of
this heap is an empty vector for each wait that failed. -/
theorem exit_leaks_failed_waits (A : Allocator Obj) (C : IterMap.KeyPlacement FlowID) (B : Boost)
    (cfg : Farm.Config n) {es : List (Action n)} {p : FHF.Program n}
    (hrun : Run.run (FHF.Program.step (B.keyed C)) (.start cfg) es = .ok p) (hdrained : p.Drained)
    (hexited : p.pc = .exited) :
    ∃ s m, (Program.main C B cfg es : Mem A (Program n)).run (.empty A) = .ok (s, m) ∧
      s.exported = p.farm.exported ∧
      m.heap.entries.card = FHF.Program.failedWaits (B.keyed C) (.start cfg) es ∧
      ∀ b ∈ m.heap.entries, b.2 = .results [] := by
  have hmain : Triple 0 (Program.main C B cfg es : Mem A (Program n)) fun s =>
      Given (s.exported = p.farm.exported)
        (lostAt (FHF.Program.failedWaits (B.keyed C) (.start cfg) es)) := by
    refine (triple_start cfg).bind fun s => (triple_run cfg.workers_pos hrun 0 s).bind fun s => ?_
    refine of_programAt fun l hs hl => ?_
    -- no task is left, and the analyzer holds no vector
    have htasks : tasksAt l.tasks = 0 := by
      rw [tasksAt]
      refine Finset.sum_eq_zero fun i _ => ?_
      have hqueue := List.map_eq_nil_iff.mp ((congrFun hl.queue i).symm.trans (hdrained.2 i).1)
      have htask := Option.map_eq_none_iff.mp ((congrFun hl.task i).symm.trans (hdrained.2 i).2)
      rw [Layout.tasks, hqueue, htask]
      rfl
    subst hs
    refine .of_eq (P := workersAt l.workers p.farm.workers +
      (pointsTo l.analyze (Obj.analyzer p.farm.analyzer l.fex) + pointsTo l.fex Obj.fileExporter) +
        lostAt (FHF.Program.failedWaits (B.keyed C) (.start cfg) es)) ?_ ?_
    · rw [blocksAt, htasks, hexited, resultsAt, zero_add, zero_add, Nat.zero_add]
      ac_rfl
    · refine (triple_cleanUp (view p l) p.farm.workers p.farm.analyzer).call fun _ => .pure ?_
      rw [zero_add]
      exact fun _ hB => ⟨rfl, hB⟩
  obtain ⟨s, m, hok, hexported, hlost⟩ := hmain.run_empty
  exact ⟨s, m, hok, hexported, sized_lostAt _ _ hlost, eq_results_of_mem_lostAt hlost⟩

/-- One wait fails, then one packet is handled and reported, and the program ends. -/
def oneFailedWait : List (Action 1) :=
  [.analyzer .timeout 0 0, .analyzer .failed 0 2, .analyzer .timeout 2 2,
    .read FHF.Program.Ends.fup, .deliver, .captureEnds, .svc ⟨0, Nat.one_pos⟩,
    .svc ⟨0, Nat.one_pos⟩, .stop, .analyzer .timeout 2 7, .analyzer .timeout 7 7,
    .analyzer .timeout 7 7, .analyzer .timeout 7 7]

theorem oneFailedWait_ends :
    (Run.run (FHF.Program.step (Boost.standard.keyed .atEnd)) (.start (.single 1))
      oneFailedWait).map (fun p => (decide p.Drained, p.pc)) = .ok (true, .exited) := by
  decide +kernel

theorem exit_leaks_failed_waits_oneFailedWait :
    ∃ p, Run.run (FHF.Program.step (Boost.standard.keyed .atEnd)) (.start (.single 1))
        oneFailedWait = .ok p ∧
      ∃ s m, (Program.main .atEnd .standard (.single 1) oneFailedWait :
          Mem (.lowest Obj) (Program 1)).run (.empty _) = .ok (s, m) ∧
        s.exported = p.farm.exported ∧
        m.heap.entries.card = FHF.Program.failedWaits (Boost.standard.keyed .atEnd)
          (.start (.single 1)) oneFailedWait ∧
        ∀ b ∈ m.heap.entries, b.2 = .results [] := by
  have hends := oneFailedWait_ends
  cases hrun : Run.run (FHF.Program.step (Boost.standard.keyed .atEnd)) (.start (.single 1))
    oneFailedWait with
  | error msg => simp [hrun, Except.map] at hends
  | ok p =>
    simp only [hrun, Except.map, Except.ok.injEq, Prod.mk.injEq, decide_eq_true_eq] at hends
    exact ⟨p, rfl, exit_leaks_failed_waits (.lowest Obj) .atEnd .standard (.single 1) hrun
      hends.1 hends.2⟩

end Pointer

end FHF
