import FHFCapturing.Pointers

/-!
# Who owns what

For each structure of the program the blocks it consists of when it represents a value of the
model: a task, a flow table, a worker. Each function on pointers has one triple: from a
representation of a value it does not fault, and leaves a representation of what the function of
the same name in the model computes, with nothing allocated besides.
-/

open scoped Pointwise

namespace FHF

open SepLogic

namespace Pointer

variable {A : Allocator Obj} {C : IterMap.KeyPlacement FlowID}

/-! ## Representations -/

/-- A task and the update it owns. -/
def taskAt (t : Addr) (fup : FlowUpdate) : Assertion Obj :=
  ⋃ fd, pointsTo t (Obj.task fd) + pointsTo fd (Obj.flowUpdate fup)

/-- The descriptors that the entries of a map point to. -/
def entriesAt (es : List (FlowID × Addr × FlowDescriptor)) : Assertion Obj :=
  (es.map fun e => pointsTo e.2.1 (Obj.flowDescriptor e.2.2)).sum

/-- A map of descriptors, with their addresses: the container maps to the addresses. -/
def mapAt (fmap : Addr) (m : IterMap FlowID (Addr × FlowDescriptor)) : Assertion Obj :=
  pointsTo fmap (Obj.flowMap (m.mapValues Prod.fst)) + entriesAt m.entries

/-- A flow table, its map and its descriptors. -/
def tableAt (ht : Addr) (table : HashTable) : Assertion Obj :=
  ⋃ (fmap : Addr) (m : IterMap FlowID (Addr × FlowDescriptor)),
    Given (m.mapValues Prod.snd = table.fmap)
      (pointsTo ht (Obj.hashTable fmap table.tableSize) + mapAt fmap m)

/-- A worker, its filter and its table. -/
def workerAt (w : Addr) (worker : Worker) : Assertion Obj :=
  ⋃ (ht : Addr) (mfilter : Addr),
    pointsTo w (Obj.worker ht mfilter worker.threshold) +
      (pointsTo mfilter (Obj.multistageFilter worker.mfilter) + tableAt ht worker.ht)

@[simp] theorem entriesAt_nil : entriesAt [] = 0 := rfl

@[simp] theorem entriesAt_cons (k : FlowID) (p : Addr) (fd : FlowDescriptor)
    (es : List (FlowID × Addr × FlowDescriptor)) :
    entriesAt ((k, p, fd) :: es) = pointsTo p (Obj.flowDescriptor fd) + entriesAt es := rfl

/-- The descriptors of two parts of a table are disjoint. -/
@[simp] theorem entriesAt_append (es fs : List (FlowID × Addr × FlowDescriptor)) :
    entriesAt (es ++ fs) = entriesAt es + entriesAt fs := by
  rw [entriesAt, List.map_append, List.sum_append]
  rfl

/-- What is owned does not depend on the order of the entries. -/
theorem entriesAt_perm {es fs : List (FlowID × Addr × FlowDescriptor)} (h : es.Perm fs) :
    entriesAt es = entriesAt fs :=
  (h.map _).sum_eq

theorem subset_taskAt (t fd : Addr) (fup : FlowUpdate) :
    pointsTo t (Obj.task fd) + pointsTo fd (Obj.flowUpdate fup) ⊆ taskAt t fup :=
  Set.subset_iUnion_of_subset fd subset_rfl

theorem subset_tableAt {ht : Addr} {table : HashTable} {P R : Assertion Obj} (fmap : Addr)
    {m : IterMap FlowID (Addr × FlowDescriptor)} (hm : m.mapValues Prod.snd = table.fmap)
    (h : P = pointsTo ht (Obj.hashTable fmap table.tableSize) + (mapAt fmap m + R)) :
    P ⊆ tableAt ht table + R := by
  rw [h, ← add_assoc]
  exact Set.add_subset_add_right <| Set.subset_iUnion_of_subset fmap <|
    Set.subset_iUnion_of_subset m fun _ hB => ⟨hm, hB⟩

theorem subset_workerAt {w : Addr} {worker : Worker} {P R : Assertion Obj} (ht mfilter : Addr)
    (h : P = pointsTo w (Obj.worker ht mfilter worker.threshold) +
      (pointsTo mfilter (Obj.multistageFilter worker.mfilter) + (tableAt ht worker.ht + R))) :
    P ⊆ workerAt w worker + R := by
  rw [h, ← add_assoc, ← add_assoc, add_assoc (pointsTo w _)]
  exact Set.add_subset_add_right <| Set.subset_iUnion_of_subset ht <|
    Set.subset_iUnion_of_subset mfilter subset_rfl

/-- To use a table is to use some map and the table's own block. -/
theorem of_tableAt {β : Type} {ht : Addr} {table : HashTable} {R : Assertion Obj} {f : Mem A β}
    {Q : β → Assertion Obj}
    (h : ∀ fmap m, m.mapValues Prod.snd = table.fmap →
      Triple (pointsTo ht (Obj.hashTable fmap table.tableSize) + (mapAt fmap m + R)) f Q) :
    Triple (tableAt ht table + R) f Q :=
  .of_exists_add fun fmap => .of_exists_add fun m => .of_given_add fun hm => by
    rw [add_assoc]
    exact h fmap m hm

/-- To use a worker, use its blocks. -/
theorem of_workerAt {β : Type} {w : Addr} {worker : Worker} {R : Assertion Obj} {f : Mem A β}
    {Q : β → Assertion Obj}
    (h : ∀ ht mfilter, Triple (pointsTo w (Obj.worker ht mfilter worker.threshold) +
      (pointsTo mfilter (Obj.multistageFilter worker.mfilter) + (tableAt ht worker.ht + R))) f Q) :
    Triple (workerAt w worker + R) f Q :=
  .of_exists_add fun ht => .of_exists_add fun mfilter => by
    rw [add_assoc, add_assoc]
    exact h ht mfilter

/-! ## Tasks -/

/-- The constructor gives a task with an empty update. -/
theorem triple_newTask :
    Triple 0 (newTask : Mem A Addr) fun t => taskAt t { fid := ⟨0, 0, 0, 0, 0⟩ } := by
  refine .new_bind fun fd => .of_bind_pure <| .new_bind fun t => .pure ?_
  rw [add_zero]
  exact subset_taskAt t fd _

theorem triple_deleteTask (t : Addr) (fup : FlowUpdate) :
    Triple (taskAt t fup) (deleteTask t : Mem A Unit) fun _ => 0 := by
  refine .of_exists fun fd => .loadAs_bind rfl ?_
  rw [add_comm]
  refine .delete_bind ?_
  rw [← add_zero (pointsTo t _)]
  exact .of_bind_pure <| .delete_bind <| .pure subset_rfl

/-! ## The flow table -/

theorem triple_newHashTable (tableSize : UInt32) :
    Triple 0 (newHashTable tableSize : Mem A Addr) fun ht => tableAt ht (.new tableSize) := by
  refine .new_bind fun fmap => .of_bind_pure <| .new_bind fun ht => .pure ?_
  rw [← add_zero (tableAt _ _)]
  refine subset_tableAt fmap (m := IterMap.empty) rfl ?_
  rw [add_zero, add_zero, mapAt]
  exact congrArg (fun R => pointsTo ht (Obj.hashTable fmap tableSize) + R) (add_zero _).symm

variable {ht fup : Addr} {table : HashTable} {update : FlowUpdate} {R : Assertion Obj}

/-- Reading a table's pointer to its map moves no block. -/
theorem triple_getFlowMap {β : Type} {fmap : Addr} {tableSize : UInt32} {k : Addr → Mem A β}
    {Q : β → Assertion Obj}
    (hk : Triple (pointsTo ht (Obj.hashTable fmap tableSize) + R) (k fmap) Q) :
    Triple (pointsTo ht (Obj.hashTable fmap tableSize) + R) (getFlowMap ht >>= k) Q := by
  unfold getFlowMap
  rw [bind_assoc]
  refine .loadAs_bind rfl ?_
  rw [pure_bind]
  exact hk

/-- The answer is the model's, and the table is as before. -/
theorem triple_lookupFlow (ht : Addr) (table : HashTable) (fid : FlowID) (R : Assertion Obj) :
    Triple (tableAt ht table + R) (lookupFlow ht fid : Mem A Bool) fun b =>
      Given (b = table.lookupFlow fid) (tableAt ht table + R) := by
  refine of_tableAt fun fmap m hm => triple_getFlowMap ?_
  rw [mapAt, add_assoc, add_left_comm]
  refine .loadAs_bind rfl <| .pure fun B hB => ⟨?_, ?_⟩
  · rw [HashTable.lookupFlow, ← hm, IterMap.contains_mapValues, IterMap.contains_mapValues]
  · refine subset_tableAt fmap hm ?_ hB
    rw [mapAt]
    ac_rfl

/-- **The descriptor of one entry**, apart from the rest `E` of the map: following the entry's
pointer reaches it, and modifying it, or erasing it with its entry, leaves `E`. -/
theorem mapAt_split (fmap : Addr) {p : Addr} {m : IterMap FlowID (Addr × FlowDescriptor)}
    {k : FlowID} {fd : FlowDescriptor} {before after : List (FlowID × Addr × FlowDescriptor)}
    (h : m.entries = before ++ (k, p, fd) :: after) :
    ∃ E : Assertion Obj,
      mapAt fmap m = pointsTo p (Obj.flowDescriptor fd) +
        (pointsTo fmap (Obj.flowMap (m.mapValues Prod.fst)) + E) ∧
      (∀ g, mapAt fmap (m.modify k (Prod.map id g)) = pointsTo p (Obj.flowDescriptor (g fd)) +
        (pointsTo fmap (Obj.flowMap (m.mapValues Prod.fst)) + E)) ∧
      mapAt fmap (m.erase k) =
        pointsTo fmap (Obj.flowMap ((m.mapValues Prod.fst).erase k)) + E := by
  -- the descriptors of all the other entries
  refine ⟨entriesAt before + entriesAt after, ?_, fun g => ?_, ?_⟩
  · rw [mapAt, h, entriesAt_append, entriesAt_cons]
    ac_rfl
  · rw [mapAt, IterMap.modify_entries h, IterMap.modify_mapValues_fst, entriesAt_append,
      Prod.map_apply, entriesAt_cons]
    ac_rfl
  · rw [mapAt, IterMap.erase_entries h, IterMap.erase_mapValues, entriesAt_append]

/-- On a recorded flow the update does not throw. -/
theorem triple_updateTable (ht fup : Addr) (hrec : table.lookupFlow update.fid = true) :
    Triple (tableAt ht table + pointsTo fup (Obj.flowUpdate update))
      (updateTable ht fup : Mem A Unit)
      fun _ => tableAt ht (table.accounted update) + pointsTo fup (Obj.flowUpdate update) := by
  refine of_tableAt fun fmap m hm => ?_
  -- the flow has an entry
  obtain ⟨⟨p, fd⟩, hfd⟩ : ∃ e, m.find? update.fid = some e := by
    rw [HashTable.lookupFlow, ← hm, IterMap.contains_mapValues] at hrec
    exact Option.isSome_iff_exists.mp hrec
  obtain ⟨before, after, hentries⟩ := List.append_of_mem (IterMap.find?_eq_some.mp hfd)
  obtain ⟨E, hsplit, hmodify, -⟩ := mapAt_split fmap hentries
  have hsnd : (m.modify update.fid (Prod.map id (HashTable.account update))).mapValues Prod.snd =
      (table.accounted update).fmap := by
    rw [IterMap.modify_mapValues_snd, hm]
    rfl
  unfold updateTable
  refine .of_eq (P := pointsTo fup (Obj.flowUpdate update) +
    (pointsTo ht (Obj.hashTable fmap table.tableSize) + mapAt fmap m)) (by ac_rfl) ?_
  refine .loadAs_bind rfl ?_
  rw [add_left_comm]
  refine triple_getFlowMap ?_
  rw [hsplit]
  refine .of_eq (P := pointsTo fmap (Obj.flowMap (m.mapValues Prod.fst)) +
    (pointsTo p (Obj.flowDescriptor fd) + (pointsTo ht (Obj.hashTable fmap table.tableSize) +
      (pointsTo fup (Obj.flowUpdate update) + E)))) (by ac_rfl) ?_
  refine .loadAs_bind rfl ?_
  rw [IterMap.find?_mapValues, hfd, add_left_comm]
  refine .loadAs_bind rfl <| .of_bind_pure <| .store_bind <| .pure <| subset_tableAt fmap hsnd ?_
  rw [hmodify, HashTable.account, HashTable.accounted]
  ac_rfl

/-- A flow that is not recorded gets a descriptor of its own, and the map the pointer to it. -/
theorem triple_insertFlow (ht fup : Addr) (hnew : table.lookupFlow update.fid = false) :
    Triple (tableAt ht table + pointsTo fup (Obj.flowUpdate update))
      (insertFlow C ht fup : Mem A Unit)
      fun _ => tableAt ht (table.insertFlow (C.placement FlowDescriptor) update) +
        pointsTo fup (Obj.flowUpdate update) := by
  refine of_tableAt fun fmap m hm => ?_
  -- the key is new in the map of pointers as well
  have hnot : m.contains update.fid = false := by
    rw [← hnew, HashTable.lookupFlow, ← hm, IterMap.contains_mapValues]
  unfold insertFlow
  refine .of_eq (P := pointsTo fup (Obj.flowUpdate update) +
    (pointsTo ht (Obj.hashTable fmap table.tableSize) + mapAt fmap m)) (by ac_rfl) ?_
  refine .loadAs_bind rfl <| .new_bind fun p => ?_
  -- seen through the pointers, it is the model's insertion
  have hsnd : (m.insert (C.placement _) update.fid (p, HashTable.firstEntry update)).mapValues
      Prod.snd = (table.insertFlow (C.placement FlowDescriptor) update).fmap := by
    rw [IterMap.insert_mapValues, hm]
    rfl
  refine .of_eq (P := pointsTo ht (Obj.hashTable fmap table.tableSize) +
    (pointsTo p (Obj.flowDescriptor (HashTable.firstEntry update)) +
      (pointsTo fup (Obj.flowUpdate update) + mapAt fmap m))) ?_ <| triple_getFlowMap ?_
  · rw [HashTable.firstEntry]
    ac_rfl
  rw [mapAt]
  refine .of_eq (P := pointsTo fmap (Obj.flowMap (m.mapValues Prod.fst)) +
    (pointsTo p (Obj.flowDescriptor (HashTable.firstEntry update)) +
      (pointsTo ht (Obj.hashTable fmap table.tableSize) +
        (pointsTo fup (Obj.flowUpdate update) + entriesAt m.entries)))) (by ac_rfl) ?_
  refine .loadAs_bind rfl <| .of_bind_pure <| .store_bind <| .pure <| subset_tableAt fmap hsnd ?_
  -- the new descriptor joins those of the map, wherever the container puts the pointer
  rw [mapAt, entriesAt_perm (IterMap.insert_entries_perm hnot), entriesAt_cons,
    IterMap.insert_mapValues, HashTable.insertFlow]
  ac_rfl

/-- Deleting what the pointers of a map point to. -/
theorem triple_deleteEntries (es : List (FlowID × Addr × FlowDescriptor)) :
    Triple (entriesAt es)
      ((es.map (Prod.map id Prod.fst)).forM fun e => (delete e.2 : Mem A Unit)) fun _ => 0 := by
  induction es with
  | nil => exact .pure subset_rfl
  | cons e es ih => exact .delete_bind ih

/-- Clearing the table deletes the descriptor of each entry. -/
theorem triple_clearTable (ht : Addr) (table : HashTable) :
    Triple (tableAt ht table) (clearTable ht : Mem A Unit)
      fun _ => tableAt ht (.new table.tableSize) := by
  rw [← add_zero (tableAt ht table)]
  refine of_tableAt fun fmap m hm => triple_getFlowMap ?_
  rw [add_zero, mapAt, add_left_comm]
  refine .loadAs_bind rfl ?_
  refine .of_eq (P := entriesAt m.entries + (pointsTo fmap (Obj.flowMap (m.mapValues Prod.fst)) +
    pointsTo ht (Obj.hashTable fmap table.tableSize))) (by ac_rfl) ?_
  -- the loop deletes the descriptors, and the map of pointers is emptied afterwards
  refine (triple_deleteEntries m.entries).call fun _ => ?_
  rw [zero_add]
  refine .of_bind_pure <| .store_bind <| .pure ?_
  rw [← add_zero (tableAt _ _)]
  refine subset_tableAt fmap (m := IterMap.empty) rfl ?_
  rw [add_zero, mapAt, add_comm]
  exact congrArg (fun R => pointsTo ht (Obj.hashTable fmap table.tableSize) + R) (add_zero _).symm

/-- The destructor leaves none of the table's blocks. -/
theorem triple_deleteHashTable (ht : Addr) (table : HashTable) :
    Triple (tableAt ht table) (deleteHashTable ht : Mem A Unit) fun _ => 0 := by
  unfold deleteHashTable
  rw [← add_zero (tableAt ht table)]
  refine (triple_clearTable ht table).call fun _ => of_tableAt fun fmap m hm => triple_getFlowMap ?_
  -- the cleared map has no descriptors
  have hnil : m.entries = [] := List.map_eq_nil_iff.mp (congrArg IterMap.entries hm)
  rw [mapAt, hnil, entriesAt_nil, add_zero, add_zero, add_comm]
  refine .delete_bind ?_
  rw [← add_zero (pointsTo ht _)]
  exact .of_bind_pure <| .delete_bind <| .pure subset_rfl

/-! ## The worker -/

/-- The constructor gives a worker with an empty table. -/
theorem triple_newWorker (tableSize : UInt32) (mfilter : MultistageFilter) (threshold : UInt32) :
    Triple 0 (newWorker tableSize mfilter threshold : Mem A Addr)
      fun w => workerAt w { ht := .new tableSize, mfilter, threshold } := by
  unfold newWorker
  refine .new_bind fun mf => ?_
  rw [add_comm]
  refine (triple_newHashTable tableSize).call fun ht => .of_bind_pure <| .new_bind fun w => .pure ?_
  rw [← add_zero (workerAt _ _)]
  refine subset_workerAt ht mf ?_
  ac_rfl

/-- The destructor leaves none of the worker's blocks. -/
theorem triple_deleteWorker (w : Addr) (worker : Worker) :
    Triple (workerAt w worker) (deleteWorker w : Mem A Unit) fun _ => 0 := by
  rw [← add_zero (workerAt w worker)]
  refine of_workerAt fun ht mf => .loadAs_bind rfl ?_
  refine .of_eq (P := tableAt ht worker.ht + (pointsTo mf (Obj.multistageFilter worker.mfilter) +
    (pointsTo w (Obj.worker ht mf worker.threshold) + 0))) (by ac_rfl) ?_
  refine (triple_deleteHashTable ht worker.ht).call fun _ => ?_
  rw [zero_add]
  exact .delete_bind <| .of_bind_pure <| .delete_bind <| .pure subset_rfl

/-- The answer and the filter are the model's. -/
theorem triple_filter (mfilter fup : Addr) (mf : MultistageFilter) (update : FlowUpdate) :
    Triple (pointsTo mfilter (Obj.multistageFilter mf) + pointsTo fup (Obj.flowUpdate update))
      (filter mfilter fup : Mem A Bool) fun pass =>
        Given (pass = (mf.filter update).1)
          (pointsTo mfilter (Obj.multistageFilter (mf.filter update).2) +
            pointsTo fup (Obj.flowUpdate update)) := by
  unfold filter
  refine .loadAs_bind rfl ?_
  rw [add_comm]
  refine .loadAs_bind rfl ?_
  rw [add_comm]
  exact .store_bind <| .pure fun B hB => ⟨rfl, hB⟩

variable {w t : Addr} {worker worker' : Worker}

/-- What the lock protects. -/
theorem triple_record (ht mf fup : Addr)
    (h : Worker.Svc (C.placement FlowDescriptor) worker update worker') :
    Triple (tableAt ht worker.ht + (pointsTo mf (Obj.multistageFilter worker.mfilter) +
        pointsTo fup (Obj.flowUpdate update)))
      (record C ht mf fup : Mem A Unit)
      fun _ => tableAt ht worker'.ht + (pointsTo mf (Obj.multistageFilter worker'.mfilter) +
        pointsTo fup (Obj.flowUpdate update)) := by
  unfold record
  refine .of_eq (P := pointsTo fup (Obj.flowUpdate update) +
    (tableAt ht worker.ht + pointsTo mf (Obj.multistageFilter worker.mfilter))) (by ac_rfl) ?_
  refine .loadAs_bind rfl ?_
  rw [add_left_comm]
  refine .bind (triple_lookupFlow ht worker.ht update.fid _) fun b => .of_given ?_
  rintro rfl
  -- unless the flow is recorded, the filter sees the packet
  have hfilter {Q : Unit → Assertion Obj} {k : Bool → Mem A Unit}
      (hk : Triple (tableAt ht worker.ht + (pointsTo mf
          (Obj.multistageFilter (worker.mfilter.filter update).2) +
          pointsTo fup (Obj.flowUpdate update))) (k (worker.mfilter.filter update).1) Q) :
      Triple (tableAt ht worker.ht + (pointsTo fup (Obj.flowUpdate update) +
        pointsTo mf (Obj.multistageFilter worker.mfilter))) (filter mf fup >>= k) Q := by
    rw [add_comm, add_comm (pointsTo fup _)]
    refine (triple_filter mf fup worker.mfilter update).call fun pass => .of_given_add ?_
    rintro rfl
    rwa [add_comm]
  cases h with
  | recorded hrec =>
    rw [if_pos hrec, ← add_assoc]
    refine (triple_updateTable ht fup hrec).tail_call fun _ => subset_of_eq ?_
    ac_rfl
  | admitted hnew hpass =>
    rw [if_neg (by simp [hnew])]
    refine hfilter ?_
    rw [if_pos hpass, MultistageFilter.filter_of_pass hpass, add_comm (pointsTo mf _), ← add_assoc]
    refine (triple_insertFlow ht fup hnew).tail_call fun _ => subset_of_eq ?_
    ac_rfl
  | dropped hnew hdrop =>
    rw [if_neg (by simp [hnew])]
    refine hfilter ?_
    rw [if_neg (by simp [hdrop])]
    exact .pure subset_rfl

/-- **One packet.** The worker on the heap is left as `svc` of the model leaves the worker, and the
task is gone. -/
theorem triple_svc (w t : Addr)
    (h : Worker.Svc (C.placement FlowDescriptor) worker update worker') :
    Triple (workerAt w worker + taskAt t update) (svc C w t : Mem A Unit)
      fun _ => workerAt w worker' := by
  refine of_workerAt fun ht mf => .loadAs_bind rfl ?_
  refine .of_eq (P := taskAt t update + (pointsTo w (Obj.worker ht mf worker.threshold) +
    (pointsTo mf (Obj.multistageFilter worker.mfilter) + tableAt ht worker.ht))) (by ac_rfl) ?_
  refine .of_exists_add fun fup => ?_
  rw [add_assoc]
  refine .loadAs_bind rfl ?_
  refine .of_eq (P := tableAt ht worker.ht + (pointsTo mf (Obj.multistageFilter worker.mfilter) +
    pointsTo fup (Obj.flowUpdate update)) + (pointsTo t (Obj.task fup) +
      pointsTo w (Obj.worker ht mf worker.threshold))) (by ac_rfl) ?_
  refine (triple_record ht mf fup h).call fun _ => ?_
  -- what remains of the task, and the worker
  have hthreshold : worker'.threshold = worker.threshold := by cases h <;> rfl
  refine .of_eq (P := pointsTo t (Obj.task fup) + pointsTo fup (Obj.flowUpdate update) +
    (pointsTo w (Obj.worker ht mf worker'.threshold) +
      (pointsTo mf (Obj.multistageFilter worker'.mfilter) + tableAt ht worker'.ht))) ?_ ?_
  · rw [hthreshold]
    ac_rfl
  · refine ((triple_deleteTask t update).tail_call fun _ => ?_).conseq
      (Set.add_subset_add_right (subset_taskAt t fup update)) fun _ => subset_rfl
    rw [zero_add, ← add_zero (workerAt w worker')]
    exact subset_workerAt ht mf (by rw [add_zero])

/-- The analyzer's two calls at the end of an analysis. -/
theorem triple_refilter (a : Analyzer) (w : Addr) (worker : Worker) :
    Triple (workerAt w worker)
      (do update_filter_threshold w (UInt64.ofNat a.filter_threshold)
          clean_filter w : Mem A Unit)
      fun _ => workerAt w (a.refilter worker) := by
  unfold update_filter_threshold clean_filter
  rw [← add_zero (workerAt w worker)]
  refine of_workerAt fun ht mf => ?_
  simp only [bind_assoc]
  -- the worker, its filter, the filter's update, the worker's threshold; then the same for the
  -- reset
  refine .loadAs_bind rfl ?_
  rw [add_left_comm]
  refine .loadAs_bind rfl <| .store_bind ?_
  rw [add_left_comm]
  refine .store_bind <| .loadAs_bind rfl ?_
  rw [add_left_comm]
  refine .loadAs_bind rfl <| .of_bind_pure <| .store_bind <| .pure ?_
  rw [← add_zero (workerAt w _)]
  exact subset_workerAt ht mf (add_left_comm _ _ _)

/-! ## The scan -/

/-- The entries a scan leaves, with their addresses. -/
def kept (t r : Nat) (es : List (FlowID × Addr × FlowDescriptor)) :
    List (FlowID × Addr × FlowDescriptor) :=
  es.filterMap fun e => (Analyzer.checkEntry t r e.2.2).2.map fun fd => (e.1, e.2.1, fd)

/-- The descriptors it reports. -/
def collected (t r : Nat) (es : List (FlowID × Addr × FlowDescriptor)) : List FlowDescriptor :=
  es.flatMap fun e => (Analyzer.checkEntry t r e.2.2).1

theorem kept_cons {t r : Nat} {k : FlowID} {p : Addr} {fd : FlowDescriptor}
    (es : List (FlowID × Addr × FlowDescriptor)) :
    kept t r ((k, p, fd) :: es) =
      ((Analyzer.checkEntry t r fd).2.map fun fd' => (k, p, fd')).toList ++ kept t r es := by
  cases h : (Analyzer.checkEntry t r fd).2 <;> simp [kept, h]

theorem collected_cons {t r : Nat} {k : FlowID} {p : Addr} {fd : FlowDescriptor}
    (es : List (FlowID × Addr × FlowDescriptor)) :
    collected t r ((k, p, fd) :: es) = (Analyzer.checkEntry t r fd).1 ++ collected t r es :=
  List.flatMap_cons ..

/-- Without the addresses: the entries the scan of the model leaves. -/
theorem map_kept (t r : Nat) (es : List (FlowID × Addr × FlowDescriptor)) :
    (kept t r es).map (Prod.map id Prod.snd) =
      (es.map (Prod.map id Prod.snd)).filterMap fun e =>
        (Analyzer.checkEntry t r e.2).2.map (e.1, ·) := by
  rw [kept, List.map_filterMap, List.filterMap_map]
  refine List.filterMap_congr fun e _ => ?_
  cases h : (Analyzer.checkEntry t r e.2.2).2 <;> simp [h]

/-- **The loop of the scan.** From an iterator with `behind` behind it and `ahead` ahead: each entry
is left in place with its descriptor changed, or erased with its descriptor deleted, and the
iterator stays valid. Induction on the entries ahead. -/
theorem triple_checkCleanLoop (t r : Nat) (fmap results : Addr)
    (ahead behind : List (FlowID × Addr × FlowDescriptor))
    (m : IterMap FlowID (Addr × FlowDescriptor)) (hm : m.entries = behind ++ ahead)
    (fds : List FlowDescriptor) :
    Triple (mapAt fmap m + pointsTo results (Obj.results fds))
      (checkCleanLoop t r fmap results (ahead.map (Prod.map id Prod.fst)) : Mem A Unit)
      fun _ => ⋃ m' : IterMap FlowID (Addr × FlowDescriptor),
        Given (m'.entries = behind ++ kept t r ahead)
          (mapAt fmap m' + pointsTo results (Obj.results (fds ++ collected t r ahead))) := by
  induction ahead generalizing behind m fds with
  | nil =>
    refine .pure (Set.subset_iUnion_of_subset m fun B hB => ⟨hm, ?_⟩)
    rwa [collected, List.flatMap_nil, List.append_nil]
  | cons e ahead ih =>
    obtain ⟨k, p, fd⟩ := e
    obtain ⟨E, hsplit, hmodify, herase⟩ := mapAt_split fmap hm
    -- the entry left in the table
    have hnext := hmodify Analyzer.nextInterval
    have hkeep := ih (behind ++ [(k, p, Analyzer.nextInterval fd)])
      (m.modify k (Prod.map id Analyzer.nextInterval))
      (by rw [IterMap.modify_entries hm, List.append_assoc]; rfl)
    rw [Analyzer.nextInterval] at hnext
    rw [hsplit, add_assoc, kept_cons, collected_cons, List.map_cons, Prod.map_apply, id_eq]
    refine .loadAs_bind rfl ?_
    simp only [Analyzer.checkEntry]
    split_ifs with hyoung hover
    · -- left in the table unreported
      refine .store_bind ?_
      rw [← add_assoc, ← hnext]
      refine (hkeep fds).conseq subset_rfl fun _ => subset_of_eq ?_
      rw [List.append_assoc]
      rfl
    · -- reported
      refine .of_eq (P := pointsTo results (Obj.results fds) + (pointsTo p (Obj.flowDescriptor fd) +
        (pointsTo fmap (Obj.flowMap (m.mapValues Prod.fst)) + E))) (by ac_rfl) ?_
      refine .loadAs_bind rfl <| .store_bind ?_
      rw [add_left_comm]
      refine .store_bind ?_
      rw [add_left_comm, ← hnext, add_comm]
      refine (hkeep (fds ++ [fd])).conseq subset_rfl fun _ => subset_of_eq ?_
      rw [List.append_assoc, List.append_assoc]
      rfl
    · -- erased
      refine .delete_bind ?_
      rw [add_assoc]
      refine .loadAs_bind rfl <| .store_bind ?_
      rw [← add_assoc, ← herase]
      exact ih behind (m.erase k) (IterMap.erase_entries hm) fds

/-- **The scan of one table** on the heap is the scan of the model. -/
theorem triple_checkCleanHashTable (a : Analyzer) (ht results : Addr) (table : HashTable)
    (fds : List FlowDescriptor) :
    Triple (tableAt ht table + pointsTo results (Obj.results fds))
      (checkCleanHashTable a ht results : Mem A Unit)
      fun _ => tableAt ht (a.checkCleanHashTable table fds).1 +
        pointsTo results (Obj.results (a.checkCleanHashTable table fds).2) := by
  refine of_tableAt fun fmap m hm => triple_getFlowMap ?_
  rw [mapAt, add_assoc, add_left_comm]
  refine .loadAs_bind rfl ?_
  refine .of_eq (P := mapAt fmap m + pointsTo results (Obj.results fds) +
    pointsTo ht (Obj.hashTable fmap table.tableSize)) (by rw [mapAt]; ac_rfl) ?_
  -- the loop starts at the first entry, with no entry behind it
  refine (triple_checkCleanLoop _ _ fmap results m.entries [] m rfl fds).tail_call fun _ => ?_
  rw [Set.iUnion_add]
  refine Set.iUnion_subset fun m' B hB => ?_
  obtain ⟨B₁, ⟨hm', h₁⟩, B₂, h₂, rfl⟩ := Set.mem_add.mp hB
  -- the entries that the iterator visits are those of the model's table
  have hold : m.entries.map (Prod.map id Prod.snd) = table.fmap.entries :=
    congrArg IterMap.entries hm
  have hsnd : m'.mapValues Prod.snd = (a.checkCleanHashTable table fds).1.fmap := by
    ext1
    change m'.entries.map _ = (table.fmap.scan _ fds).1.entries
    rw [hm', List.nil_append, map_kept, hold, IterMap.scan_entries]
  -- and the records it pushes are the model's
  have hout : fds ++ collected a.old_t_threshold a.old_r_threshold m.entries =
      (a.checkCleanHashTable table fds).2 := by
    rw [Analyzer.checkCleanHashTable, Analyzer.scanTable_snd, Analyzer.reported, ← hold,
      List.flatMap_map]
    rfl
  rw [hout] at h₁
  exact subset_tableAt fmap hsnd (by rw [add_comm]; rfl) (Set.add_mem_add h₁ h₂)

/-- The scan of one worker leaves the table and the results of the model. -/
theorem triple_scanWorker (a : Analyzer) (w results : Addr) (worker : Worker)
    (fds : List FlowDescriptor) :
    Triple (workerAt w worker + pointsTo results (Obj.results fds))
      (do let ht ← getHashTable w
          checkCleanHashTable a ht results : Mem A Unit)
      fun _ => workerAt w { worker with ht := (a.checkCleanHashTable worker.ht fds).1 } +
        pointsTo results (Obj.results (a.checkCleanHashTable worker.ht fds).2) := by
  unfold getHashTable
  refine of_workerAt fun ht mf => ?_
  rw [bind_assoc]
  refine .loadAs_bind rfl ?_
  rw [pure_bind]
  refine .of_eq (P := tableAt ht worker.ht + pointsTo results (Obj.results fds) +
    (pointsTo w (Obj.worker ht mf worker.threshold) +
      pointsTo mf (Obj.multistageFilter worker.mfilter))) (by ac_rfl) ?_
  refine (triple_checkCleanHashTable a ht results worker.ht fds).tail_call fun _ => ?_
  exact subset_workerAt ht mf (by ac_rfl)

end Pointer

end FHF
