import FHFCapturing.DataStructures

/-!
# The flow table

`HashTable` of `HashTable.cpp`: a `boost::unordered_map` from flow IDs to descriptors. That a
descriptor sits under the key that is its own `fid` is an invariant of every operation here, so
the structure carries it. `P` is where the container puts a new entry in its iteration order.
-/

namespace FHF

/-- The map, the largest number of entries it is made for (which no operation checks), and the fact
that every descriptor is stored under its own flow ID. -/
structure HashTable where
  fmap : IterMap FlowID FlowDescriptor
  tableSize : UInt32
  fid_eq_key : ∀ e ∈ fmap.entries, e.2.fid = e.1

namespace HashTable

variable (P : IterMap.Placement FlowID FlowDescriptor)

/-- The constructor: an empty map. -/
def new (tableSize : UInt32) : HashTable where
  fmap := IterMap.empty
  tableSize := tableSize
  fid_eq_key := by simp [IterMap.empty]

/-- The descriptor a `find` on the map gives. -/
def descriptor? (ht : HashTable) (fid : FlowID) : Option FlowDescriptor := ht.fmap.find? fid

/-- `fmap.find(fid) != fmap.end()`. -/
def lookupFlow (ht : HashTable) (fid : FlowID) : Bool := ht.fmap.contains fid

/-- What an update does to the descriptor it finds: add the size of the packet and count it. -/
def account (fup : FlowUpdate) (fd : FlowDescriptor) : FlowDescriptor :=
  (fd.incrementd_0ctects fup.dOctets).increment_dPkts

/-- The table with the packet accounted to its flow's descriptor. -/
def accounted (ht : HashTable) (fup : FlowUpdate) : HashTable where
  fmap := ht.fmap.modify fup.fid (account fup)
  tableSize := ht.tableSize
  fid_eq_key := by
    rintro ⟨k, fd'⟩ hmem
    rcases IterMap.mem_modify.mp hmem with ⟨-, hold⟩ | ⟨rfl, fd, hold, rfl⟩
    · exact ht.fid_eq_key _ hold
    · exact ht.fid_eq_key (fup.fid, fd) hold

/-- The loop from `find` returns in its first iteration, so it only tells whether there is
one. -/
def updateTable (ht : HashTable) (fup : FlowUpdate) : Except String HashTable :=
  match ht.fmap.find? fup.fid with
  | some _ => .ok (ht.accounted fup)
  | none => .error "Updating value of non stored Flow"

/-- The descriptor a new entry starts with: the packet's bytes, and one packet. -/
def firstEntry (fup : FlowUpdate) : FlowDescriptor :=
  { fid := fup.fid, dOctets := fup.dOctets : FlowDescriptor }.increment_dPkts

/-- The inner `insert` has no effect when the key is there already. -/
def insertFlow (ht : HashTable) (fup : FlowUpdate) : HashTable where
  fmap := ht.fmap.insert P fup.fid (firstEntry fup)
  tableSize := ht.tableSize
  fid_eq_key := by
    rintro ⟨k, fd⟩ hmem
    cases h : ht.fmap.contains fup.fid with
    | true =>
      rw [IterMap.insert_of_contains h] at hmem
      exact ht.fid_eq_key _ hmem
    | false =>
      rcases (IterMap.mem_insert h).mp hmem with ⟨rfl, rfl⟩ | hold
      · rfl
      · exact ht.fid_eq_key _ hold

/-- The size the table was made with, not the number of its entries. -/
def getTableMaxSize (ht : HashTable) : UInt32 := ht.tableSize

/-! ## Entries after each operation -/

variable {P}

theorem lookupFlow_eq (ht : HashTable) (fid : FlowID) :
    ht.lookupFlow fid = (ht.descriptor? fid).isSome := rfl

theorem lookupFlow_of_some {ht : HashTable} {fid : FlowID} {fd : FlowDescriptor}
    (h : ht.descriptor? fid = some fd) : ht.lookupFlow fid = true := by
  rw [lookupFlow_eq, h]
  rfl

theorem exists_of_lookupFlow {ht : HashTable} {fid : FlowID} (h : ht.lookupFlow fid = true) :
    ∃ fd, ht.descriptor? fid = some fd :=
  Option.isSome_iff_exists.mp h

/-- A flow is not recorded exactly when it has no descriptor. -/
theorem lookupFlow_eq_false {ht : HashTable} {fid : FlowID} :
    ht.lookupFlow fid = false ↔ ht.descriptor? fid = none := by
  rw [lookupFlow_eq, Option.isSome_eq_false_iff, Option.isNone_iff_eq_none]

theorem lookupFlow_iff {ht : HashTable} {fid : FlowID} :
    ht.lookupFlow fid = true ↔ fid ∈ ht.fmap.keys :=
  IterMap.contains_iff.trans IterMap.mem_keys.symm

/-- The descriptors are the values of the map's entries. -/
theorem descriptor?_eq_some {ht : HashTable} {fid : FlowID} {fd : FlowDescriptor} :
    ht.descriptor? fid = some fd ↔ (fid, fd) ∈ ht.fmap.entries :=
  IterMap.find?_eq_some

/-- A flow's descriptor carries the flow's own ID. -/
theorem fid_of_descriptor? {ht : HashTable} {fid : FlowID} {fd : FlowDescriptor}
    (h : ht.descriptor? fid = some fd) : fd.fid = fid :=
  ht.fid_eq_key _ (descriptor?_eq_some.mp h)

@[simp] theorem account_fid (fup : FlowUpdate) (fd : FlowDescriptor) :
    (account fup fd).fid = fd.fid := rfl

@[simp] theorem account_cycles (fup : FlowUpdate) (fd : FlowDescriptor) :
    (account fup fd).cycles = fd.cycles := rfl

@[simp] theorem account_dOctets (fup : FlowUpdate) (fd : FlowDescriptor) :
    (account fup fd).dOctets = fd.dOctets + fup.dOctets := rfl

@[simp] theorem account_dPkts (fup : FlowUpdate) (fd : FlowDescriptor) :
    (account fup fd).dPkts = fd.dPkts + 1 := rfl

@[simp] theorem firstEntry_cycles (fup : FlowUpdate) : (firstEntry fup).cycles = 0 := rfl

@[simp] theorem firstEntry_dOctets (fup : FlowUpdate) :
    (firstEntry fup).dOctets = fup.dOctets := rfl

@[simp] theorem firstEntry_dPkts (fup : FlowUpdate) : (firstEntry fup).dPkts = 0 + 1 := rfl

@[simp] theorem descriptor?_new (n : UInt32) (fid : FlowID) : (new n).descriptor? fid = none := rfl

/-- On a recorded flow `updateTable` does not throw. -/
theorem updateTable_of_recorded {ht : HashTable} {fup : FlowUpdate}
    (h : ht.lookupFlow fup.fid = true) : ht.updateTable fup = .ok (ht.accounted fup) := by
  obtain ⟨fd, hfd⟩ := exists_of_lookupFlow h
  rw [descriptor?] at hfd
  simp [updateTable, hfd]

theorem descriptor?_accounted (ht : HashTable) (fup : FlowUpdate) (fid : FlowID) :
    (ht.accounted fup).descriptor? fid =
      if fid = fup.fid then (ht.descriptor? fid).map (account fup) else ht.descriptor? fid :=
  IterMap.find?_modify ht.fmap fup.fid fid (account fup)

theorem descriptor?_insertFlow {ht : HashTable} {fup : FlowUpdate}
    (h : ht.lookupFlow fup.fid = false) (fid : FlowID) :
    (ht.insertFlow P fup).descriptor? fid =
      if fid = fup.fid then some (firstEntry fup) else ht.descriptor? fid :=
  IterMap.find?_insert h fid

end HashTable

end FHF
