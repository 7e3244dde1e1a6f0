import FHFCapturing.Analyzer

/-!
# The scan of a table, entry by entry

`checkCleanHashTable` erases entries while it iterates, and clears the byte counts by which it
classifies. Seen one iteration at a time (`IterMap.Cursor`) it still visits every entry once, with
the values it had before the scan: an iteration only touches the entry under the iterator, and
`++it` and `erase(it)` both take the iterator to the entry after that one. So the scan reports
the entries over the threshold and keeps these and the new ones over the early-removal threshold
(`checkCleanHashTable_partitions`), whichever of the two thresholds is the larger.
-/

namespace FHF

open IterMap

namespace Analyzer

/-- What a scan leaves in the table: an entry over the threshold, or one of this interval over the
early-removal threshold. -/
def Kept (old_t old_r : Nat) (fd : FlowDescriptor) : Prop :=
  old_t < fd.dOctets.toNat ∨
    (fd.cycles = 0 ∧ old_r < fd.dOctets.toNat ∧ fd.dOctets.toNat ≤ old_t)

instance (old_t old_r : Nat) (fd : FlowDescriptor) : Decidable (Kept old_t old_r fd) :=
  inferInstanceAs (Decidable (_ ∨ _))

/-- A record is pushed iff it is over the threshold. -/
theorem checkEntry_fst (t r : Nat) (fd : FlowDescriptor) :
    (checkEntry t r fd).1 = if t < fd.dOctets.toNat then [fd] else [] := by
  rcases checkEntry_cases t r fd with ⟨hover, heq⟩ | ⟨hle, -, -, heq⟩ | ⟨hle, -, heq⟩
  · rw [heq, if_pos hover]
  · rw [heq, if_neg (Nat.not_lt.mpr hle)]
  · rw [heq, if_neg (Nat.not_lt.mpr hle)]

/-- The kept descriptor is the old one with a cycle more and no bytes. -/
theorem checkEntry_snd (t r : Nat) (fd : FlowDescriptor) :
    (checkEntry t r fd).2 = if Kept t r fd then some (nextInterval fd) else none := by
  rcases checkEntry_cases t r fd with ⟨hover, heq⟩ | ⟨hle, hnew, hr, heq⟩ | ⟨hle, hold, heq⟩
  · have hkept : Kept t r fd := Or.inl hover
    rw [heq, if_pos hkept]
  · have hkept : Kept t r fd := Or.inr ⟨hnew, hr, hle⟩
    rw [heq, if_pos hkept]
  · rw [heq, if_neg]
    rintro (hover | ⟨hnew, hr, -⟩)
    · exact absurd hover (Nat.not_lt.mpr hle)
    · exact absurd hr (Nat.not_lt.mpr (hold hnew))

/-- The records over the threshold, in the order of the map. -/
theorem reported_eq_filter (t r : Nat) (ht : HashTable) :
    reported t r ht =
      (ht.fmap.entries.map Prod.snd).filter fun fd => decide (t < fd.dOctets.toNat) := by
  unfold reported
  induction ht.fmap.entries with
  | nil => rfl
  | cons e es ih =>
    rw [List.flatMap_cons, ih, checkEntry_fst, List.map_cons]
    by_cases hover : t < e.2.dOctets.toNat
    · rw [if_pos hover, List.filter_cons_of_pos (by simpa using hover), List.singleton_append]
    · rw [if_neg hover, List.filter_cons_of_neg (by simpa using hover), List.nil_append]

/-- The entries that stay, in their order. -/
theorem scanTable_entries (t r : Nat) (ht : HashTable) (results : List FlowDescriptor) :
    (scanTable t r ht results).1.fmap.entries =
      (ht.fmap.entries.filter fun e => decide (Kept t r e.2)).map
        fun e => (e.1, nextInterval e.2) := by
  have hbody : (fun e : FlowID × FlowDescriptor => (checkEntry t r e.2).2.map (e.1, ·)) =
      fun e => if Kept t r e.2 then some (e.1, nextInterval e.2) else none := by
    funext e
    rw [checkEntry_snd]
    split <;> rfl
  rw [scanTable, scan_entries, hbody]
  induction ht.fmap.entries with
  | nil => rfl
  | cons e es ih => by_cases hkept : Kept t r e.2 <;> simp [hkept, ih]

/-- Before the first iteration of the scan. -/
def scanStart (ht : HashTable) (results : List FlowDescriptor) :
    Cursor FlowID FlowDescriptor FlowDescriptor :=
  ⟨[], ht.fmap.entries, results⟩

/-- **The table scan partitions the entries.** For any table, thresholds and initial results: after
`k` iterations, up to as many as there are entries, the iterator is at the `k`-th entry, and it
and all after it are as they were before the scan; after as many iterations as entries the loop
ends, with the table and the results that the call returns. These are: the initial results and
then a copy of every entry over `old_t_threshold`, in iteration order; and the entries kept, with
no bytes and one more cycle. -/
theorem checkCleanHashTable_partitions (a : Analyzer) (ht : HashTable)
    (results : List FlowDescriptor) :
    (∀ k ≤ ht.fmap.size, ∃ c,
        (scanStart ht results).after (checkEntry a.old_t_threshold a.old_r_threshold) k = some c ∧
          c.ahead = ht.fmap.entries.drop k) ∧
      (∃ c, (scanStart ht results).after (checkEntry a.old_t_threshold a.old_r_threshold)
            ht.fmap.size = some c ∧
          c.step (checkEntry a.old_t_threshold a.old_r_threshold) = none ∧
          (a.checkCleanHashTable ht results).1.fmap.entries = c.behind ∧
          (a.checkCleanHashTable ht results).2 = c.out) ∧
      (a.checkCleanHashTable ht results).2 = results ++ (ht.fmap.entries.map Prod.snd).filter
        (fun fd => decide (a.old_t_threshold < fd.dOctets.toNat)) ∧
      (a.checkCleanHashTable ht results).1.fmap.entries =
        (ht.fmap.entries.filter
          fun e => decide (Kept a.old_t_threshold a.old_r_threshold e.2)).map
            fun e => (e.1, { e.2 with dOctets := 0, cycles := e.2.cycles + 1 }) := by
  -- the iterator after `k` iterations has passed `k` entries
  refine ⟨fun k hk => ⟨_, Cursor.after_of_le [] results hk, rfl⟩,
    ⟨_, Cursor.after_length _ ht.fmap results, Cursor.step_of_ahead_nil rfl, rfl, rfl⟩, ?_, ?_⟩
  · -- what is pushed, and what stays
    rw [checkCleanHashTable, scanTable_snd, reported_eq_filter]
  · exact scanTable_entries a.old_t_threshold a.old_r_threshold ht results

end Analyzer

end FHF
