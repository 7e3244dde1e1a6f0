import FHFCapturing.WorkerRun

/-!
# Each flow lives in at most one place

The emitter selects the worker from the flow ID alone, a worker records a flow only while it
handles one of its packets, and the scan only keeps or erases entries. So every waiting packet
and every recorded flow sits at the worker the dispatch selects for it (`Dispatched`), the tables
of different workers share no flow, and the results of one interval name each flow at most once.
-/

namespace FHF

/-! ## The flows a table reports -/

namespace Analyzer

/-- The flows of one table's reports are some of its keys, in the same order. -/
theorem reported_fids_sublist (t r : Nat) (ht : HashTable) :
    ((reported t r ht).map FlowDescriptor.fid).Sublist ht.fmap.keys := by
  have hentry : ∀ es : List (FlowID × FlowDescriptor), (∀ e ∈ es, e.2.fid = e.1) →
      ((es.flatMap fun e => (checkEntry t r e.2).1).map FlowDescriptor.fid).Sublist
        (es.map Prod.fst) := by
    intro es hes
    induction es with
    | nil => exact List.Sublist.refl _
    | cons e es ih =>
      have ih' := ih fun e' he' => hes e' (List.mem_cons_of_mem _ he')
      rw [List.flatMap_cons, List.map_append, List.map_cons]
      unfold checkEntry
      split_ifs
      · exact ih'.cons _
      · -- the reported entry contributes its own key
        rw [List.map_singleton, hes e List.mem_cons_self]
        exact ih'.cons_cons _
      · exact ih'.cons _
  exact hentry _ ht.fid_eq_key

/-- A table reports no flow twice. -/
theorem reported_fids_nodup (t r : Nat) (ht : HashTable) :
    ((reported t r ht).map FlowDescriptor.fid).Nodup :=
  (reported_fids_sublist t r ht).nodup ht.fmap.nodup_keys

/-- Only recorded flows are reported. -/
theorem lookupFlow_of_reported {t r : Nat} {ht : HashTable} {fid : FlowID}
    (h : fid ∈ (reported t r ht).map FlowDescriptor.fid) : ht.lookupFlow fid = true :=
  HashTable.lookupFlow_iff.mpr ((reported_fids_sublist t r ht).subset h)

/-- The scan records no new flow. -/
theorem lookupFlow_of_scanned {t r : Nat} {w : Worker} {fid : FlowID}
    (h : (scanned t r w).ht.lookupFlow fid = true) : w.ht.lookupFlow fid = true := by
  rw [HashTable.lookupFlow_eq] at h ⊢
  rw [show (scanned t r w).ht.descriptor? fid =
      (w.ht.descriptor? fid).bind fun fd => (checkEntry t r fd).2
    from descriptor?_scanTable t r w.ht [] fid] at h
  cases hold : w.ht.descriptor? fid with
  | none => simp [hold] at h
  | some fd => rfl

end Analyzer

/-- Handling a packet records no flow but the packet's own. -/
theorem Worker.Svc.lookup_of_ne {P : IterMap.Placement FlowID FlowDescriptor} {w w' : Worker}
    {fup : FlowUpdate} (h : Worker.Svc P w fup w') {fid : FlowID} (hne : fid ≠ fup.fid)
    (hrec : w'.ht.lookupFlow fid = true) : w.ht.lookupFlow fid = true := by
  rw [HashTable.lookupFlow_eq] at hrec ⊢
  rwa [h.descriptor?_of_ne hne] at hrec

/-! ## The invariant -/

namespace Farm

variable {n : Nat} {B : Boost}

/-- Packets wait, and flows are recorded, only at the worker the dispatch selects. -/
structure Dispatched (B : Boost) (s : Farm n) : Prop where
  queued : ∀ i, ∀ fup ∈ s.queue i, dispatchPolicy B n fup.fid = i
  recorded : ∀ i fid, (s.workers i).ht.lookupFlow fid = true → dispatchPolicy B n fid = i
  exported_nodup : ∀ p ∈ s.exported, (p.2.map FlowDescriptor.fid).Nodup

/-- At the start all queues and tables are empty. -/
theorem dispatched_init (cfg : Config n) : Dispatched B (init cfg) where
  queued := by intro i fup h; cases h
  recorded := by intro i fid h; cases h
  exported_nodup := by intro p h; cases h

namespace Dispatched

variable {s : Farm n}

/-- The emitter puts a packet into the queue of its flow's worker. -/
theorem capture (h : Dispatched B s) (fup : FlowUpdate) : Dispatched B (s.capture B fup) where
  recorded := by simpa using h.recorded
  exported_nodup := by simpa using h.exported_nodup
  queued := by
    intro i fup' hmem
    unfold Farm.capture at hmem
    split at hmem
    next hlt =>
      dsimp only at hmem
      by_cases hi : i = ⟨_, hlt⟩
      · subst hi
        rw [Function.update_self] at hmem
        -- queued already, or the packet captured now, whose flow selects this queue
        rcases List.mem_append.mp hmem with hold | hnew
        · exact h.queued _ _ hold
        · rw [List.mem_singleton.mp hnew]
      · rw [Function.update_of_ne hi] at hmem
        exact h.queued i fup' hmem
    -- no worker is selected, and nothing changes
    next => exact h.queued i fup' hmem

/-- A worker records only the flows in its queue, which are its own. -/
theorem svc (h : Dispatched B s) {s' : Farm n} {i : Fin n} (hok : s.svc B i = .ok s') :
    Dispatched B s' := by
  have hqueued : ∀ j, ∀ fup ∈ s'.queue j, fup ∈ s.queue j := by
    intro j fup hmem
    rw [← svc_queue hok j]
    exact List.mem_append_right _ hmem
  rcases svc_cases hok with ⟨-, rfl⟩ | ⟨fup, rest, w, hq, hsvc, rfl⟩
  · exact h
  · refine { queued := fun j fup' hmem => h.queued j fup' (hqueued j fup' hmem), recorded := ?_
             exported_nodup := h.exported_nodup }
    intro j fid hrec
    dsimp only at hrec
    by_cases hj : j = i
    · subst hj
      rw [Function.update_self] at hrec
      -- the flow of the packet was queued where it belongs; all others were recorded before
      by_cases hfid : fid = fup.fid
      · exact hfid ▸ h.queued j fup (hq ▸ List.mem_cons_self)
      · exact h.recorded j fid (hsvc.lookup_of_ne hfid hrec)
    · rw [Function.update_of_ne hj] at hrec
      exact h.recorded j fid hrec

/-- No flow is in two tables. -/
theorem keys_disjoint (h : Dispatched B s) {i j : Fin n} (hij : i ≠ j) :
    List.Disjoint (s.workers i).ht.fmap.keys (s.workers j).ht.fmap.keys := by
  intro fid hi hj
  have hi' := h.recorded i fid (HashTable.lookupFlow_iff.mpr hi)
  have hj' := h.recorded j fid (HashTable.lookupFlow_iff.mpr hj)
  exact hij (Fin.ext (hi'.symm.trans hj'))

/-- So no flow is reported twice in an interval. -/
theorem results_nodup (h : Dispatched B s) : (s.results.map FlowDescriptor.fid).Nodup := by
  rw [results, List.map_flatMap, List.nodup_flatMap]
  refine ⟨fun i _ => Analyzer.reported_fids_nodup _ _ _, ?_⟩
  refine (List.nodup_finRange n).imp ?_
  intro i j hij fid hi hj
  have hi' := h.recorded i fid (Analyzer.lookupFlow_of_reported hi)
  have hj' := h.recorded j fid (Analyzer.lookupFlow_of_reported hj)
  exact hij (Fin.ext (hi'.symm.trans hj'))

/-- The scan of a table keeps some of its flows. -/
theorem analysis (h : Dispatched B s) (startT stopT : Int) :
    Dispatched B (s.analysis startT stopT) := by
  rw [analysis_eq]
  refine { queued := h.queued, recorded := ?_, exported_nodup := ?_ }
  · intro i fid hrec
    exact h.recorded i fid (Analyzer.lookupFlow_of_scanned hrec)
  · intro p hmem
    rcases List.mem_append.mp hmem with hold | hnew
    · exact h.exported_nodup p hold
    · rw [List.mem_singleton.mp hnew]
      exact h.results_nodup

/-- Every event keeps the flows with their workers. -/
theorem step (h : Dispatched B s) {s' : Farm n} {e : Event n} (hok : s.step B e = .ok s') :
    Dispatched B s' := by
  cases e with
  | capture fup =>
    obtain rfl := Except.ok.inj hok
    exact h.capture fup
  | svc i => exact h.svc hok
  | analysis startT stopT =>
    obtain rfl := Except.ok.inj hok
    exact h.analysis startT stopT

end Dispatched

/-- Induction on the events; no step fails. -/
theorem run_dispatched {s : Farm n} (h : Dispatched B s) (es : List (Event n)) :
    ∃ s', s.run B es = .ok s' ∧ Dispatched B s' := by
  refine Run.run_invariant ?_ h es
  intro s e h
  obtain ⟨s', hok⟩ := step_ok (B := B) s e
  exact ⟨s', hok, h.step hok⟩

/-- **Each flow lives in at most one place.** In every state a run reaches, different workers'
tables share no key, each table stores a flow at most once and under its own ID, and no results
handed to the exporter name a flow twice. -/
theorem flow_in_one_place (B : Boost) (cfg : Config n) (es : List (Event n)) :
    ∃ s, (init cfg).run B es = .ok s ∧
      (∀ i j, i ≠ j →
        List.Disjoint (s.workers i).ht.fmap.keys (s.workers j).ht.fmap.keys) ∧
      (∀ i, (s.workers i).ht.fmap.keys.Nodup ∧
        ∀ e ∈ (s.workers i).ht.fmap.entries, e.2.fid = e.1) ∧
      ∀ p ∈ s.exported, (p.2.map FlowDescriptor.fid).Nodup := by
  obtain ⟨s, hrun, h⟩ := run_dispatched (B := B) (dispatched_init cfg) es
  refine ⟨s, hrun, fun i j hij => h.keys_disjoint hij, fun i => ⟨?_, ?_⟩, h.exported_nodup⟩
  · exact (s.workers i).ht.fmap.nodup_keys
  · exact (s.workers i).ht.fid_eq_key

end Farm

end FHF
