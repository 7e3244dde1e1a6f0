import FHFCapturing.Farm

/-!
# Worker runs

Seen from one worker, a run of the farm is a sequence of packets it handles and of analyses that
scan its table and clear its filter. `Worker.step` is that view, with the thresholds of every
analysis left arbitrary; a run of the farm acts on each worker as such a run
(`Farm.step_workers`), so what every worker run preserves, with any history variable, holds of
every worker of the farm (`Farm.run_workers_invariant`).

For one flow, `Worker.Svc.descriptor?_self` and `Worker.descriptor?_analysed` say what a step
does to its entry.
-/

namespace FHF

/-- What happens to a worker. -/
inductive WorkerEvent where
  | packet (fup : FlowUpdate)
  | analysis (t r : Nat) (filterThreshold : UInt64)

namespace Worker

variable (P : IterMap.Placement FlowID FlowDescriptor)

/-- What an analysis does to a worker: scan its table, set and clear its filter. -/
def analysed (t r : Nat) (filterThreshold : UInt64) (w : Worker) : Worker :=
  ((Analyzer.scanned t r w).update_filter_threshold filterThreshold).clean_filter

def step (w : Worker) : WorkerEvent → Except String Worker
  | .packet fup => w.svc P fup
  | .analysis t r filterThreshold => .ok (w.analysed t r filterThreshold)

variable {P}

theorem step_ok (w : Worker) (e : WorkerEvent) : ∃ w', w.step P e = .ok w' := by
  cases e with
  | packet fup =>
    obtain ⟨w', hok, -⟩ := svc_cases P w fup
    exact ⟨w', hok⟩
  | analysis t r ft => exact ⟨_, rfl⟩

theorem svc_of_step {w w' : Worker} {fup : FlowUpdate} (h : w.step P (.packet fup) = .ok w') :
    Svc P w fup w' := by
  obtain ⟨w₁, hok, hsvc⟩ := svc_cases P w fup
  have heq : w₁ = w' := by
    rw [show w.step P (.packet fup) = w.svc P fup from rfl, hok] at h
    exact Except.ok.inj h
  exact heq ▸ hsvc

/-! ## The entry of one flow -/

/-- The entry of the packet's own flow: updated if there was one, new if the packet passed the
filter, absent otherwise. -/
theorem Svc.descriptor?_self {w w' : Worker} {fup : FlowUpdate} (h : Svc P w fup w') :
    (∃ fd, w.ht.descriptor? fup.fid = some fd ∧
      w'.ht.descriptor? fup.fid = some (HashTable.account fup fd)) ∨
    (w.ht.descriptor? fup.fid = none ∧
      w'.ht.descriptor? fup.fid = some (HashTable.firstEntry fup)) ∨
    (w.ht.descriptor? fup.fid = none ∧ w'.ht.descriptor? fup.fid = none) := by
  cases h with
  -- `lookupFlow` found an entry
  | recorded hrec =>
    obtain ⟨fd, hfd⟩ := HashTable.exists_of_lookupFlow hrec
    refine Or.inl ⟨fd, hfd, ?_⟩
    rw [HashTable.descriptor?_accounted, if_pos rfl, hfd]
    rfl
  | admitted hnew _ =>
    refine Or.inr (Or.inl ⟨HashTable.lookupFlow_eq_false.mp hnew, ?_⟩)
    rw [HashTable.descriptor?_insertFlow hnew, if_pos rfl]
  | dropped hnew _ =>
    have hnone := HashTable.lookupFlow_eq_false.mp hnew
    -- a drop touches the filter only
    exact Or.inr (Or.inr ⟨hnone, hnone⟩)

/-- What an analysis makes of the entry of a flow. -/
theorem descriptor?_analysed (t r : Nat) (ft : UInt64) (w : Worker) (fid : FlowID) :
    (w.analysed t r ft).ht.descriptor? fid =
      (w.ht.descriptor? fid).bind fun fd => (Analyzer.checkEntry t r fd).2 :=
  Analyzer.descriptor?_scanTable t r w.ht [] fid

end Worker

/-! ## The farm acts on each worker as a worker run -/

namespace Farm

variable {n : Nat} {B : Boost}

/-- What event `e` of the farm is to worker `i`. -/
def eventOf (s : Farm n) (e : Event n) (i : Fin n) : Option WorkerEvent :=
  match e with
  | .capture _ => none
  | .svc j => if j = i then (s.queue i).head?.map .packet else none
  | .analysis startT stopT =>
      some (.analysis s.analyzer.t_threshold s.analyzer.old_r_threshold
        (UInt64.ofNat (s.adapted startT stopT).filter_threshold))

/-- A worker's own step brings it packets only. -/
theorem packet_of_eventOf_svc {s : Farm n} {i j : Fin n} {we : WorkerEvent}
    (h : s.eventOf (.svc j) i = some we) : ∃ fup, we = .packet fup := by
  simp only [eventOf] at h
  split_ifs at h
  obtain ⟨fup, -, rfl⟩ := Option.map_eq_some_iff.mp h
  exact ⟨fup, rfl⟩

theorem eventOf_svc_of_nil {s : Farm n} {i j : Fin n} (hq : s.queue j = []) :
    s.eventOf (.svc j) i = none := by
  simp only [eventOf]
  split_ifs with hij
  · rw [← hij, hq]
    rfl
  · rfl

/-- Worker `i` makes the step that event is to it, or none. -/
theorem step_workers {s s' : Farm n} {e : Event n} (h : s.step B e = .ok s') (i : Fin n) :
    match s.eventOf e i with
    | none => s'.workers i = s.workers i
    | some we => (s.workers i).step B.placement we = .ok (s'.workers i) := by
  cases e with
  | capture fup =>
    obtain rfl := Except.ok.inj h
    simp [eventOf]
  | analysis startT stopT =>
    obtain rfl := Except.ok.inj h
    simp only [eventOf, analysis_eq]
    rfl
  | svc j =>
    rw [show s.step B (.svc j) = s.svc B j from rfl] at h
    cases hq : s.queue j with
    | nil =>
      -- no task, and no worker moves
      rw [svc_of_nil hq] at h
      obtain rfl := Except.ok.inj h
      simp [eventOf_svc_of_nil hq]
    | cons fup rest =>
      simp only [svc, hq] at h
      cases hsvc : (s.workers j).svc B.placement fup with
      | error msg => simp [hsvc] at h
      | ok w =>
        rw [hsvc] at h
        obtain rfl := Except.ok.inj h
        by_cases hij : j = i
        · subst hij
          simp [eventOf, hq, Worker.step, hsvc]
        · -- the other workers are left alone
          simp [eventOf, hij, Function.update_of_ne (Ne.symm hij)]

/-- A history variable of worker runs, kept for every worker of the farm. -/
def observeWorkers {η : Type} (obs : Worker → WorkerEvent → Worker → η → η)
    (s : Farm n) (e : Event n) (s' : Farm n) (h : Fin n → η) (i : Fin n) : η :=
  match s.eventOf e i with
  | none => h i
  | some we => obs (s.workers i) we (s'.workers i) (h i)

/-- What every step of a worker run preserves, every run of the farm preserves for every
worker. -/
theorem run_workers_invariant {η : Type} {obs : Worker → WorkerEvent → Worker → η → η}
    {I : Worker → η → Prop}
    (hstep : ∀ w w' h we, I w h → w.step B.placement we = .ok w' → I w' (obs w we w' h))
    {s : Farm n} {h : Fin n → η} (hs : ∀ i, I (s.workers i) (h i)) (es : List (Event n)) :
    ∃ s' h', Run.run (Run.observed (step B) (observeWorkers obs)) (s, h) es = .ok (s', h') ∧
      ∀ i, I (s'.workers i) (h' i) := by
  refine Run.run_observed_invariant
    (I := fun (s : Farm n) (h : Fin n → η) => ∀ i, I (s.workers i) (h i)) ?_ hs es
  intro s h e hI
  obtain ⟨s', hok⟩ := step_ok (B := B) s e
  refine ⟨s', hok, fun i => ?_⟩
  have hw := step_workers hok i
  rw [observeWorkers]
  -- what the event is to worker `i`: nothing, or a packet or analysis of its own
  cases hev : s.eventOf e i with
  | none =>
    rw [hev] at hw
    exact hw ▸ hI i
  | some we =>
    rw [hev] at hw
    exact hstep _ _ _ _ (hI i) hw

end Farm

end FHF
