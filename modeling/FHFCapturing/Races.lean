import FHFCapturing.Atomicity

/-!
# No data race

The tables and filters of the workers are shared by two threads each, and every worker has one
mutex for both. A step of a thread may read or write the data of a worker only between its lock and
its unlock of that mutex; whether it does is a property of the step function
(`Conc.next_setWorker`), not of the names of the program counters.

The mutex of a worker is held exactly as the program counters say (`Conc.Matches.lock_eq`), in every
state of every interleaving. So a thread that is about to access a worker's data holds its mutex, no
two threads are about to access the data of one worker, and no thread unlocks a mutex it does not
hold (`Conc.data_race_free`).
-/

namespace FHF

/-! ## Critical sections and accesses -/

/-- Between `pthread_mutex_lock` and `pthread_mutex_unlock` in `svc`. -/
def SvcPc.critical : SvcPc → Bool
  | .idle => false
  | .entered _ => false
  | .locked _ => true
  | .updating _ => true
  | .filtering _ => true
  | .inserting _ => true
  | .unlocking => true
  | .thrown _ => true

/-- The next step reads or writes the table or the filter. -/
def SvcPc.accesses : SvcPc → Bool
  | .locked _ => true
  | .updating _ => true
  | .filtering _ => true
  | .inserting _ => true
  | _ => false

namespace Turn

variable {n : Nat}

/-- The thread that makes the step; `none` is the analyzer. -/
def thread : Turn n → Option (Fin n)
  | .worker i => some i
  | .analyzer _ _ => none

/-- The same thread as the holder of a mutex. -/
def holder : Turn n → Holder
  | .worker _ => .worker
  | .analyzer _ _ => .analyzer

end Turn

namespace Conc

variable {n : Nat} {B : Boost}

/-- The step of turn `t` reads or writes the table or the filter of worker `i`. -/
def Accesses (c : Conc n) (t : Turn n) (i : Fin n) : Prop :=
  match t with
  | .worker j => j = i ∧ (c.threads i).pc.accesses = true
  | .analyzer _ _ => c.analyst.pc = .scanning i ∨ c.analyst.pc = .refiltering i

/-- The step of turn `t` unlocks the mutex of worker `i`. -/
def Unlocks (c : Conc n) (t : Turn n) (i : Fin n) : Prop :=
  match t with
  | .worker j => j = i ∧ (c.threads i).pc = .unlocking
  | .analyzer _ _ => c.analyst.pc = .releasing i

/-! ## What a step does not access does not matter -/

/-- Worker `i` with other data. -/
def setWorker (c : Conc n) (i : Fin n) (w : Worker) : Conc n :=
  { c with threads := Function.update c.threads i { c.threads i with worker := w } }

@[simp] theorem setWorker_workers (c : Conc n) (i : Fin n) (w : Worker) :
    (c.setWorker i w).workers = Function.update c.workers i w := by
  funext j
  simp only [workers, setWorker, Function.update_apply]
  split <;> rfl

/-- The mutexes and the program counters do not depend on the data. -/
theorem setWorker_lock (c : Conc n) (i : Fin n) (w : Worker) (j : Fin n) :
    ((c.setWorker i w).threads j).lock = (c.threads j).lock := by
  simp only [setWorker, Function.update_apply]
  split
  next h => rw [h]
  next => rfl

/-- Locking one worker commutes with changing the data of another, or of the same. -/
theorem setLock_setWorker (c : Conc n) (i : Fin n) (w : Worker) (j : Fin n) (l : Option Holder) :
    (c.setWorker i w).setLock j l = (c.setLock j l).setWorker i w := by
  unfold setLock setWorker
  by_cases hij : i = j
  · subst hij
    simp only [Function.update_self, Function.update_idem]
  · simp only [Function.update_of_ne hij, Function.update_of_ne (Ne.symm hij)]
    rw [Function.update_comm hij]

/-- Setting the data of all workers afterwards hides that of one. -/
theorem setWorkers_setWorker (c : Conc n) (i : Fin n) (w : Worker) (ws : Fin n → Worker) :
    (c.setWorker i w).setWorkers (Function.update ws i w) = (c.setWorkers ws).setWorker i w := by
  unfold setWorkers setWorker
  congr 1
  funext j
  by_cases hj : j = i
  · subst hj
    simp only [Function.update_self]
  · simp only [Function.update_of_ne hj]

/-- A step that accesses no data makes the same step on any data. -/
theorem next_worker_of_not_accesses {P : IterMap.Placement FlowID FlowDescriptor} {th : Thread}
    (h : th.pc.accesses = false) (w : Worker) :
    Thread.next P { th with worker := w } = { th.next P with worker := w } := by
  obtain ⟨pc, queue, worker, lock⟩ := th
  cases pc with
  | idle => cases queue <;> rfl
  | entered fup => cases lock <;> rfl
  | unlocking => rfl
  | thrown msg => rfl
  | _ => cases h

/-- **Frame.** A step that does not access a worker neither reads nor writes its data: it is the
same step whatever they are, and leaves them as they are. -/
theorem next_setWorker (c : Conc n) (t : Turn n) (i : Fin n) (w : Worker) (h : ¬ c.Accesses t i) :
    (c.setWorker i w).next B t = (c.next B t).setWorker i w := by
  cases t with
  | worker j =>
    by_cases hij : j = i
    · -- its own thread, outside the accesses
      subst hij
      have hpc : (c.threads j).pc.accesses = false := by
        simpa only [Accesses, true_and, Bool.not_eq_true] using h
      have hself := next_worker_of_not_accesses (P := B.placement) hpc w
      simp only [next, setWorker, Function.update_self, Function.update_idem, hself]
    · simp only [next, setWorker, Function.update_of_ne hij, Function.update_of_ne (Ne.symm hij)]
      rw [Function.update_comm hij]
  | analyzer startT stopT =>
    have hanalyst : (c.setWorker i w).analyst = c.analyst := rfl
    cases hpc : c.analyst.pc with
    | acquiring k =>
      by_cases hlt : k < n
      · simp only [next, nextAnalyzer, hanalyst, hpc, hlt, ↓reduceDIte, setWorker_lock]
        cases (c.threads ⟨k, hlt⟩).lock with
        | none =>
          rw [setLock_setWorker]
          rfl
        | some holder => rfl
      · simp only [next, nextAnalyzer, hanalyst, hpc, hlt, ↓reduceDIte]
        rfl
    | scanning k =>
      by_cases hlt : k < n
      · have hne : (⟨k, hlt⟩ : Fin n) ≠ i := fun heq => h (Or.inl (by rw [hpc, ← heq]))
        simp only [next, nextAnalyzer, hanalyst, hpc, hlt, ↓reduceDIte, setWorker_workers,
          Analyzer.scanWorker, Function.update_of_ne hne]
        rw [Function.update_comm hne.symm, setWorkers_setWorker]
        rfl
      · simp only [next, nextAnalyzer, hanalyst, hpc, hlt, ↓reduceDIte]
        rfl
    | refiltering k =>
      by_cases hlt : k < n
      · have hne : (⟨k, hlt⟩ : Fin n) ≠ i := fun heq => h (Or.inr (by rw [hpc, ← heq]))
        simp only [next, nextAnalyzer, hanalyst, hpc, hlt, ↓reduceDIte, setWorker_workers,
          Analyzer.refilterWorker, Function.update_of_ne hne]
        rw [Function.update_comm hne.symm, setWorkers_setWorker]
        rfl
      · simp only [next, nextAnalyzer, hanalyst, hpc, hlt, ↓reduceDIte]
        rfl
    | releasing k =>
      by_cases hlt : k < n
      · simp only [next, nextAnalyzer, hanalyst, hpc, hlt, ↓reduceDIte]
        rw [setLock_setWorker]
        rfl
      · simp only [next, nextAnalyzer, hanalyst, hpc, hlt, ↓reduceDIte]
        rfl
    | _ =>
      -- the wait, the adaptation and the export use the analyzer's own data
      simp only [next, nextAnalyzer, hanalyst, hpc]
      rfl

/-! ## The program counters say who holds the mutex -/

/-- The mutex is held by whoever is in the critical section. -/
theorem stands_lock_eq {held : Bool} {th : Thread} {q : List FlowUpdate} (h : th.Stands held q) :
    th.lock = (if held = true then some .analyzer
      else if th.pc.critical = true then some .worker else none) ∧
    (held = true → th.pc.critical = false) := by
  cases h with
  | @idle held => cases held <;> exact ⟨rfl, fun _ => rfl⟩
  | @entered held => cases held <;> exact ⟨rfl, fun _ => rfl⟩
  | _ => exact ⟨rfl, fun h => nomatch h⟩

/-- Who holds the mutex of worker `i`, from the program counters alone. -/
def holderOf (c : Conc n) (i : Fin n) : Option Holder :=
  if c.analyst.pc.holds i = true then some .analyzer
  else if (c.threads i).pc.critical = true then some .worker
  else none

/-- In a reachable state every mutex has the holder that the program counters say. -/
theorem Matches.lock_eq {c : Conc n} {s : Farm n} (h : Matches c s) (i : Fin n) :
    (c.threads i).lock = c.holderOf i := (stands_lock_eq (h.stands i)).1

/-- Whoever accesses the data of a worker is in its critical section. -/
theorem Accesses.holder_eq {c : Conc n} {t : Turn n} {i : Fin n} (h : c.Accesses t i)
    (hcritical : c.analyst.pc.holds i = true → (c.threads i).pc.critical = false) :
    c.holderOf i = some t.holder := by
  cases t with
  | analyzer startT stopT =>
    have hholds : c.analyst.pc.holds i = true := by
      -- it holds every mutex while it scans and refilters
      rcases h with hpc | hpc <;> rw [hpc] <;> rfl
    exact if_pos hholds
  | worker j =>
    obtain ⟨-, haccesses⟩ := h
    -- the worker accesses its data in the critical section only
    have hin : (c.threads i).pc.critical = true := by
      cases hpc : (c.threads i).pc <;> rw [hpc] at haccesses <;> first | rfl | cases haccesses
    -- and the analyzer cannot hold the mutex there
    have hnot : ¬ c.analyst.pc.holds i = true := by
      intro hholds
      rw [hcritical hholds] at hin
      cases hin
    rw [holderOf, if_neg hnot, if_pos hin]
    rfl

/-- Only the holder unlocks. -/
theorem Unlocks.holder_eq {c : Conc n} {t : Turn n} {i : Fin n} (h : c.Unlocks t i)
    (hcritical : c.analyst.pc.holds i = true → (c.threads i).pc.critical = false) :
    c.holderOf i = some t.holder := by
  cases t with
  | analyzer startT stopT =>
    have hpc : c.analyst.pc = .releasing i := h
    have hholds : c.analyst.pc.holds i = true := by
      -- the mutex it releases next is one it holds
      rw [hpc]
      exact decide_eq_true (Nat.le_refl _)
    exact if_pos hholds
  | worker j =>
    have hin : (c.threads i).pc.critical = true := by rw [h.2]; rfl
    have hnot : ¬ c.analyst.pc.holds i = true := by
      intro hholds
      rw [hcritical hholds] at hin
      cases hin
    rw [holderOf, if_neg hnot, if_pos hin]
    rfl

/-- One mutex has one holder, and a worker's own thread is the only worker thread that uses it. -/
theorem Accesses.thread_eq {c : Conc n} {t t' : Turn n} {i : Fin n} (h : c.Accesses t i)
    (h' : c.Accesses t' i) (hholder : t.holder = t'.holder) : t.thread = t'.thread := by
  cases t with
  | worker j =>
    cases t' with
    | worker k => rw [show j = i from h.1, show k = i from h'.1]
    | analyzer _ _ => cases hholder
  | analyzer _ _ =>
    cases t' with
    | worker k => cases hholder
    | analyzer _ _ => rfl

/-- **No data race.** After any turns of the threads: the mutex of every worker is held by the
thread that is in its critical section, if there is one, and there is at most one; whoever is about
to access the worker's data or to unlock its mutex holds it; no two threads are about to access the
data of one worker; and what a step does not access does not influence it, nor is it changed by it.
-/
theorem data_race_free (B : Boost) (s₀ : Farm n) (turns : List (Turn n)) :
    let c := (start s₀).runTurns B turns
    (∀ i : Fin n, (c.threads i).lock = c.holderOf i ∧
      ¬ (c.analyst.pc.holds i = true ∧ (c.threads i).pc.critical = true)) ∧
    (∀ t i, c.Accesses t i ∨ c.Unlocks t i → (c.threads i).lock = some t.holder) ∧
    (∀ t t' i, c.Accesses t i → c.Accesses t' i → t.thread = t'.thread) ∧
    ∀ t i w, ¬ c.Accesses t i → (c.setWorker i w).next B t = (c.next B t).setWorker i w := by
  -- all of it follows from the relation with the farm, which holds in every state
  obtain ⟨s, hmatch⟩ := exists_matches_runTurns (B := B) s₀ turns
  intro c
  have hcritical : ∀ i : Fin n, c.analyst.pc.holds i = true →
      (c.threads i).pc.critical = false := fun i => (stands_lock_eq (hmatch.stands i)).2
  have hheld : ∀ t i, c.Accesses t i ∨ c.Unlocks t i → (c.threads i).lock = some t.holder := by
    intro t i h
    rw [hmatch.lock_eq]
    exact h.elim (fun h => h.holder_eq (hcritical i)) (fun h => h.holder_eq (hcritical i))
  -- the holder of the mutex is the thread whose turn it is, so there is only one
  refine ⟨fun i => ⟨hmatch.lock_eq i, fun h => ?_⟩, hheld, fun t t' i h h' => ?_,
    next_setWorker c⟩
  · rw [hcritical i h.1] at h
    exact Bool.false_ne_true h.2
  · have hsome : some t.holder = some t'.holder :=
      (hheld t i (Or.inl h)).symm.trans (hheld t' i (Or.inl h'))
    exact h.thread_eq h' (Option.some.inj hsome)

end Conc

end FHF
