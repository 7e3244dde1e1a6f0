import FHFCapturing.Interleaving

/-!
# The analysis is atomic

The farm, where handling a packet and analysing an interval are single steps, against the
threads of `FHFCapturing.Interleaving`, where they are many. Every interleaving of the threads
is matched by a run of the farm (`Conc.analysis_is_atomic`), by forward simulation: a packet is
handled in the farm when its effect enters the worker, and an interval is analysed in the farm when
the last filter has been reset, before the first mutex is released.

While the analyzer acquires the mutexes its own data is ahead of the farm's and the workers are
not; from the first scan to the last reset it holds every mutex, so the workers are where the
loops of the analysis have got to; while it releases, only the export is still to come (`Phase`).
-/

namespace FHF

/-- Whether the analyzer holds the mutex of worker `i`. -/
def AnalyzerPc.holds (i : Nat) : AnalyzerPc → Bool
  | .waiting => false
  | .acquiring k => decide (i < k)
  | .scanning _ => true
  | .adapting => true
  | .refiltering _ => true
  | .releasing k => decide (k ≤ i)
  | .exporting => false

namespace Farm

variable {n : Nat}

/-- The analyzer as it enters the scan of this interval. -/
def scanStart (s : Farm n) (startT stopT : Int) : Analyzer :=
  (s.analyzer.waited startT stopT).shiftEntries.enterScan

/-- The workers and the results after the scan of the first `k` tables. -/
def scannedTo (s : Farm n) (startT stopT : Int) (k : Nat) :
    (Fin n → Worker) × List FlowDescriptor :=
  IndexLoop.loopTo (s.scanStart startT stopT).scanWorker (s.workers, []) k

/-- The workers after the first `k` filters have been set and reset. -/
def refilteredTo (s : Farm n) (startT stopT : Int) (k : Nat) : Fin n → Worker :=
  IndexLoop.loopTo
    ((s.scanStart startT stopT).adapt (s.scannedTo startT stopT n).2).refilterWorker
    (s.scannedTo startT stopT n).1 k

end Farm

namespace Conc

variable {n : Nat} {B : Boost}

/-- How the analyzer thread and the workers stand to the farm that matches them. -/
inductive Phase : AnalyzerThread → (Fin n → Worker) → Farm n → Prop where
  | waiting {s results} : Phase ⟨.waiting, s.analyzer, results, s.exported⟩ s.workers s
  | acquiring {s startT stopT k} (hk : k ≤ n) :
      Phase ⟨.acquiring k, (s.analyzer.waited startT stopT).shiftEntries, [], s.exported⟩
        s.workers s
  | scanning {s startT stopT k} (hk : k ≤ n) :
      Phase ⟨.scanning k, s.scanStart startT stopT, (s.scannedTo startT stopT k).2, s.exported⟩
        (s.scannedTo startT stopT k).1 s
  | adapting {s startT stopT} :
      Phase ⟨.adapting, s.scanStart startT stopT, (s.scannedTo startT stopT n).2, s.exported⟩
        (s.scannedTo startT stopT n).1 s
  | refiltering {s startT stopT k} (hk : k ≤ n) :
      Phase ⟨.refiltering k,
          (s.scanStart startT stopT).adapt (s.scannedTo startT stopT n).2,
          (s.scannedTo startT stopT n).2, s.exported⟩
        (s.refilteredTo startT stopT k) s
  | releasing {s a results exported k} (hk : k ≤ n)
      (ha : s.analyzer = { a with intervalCounter := a.intervalCounter + 1 })
      (hexp : s.exported = exported ++ [(a.output_results, results)]) :
      Phase ⟨.releasing k, a, results, exported⟩ s.workers s
  | exporting {s a results exported}
      (ha : s.analyzer = { a with intervalCounter := a.intervalCounter + 1 })
      (hexp : s.exported = exported ++ [(a.output_results, results)]) :
      Phase ⟨.exporting, a, results, exported⟩ s.workers s

/-- The simulation relation: every thread stands where its queue in the farm has it, with the
mutex the analyzer's if it holds it, and the analyzer is in one of its phases. -/
structure Matches (c : Conc n) (s : Farm n) : Prop where
  stands : ∀ i : Fin n, (c.threads i).Stands (c.analyst.pc.holds i) (s.queue i)
  phase : Phase c.analyst c.workers s

/-- At the start every thread is at the top of its loop. -/
theorem matches_start (s : Farm n) : Matches (start s) s where
  stands := fun _ => .idle
  phase := .waiting

/-- A worker whose mutex the analyzer does not hold is the farm's, and may handle a packet. -/
theorem Phase.svc {t : AnalyzerThread} {ws : Fin n → Worker} {s : Farm n} {i : Fin n}
    (h : Phase t ws s) (hfree : t.pc.holds i = false) (q : Fin n → List FlowUpdate)
    (w : Worker) :
    ws i = s.workers i ∧
      Phase t (Function.update ws i w)
        { s with queue := q, workers := Function.update s.workers i w } := by
  cases h with
  -- in these phases the scan has not started or is over, so the farm can have handled the packet
  | waiting => exact ⟨rfl, .waiting (s := { s with queue := q, workers := _ })⟩
  | acquiring hk => exact ⟨rfl, .acquiring (s := { s with queue := q, workers := _ }) hk⟩
  | releasing hk ha hexp =>
    exact ⟨rfl, .releasing (s := { s with queue := q, workers := _ }) hk ha hexp⟩
  | exporting ha hexp =>
    exact ⟨rfl, .exporting (s := { s with queue := q, workers := _ }) ha hexp⟩
  -- in all the others the analyzer holds the mutex of worker `i`
  | _ => cases hfree

/-! ## A turn of a worker -/

/-- Its thread moves, and the other threads stand as they do. -/
theorem stands_next_worker {c : Conc n} {q : Fin n → List FlowUpdate} (i : Fin n)
    (hself : ((c.threads i).next B.placement).Stands (c.analyst.pc.holds i) (q i))
    (hother : ∀ j, j ≠ i → (c.threads j).Stands (c.analyst.pc.holds j) (q j)) (j : Fin n) :
    ((c.next B (.worker i)).threads j).Stands ((c.next B (.worker i)).analyst.pc.holds j)
      (q j) := by
  by_cases hj : j = i
  · subst hj
    simpa [next] using hself
  · simpa [next, hj] using hother j hj

/-- A turn of a worker is matched by no step of the farm, or by handling the packet whose effect has
just entered the worker. -/
theorem Matches.worker_turn {c : Conc n} {s : Farm n} (h : Matches c s) (i : Fin n) :
    Matches (c.next B (.worker i)) s ∨
    ∃ s', s.step B (.svc i) = .ok s' ∧ Matches (c.next B (.worker i)) s' := by
  rcases (h.stands i).next (P := B.placement) with ⟨hstands, hw⟩ |
    ⟨hfree, fup, rest, hq, hstands, hsvc⟩
  · -- nothing the farm can see
    refine Or.inl ⟨stands_next_worker i hstands fun j _ => h.stands j, ?_⟩
    · rw [next_worker_workers, hw, show (c.threads i).worker = c.workers i from rfl,
        Function.update_eq_self]
      exact h.phase
  · -- the packet's effect enters the worker
    obtain ⟨hwi, hphase⟩ := h.phase.svc hfree (Function.update s.queue i rest)
      ((c.threads i).next B.placement).worker
    refine Or.inr ⟨{ s with
      queue := Function.update s.queue i rest
      workers := Function.update s.workers i ((c.threads i).next B.placement).worker },
      ?_, stands_next_worker i ?_ fun j hj => ?_, ?_⟩
    · rw [show (c.threads i).worker = s.workers i from hwi] at hsvc
      simp only [Farm.step, Farm.svc, hq, hsvc]
    · simpa [hfree] using hstands
    · simpa [hj] using h.stands j
    · rw [next_worker_workers]
      exact hphase

/-! ## A turn of the analyzer -/

/-- Locking or unlocking the mutex of worker `i` leaves the other threads standing as they do. -/
theorem stands_setLock {c : Conc n} {q : Fin n → List FlowUpdate} {held held' : Fin n → Bool}
    (hstands : ∀ j, (c.threads j).Stands (held j) (q j)) (i : Fin n) (l : Option Holder)
    (hself : Thread.Stands (held' i) { c.threads i with lock := l } (q i))
    (hother : ∀ j, j ≠ i → held j = held' j) (j : Fin n) :
    ((c.setLock i l).threads j).Stands (held' j) (q j) := by
  by_cases hj : j = i
  · subst hj
    rw [setLock_threads_self]
    exact hself
  · rw [setLock_threads_of_ne _ hj]
    exact (hstands j).cast (hother j hj)

/-- The analyzer takes the next mutex, which is free. -/
theorem stands_acquire {c : Conc n} {q : Fin n → List FlowUpdate} {k : Nat} (hlt : k < n)
    (hstands : ∀ i, (c.threads i).Stands ((AnalyzerPc.acquiring k).holds i) (q i))
    (hlock : (c.threads ⟨k, hlt⟩).lock = none) :
    ∀ i, ((c.setLock ⟨k, hlt⟩ (some .analyzer)).threads i).Stands
      ((AnalyzerPc.acquiring (k + 1)).holds i) (q i) := by
  have hfree : (c.threads ⟨k, hlt⟩).Stands false (q ⟨k, hlt⟩) :=
    (hstands ⟨k, hlt⟩).cast (by simp [AnalyzerPc.holds])
  have hself := (hfree.acquire hlock).cast
    (show true = (AnalyzerPc.acquiring (k + 1)).holds k by simp [AnalyzerPc.holds])
  refine stands_setLock hstands ⟨k, hlt⟩ _ hself fun j hj => ?_
  have hne : j.val ≠ k := fun h => hj (Fin.ext h)
  simp only [AnalyzerPc.holds, decide_eq_decide]
  omega

theorem stands_release {c : Conc n} {q : Fin n → List FlowUpdate} {k : Nat} (hlt : k < n)
    (hstands : ∀ i, (c.threads i).Stands ((AnalyzerPc.releasing k).holds i) (q i)) :
    ∀ i, ((c.setLock ⟨k, hlt⟩ none).threads i).Stands
      ((AnalyzerPc.releasing (k + 1)).holds i) (q i) := by
  have hheld : (c.threads ⟨k, hlt⟩).Stands true (q ⟨k, hlt⟩) :=
    (hstands ⟨k, hlt⟩).cast (by simp [AnalyzerPc.holds])
  have hself := hheld.release.cast
    (show false = (AnalyzerPc.releasing (k + 1)).holds k by simp [AnalyzerPc.holds])
  refine stands_setLock hstands ⟨k, hlt⟩ _ hself fun j hj => ?_
  have hne : j.val ≠ k := fun h => hj (Fin.ext h)
  simp only [AnalyzerPc.holds, decide_eq_decide]
  omega

/-- A turn of the analyzer is matched by no step of the farm, except for the one after the last
reset, which is matched by the analysis. -/
theorem Matches.analyzer_turn {c : Conc n} {s : Farm n} (h : Matches c s) (startT stopT : Int) :
    Matches (c.nextAnalyzer startT stopT) s ∨
    ∃ a b s', s.step B (.analysis a b) = .ok s' ∧ Matches (c.nextAnalyzer startT stopT) s' := by
  obtain ⟨threads, analyst⟩ := c
  obtain ⟨hstands, hphase⟩ := h
  generalize hws : workers ⟨threads, analyst⟩ = ws at hphase
  cases hphase with
  | waiting =>
    refine Or.inl ⟨fun i => (hstands i).cast ?_, ?_⟩
    · simp [nextAnalyzer, AnalyzerPc.holds]
    · exact hws ▸ .acquiring (Nat.zero_le n)
  | @acquiring _ a b k hk =>
    by_cases hlt : k < n
    · simp only [nextAnalyzer, hlt, ↓reduceDIte]
      cases hlock : (threads ⟨k, hlt⟩).lock with
      | some holder => exact Or.inl ⟨hstands, hws ▸ .acquiring hk⟩
      | none =>
        refine Or.inl ⟨stands_acquire hlt hstands hlock, ?_⟩
        rw [setPc_workers, setLock_workers, hws]
        exact .acquiring hlt
    · -- every mutex is held: the scan starts
      obtain rfl : k = n := by omega
      simp only [nextAnalyzer, Nat.lt_irrefl, ↓reduceDIte]
      refine Or.inl ⟨fun i => (hstands i).cast ?_, ?_⟩
      · simp [AnalyzerPc.holds]
      · exact hws ▸ .scanning (Nat.zero_le k)
  | @scanning _ a b k hk =>
    by_cases hlt : k < n
    · simp only [nextAnalyzer, hlt, ↓reduceDIte]
      refine Or.inl ⟨fun i => (hstands i).setWorker _, ?_⟩
      rw [hws]
      have hscan : (s.scanStart a b).scanWorker
          ((s.scannedTo a b k).1, (s.scannedTo a b k).2) ⟨k, hlt⟩ = s.scannedTo a b (k + 1) :=
        (IndexLoop.loopTo_succ hlt).symm
      rw [hscan]
      exact .scanning hlt
    · -- every table is scanned
      obtain rfl : k = n := by omega
      simp only [nextAnalyzer, Nat.lt_irrefl, ↓reduceDIte]
      exact Or.inl ⟨hstands, hws ▸ .adapting⟩
  | @adapting _ a b =>
    exact Or.inl ⟨hstands, hws ▸ .refiltering (Nat.zero_le n)⟩
  | @refiltering _ a b k hk =>
    by_cases hlt : k < n
    · simp only [nextAnalyzer, hlt, ↓reduceDIte]
      refine Or.inl ⟨fun i => (hstands i).setWorker _, ?_⟩
      rw [setPc_workers, setWorkers_workers, hws]
      have hset : ((s.scanStart a b).adapt (s.scannedTo a b n).2).refilterWorker
          (s.refilteredTo a b k) ⟨k, hlt⟩ = s.refilteredTo a b (k + 1) :=
        (IndexLoop.loopTo_succ hlt).symm
      rw [hset]
      exact .refiltering hlt
    · -- the last filter is reset: this is where the farm analyses the interval
      obtain rfl : k = n := by omega
      simp only [nextAnalyzer, Nat.lt_irrefl, ↓reduceDIte]
      refine Or.inr ⟨a, b, s.analysis a b, rfl, fun i => (hstands i).cast ?_, ?_⟩
      · simp [setPc, AnalyzerPc.holds]
      · rw [setPc_workers, hws]
        exact .releasing (s := s.analysis a b) (Nat.zero_le k) rfl rfl
  | @releasing _ a results exported k hk ha hexp =>
    by_cases hlt : k < n
    · simp only [nextAnalyzer, hlt, ↓reduceDIte]
      refine Or.inl ⟨stands_release hlt hstands, ?_⟩
      rw [setPc_workers, setLock_workers, hws]
      exact .releasing hlt ha hexp
    · -- every mutex is released
      obtain rfl : k = n := by omega
      simp only [nextAnalyzer, Nat.lt_irrefl, ↓reduceDIte]
      refine Or.inl ⟨fun i => (hstands i).cast ?_, ?_⟩
      · have hi := i.isLt
        simp only [setPc, AnalyzerPc.holds, decide_eq_false_iff_not]
        omega
      · rw [setPc_workers, hws]
        exact .exporting ha hexp
  | @exporting _ a results exported ha hexp =>
    have hworkers : ∀ t, workers ⟨threads, t⟩ = s.workers := fun _ => hws
    refine Or.inl ⟨hstands, ?_⟩
    simp only [nextAnalyzer]
    rw [hworkers, ← ha, ← hexp]
    exact .waiting

/-- **One turn.** The farm makes no step, or the one step that the turn completes. -/
theorem Matches.turn {c : Conc n} {s : Farm n} (h : Matches c s) (t : Turn n) :
    Matches (c.next B t) s ∨
    ∃ e s', e.isCapture = false ∧ s.step B e = .ok s' ∧ Matches (c.next B t) s' := by
  cases t with
  | worker i =>
    refine (h.worker_turn (B := B) i).imp_right ?_
    rintro ⟨s', hok, h'⟩
    exact ⟨.svc i, s', rfl, hok, h'⟩
  | analyzer startT stopT =>
    refine (h.analyzer_turn (B := B) startT stopT).imp_right ?_
    rintro ⟨a, b, s', hok, h'⟩
    exact ⟨.analysis a b, s', rfl, hok, h'⟩

theorem exists_matches_next {c : Conc n} (h : ∃ s, Matches c s) (t : Turn n) :
    ∃ s, Matches (c.next B t) s := by
  obtain ⟨s, h⟩ := h
  rcases h.turn (B := B) t with h' | ⟨-, s', -, -, h'⟩
  · exact ⟨s, h'⟩
  · exact ⟨s', h'⟩

/-- Whatever turns the threads take, some farm matches them. -/
theorem exists_matches_runTurns (s₀ : Farm n) (turns : List (Turn n)) :
    ∃ s, Matches ((start s₀).runTurns B turns) s :=
  List.foldlRecOn (motive := fun c => ∃ s, Matches c s) turns (next B) ⟨s₀, matches_start s₀⟩
    fun _ hc t _ => exists_matches_next hc t

end Conc

/-! ## The interval of each packet -/

/-- The packets a worker handled, interval by interval: the intervals that have been analysed and
the one that has not. -/
structure Intervals where
  closed : List (List FlowUpdate) := []
  current : List FlowUpdate := []

/-- All packets handled so far, in their order. -/
def Intervals.packets (l : Intervals) : List FlowUpdate := l.closed.flatten ++ l.current

namespace Farm

variable {n : Nat} {B : Boost}

/-- History variable: the intervals of every worker. -/
def intervals (s : Farm n) (e : Event n) (_ : Farm n) (h : Fin n → Intervals) (i : Fin n) :
    Intervals :=
  match e with
  | .capture _ => h i
  | .svc j =>
      if j = i then { h i with current := (h i).current ++ (s.queue i).head?.toList } else h i
  | .analysis _ _ => { closed := (h i).closed ++ [(h i).current] }

/-- Handling moves the packet at the head of the queue to the end of the intervals. -/
theorem intervals_svc_packets (s s' : Farm n) (j : Fin n) (h : Fin n → Intervals) (i : Fin n) :
    (intervals s (.svc j) s' h i).packets =
      (h i).packets ++ if j = i then (s.queue i).head?.toList else [] := by
  by_cases hi : j = i
  · simp [intervals, Intervals.packets, hi]
  · simp [intervals, Intervals.packets, hi]

/-- Handling closes no interval. -/
theorem intervals_svc_closed (s s' : Farm n) (j : Fin n) (h : Fin n → Intervals) (i : Fin n) :
    (intervals s (.svc j) s' h i).closed = (h i).closed := by
  by_cases hi : j = i
  · simp [intervals, hi]
  · simp [intervals, hi]

/-- Without captures, every packet of the queue `q` is in exactly one interval or still waits, in
the order of `q`, and every interval but the current has its results. -/
structure Partitioned (q : Fin n → List FlowUpdate) (m : Nat) (s : Farm n)
    (h : Fin n → Intervals) : Prop where
  packets : ∀ i, (h i).packets ++ s.queue i = q i
  closed : ∀ i, m + (h i).closed.length = s.exported.length

/-- A step of the farm that is no capture moves at most one packet, from the queue to the current
interval. -/
theorem Partitioned.step {q : Fin n → List FlowUpdate} {m : Nat} {s s' : Farm n}
    {h : Fin n → Intervals} {e : Event n} (hpart : Partitioned q m s h)
    (he : e.isCapture = false) (hok : s.step B e = .ok s') :
    Partitioned q m s' (intervals s e s' h) := by
  cases e with
  | capture fup => cases he
  | analysis startT stopT =>
    obtain rfl := Except.ok.inj hok
    refine ⟨fun i => ?_, fun i => ?_⟩
    · -- no packet is handled, but the ones since the last analysis are now closed off
      have hold := hpart.packets i
      simpa [intervals, Intervals.packets, analysis_eq] using hold
    · have hold := hpart.closed i
      simp only [intervals, analysis_eq, List.length_append, List.length_singleton]
      omega
  | svc j =>
    refine ⟨fun i => ?_, fun i => ?_⟩
    · -- the packet moves from the queue to the worker's open interval
      rw [intervals_svc_packets, List.append_assoc, svc_queue hok, hpart.packets]
    · rw [intervals_svc_closed, svc_exported hok]
      exact hpart.closed i

end Farm

namespace Conc

variable {n : Nat} {B : Boost}

/-- No thread is inside its loop. -/
def Quiescent (c : Conc n) : Prop := (∀ i, (c.threads i).pc = .idle) ∧ c.analyst.pc = .waiting

/-- The farm that the threads have in memory. -/
def data (c : Conc n) : Farm n where
  queue := fun i => (c.threads i).queue
  workers := c.workers
  analyzer := c.analyst.analyzer
  exported := c.analyst.exported

/-- When no thread is inside its loop, there is nothing the farm could be ahead of. -/
theorem Matches.data_eq {c : Conc n} {s : Farm n} (h : Matches c s) (hq : c.Quiescent) :
    c.data = s := by
  obtain ⟨threads, analyst⟩ := c
  obtain ⟨hstands, hphase⟩ := h
  have hqueue : ∀ i, (threads i).queue = s.queue i := fun i => (hstands i).queue_of_idle (hq.1 i)
  have hpc : analyst.pc = .waiting := hq.2
  generalize hws : workers ⟨threads, analyst⟩ = ws at hphase
  cases hphase with
  | waiting =>
    simp only [data]
    rw [funext hqueue, hws]
  | _ => cases hpc

/-- The threads have exported what the farm has, up to one report that is still to come. -/
theorem Phase.exported_prefix {t : AnalyzerThread} {ws : Fin n → Worker} {s : Farm n}
    (h : Phase t ws s) : t.exported <+: s.exported := by
  cases h with
  | releasing hk ha hexp => exact hexp ▸ List.prefix_append _ _
  | exporting ha hexp => exact hexp ▸ List.prefix_append _ _
  | _ => exact List.prefix_refl _

/-- One turn, with the intervals of the packets: what `analysis_is_atomic` iterates. -/
theorem Matches.turn_partitioned {c : Conc n} {p : Farm n × (Fin n → Intervals)}
    {q : Fin n → List FlowUpdate} {m : Nat} (h : Matches c p.1)
    (hpart : Farm.Partitioned q m p.1 p.2) (t : Turn n) :
    ∃ es p', (∀ e ∈ es, Event.isCapture e = false) ∧
      Run.run (Run.observed (Farm.step B) Farm.intervals) p es = .ok p' ∧
      Matches (c.next B t) p'.1 ∧ Farm.Partitioned q m p'.1 p'.2 := by
  obtain ⟨s, l⟩ := p
  rcases h.turn (B := B) t with hstutter | ⟨e, s', he, hok, h'⟩
  · exact ⟨[], (s, l), by simp, rfl, hstutter, hpart⟩
  · refine ⟨[e], (s', Farm.intervals s e s' l), by simpa using he, ?_, h', hpart.step he hok⟩
    exact Run.run_singleton (Run.observed_of_ok hok l)

/-- **The analysis is atomic.** Start the threads on any farm and let them take any turns. No thread
throws, and there is a run of the farm, without captures, that puts every packet into exactly one
interval in the order of its worker's queue, whose exported results begin with those exported so
far, and whose final state matches that of the threads wherever they are, and is that of the threads
whenever they are all at the top of their loops. -/
theorem analysis_is_atomic (B : Boost) (s₀ : Farm n) (turns : List (Turn n)) :
    (∀ i msg, (((start s₀).runTurns B turns).threads i).pc ≠ .thrown msg) ∧
    ∃ es s h, (∀ e ∈ es, Event.isCapture e = false) ∧
      Run.run (Run.observed (Farm.step B) Farm.intervals) (s₀, fun _ => {}) es = .ok (s, h) ∧
      (∀ i, (h i).packets ++ s.queue i = s₀.queue i) ∧
      (∀ i, s₀.exported.length + (h i).closed.length = s.exported.length) ∧
      ((start s₀).runTurns B turns).analyst.exported <+: s.exported ∧
      Matches ((start s₀).runTurns B turns) s ∧
      (((start s₀).runTurns B turns).Quiescent → ((start s₀).runTurns B turns).data = s) := by
  obtain ⟨es, ⟨s, h⟩, hes, hrun, hmatch, hpart⟩ := Run.run_simulates (next B)
    (R := fun c (p : Farm n × (Fin n → Intervals)) =>
      Matches c p.1 ∧ Farm.Partitioned s₀.queue s₀.exported.length p.1 p.2)
    (fun _ _ t hR => hR.1.turn_partitioned (B := B) hR.2 t)
    (c := start s₀) (s := (s₀, fun _ => {}))
    ⟨matches_start s₀, fun _ => rfl, fun _ => rfl⟩ turns
  exact ⟨fun i msg => (hmatch.stands i).pc_ne_thrown msg, es, s, h, hes, hrun, hpart.packets,
    hpart.closed, hmatch.phase.exported_prefix, hmatch, hmatch.data_eq⟩

end Conc

end FHF
