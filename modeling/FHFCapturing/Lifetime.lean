import FHFCapturing.Reports

/-!
# The lifetime of a table entry

The scan decides on an entry's `cycles` and two thresholds. `survived` records, for every flow
in the table, which analyses its entry has been through since it was inserted and which of them
reported it; `Lived` ties that history to `cycles`: the counter is its length, and only its first
analysis can have kept the entry unreported.

The thresholds of every analysis are arbitrary here. `Farm.run_lived` carries the invariant to
every worker of the farm, where the analyzer chooses them.
-/

namespace FHF

/-- The analyses among the events of a worker. -/
def WorkerEvent.isAnalysis : WorkerEvent → Bool
  | .packet _ => false
  | .analysis _ _ _ => true

namespace Worker

variable {P : IterMap.Placement FlowID FlowDescriptor}

/-- History variable: for every recorded flow, the analyses its entry survived since it was
inserted, oldest first; `true` for one whose scan pushed the flow to the results. -/
def survived (w : Worker) (e : WorkerEvent) (w' : Worker) (h : FlowID → List Bool)
    (fid : FlowID) : List Bool :=
  match e with
  | .packet _ => if w.ht.lookupFlow fid then h fid else []
  | .analysis t r _ =>
      if w'.ht.lookupFlow fid then
        h fid ++ [decide (fid ∈ (Analyzer.scanTable t r w.ht []).2.map FlowDescriptor.fid)]
      else []

/-- After `k` analyses no entry has survived more than `k`; below `2 ^ 32` the 32-bit `cycles`
counts them, and all but the first reported the flow. -/
def Lived (k : Nat) (w : Worker) (h : FlowID → List Bool) : Prop :=
  ∀ fid fd, w.ht.descriptor? fid = some fd → (h fid).length ≤ k ∧
    (k < 2 ^ 32 → fd.cycles.toNat = (h fid).length ∧ ∀ b ∈ (h fid).tail, b = true)

/-- A packet leaves the history of a recorded flow as it is. -/
theorem survived_packet {w w' : Worker} {fup : FlowUpdate} {h : FlowID → List Bool}
    {fid : FlowID} {fd : FlowDescriptor} (hfd : w.ht.descriptor? fid = some fd) :
    survived w (.packet fup) w' h fid = h fid := by
  simp [survived, HashTable.lookupFlow_of_some hfd]

/-- A packet makes no entry older. The entry it inserts has been through no analysis. -/
theorem Lived.packet {k : Nat} {w w' : Worker} {h : FlowID → List Bool} {fup : FlowUpdate}
    (hlived : Lived k w h) (hsvc : Svc P w fup w') :
    Lived k w' (survived w (.packet fup) w' h) := by
  intro fid fd hfd
  by_cases hfid : fid = fup.fid
  · subst hfid
    rcases hsvc.descriptor?_self with ⟨fd₀, h₀, h₁⟩ | ⟨h₀, h₁⟩ | ⟨-, h₁⟩
    · -- updated: the cycles are not touched
      obtain rfl := Option.some.inj (h₁.symm.trans hfd)
      rw [survived_packet h₀, HashTable.account_cycles]
      exact hlived _ _ h₀
    · -- inserted now, with no history
      obtain rfl := Option.some.inj (h₁.symm.trans hfd)
      simp [survived, HashTable.lookupFlow_eq_false.mpr h₀]
    · -- dropped by the filter, and there is no entry
      rw [h₁] at hfd
      cases hfd
  · rw [hsvc.descriptor?_of_ne hfid] at hfd
    rw [survived_packet hfd]
    exact hlived fid fd hfd

/-- What an analysis adds to the history of an entry it keeps. -/
theorem survived_analysis {w : Worker} {t r : Nat} {ft : UInt64} {h : FlowID → List Bool}
    {fid : FlowID} {fd' : FlowDescriptor}
    (hfd' : (w.analysed t r ft).ht.descriptor? fid = some fd') :
    ∃ fd, w.ht.descriptor? fid = some fd ∧ (Analyzer.checkEntry t r fd).2 = some fd' ∧
      survived w (.analysis t r ft) (w.analysed t r ft) h fid =
        h fid ++ [decide (t < fd.dOctets.toNat)] := by
  have hrec := HashTable.lookupFlow_of_some hfd'
  rw [descriptor?_analysed] at hfd'
  obtain ⟨fd, hfd, hkeep⟩ := Option.bind_eq_some_iff.mp hfd'
  refine ⟨fd, hfd, hkeep, ?_⟩
  simp only [survived, hrec, ↓reduceIte, Analyzer.scanTable_snd, List.nil_append,
    Analyzer.mem_reported_fids hfd]

/-- Every entry an analysis keeps gets one cycle older, and it reported every entry that had one
already. -/
theorem Lived.analysis {k : Nat} {w : Worker} {h : FlowID → List Bool} (hlived : Lived k w h)
    (t r : Nat) (ft : UInt64) :
    Lived (k + 1) (w.analysed t r ft)
      (survived w (.analysis t r ft) (w.analysed t r ft) h) := by
  intro fid fd' hfd'
  obtain ⟨fd, hfd, hkeep, hhist⟩ := survived_analysis (h := h) hfd'
  obtain ⟨hlen, hage⟩ := hlived fid fd hfd
  rw [hhist, List.length_append, List.length_singleton]
  refine ⟨by omega, fun hk => ?_⟩
  obtain ⟨hcycles, htail⟩ := hage (by omega)
  obtain rfl := Analyzer.eq_nextInterval_of_kept hkeep
  refine ⟨?_, ?_⟩
  · -- one cycle more, and the counter of cycles does not wrap
    rw [Analyzer.nextInterval_cycles, UInt32.toNat_add, hcycles]
    exact Nat.mod_eq_of_lt (by simp; omega)
  · rcases Analyzer.checkEntry_cases t r fd with ⟨hover, -⟩ | ⟨-, hzero, -, -⟩ | ⟨-, -, heq⟩
    · -- reported: a true at the end of the history
      intro b hb
      rw [decide_eq_true hover] at hb
      cases hfid : h fid with
      | nil => simp [hfid] at hb
      | cons b₀ bs =>
        rw [hfid] at hb htail
        rcases List.mem_append.mp hb with hold | hnew
        · exact htail b hold
        · exact List.mem_singleton.mp hnew
    · -- kept unreported: this was the first analysis
      have hnil : h fid = [] := by
        rw [← List.length_eq_zero_iff, ← hcycles, hzero]
        rfl
      simp [hnil]
    · -- erased, so it is not in the table any more
      rw [heq] at hkeep
      cases hkeep

/-- One event; only an analysis counts. -/
theorem Lived.step {k : Nat} {w w' : Worker} {h : FlowID → List Bool} {e : WorkerEvent}
    (hlived : Lived k w h) (hok : w.step P e = .ok w') :
    Lived (k + if e.isAnalysis then 1 else 0) w' (survived w e w' h) := by
  cases e with
  | packet fup => exact hlived.packet (svc_of_step hok)
  | analysis t r ft =>
    obtain rfl := Except.ok.inj hok
    exact hlived.analysis t r ft

/-! ## Along a run -/

/-- After the events `pre`: entries have the age of their history, and right after an analysis
every entry has been through one and has no bytes. -/
structure Lifetime (pre : List WorkerEvent) (w : Worker) (h : FlowID → List Bool) : Prop where
  lived : Lived (pre.countP WorkerEvent.isAnalysis) w h
  started : ∀ t r ft, pre.getLast? = some (.analysis t r ft) →
    ∀ fid fd, w.ht.descriptor? fid = some fd → h fid ≠ [] ∧ fd.dOctets = 0

theorem lifetime_new (tableSize : UInt32) (hfuns : List (FlowID → Fin tableSize.toNat))
    (hne : hfuns ≠ []) (threshold : UInt32) :
    Lifetime [] (Worker.new tableSize hfuns hne threshold) fun _ => [] where
  lived := by intro fid fd hfd; cases hfd
  started := by intro t r ft hlast; cases hlast

theorem Lifetime.step {pre : List WorkerEvent} {w w' : Worker} {h : FlowID → List Bool}
    {e : WorkerEvent} (hlife : Lifetime pre w h) (hok : w.step P e = .ok w') :
    Lifetime (pre ++ [e]) w' (survived w e w' h) where
  lived := by
    rw [List.countP_append, List.countP_singleton]
    exact hlife.lived.step hok
  started := by
    intro t r ft hlast fid fd hfd
    -- the last event is this one
    rw [List.getLast?_concat, Option.some.injEq] at hlast
    subst hlast
    obtain rfl := Except.ok.inj hok
    obtain ⟨fd₀, -, hkeep, hhist⟩ := survived_analysis (h := h) hfd
    -- what the analysis keeps starts the next interval
    obtain rfl := Analyzer.eq_nextInterval_of_kept hkeep
    exact ⟨by rw [hhist]; simp, rfl⟩

theorem run_lifetime {w : Worker} {h : FlowID → List Bool} (hlife : Lifetime [] w h)
    (es : List WorkerEvent) :
    ∃ w' h', Run.run (Run.observed (Worker.step P) survived) (w, h) es = .ok (w', h') ∧
      Lifetime es w' h' := by
  refine Run.run_observed_events_invariant ?_ hlife es
  intro pre w h e hlife
  obtain ⟨w', hok⟩ := step_ok (P := P) w e
  exact ⟨w', hok, hlife.step hok⟩

/-- If all but the first are `true`, at most one is `false`. -/
theorem count_false_le_one {bs : List Bool} (h : ∀ b ∈ bs.tail, b = true) :
    bs.count false ≤ 1 := by
  cases bs with
  | nil => simp
  | cons b bs =>
    have hzero : bs.count false = 0 :=
      List.count_eq_zero.mpr fun hmem => absurd (h false hmem) (by simp)
    rw [List.count_cons, hzero]
    split <;> omega

/-- **Lifetime of a table entry.** In a run with fewer than `2 ^ 32` analyses, whatever their
thresholds: `cycles` is the number of analyses the entry survived, all of them but possibly the
first reported the flow, and right after an analysis every entry has been through one and has no
bytes. -/
theorem entry_lifetime (P : IterMap.Placement FlowID FlowDescriptor) (tableSize : UInt32)
    (hfuns : List (FlowID → Fin tableSize.toNat)) (hne : hfuns ≠ []) (threshold : UInt32)
    (es : List WorkerEvent) (hcount : es.countP WorkerEvent.isAnalysis < 2 ^ 32) :
    ∃ w h, Run.run (Run.observed (Worker.step P) survived)
        (Worker.new tableSize hfuns hne threshold, fun _ => []) es = .ok (w, h) ∧
      (∀ fid fd, w.ht.descriptor? fid = some fd →
        fd.cycles.toNat = (h fid).length ∧ (∀ b ∈ (h fid).tail, b = true) ∧
          (h fid).count false ≤ 1) ∧
      ∀ t r ft, es.getLast? = some (.analysis t r ft) →
        ∀ fid fd, w.ht.descriptor? fid = some fd → 1 ≤ fd.cycles.toNat ∧ fd.dOctets = 0 := by
  obtain ⟨w, h, hrun, hlived, hstarted⟩ :=
    run_lifetime (P := P) (lifetime_new tableSize hfuns hne threshold) es
  refine ⟨w, h, hrun, fun fid fd hfd => ?_, fun t r ft hlast fid fd hfd => ?_⟩
  · obtain ⟨hcycles, htail⟩ := (hlived fid fd hfd).2 hcount
    exact ⟨hcycles, htail, count_false_le_one htail⟩
  · obtain ⟨hpos, hoctets⟩ := hstarted t r ft hlast fid fd hfd
    refine ⟨?_, hoctets⟩
    -- the history is not empty, and the cycles are its length
    rw [((hlived fid fd hfd).2 hcount).1]
    exact List.length_pos_iff.mpr hpos

/-- Two intervals with different thresholds; the flow survives the first unreported. -/
def twoIntervals : List WorkerEvent :=
  [.packet ⟨⟨1, 2, 3, 4, 6⟩, 40, 54⟩, .analysis 60 10 1,
    .packet ⟨⟨1, 2, 3, 4, 6⟩, 80, 54⟩, .analysis 70 20 1]

theorem entry_lifetime_twoIntervals :
    ∃ w h, Run.run (Run.observed (Worker.step IterMap.Placement.atEnd) survived)
        (Worker.new 1201 [StageContainer.zeroHash] StageContainer.single_ne_nil 30, fun _ => [])
        twoIntervals = .ok (w, h) ∧
      (∀ fid fd, w.ht.descriptor? fid = some fd →
        fd.cycles.toNat = (h fid).length ∧ (∀ b ∈ (h fid).tail, b = true) ∧
          (h fid).count false ≤ 1) ∧
      ∀ t r ft, twoIntervals.getLast? = some (.analysis t r ft) →
        ∀ fid fd, w.ht.descriptor? fid = some fd → 1 ≤ fd.cycles.toNat ∧ fd.dOctets = 0 :=
  entry_lifetime _ 1201 [StageContainer.zeroHash] StageContainer.single_ne_nil 30 twoIntervals
    (by decide)

end Worker

/-! ## In the farm -/

namespace Farm

variable {n : Nat} {B : Boost}

/-- Every worker of the farm ages its entries the same way, with the thresholds the analyzer
chooses. -/
theorem Lived.step_farm {s s' : Farm n} {h : Fin n → FlowID → List Bool} {k : Nat}
    {e : Event n} (hlived : ∀ i, Worker.Lived k (s.workers i) (h i)) (hok : s.step B e = .ok s')
    (i : Fin n) :
    Worker.Lived (k + if e.isAnalysis then 1 else 0) (s'.workers i)
      (observeWorkers Worker.survived s e s' h i) := by
  have hw := step_workers hok i
  rw [observeWorkers]
  cases e with
  | capture fup =>
    -- a captured packet is not seen by a worker yet
    rw [show s.eventOf (.capture fup) i = none from rfl] at hw ⊢
    exact (show s'.workers i = s.workers i from hw) ▸ hlived i
  | analysis startT stopT => exact (hlived i).step hw
  | svc j =>
    -- the step of another worker, or of one with an empty queue, is none of this worker's
    cases hev : s.eventOf (.svc j) i with
    | none =>
      rw [hev] at hw
      exact (show s'.workers i = s.workers i from hw) ▸ hlived i
    | some we =>
      obtain ⟨fup, rfl⟩ := packet_of_eventOf_svc hev
      rw [hev] at hw
      exact (hlived i).step hw

/-- **Lifetimes in the farm.** After any run, every entry of every worker's table has the age of
its history. -/
theorem run_lived (B : Boost) (cfg : Config n) (es : List (Event n)) :
    ∃ s h, Run.run (Run.observed (step B) (observeWorkers Worker.survived))
        (init cfg, fun _ _ => []) es = .ok (s, h) ∧
      ∀ i, Worker.Lived (es.countP Event.isAnalysis) (s.workers i) (h i) := by
  refine Run.run_observed_events_invariant
    (I := fun pre (s : Farm n) (h : Fin n → FlowID → List Bool) =>
      ∀ i, Worker.Lived (pre.countP Event.isAnalysis) (s.workers i) (h i)) ?_ ?_ es
  · intro pre s h e hlived
    obtain ⟨s', hok⟩ := step_ok (B := B) s e
    refine ⟨s', hok, fun i => ?_⟩
    rw [List.countP_append, List.countP_singleton]
    exact Lived.step_farm hlived hok i
  · -- no worker has an entry at the start
    intro i fid fd hfd
    cases hfd

end Farm

end FHF
