import FHFCapturing.Reports

/-!
# After the first analysis the filter is open

An analysis sets the threshold of every stage through `updateThreshold`, whose conditional keeps a
zero and turns anything else into one, and clears the counters. From then on a packet of two octets
passes every stage, and an IP header alone has twenty: each flow is recorded with its first packet.
So the table entries are exact from the second interval on (`Exact`), and a report lists the flows
over the threshold and no others, each with all its bytes, up to the 32-bit counter.

The price is the memory: the filter no longer keeps small flows out of the tables.
-/

namespace FHF

/-! ## An open filter -/

namespace MultistageFilter

/-- Counters at zero under a threshold of at most one. -/
def Open (f : MultistageFilter) : Prop :=
  ∀ st ∈ f.stages, st.threshold ≤ 1 ∧ ∀ fid, st.counter fid = 0

/-- An open filter lets a packet of two octets pass, and stays as it is. -/
theorem Open.filter_eq {f : MultistageFilter} (h : f.Open) {fup : FlowUpdate}
    (hwide : 2 ≤ fup.dOctets) : f.filter fup = (true, f) := by
  have hpass : (f.filter fup).1 = true := by
    rw [filter_fst, checkLoop_pass, List.all_eq_true]
    intro st hst
    obtain ⟨hthreshold, hcounter⟩ := h st hst
    rw [StageContainer.check, hcounter, UInt64.zero_add]
    have h₁ := UInt64.le_iff_toNat_le.mp hthreshold
    have h₂ := UInt32.le_iff_toNat_le.mp hwide
    refine decide_eq_true (UInt64.lt_iff_toNat_lt.mpr ?_)
    rw [UInt32.toNat_toUInt64]
    exact Nat.lt_of_le_of_lt h₁ h₂
  exact Prod.ext hpass (filter_of_pass hpass)

/-- What an analysis leaves of a filter is open, whatever the new threshold. -/
theorem open_reset_updateThreshold (f : MultistageFilter) (newThreshold : UInt64) :
    (f.updateThreshold newThreshold).reset.Open := by
  refine forall_mapStages.mpr <| forall_mapStages.mpr fun st _ => ⟨?_, fun _ => rfl⟩
  rw [StageContainer.reset_threshold]
  unfold StageContainer.updateThreshold
  dsimp only
  split_ifs with hzero
  · rw [hzero]
    exact UInt64.zero_le
  · exact UInt64.le_refl 1

end MultistageFilter

/-- Behind an open filter each packet of two octets is accounted to its flow's entry. -/
theorem Worker.Svc.descriptor?_of_open {P : IterMap.Placement FlowID FlowDescriptor} {w w' : Worker}
    {fup : FlowUpdate} (h : Svc P w fup w') (hopen : w.mfilter.Open) (hwide : 2 ≤ fup.dOctets) :
    w'.mfilter = w.mfilter ∧
      ((∃ fd, w.ht.descriptor? fup.fid = some fd ∧
        w'.ht.descriptor? fup.fid = some (HashTable.account fup fd)) ∨
      (w.ht.descriptor? fup.fid = none ∧
        w'.ht.descriptor? fup.fid = some (HashTable.firstEntry fup))) := by
  have hself := h.descriptor?_self
  cases h with
  -- an entry that was there is updated
  | recorded hrec =>
    refine ⟨rfl, hself.imp_right fun hnew => ?_⟩
    rw [HashTable.lookupFlow_eq] at hrec
    have hnone : w.ht.descriptor? fup.fid = none := hnew.elim (fun h => h.1) (fun h => h.1)
    rw [hnone] at hrec
    cases hrec
  -- an open filter lets the packet pass, so a new entry is made
  | admitted hnew hpass =>
    refine ⟨rfl, hself.imp_right fun hor => hor.resolve_right fun ⟨_, hnone⟩ => ?_⟩
    rw [HashTable.descriptor?_insertFlow hnew, if_pos rfl] at hnone
    cases hnone
  -- and it drops none
  | dropped _ hdrop =>
    rw [hopen.filter_eq hwide] at hdrop
    cases hdrop

/-! ## The invariant -/

namespace Farm

variable {n : Nat} {B : Boost}

/-- Every packet in a queue has at least two octets. -/
def WidePackets (s : Farm n) : Prop := ∀ i, ∀ fup ∈ s.queue i, 2 ≤ fup.dOctets

/-- A capture of a packet of at least two octets. -/
def WideCapture : Event n → Prop
  | .capture fup => 2 ≤ fup.dOctets
  | _ => True

instance (e : Event n) : Decidable (WideCapture e) :=
  match e with
  | .capture fup => inferInstanceAs (Decidable (2 ≤ fup.dOctets))
  | .svc _ => inferInstanceAs (Decidable True)
  | .analysis _ _ => inferInstanceAs (Decidable True)

/-- No packet in a queue gets shorter. -/
theorem WidePackets.step {s s' : Farm n} (h : s.WidePackets) {e : Event n} (he : WideCapture e)
    (hok : s.step B e = .ok s') : s'.WidePackets := by
  cases e with
  | capture fup =>
    obtain rfl := Except.ok.inj hok
    intro i fup' hmem
    rw [capture_queue] at hmem
    -- in a queue already, or the packet captured now
    rcases List.mem_append.mp hmem with hold | hnew
    · exact h i fup' hold
    · split at hnew
      · rw [List.mem_singleton.mp hnew]
        exact he
      · cases hnew
  -- `svc` only takes packets away
  | svc i =>
    intro j fup hmem
    refine h j fup ?_
    rw [← svc_queue hok j]
    exact List.mem_append_right _ hmem
  | analysis startT stopT =>
    obtain rfl := Except.ok.inj hok
    rw [analysis_eq]
    exact h

/-- Between two analyses, `h` being the packets handled since the first: each entry has the bytes of
its flow's packets in `h`, and a flow without an entry has none there. -/
structure Exact (B : Boost) (s : Farm n) (h : List FlowUpdate) : Prop where
  dispatched : Dispatched B s
  wide : s.WidePackets
  opened : ∀ i, (s.workers i).mfilter.Open
  octets : ∀ i fid fd, (s.workers i).ht.descriptor? fid = some fd →
    fd.dOctets.toNat = bytesOf fid h % 2 ^ 32
  missing : ∀ (i : Fin n) fid, dispatchPolicy B n fid = i →
    (s.workers i).ht.descriptor? fid = none → bytesOf fid h = 0

theorem Exact.of_analysis {s : Farm n} (hdispatched : Dispatched B s) (hwide : s.WidePackets)
    (startT stopT : Int) : Exact B (s.analysis startT stopT) [] where
  dispatched := hdispatched.analysis startT stopT
  wide := by rw [analysis_eq]; exact hwide
  opened := by
    intro i
    rw [analysis_eq]
    exact MultistageFilter.open_reset_updateThreshold _ _
  octets := by
    -- whatever survived the scan has its bytes reset
    intro i fid fd hfd
    rw [descriptor?_analysis] at hfd
    obtain ⟨fd₀, -, hkeep⟩ := Option.bind_eq_some_iff.mp hfd
    obtain rfl := Analyzer.eq_nextInterval_of_kept hkeep
    rfl
  missing := fun _ _ _ _ => rfl

/-- The entry of a handled packet's flow keeps track of the flow's bytes. -/
theorem Exact.octets_self {s : Farm n} {h : List FlowUpdate} (hex : Exact B s h) {j : Fin n}
    {fup : FlowUpdate} {rest : List FlowUpdate} {w : Worker} (hq : s.queue j = fup :: rest)
    (hsvc : Worker.Svc B.placement (s.workers j) fup w) :
    ∃ fd, w.ht.descriptor? fup.fid = some fd ∧
      fd.dOctets.toNat = bytesOf fup.fid (h ++ [fup]) % 2 ^ 32 := by
  have hmem : fup ∈ s.queue j := hq ▸ List.mem_cons_self
  have hj : dispatchPolicy B n fup.fid = j := hex.dispatched.queued j fup hmem
  rw [bytesOf_append, bytesOf_singleton, if_pos rfl]
  obtain ⟨-, hself⟩ := hsvc.descriptor?_of_open (hex.opened j) (hex.wide j fup hmem)
  rcases hself with ⟨fd, hold, hnew⟩ | ⟨hold, hnew⟩
  · -- the flow had an entry
    refine ⟨_, hnew, ?_⟩
    rw [HashTable.account_dOctets, UInt32.toNat_add, hex.octets j _ fd hold, Nat.mod_add_mod]
  · -- the packet is its first
    refine ⟨_, hnew, ?_⟩
    rw [hex.missing j _ hj hold, Nat.zero_add, Nat.mod_eq_of_lt fup.dOctets.toNat_lt]
    rfl

/-- A handled packet leaves the entries of the other flows alone, at every worker. -/
theorem descriptor?_of_svc_of_ne {s : Farm n} {j : Fin n} {fup : FlowUpdate} {w : Worker}
    (hsvc : Worker.Svc B.placement (s.workers j) fup w) {fid : FlowID} (hne : fid ≠ fup.fid)
    (i : Fin n) :
    (Function.update s.workers j w i).ht.descriptor? fid = (s.workers i).ht.descriptor? fid := by
  by_cases hi : i = j
  · subst hi
    rw [Function.update_self]
    exact hsvc.descriptor?_of_ne hne
  · rw [Function.update_of_ne hi]

/-- Handling a packet: the table counts it, and the history remembers it. -/
theorem Exact.svc {s s' : Farm n} {h : List FlowUpdate} (hex : Exact B s h) {j : Fin n}
    (hok : s.svc B j = .ok s') : Exact B s' (handledSince s (.svc j) s' h) := by
  have hdispatched := hex.dispatched.svc hok
  have hwide : s'.WidePackets := hex.wide.step (B := B) (e := .svc j) trivial hok
  rcases svc_cases hok with ⟨hq, rfl⟩ | ⟨fup, rest, w, hq, hsvc, rfl⟩
  · simpa only [handledSince, hq, List.head?_nil, Option.toList_none, List.append_nil] using hex
  · have hmem : fup ∈ s.queue j := hq ▸ List.mem_cons_self
    have hj : dispatchPolicy B n fup.fid = j := hex.dispatched.queued j fup hmem
    have hfilter := (hsvc.descriptor?_of_open (hex.opened j) (hex.wide j fup hmem)).1
    obtain ⟨fd₀, hself, hoctets⟩ := hex.octets_self hq hsvc
    have hother : ∀ fid, fid ≠ fup.fid → bytesOf fid (h ++ [fup]) = bytesOf fid h := by
      intro fid hne
      rw [bytesOf_append, bytesOf_singleton, if_neg (Ne.symm hne), Nat.add_zero]
    simp only [handledSince, hq, List.head?_cons, Option.toList_some]
    refine ⟨hdispatched, hwide, ?_, ?_, ?_⟩
    · intro i
      by_cases hi : i = j
      · subst hi
        simpa only [Function.update_self, hfilter] using hex.opened i
      · simpa only [Function.update_of_ne hi] using hex.opened i
    · intro i fid fd hfd
      by_cases hfid : fid = fup.fid
      · -- only the selected worker can hold an entry of this flow
        subst hfid
        have hrec := hdispatched.recorded i _ ((HashTable.lookupFlow_of_some hfd))
        obtain rfl := Fin.ext (hj.symm.trans hrec)
        dsimp only at hfd
        rw [Function.update_self] at hfd
        obtain rfl := Option.some.inj (hself.symm.trans hfd)
        exact hoctets
      · rw [descriptor?_of_svc_of_ne hsvc hfid] at hfd
        rw [hother fid hfid]
        exact hex.octets i fid fd hfd
    · intro i fid hi hnone
      by_cases hfid : fid = fup.fid
      · subst hfid
        obtain rfl := Fin.ext (hj.symm.trans hi)
        dsimp only at hnone
        rw [Function.update_self, hself] at hnone
        cases hnone
      · rw [descriptor?_of_svc_of_ne hsvc hfid] at hnone
        rw [hother fid hfid]
        exact hex.missing i fid hi hnone

/-- Every event after the first analysis keeps the tables exact. -/
theorem Exact.step {s s' : Farm n} {h : List FlowUpdate} (hex : Exact B s h) {e : Event n}
    (he : WideCapture e) (hok : s.step B e = .ok s') : Exact B s' (handledSince s e s' h) := by
  cases e with
  -- the analysis starts a new interval; a capture adds to no entry yet
  | svc j => exact hex.svc hok
  | analysis startT stopT =>
    obtain rfl := Except.ok.inj hok
    exact .of_analysis hex.dispatched hex.wide startT stopT
  | capture fup =>
    have hdispatched := hex.dispatched.step hok
    have hwide := hex.wide.step he hok
    obtain rfl := Except.ok.inj hok
    refine { dispatched := hdispatched, wide := hwide, opened := ?_, octets := ?_, missing := ?_ }
    · simpa only [capture_workers] using hex.opened
    · simpa only [capture_workers, handledSince] using hex.octets
    · simpa only [capture_workers, handledSince] using hex.missing

/-! ## Runs -/

/-- Exact from the first analysis of the run on. -/
def ExactAfter (B : Boost) (pre : List (Event n)) (p : Farm n × List FlowUpdate) : Prop :=
  Dispatched B p.1 ∧ p.1.WidePackets ∧ ((∃ e ∈ pre, e.isAnalysis = true) → Exact B p.1 p.2)

/-- Along any run, from the first analysis on: induction on the events. -/
theorem run_exact {s : Farm n} {h : List FlowUpdate} (hs : ExactAfter B [] (s, h))
    {es : List (Event n)} (hes : ∀ e ∈ es, WideCapture e) :
    ∃ p, Run.run (Run.observed (step B) handledSince) (s, h) es = .ok p ∧ ExactAfter B es p := by
  refine Run.run_events_invariant_of_allSteps (C := fun _ e => WideCapture e) ?_ hs
    (Run.allSteps_of_forall (fun e he _ => hes e he) _)
  intro pre p e ⟨hdispatched, hwide, hexact⟩ he
  obtain ⟨s', hok⟩ := step_ok (B := B) p.1 e
  refine ⟨_, Run.observed_of_ok hok p.2, hdispatched.step hok, hwide.step he hok, ?_⟩
  intro ⟨e', hmem, hanalysis⟩
  rcases List.mem_append.mp hmem with hbefore | hlast
  · exact (hexact ⟨e', hbefore, hanalysis⟩).step he hok
  · -- this step is an analysis
    obtain rfl := List.mem_singleton.mp hlast
    cases e' with
    | capture fup => cases hanalysis
    | svc i => cases hanalysis
    | analysis startT stopT =>
      obtain rfl := Except.ok.inj hok
      exact .of_analysis hdispatched hwide startT stopT

namespace Exact

variable {s : Farm n} {h : List FlowUpdate}

/-- The results name the flows over the threshold, and no others. -/
theorem mem_results_fids (hex : Exact B s h) (hn : 0 < n) (fid : FlowID) :
    fid ∈ s.results.map FlowDescriptor.fid ↔
      s.analyzer.t_threshold < bytesOf fid h % 2 ^ 32 := by
  have hlt : dispatchPolicy B n fid < n := Nat.mod_lt _ hn
  rw [results, List.map_flatMap, List.mem_flatMap]
  constructor
  · -- a reported record is of a flow whose entry counts its bytes
    rintro ⟨i, -, hmem⟩
    obtain ⟨fd, hfd⟩ := HashTable.exists_of_lookupFlow (Analyzer.lookupFlow_of_reported hmem)
    rw [← hex.octets i fid fd hfd]
    exact (Analyzer.mem_reported_fids hfd).mp hmem
  · -- conversely the flow's own worker has an entry, or the flow sent nothing
    intro hover
    refine ⟨⟨_, hlt⟩, List.mem_finRange _, ?_⟩
    cases hfd : (s.workers ⟨_, hlt⟩).ht.descriptor? fid with
    | none =>
      rw [hex.missing ⟨_, hlt⟩ fid rfl hfd] at hover
      cases hover
    | some fd =>
      refine (Analyzer.mem_reported_fids hfd).mpr ?_
      rwa [hex.octets _ fid fd hfd]

/-- A report carries the bytes of its flow. -/
theorem octets_of_mem_results (hex : Exact B s h) {fd : FlowDescriptor} (hfd : fd ∈ s.results) :
    fd.dOctets.toNat = bytesOf fd.fid h % 2 ^ 32 := by
  obtain ⟨i, -, hmem⟩ := List.mem_flatMap.mp hfd
  exact hex.octets i _ fd (Analyzer.mem_reported.mp hmem).1

end Exact

/-- **From the second interval on the reports are exact.** After any run with an analysis in it,
whose packets all have at least two octets, let `h` be the packets handled since the last analysis.
The next analysis reports a flow, once, if and only if its bytes in `h` are over the threshold, and
with exactly these bytes, both counted modulo `2 ^ 32`. -/
theorem reports_exact (B : Boost) (cfg : Config n) {es : List (Event n)}
    (hwide : ∀ e ∈ es, WideCapture e) (hfirst : ∃ e ∈ es, e.isAnalysis = true)
    (startT stopT : Int) :
    ∃ s h, Run.run (Run.observed (step B) handledSince) (init cfg, []) es = .ok (s, h) ∧
      let a := (s.analyzer.waited startT stopT).shiftEntries.enterScan
      let (a', _, results) := (s.analyzer.waited startT stopT).do_boundedAnalysis s.workers []
      a'.old_t_threshold = a.old_t_threshold ∧
      (results.map FlowDescriptor.fid).Nodup ∧
      (∀ fid, fid ∈ results.map FlowDescriptor.fid ↔
        a.old_t_threshold < bytesOf fid h % 2 ^ 32) ∧
      ∀ fd ∈ results, fd.dOctets.toNat = bytesOf fd.fid h % 2 ^ 32 := by
  have hinit : ExactAfter B [] (init cfg, []) :=
    ⟨dispatched_init cfg, fun i fup hmem => (List.not_mem_nil hmem).elim,
      fun ⟨e, hmem, _⟩ => (List.not_mem_nil hmem).elim⟩
  obtain ⟨⟨s, h⟩, hrun, -, -, hexact⟩ := run_exact hinit hwide
  have hex := hexact hfirst
  refine ⟨s, h, hrun, ?_⟩
  -- the threshold of the scan is the one before the adaptation
  rw [Analyzer.do_boundedAnalysis_eq]
  exact ⟨Analyzer.adapt_old_t _ _, hex.dispatched.results_nodup,
    hex.mem_results_fids cfg.workers_pos, fun fd hfd => hex.octets_of_mem_results hfd⟩

namespace Second

/-- A flow of the first interval. -/
def first : FlowID := ⟨1, 9, 1000, 80, 6⟩

/-- A flow that appears after the analysis. -/
def later : FlowID := ⟨2, 9, 1000, 80, 6⟩

/-- A packet in the first interval, an analysis, and two packets of another flow after it. -/
def events : List (Event 1) :=
  [.capture ⟨first, 60, 54⟩, .svc ⟨0, Nat.one_pos⟩, .analysis 0 5000,
    .capture ⟨later, 40, 54⟩, .capture ⟨later, 2, 54⟩, .svc ⟨0, Nat.one_pos⟩,
    .svc ⟨0, Nat.one_pos⟩]

end Second

theorem reports_exact_second :
    (∀ e ∈ Second.events, WideCapture e) ∧ (∃ e ∈ Second.events, e.isAnalysis = true) ∧
    ∃ s h, Run.run (Run.observed (step Boost.standard) handledSince)
        (init (Config.single 10), []) Second.events = .ok (s, h) ∧
      let a := (s.analyzer.waited 5000 10000).shiftEntries.enterScan
      let (a', _, results) := (s.analyzer.waited 5000 10000).do_boundedAnalysis s.workers []
      a'.old_t_threshold = a.old_t_threshold ∧
      (results.map FlowDescriptor.fid).Nodup ∧
      (∀ fid, fid ∈ results.map FlowDescriptor.fid ↔
        a.old_t_threshold < bytesOf fid h % 2 ^ 32) ∧
      ∀ fd ∈ results, fd.dOctets.toNat = bytesOf fd.fid h % 2 ^ 32 :=
  have hwide : ∀ e ∈ Second.events, WideCapture e := by decide
  have hfirst : ∃ e ∈ Second.events, e.isAnalysis = true := by decide
  ⟨hwide, hfirst, reports_exact Boost.standard (Config.single 10) hwide hfirst 5000 10000⟩

end Farm

end FHF
