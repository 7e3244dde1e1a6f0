import FHFCapturing.ExactReports
import FHFCapturing.Schedule
import Mathlib.Data.Finset.Image

/-!
# The exact meter

What the program is for: interval by interval, the flows over the threshold, each with its bytes.
The exact meter has no filters, no tables and no workers; it keeps the packets of the interval and
the analyzer's thresholds. Once an analysis has opened the filters, the meter of
`FHFCapturing.Schedule` computes what the exact meter does (`Meter.Meets.run`), and with it the farm
does under every schedule (`Farm.exact_from_second_interval`). The exact meter knows neither the
number of workers nor the hash functions, so these make no difference from the second interval on
(`Farm.workers_irrelevant`).
-/

namespace FHF

/-- The flows with more than `t` bytes, as the 32-bit counter has them. -/
def heavyFlows (t : Nat) (fups : List FlowUpdate) : Finset (FlowID × Nat) :=
  ((fups.map FlowUpdate.fid).toFinset.image fun fid => (fid, bytesOf fid fups % 2 ^ 32)).filter
    fun p => t < p.2

/-- What a report says about the traffic: its header, and flows with their bytes. -/
def reportOf (p : IntervalDescriptor × List FlowDescriptor) :
    IntervalDescriptor × Finset (FlowID × Nat) :=
  (p.1, (p.2.map fun fd => (fd.fid, fd.dOctets.toNat)).toFinset)

/-- The adaptation takes no more from the results than their number. -/
def Analyzer.adaptTo (a : Analyzer) (count : Nat) : Analyzer :=
  let a := { a with e1 := a.e1 + UInt32.ofNat count }
  { a with entriesUsedAVG := (a.e1 + a.e2 + a.e3) / 3 + 1 }.update_thresholds

/-- The analyzer when its analysis has found so many results. -/
def Analyzer.analysed (a : Analyzer) (startT stopT : Int) (count : Nat) : Analyzer :=
  (a.waited startT stopT).shiftEntries.enterScan.adaptTo count

/-- The adaptation only sees how many results there are. -/
theorem Analyzer.adapt_eq_adaptTo (a : Analyzer) (results : List FlowDescriptor) :
    a.adapt results = a.adaptTo results.length := rfl

/-- The packets since the last analysis, all of them, next to the analyzer and its reports. -/
structure ExactMeter where
  analyzer : Analyzer
  since : List FlowUpdate
  reports : List (IntervalDescriptor × Finset (FlowID × Nat))

namespace ExactMeter

/-- The analysis reports the heavy flows of the packets and forgets these. -/
def analysis (x : ExactMeter) (startT stopT : Int) : ExactMeter :=
  let heavy := heavyFlows x.analyzer.t_threshold x.since
  let a := x.analyzer.analysed startT stopT heavy.card
  { analyzer := { a with intervalCounter := a.intervalCounter + 1 }
    since := []
    reports := x.reports ++ [(a.output_results, heavy)] }

/-- Started by an analysis with so many results. -/
def start (a : Analyzer) (startT stopT : Int) (count : Nat) : ExactMeter :=
  let a := a.analysed startT stopT count
  { analyzer := { a with intervalCounter := a.intervalCounter + 1 }, since := [], reports := [] }

/-- A packet is only remembered. -/
def step (x : ExactMeter) : MeterEvent → Except String ExactMeter
  | .packet fup => .ok { x with since := x.since ++ [fup] }
  | .analysis startT stopT => .ok (x.analysis startT stopT)

/-- The meter along the events. -/
def run (x : ExactMeter) (es : List MeterEvent) : Except String ExactMeter := Run.run step x es

end ExactMeter

/-! ## Heavy flows -/

/-- A heavy flow with its bytes, both modulo `2 ^ 32`. -/
theorem mem_heavyFlows {t : Nat} {fups : List FlowUpdate} {fid : FlowID} {bytes : Nat} :
    (fid, bytes) ∈ heavyFlows t fups ↔ bytes = bytesOf fid fups % 2 ^ 32 ∧ t < bytes := by
  simp only [heavyFlows, Finset.mem_filter, Finset.mem_image, List.mem_toFinset, Prod.mk.injEq]
  constructor
  · rintro ⟨⟨_, -, rfl, rfl⟩, hover⟩
    exact ⟨rfl, hover⟩
  · rintro ⟨rfl, hover⟩
    -- bytes over a threshold are some packet's
    have hne : bytesOf fid fups ≠ 0 := by
      intro hzero
      rw [hzero] at hover
      exact Nat.not_lt_zero _ hover
    exact ⟨⟨fid, Tally.mem_map_of_tally_ne_zero hne, rfl, rfl⟩, hover⟩

namespace Farm.Exact

variable {n : Nat} {B : Boost} {s : Farm n} {h : List FlowUpdate}

/-- When the tables are exact for the packets since the last analysis, the results of the scan are
the heavy flows among these, with their bytes. -/
theorem toFinset_results (hex : Exact B s h) (hn : 0 < n) :
    (s.results.map fun fd => (fd.fid, fd.dOctets.toNat)).toFinset =
      heavyFlows s.analyzer.t_threshold h := by
  ext ⟨fid, bytes⟩
  rw [List.mem_toFinset, List.mem_map, mem_heavyFlows]
  have hfids := hex.mem_results_fids hn fid
  constructor
  · -- a reported entry carries all the bytes of its flow
    rintro ⟨fd, hfd, heq⟩
    obtain ⟨rfl, rfl⟩ := Prod.mk.inj heq
    have hbytes := hex.octets_of_mem_results hfd
    exact ⟨hbytes, hbytes ▸ hfids.mp (List.mem_map_of_mem hfd)⟩
  · -- a flow over the threshold has an entry, and that is reported
    rintro ⟨rfl, hover⟩
    obtain ⟨fd, hfd, rfl⟩ := List.mem_map.mp (hfids.mpr hover)
    exact ⟨fd, hfd, Prod.ext rfl (hex.octets_of_mem_results hfd)⟩

/-- No flow is reported twice, so the number of results is that of the heavy flows. -/
theorem length_results (hex : Exact B s h) (hn : 0 < n) :
    s.results.length = (heavyFlows s.analyzer.t_threshold h).card := by
  have hnodup : (s.results.map fun fd => (fd.fid, fd.dOctets.toNat)).Nodup := by
    have hfids := hex.dispatched.results_nodup
    rw [show s.results.map FlowDescriptor.fid =
        (s.results.map fun fd => (fd.fid, fd.dOctets.toNat)).map Prod.fst by
      rw [List.map_map]; rfl] at hfids
    exact hfids.of_map
  rw [← hex.toFinset_results hn, List.toFinset_card_of_nodup hnodup, List.length_map]

end Farm.Exact

/-! ## The meter and the exact meter -/

namespace Meter

variable {n : Nat} {B : Boost}

/-- The meter as a farm with no packet waiting. -/
def toFarm (m : Meter n) : Farm n := ⟨fun _ => [], m.workers, m.analyzer, m.exported⟩

/-- A packet of the meter is captured and handled at once. -/
theorem toFarm_packet (m : Meter n) (fup : FlowUpdate) (hn : 0 < n) :
    ∃ j m', m.step B (.packet fup) = .ok m' ∧ (m.toFarm.capture B fup).queue j = [fup] ∧
      (m.toFarm.capture B fup).svc B j = .ok m'.toFarm := by
  have hlt : dispatchPolicy B n fup.fid < n := Nat.mod_lt _ hn
  obtain ⟨w, hok, -⟩ := Worker.svc_cases B.placement (m.workers ⟨_, hlt⟩) fup
  have hqueue : (m.toFarm.capture B fup).queue ⟨_, hlt⟩ = [fup] := by
    rw [Farm.capture_queue, if_pos rfl]
    rfl
  have hworker : ((m.toFarm.capture B fup).workers ⟨_, hlt⟩).svc B.placement fup = .ok w := by
    rw [Farm.capture_workers]
    exact hok
  refine ⟨⟨_, hlt⟩, _, packet_of_svc rfl hok, hqueue, ?_⟩
  simp only [Farm.svc, hqueue, hworker]
  -- the queue is empty again
  simp only [Farm.capture, hlt, ↓reduceDIte, toFarm, List.nil_append, Function.update_idem]
  rw [Function.update_eq_self_iff.mpr rfl]

/-- After an analysis, with the reports `before`: the exact meter has the same thresholds and the
same later reports, and the packets since the last analysis that the tables are exact for. -/
structure Meets (B : Boost) (before : List (IntervalDescriptor × List FlowDescriptor))
    (m : Meter n) (x : ExactMeter) : Prop where
  exact : Farm.Exact B m.toFarm x.since
  analyzer : m.analyzer = x.analyzer
  reports : ∃ later, m.exported = before ++ later ∧ later.map reportOf = x.reports

/-- A packet with at least two octets: one of these passes every filter once the thresholds are set
by an analysis. -/
def WidePacket : MeterEvent → Prop
  | .packet fup => 2 ≤ fup.dOctets
  | .analysis _ _ => True

namespace Meets

variable {before : List (IntervalDescriptor × List FlowDescriptor)} {m : Meter n}
  {x : ExactMeter}

/-- A packet keeps the tables exact, and the meter remembers it. -/
theorem packet (h : Meets B before m x) (hn : 0 < n) {fup : FlowUpdate}
    (hwide : 2 ≤ fup.dOctets) :
    ∃ m', m.step B (.packet fup) = .ok m' ∧
      Meets B before m' { x with since := x.since ++ [fup] } := by
  -- in the farm: captured, then handled at once
  obtain ⟨j, m', hok, hqueue, hsvc⟩ := m.toFarm_packet (B := B) fup hn
  have hcaptured : Farm.Exact B (m.toFarm.capture B fup) x.since :=
    h.exact.step (e := .capture fup) hwide rfl
  have hhandled := hcaptured.svc hsvc
  simp only [Farm.handledSince, hqueue, List.head?_cons, Option.toList_some] at hhandled
  have hanalyzer : m'.analyzer = m.analyzer :=
    -- neither step touches the analyzer or the exports
    (Farm.svc_analyzer hsvc).trans (Farm.capture_analyzer _ _)
  have hexported : m'.exported = m.exported :=
    (Farm.svc_exported hsvc).trans (Farm.capture_exported _ _)
  exact ⟨m', hok, hhandled, hanalyzer.trans h.analyzer, by rw [hexported]; exact h.reports⟩

/-- Both report the same heavy flows, so both adapt in the same way. -/
theorem analysis (h : Meets B before m x) (hn : 0 < n) (startT stopT : Int) :
    Meets B before (m.analysis startT stopT) (x.analysis startT stopT) := by
  have hfarm : (m.analysis startT stopT).toFarm = m.toFarm.analysis startT stopT := rfl
  have hanalyzer : m.toFarm.analyzer = x.analyzer := h.analyzer
  -- as many results as heavy flows, so the same adaptation
  have hadapted : m.toFarm.adapted startT stopT =
      x.analyzer.analysed startT stopT (heavyFlows x.analyzer.t_threshold x.since).card := by
    rw [Farm.adapted, Analyzer.adapt_eq_adaptTo, h.exact.length_results hn, hanalyzer]
    rfl
  have hreport : reportOf ((m.toFarm.adapted startT stopT).output_results, m.toFarm.results) =
      ((m.toFarm.adapted startT stopT).output_results,
        heavyFlows x.analyzer.t_threshold x.since) := by
    rw [reportOf, h.exact.toFinset_results hn, hanalyzer]
  have hanalysis := Farm.analysis_eq m.toFarm startT stopT
  obtain ⟨later, hbefore, hlater⟩ := h.reports
  refine ⟨?_, ?_, later ++ [((m.toFarm.adapted startT stopT).output_results, m.toFarm.results)],
    ?_, ?_⟩
  · rw [hfarm]
    exact .of_analysis h.exact.dispatched h.exact.wide startT stopT
  · refine (congrArg Farm.analyzer hanalysis).trans ?_
    rw [hadapted]
    rfl
  · refine (congrArg Farm.exported hanalysis).trans ?_
    rw [← List.append_assoc, ← hbefore]
    rfl
  · rw [List.map_append, List.map_singleton, hlater, hreport, hadapted]
    rfl

/-- One event of the meter is the same event of the exact meter. -/
theorem step (h : Meets B before m x) (hn : 0 < n) {e : MeterEvent} (hwide : WidePacket e) :
    ∃ m' x', m.step B e = .ok m' ∧ x.step e = .ok x' ∧ Meets B before m' x' := by
  cases e with
  | packet fup =>
    obtain ⟨m', hok, h'⟩ := h.packet hn hwide
    exact ⟨m', _, hok, rfl, h'⟩
  | analysis startT stopT => exact ⟨_, _, rfl, rfl, h.analysis hn startT stopT⟩

/-- **The meter refines the exact meter.** -/
theorem run (h : Meets B before m x) (hn : 0 < n) {es : List MeterEvent}
    (hwide : ∀ e ∈ es, WidePacket e) :
    ∃ m' x', m.run B es = .ok m' ∧ x.run es = .ok x' ∧ Meets B before m' x' := by
  have hstep : ∀ (m : Meter n) (x : ExactMeter) (e : MeterEvent), Meets B before m x →
      WidePacket e → ∃ m' x', m.step B e = .ok m' ∧
        Run.run ExactMeter.step x (some e).toList = .ok x' ∧ Meets B before m' x' := by
    intro m x e h hwide
    obtain ⟨m', x', hok, hx, h'⟩ := h.step hn hwide
    exact ⟨m', x', hok, Run.run_singleton hx, h'⟩
  obtain ⟨m', x', hrun, hx, h'⟩ := Run.run_refines_of_allSteps hstep h
    (Run.allSteps_of_forall (fun e he _ => hwide e he) m)
  rw [List.filterMap_some] at hx
  exact ⟨m', x', hrun, hx, h'⟩

end Meets

/-! ## The first interval -/

/-- A meter's step is a capture and its handling, so that it keeps the flows with their workers. -/
theorem dispatched_step {m : Meter n} (hd : Farm.Dispatched B m.toFarm) (hn : 0 < n)
    (e : MeterEvent) : ∃ m', m.step B e = .ok m' ∧ Farm.Dispatched B m'.toFarm := by
  cases e with
  | packet fup =>
    obtain ⟨j, m', hok, -, hsvc⟩ := m.toFarm_packet (B := B) fup hn
    exact ⟨m', hok, (hd.capture fup).svc hsvc⟩
  | analysis startT stopT => exact ⟨_, rfl, hd.analysis startT stopT⟩

/-- An analysis opens the filters and clears the tables: the exact meter can start. -/
theorem meets_analysis {m : Meter n} (hd : Farm.Dispatched B m.toFarm) (startT stopT : Int) :
    Meets B (m.analysis startT stopT).exported (m.analysis startT stopT)
      ⟨(m.analysis startT stopT).analyzer, [], []⟩ where
  exact := Farm.Exact.of_analysis hd (fun _ _ hmem => (List.not_mem_nil hmem).elim) startT stopT
  analyzer := rfl
  reports := ⟨[], (List.append_nil _).symm, rfl⟩

/-- Without an analysis the analyzer and the reports stay. -/
theorem run_first {m : Meter n} (hd : Farm.Dispatched B m.toFarm) (hn : 0 < n)
    {es : List MeterEvent} (hes : ∀ e ∈ es, e.isAnalysis = false) :
    ∃ m', m.run B es = .ok m' ∧ Farm.Dispatched B m'.toFarm ∧ m'.analyzer = m.analyzer ∧
      m'.exported = m.exported := by
  refine Run.run_invariant_of_allSteps
    (I := fun m' : Meter n => Farm.Dispatched B m'.toFarm ∧ m'.analyzer = m.analyzer ∧
      m'.exported = m.exported)
    (C := fun _ (e : MeterEvent) => e.isAnalysis = false) ?_ ⟨hd, rfl, rfl⟩
    (Run.allSteps_of_forall (fun e he _ => hes e he) m)
  intro m₁ e ⟨hd₁, hanalyzer, hexported⟩ he
  cases e with
  -- no analysis among these events
  | analysis startT stopT => cases he
  | packet fup =>
    -- a packet is a capture and the handling of it
    obtain ⟨j, m', hok, -, hsvc⟩ := m₁.toFarm_packet (B := B) fup hn
    refine ⟨m', hok, (hd₁.capture fup).svc hsvc, ?_, ?_⟩
    · exact (Farm.svc_analyzer hsvc).trans ((Farm.capture_analyzer _ _).trans hanalyzer)
    · exact (Farm.svc_exported hsvc).trans ((Farm.capture_exported _ _).trans hexported)

/-- A run with an analysis in it: what comes after is the exact meter's. -/
theorem run_exact (cfg : Farm.Config n) (pre : List MeterEvent) (startT stopT : Int)
    {post : List MeterEvent} (hwide : ∀ e ∈ post, WidePacket e) :
    ∃ m₀ m x, (Farm.init cfg).toMeter.run B pre = .ok m₀ ∧
      (Farm.init cfg).toMeter.run B (pre ++ .analysis startT stopT :: post) = .ok m ∧
      ExactMeter.run ⟨(m₀.analysis startT stopT).analyzer, [], []⟩ post = .ok x ∧
      Meets B (m₀.analysis startT stopT).exported m x := by
  have hn := cfg.workers_pos
  -- up to the analysis only the dispatch invariant holds; the analysis makes the meter exact
  obtain ⟨m₀, hpre, hd⟩ := Run.run_invariant (I := fun m : Meter n => Farm.Dispatched B m.toFarm)
    (fun m e hd => dispatched_step hd hn e) (s := (Farm.init cfg).toMeter)
    (Farm.dispatched_init cfg) pre
  obtain ⟨m, x, hpost, hx, hmeets⟩ := (meets_analysis hd startT stopT).run hn hwide
  refine ⟨m₀, m, x, hpre, ?_, hx, hmeets⟩
  have hanalysis : m₀.step B (.analysis startT stopT) = .ok (m₀.analysis startT stopT) := rfl
  rw [Meter.run, Run.run_append_of_ok hpre, Run.run_cons_of_ok hanalysis]
  exact hpost

end Meter

namespace Farm

variable {n : Nat} {B : Boost}

/-- The packets of one worker, among all packets of the events. -/
theorem mem_packetsAt {i : Fin n} {es : List MeterEvent} {fup : FlowUpdate} :
    fup ∈ packetsAt B i es ↔ .packet fup ∈ es ∧ dispatchPolicy B n fup.fid = i := by
  unfold packetsAt
  rw [List.mem_filterMap]
  constructor
  · rintro ⟨e, he, hsome⟩
    cases e with
    | analysis startT stopT => cases hsome
    -- the packet that is kept is the one that was looked at
    | packet fup' =>
      dsimp only at hsome
      by_cases hi : dispatchPolicy B n fup'.fid = i
      · rw [if_pos hi] at hsome
        obtain rfl := Option.some.inj hsome
        exact ⟨he, hi⟩
      · rw [if_neg hi] at hsome
        cases hsome
  · rintro ⟨hmem, hi⟩
    exact ⟨.packet fup, hmem, if_pos hi⟩

/-- The packets that the meter sees are those captured. -/
theorem widePacket_of_visible {es : List (Event n)} (hwide : ∀ e ∈ es, WideCapture e)
    {e : MeterEvent} (he : e ∈ es.filterMap visible) : Meter.WidePacket e := by
  obtain ⟨e', he', hvisible⟩ := List.mem_filterMap.mp he
  cases e' with
  | svc i => cases hvisible
  | capture fup =>
    obtain rfl := Option.some.inj hvisible
    exact hwide _ he'
  | analysis startT stopT =>
    obtain rfl := Option.some.inj hvisible
    trivial

/-- **Exact from the second interval on.** Whatever the schedule, let `h` be the events in the order
in which they were handled, all packets having at least two octets. What follows the first analysis
in `h`, or any later one, takes the analyzer and the reports where it takes the exact meter. -/
theorem exact_from_second_interval (B : Boost) (cfg : Config n) {es : List (Event n)}
    (hwide : ∀ e ∈ es, WideCapture e) :
    ∃ s h, (init cfg).run B es = .ok s ∧
      (∀ i, packetsAt B i h ++ s.queue i = packetsAt B i (es.filterMap visible)) ∧
      h.filter MeterEvent.isAnalysis = (es.filterMap visible).filter MeterEvent.isAnalysis ∧
      ∀ pre startT stopT post, h = pre ++ .analysis startT stopT :: post →
        ∃ m x later, (init cfg).toMeter.run B (pre ++ [.analysis startT stopT]) = .ok m ∧
          ExactMeter.run ⟨m.analyzer, [], []⟩ post = .ok x ∧ s.analyzer = x.analyzer ∧
          s.exported = m.exported ++ later ∧ later.map reportOf = x.reports := by
  obtain ⟨s, h, hrun, hlin⟩ := run_linearized B cfg es
  refine ⟨s, h, hrun, hlin.packets, hlin.analyses, fun pre startT stopT post hsplit => ?_⟩
  have hpost : ∀ e ∈ post, Meter.WidePacket e := by
    intro e he
    cases e with
    | analysis startT stopT => trivial
    | packet fup =>
      -- the packet was captured
      have hlt : dispatchPolicy B n fup.fid < n := Nat.mod_lt _ cfg.workers_pos
      have hmem : fup ∈ packetsAt B ⟨_, hlt⟩ h := by
        refine mem_packetsAt.mpr ⟨?_, rfl⟩
        rw [hsplit]
        exact List.mem_append_right _ (List.mem_cons_of_mem _ he)
      have hvisible : fup ∈ packetsAt B ⟨_, hlt⟩ (es.filterMap visible) := by
        rw [← hlin.packets]
        exact List.mem_append_left _ hmem
      exact widePacket_of_visible hwide (mem_packetsAt.mp hvisible).1
  obtain ⟨m₀, m, x, hpre, hall, hx, hmeets⟩ :=
    Meter.run_exact (B := B) cfg pre startT stopT hpost
  rw [← hsplit, hlin.run] at hall
  obtain rfl := Except.ok.inj hall
  obtain ⟨later, hexported, hlater⟩ := hmeets.reports
  refine ⟨m₀.analysis startT stopT, x, later, ?_, hx, hmeets.analyzer, hexported, hlater⟩
  rw [Meter.run, Run.run_append_of_ok hpre]
  exact Run.run_singleton rfl

theorem exact_from_second_interval_single :
    (∀ e ∈ Second.events, WideCapture e) ∧
    ∃ s h, (init (.single 10)).run .standard Second.events = .ok s ∧
      (∀ i, packetsAt .standard i h ++ s.queue i =
        packetsAt .standard i (Second.events.filterMap visible)) ∧
      h.filter MeterEvent.isAnalysis =
        (Second.events.filterMap visible).filter MeterEvent.isAnalysis ∧
      ∀ pre startT stopT post, h = pre ++ .analysis startT stopT :: post →
        ∃ m x later,
          (init (.single 10)).toMeter.run .standard (pre ++ [.analysis startT stopT]) = .ok m ∧
          ExactMeter.run ⟨m.analyzer, [], []⟩ post = .ok x ∧ s.analyzer = x.analyzer ∧
          s.exported = m.exported ++ later ∧ later.map reportOf = x.reports :=
  have hwide : ∀ e ∈ Second.events, WideCapture e := by decide
  ⟨hwide, exact_from_second_interval .standard (.single 10) hwide⟩

/-! ## The number of workers does not matter -/

/-- Events up to the first analysis and behind it, if there is one. -/
theorem exists_first_analysis (es : List MeterEvent) :
    (∀ e ∈ es, e.isAnalysis = false) ∨
      ∃ pre startT stopT post, es = pre ++ .analysis startT stopT :: post ∧
        ∀ e ∈ pre, e.isAnalysis = false := by
  induction es with
  -- the events up to the first analysis, if there is one
  | nil => exact Or.inl fun e he => (List.not_mem_nil he).elim
  | cons e es ih =>
    cases e with
    | analysis startT stopT =>
      exact Or.inr ⟨[], startT, stopT, es, rfl, fun e he => (List.not_mem_nil he).elim⟩
    | packet fup =>
      rcases ih with hnone | ⟨pre, startT, stopT, post, rfl, hpre⟩
      · exact Or.inl (List.forall_mem_cons.mpr ⟨rfl, hnone⟩)
      · exact Or.inr ⟨.packet fup :: pre, startT, stopT, post, rfl,
          List.forall_mem_cons.mpr ⟨rfl, hpre⟩⟩

/-- The first analyzer sees the size of the tables and the first threshold alone. -/
theorem init_analyzer_eq {n₁ n₂ : Nat} {cfg₁ : Config n₁} {cfg₂ : Config n₂}
    (hsize : cfg₁.tableSize = cfg₂.tableSize)
    (hthreshold : cfg₁.firstThreshold = cfg₂.firstThreshold) :
    (init cfg₁).analyzer = (init cfg₂).analyzer := by
  have hnew {n : Nat} (cfg : Config n) : (init cfg).analyzer = Analyzer.new
      { ht := .new cfg.tableSize, mfilter := .oneStage, threshold := cfg.firstThreshold } := rfl
  rw [hnew, hnew, hsize, hthreshold]

theorem meter_first (cfg : Config n) {es : List MeterEvent}
    (hes : ∀ e ∈ es, e.isAnalysis = false) :
    ∃ m, (init cfg).toMeter.run B es = .ok m ∧ m.analyzer = (init cfg).analyzer ∧
      m.exported = [] := by
  obtain ⟨m, hrun, -, hanalyzer, hexported⟩ :=
    Meter.run_first (B := B) (m := (init cfg).toMeter) (dispatched_init cfg) cfg.workers_pos hes
  exact ⟨m, hrun, hanalyzer, hexported⟩

/-- What the meter comes to depends on the first interval through the number of its results. -/
theorem meter_exact (cfg : Config n) {pre post : List MeterEvent} (startT stopT : Int)
    (hpre : ∀ e ∈ pre, e.isAnalysis = false) (hwide : ∀ e ∈ post, Meter.WidePacket e) :
    ∃ m x first later,
      (init cfg).toMeter.run B (pre ++ .analysis startT stopT :: post) = .ok m ∧
      (ExactMeter.start (init cfg).analyzer startT stopT first.2.length).run post = .ok x ∧
      m.analyzer = x.analyzer ∧ m.exported = first :: later ∧
        later.map reportOf = x.reports := by
  obtain ⟨m₀, m, x, hrun₀, hrun, hx, hmeets⟩ :=
    Meter.run_exact (B := B) cfg pre startT stopT hwide
  obtain ⟨m₁, hrun₁, hanalyzer, hexported⟩ := meter_first (B := B) cfg hpre
  obtain rfl : m₀ = m₁ := Except.ok.inj (hrun₀.symm.trans hrun₁)
  obtain ⟨later, hbefore, hlater⟩ := hmeets.reports
  -- no export came before, so this one is the head of the list
  have hanalysis := analysis_eq m₀.toFarm startT stopT
  have hfirst : (m₀.analysis startT stopT).exported =
      [((m₀.toFarm.adapted startT stopT).output_results, m₀.toFarm.results)] := by
    refine (congrArg Farm.exported hanalysis).trans ?_
    rw [show m₀.toFarm.exported = [] from hexported, List.nil_append]
  -- what the first analysis adapts to is the number of its records, whatever they are
  have hadapted : m₀.toFarm.adapted startT stopT =
      (init cfg).analyzer.analysed startT stopT m₀.toFarm.results.length := by
    rw [adapted, Analyzer.adapt_eq_adaptTo, show m₀.toFarm.analyzer = _ from hanalyzer]
    rfl
  have hstart : (⟨(m₀.analysis startT stopT).analyzer, [], []⟩ : ExactMeter) =
      .start (init cfg).analyzer startT stopT m₀.toFarm.results.length := by
    rw [show (m₀.analysis startT stopT).analyzer = _ from congrArg Farm.analyzer hanalysis]
    rw [hadapted]
    rfl
  rw [hstart] at hx
  rw [hfirst] at hbefore
  exact ⟨m, x, ((m₀.toFarm.adapted startT stopT).output_results, m₀.toFarm.results), later, hrun,
    hx, hmeets.analyzer, hbefore, hlater⟩

namespace OneAndTwo

/-- Two workers, each with two stages that have one counter for all flows. -/
def two : Config 2 where
  workers_pos := Nat.two_pos
  tableSize := 1201
  tableSize_pos := (Config.single 10).tableSize_pos
  firstThreshold := 10
  hfuns := fun _ => [StageContainer.zeroHash, StageContainer.zeroHash]
  hfuns_ne_nil := fun _ => List.cons_ne_nil _ _

/-- Each packet is handled at once: of two workers, one has nothing to do. -/
def events (svc : List (Event n)) : List (Event n) :=
  .capture ⟨Second.first, 60, 54⟩ :: svc ++ .analysis 0 5000 ::
    .capture ⟨Second.later, 40, 54⟩ :: svc ++ .capture ⟨Second.first, 2, 54⟩ :: svc ++
    [.analysis 5000 10000]

/-- The events with the steps of one worker. -/
def events₁ : List (Event 1) := events [.svc ⟨0, Nat.one_pos⟩]

def events₂ : List (Event 2) := events [.svc ⟨0, Nat.two_pos⟩, .svc ⟨1, Nat.one_lt_two⟩]

end OneAndTwo

end Farm

end FHF
