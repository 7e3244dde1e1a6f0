import FHFCapturing.Farm

/-!
# Shutting down

The whole program on its way to the end. The emitter reads packets until the capture ends
(end of file, packet count) or `stopCapturing` breaks the loop; the workers take tasks from
their queues and handle them; the analyzer runs `do_work`; and `main` calls `Analyzer::stop` once
the farm has drained. Two of these ends lose packets: on a signal the analyzer stops the capture and
analyses at once, while packets still wait in the queues or in the hands of workers that wait for
their mutex; at the end of the capture `stop` only sets the flag, so that without an analysis to
come the packets since the last one are never reported. `Covering` excludes exactly these steps, and
`packets_covered` says that nothing is lost then.
-/

namespace FHF

/-- Where the emitter is in `pcap_loop`. -/
inductive EmitterPc where
  | polling
  -- a packet is read, and not yet in a queue
  | delivering (fup : FlowUpdate)
  | returned
  deriving DecidableEq, Repr

/-- Where the analyzer is in `do_work`; `signalled` tells the signal's branch from the timeout's. -/
inductive DoWorkPc where
  -- at the loop's test of `m_stoprequested`
  | testing
  -- in the wait for the timeout or a signal
  | waiting
  -- before `stopCapture`
  | stopping
  -- before `do_boundedAnalysis`
  | analysing (signalled : Bool)
  -- before `output_results`
  | outputting (signalled : Bool) (results : List FlowDescriptor)
  -- before `m_stoprequested = true`
  | setting
  | exited
  deriving DecidableEq, Repr

/-- How the wait ends: `failed` is a return of -1 with an `errno` other than `EAGAIN`. -/
inductive Wake where
  | timeout
  | signal
  | failed
  deriving DecidableEq, Repr

/-- The state of all threads. A worker that has taken a task has it until `svc` returns; the queue
in `farm` has the tasks not taken yet. -/
structure Program (n : Nat) where
  farm : Farm n
  task : Fin n → Option FlowUpdate
  emitter : EmitterPc
  breakloop : Bool
  pc : DoWorkPc
  m_stoprequested : Bool
  -- `main` has called `Analyzer::stop`
  stopped : Bool

/-- The steps of the threads. -/
inductive Action (n : Nat) where
  -- the next packet of the capture
  | read (fup : FlowUpdate)
  | deliver
  -- end of the file, or the packet count is reached
  | captureEnds
  -- a step of worker `i`
  | svc (i : Fin n)
  | stop
  -- a step of the analyzer; how the wait ends and the clock matter only while it waits
  | analyzer (wake : Wake) (startT stopT : Int)
  deriving DecidableEq, Repr

namespace Program

variable {n : Nat} (B : Boost)

/-- All threads at their start, with a farm as built. -/
def start (cfg : Farm.Config n) : Program n where
  farm := .init cfg
  task := fun _ => none
  emitter := .polling
  breakloop := false
  pc := .testing
  m_stoprequested := false
  stopped := false

/-- No task waits in a queue, and none is in the hands of a worker. -/
def AllHandled (s : Program n) : Prop := ∀ i, s.farm.queue i = [] ∧ s.task i = none

/-- `run_and_wait_end` returns. -/
def Drained (s : Program n) : Prop := s.emitter = .returned ∧ s.AllHandled

instance (s : Program n) : Decidable s.AllHandled :=
  inferInstanceAs (Decidable (∀ i, s.farm.queue i = [] ∧ s.task i = none))

instance (s : Program n) : Decidable s.Drained :=
  inferInstanceAs (Decidable (_ ∧ s.AllHandled))

/-- FastFlow pops the task at the head of the queue of worker `i`, and calls `svc` with it. -/
def taken (s : Program n) (i : Fin n) (fup : FlowUpdate) (rest : List FlowUpdate) : Program n :=
  { s with
    farm := { s.farm with queue := Function.update s.farm.queue i rest }
    task := Function.update s.task i (some fup) }

/-- `svc` has got the mutex of worker `i`, has handled its task and returns. -/
def handled (s : Program n) (i : Fin n) (w : Worker) : Program n :=
  { s with
    farm := { s.farm with workers := Function.update s.farm.workers i w }
    task := Function.update s.task i none }

/-- A step of worker `i`: it takes its next task or handles the one it has. -/
def svc (s : Program n) (i : Fin n) : Except String (Program n) :=
  match s.task i with
  | none =>
      match s.farm.queue i with
      | [] => .ok s
      | fup :: rest => .ok (s.taken i fup rest)
  | some fup =>
      match (s.farm.workers i).svc B.placement fup with
      | .ok w => .ok (s.handled i w)
      | .error msg => .error msg

/-- `do_boundedAnalysis` on an empty vector of results. -/
def analyse (s : Program n) (signalled : Bool) : Program n :=
  let (a, ws, results) := s.farm.analyzer.do_boundedAnalysis s.farm.workers []
  { s with farm := { s.farm with analyzer := a, workers := ws },
           pc := .outputting signalled results }

/-- `output_results`; only the branch of the timeout counts the interval. -/
def output (s : Program n) (signalled : Bool) (results : List FlowDescriptor) : Program n :=
  let a := s.farm.analyzer
  { s with
    farm := { s.farm with
      exported := s.farm.exported ++ [(a.output_results, results)]
      analyzer := if signalled then a else { a with intervalCounter := a.intervalCounter + 1 } }
    pc := if signalled then .setting else .testing }

/-- One step of the analyzer's thread. -/
def do_work (s : Program n) (wake : Wake) (startT stopT : Int) : Program n :=
  -- the flag is tested at the top of the loop only
  match s.pc with
  | .testing => if s.m_stoprequested then { s with pc := .exited } else { s with pc := .waiting }
  | .waiting =>
      let s := { s with farm := { s.farm with analyzer := s.farm.analyzer.waited startT stopT } }
      match wake with
      | .timeout => { s with pc := .analysing false }
      | .signal => { s with pc := .stopping }
      -- `continue`: no analysis
      | .failed => { s with pc := .testing }
  -- `stop_capture` on the emitter
  | .stopping => { s with breakloop := true, pc := .analysing true }
  | .analysing signalled => s.analyse signalled
  | .outputting signalled results => s.output signalled results
  | .setting => { s with m_stoprequested := true, pc := .testing }
  | .exited => s

/-- One step of the program; a step that its thread cannot make changes nothing. -/
def step (s : Program n) : Action n → Except String (Program n)
  | .read fup =>
      match s.emitter with
      | .polling =>
          .ok { s with emitter := if s.breakloop then .returned else .delivering fup }
      | _ => .ok s
  | .deliver =>
      match s.emitter with
      | .delivering fup => .ok { s with farm := s.farm.capture B fup, emitter := .polling }
      | _ => .ok s
  | .captureEnds =>
      match s.emitter with
      | .polling => .ok { s with emitter := .returned }
      | _ => .ok s
  | .svc i => s.svc B i
  | .stop =>
      if s.Drained ∧ ¬ s.stopped then .ok { s with m_stoprequested := true, stopped := true }
      else .ok s
  | .analyzer wake startT stopT => .ok (s.do_work wake startT stopT)

end Program

/-! ## Which packets have been reported -/

/-- The packets handled by the workers that no analysis followed by an output has covered: those
handled before the analysis whose output is still to come, and those since. -/
structure Uncovered where
  analysed : List FlowUpdate := []
  since : List FlowUpdate := []
  deriving DecidableEq, Repr

namespace Program

variable {n : Nat} {B : Boost}

/-- History variable: an analysis takes all the packets handled so far, its output covers them. -/
def uncovered (s : Program n) (e : Action n) (_ : Program n) (h : Uncovered) : Uncovered :=
  match e with
  | .svc i => { h with since := h.since ++ (s.task i).toList }
  | .analyzer _ _ _ =>
      match s.pc with
      | .analysing _ => { analysed := h.analysed ++ h.since }
      | .outputting _ _ => { h with analysed := [] }
      | _ => h
  | _ => h

/-- The analyzer will analyse before it tests the flag again, unless its wait fails. -/
def AnalysisAhead (s : Program n) : Prop :=
  s.pc = .waiting ∨ s.pc = .stopping ∨ s.pc = .analysing false ∨ s.pc = .analysing true

instance (s : Program n) : Decidable s.AnalysisAhead :=
  inferInstanceAs (Decidable (_ ∨ _ ∨ _ ∨ _))

/-- No packet is on its way from the capture to a worker. -/
def NothingPending (s : Program n) : Prop :=
  s.AllHandled ∧ ∀ fup, s.emitter ≠ .delivering fup

instance (s : Program n) : Decidable s.NothingPending :=
  decidable_of_iff (s.AllHandled ∧ (s.emitter = .polling ∨ s.emitter = .returned)) <| by
    unfold NothingPending
    cases s.emitter <;> simp

/-- The steps that lose no packet. The analysis of the signal's branch waits until nothing is
pending; `stop` comes when an analysis is ahead or nothing was handled since the last one; and
the wait does not fail after `stop` with something left to analyse. -/
def Covering (p : Program n × Uncovered) (e : Action n) : Prop :=
  match e with
  | .stop => p.1.Drained → p.1.stopped = false → p.1.AnalysisAhead ∨ p.2.since = []
  | .analyzer wake _ _ =>
      (p.1.pc = .analysing true → p.1.NothingPending) ∧
        (p.1.pc = .waiting → wake = .failed → p.1.m_stoprequested = true → p.2.since = [])
  | _ => True

instance (p : Program n × Uncovered) (e : Action n) : Decidable (Covering p e) :=
  match e with
  | .stop =>
      inferInstanceAs (Decidable (p.1.Drained → p.1.stopped = false → _ ∨ p.2.since = []))
  | .analyzer wake _ _ =>
      inferInstanceAs (Decidable ((p.1.pc = .analysing true → p.1.NothingPending) ∧
        (p.1.pc = .waiting → wake = .failed → p.1.m_stoprequested = true → p.2.since = [])))
  | .read _ => inferInstanceAs (Decidable True)
  | .deliver => inferInstanceAs (Decidable True)
  | .captureEnds => inferInstanceAs (Decidable True)
  | .svc _ => inferInstanceAs (Decidable True)

/-- **What a worker's step can do**: nothing without a task, take the next one, or handle the one
it has, which does not fail. -/
theorem svc_cases (s : Program n) (i : Fin n) :
    (s.task i = none ∧ s.farm.queue i = [] ∧ s.svc B i = .ok s) ∨
    (∃ fup rest, s.task i = none ∧ s.farm.queue i = fup :: rest ∧
      s.svc B i = .ok (s.taken i fup rest)) ∨
    ∃ fup w, s.task i = some fup ∧ (s.farm.workers i).svc B.placement fup = .ok w ∧
      s.svc B i = .ok (s.handled i w) := by
  cases htask : s.task i with
  | none =>
    cases hq : s.farm.queue i with
    | nil => exact Or.inl ⟨rfl, rfl, by simp only [svc, htask, hq]⟩
    | cons fup rest => exact Or.inr (Or.inl ⟨fup, rest, rfl, rfl, by simp only [svc, htask, hq]⟩)
  -- `svc` has no error on a table that `lookupFlow` has seen
  | some fup =>
    obtain ⟨w, hok, -⟩ := Worker.svc_cases B.placement (s.farm.workers i) fup
    exact Or.inr (Or.inr ⟨fup, w, rfl, hok, by simp only [svc, htask, hok]⟩)

theorem svc_ok (s : Program n) (i : Fin n) : ∃ s', s.svc B i = .ok s' := by
  rcases s.svc_cases (B := B) i with ⟨-, -, hok⟩ | ⟨fup, rest, -, -, hok⟩ | ⟨fup, w, -, -, hok⟩
  · exact ⟨_, hok⟩
  · exact ⟨_, hok⟩
  · exact ⟨_, hok⟩

/-- No step of the program fails. -/
theorem step_ok (s : Program n) (e : Action n) : ∃ s', s.step B e = .ok s' := by
  cases e with
  | svc i => exact s.svc_ok i
  | analyzer wake startT stopT => exact ⟨_, rfl⟩
  | stop => simp only [step]; split <;> exact ⟨_, rfl⟩
  | deliver => simp only [step]; split <;> exact ⟨_, rfl⟩
  | read fup => simp only [step]; split <;> exact ⟨_, rfl⟩
  | captureEnds => simp only [step]; split <;> exact ⟨_, rfl⟩

/-! ## What only the analyzer changes -/

/-- The steps of the analyzer's thread. -/
def Action.isAnalyzer : Action n → Bool
  | .analyzer _ _ _ => true
  | _ => false

/-- What the other threads leave alone. -/
structure Undisturbed (s s' : Program n) : Prop where
  pc : s'.pc = s.pc
  analyzer : s'.farm.analyzer = s.farm.analyzer
  exported : s'.farm.exported = s.farm.exported
  stop : s.m_stoprequested = true → s'.m_stoprequested = true
  stopped : s'.stopped = true → s.stopped = true ∨ s'.m_stoprequested = true

/-- The capture, the workers and `main` leave it alone. -/
theorem undisturbed_of_step {s s' : Program n} {e : Action n} (hok : s.step B e = .ok s')
    (he : Action.isAnalyzer e = false) : Undisturbed s s' := by
  cases e with
  | analyzer wake startT stopT => cases he
  | svc i =>
    rw [step] at hok
    -- a step of a worker changes queues, tasks and tables
    rcases s.svc_cases (B := B) i with ⟨-, -, h⟩ | ⟨fup, rest, -, -, h⟩ | ⟨fup, w, -, -, h⟩
    all_goals
      obtain rfl := Except.ok.inj (h.symm.trans hok)
      exact ⟨rfl, rfl, rfl, id, Or.inl⟩
  | deliver =>
    simp only [step] at hok
    split at hok <;> obtain rfl := Except.ok.inj hok
    · exact ⟨rfl, Farm.capture_analyzer _ _, Farm.capture_exported _ _, id, Or.inl⟩
    · exact ⟨rfl, rfl, rfl, id, Or.inl⟩
  | read fup =>
    simp only [step] at hok
    split at hok <;> obtain rfl := Except.ok.inj hok <;> exact ⟨rfl, rfl, rfl, id, Or.inl⟩
  | captureEnds =>
    simp only [step] at hok
    split at hok <;> obtain rfl := Except.ok.inj hok <;> exact ⟨rfl, rfl, rfl, id, Or.inl⟩
  | stop =>
    simp only [step] at hok
    split at hok <;> obtain rfl := Except.ok.inj hok
    · -- `stop` sets the flag when it sets `stopped`
      exact ⟨rfl, rfl, rfl, fun _ => rfl, fun _ => Or.inr rfl⟩
    · exact ⟨rfl, rfl, rfl, id, Or.inl⟩

/-- A rule for what only the analyzer's steps can change: it is enough that `do_work` keeps it. -/
theorem run_undisturbed {I : Program n → Prop}
    (hother : ∀ s s', I s → Undisturbed s s' → I s') {C : Action n → Prop}
    (hwork : ∀ s wake startT stopT, I s → C (.analyzer wake startT stopT) →
      I (s.do_work wake startT stopT))
    {s : Program n} (hs : I s) {es : List (Action n)} (hes : ∀ e ∈ es, C e) :
    ∃ s', Run.run (step B) s es = .ok s' ∧ I s' := by
  refine Run.run_invariant_of_allSteps (C := fun _ e => C e) ?_ hs
    (Run.allSteps_of_forall (fun e he _ => hes e he) s)
  intro s e hI hC
  obtain ⟨s', hok⟩ := step_ok (B := B) s e
  refine ⟨s', hok, ?_⟩
  -- an analyzer's step is `do_work`, and any other leaves the analyzer alone
  cases he : Action.isAnalyzer e with
  | false => exact hother s s' hI (undisturbed_of_step hok he)
  | true =>
    cases e with
    | analyzer wake startT stopT =>
      obtain rfl := Except.ok.inj hok
      exact hwork s wake startT stopT hI hC
    | _ => cases he

/-! ## The invariant -/

/-- No packet will ever reach a worker again. -/
structure Closed (s : Program n) : Prop where
  handled : s.AllHandled
  emitter : s.emitter = .returned ∨ s.emitter = .polling ∧ s.breakloop = true

/-- The analyzer is bound to exit: the flag is set, or the signal's analysis is done. -/
def Exiting (s : Program n) : Prop :=
  s.m_stoprequested = true ∨ (∃ results, s.pc = .outputting true results) ∨ s.pc = .setting ∨
    s.pc = .exited

/-- Only an output still to come leaves analysed packets uncovered; once the analyzer is bound to
exit no packet comes any more, and what was handled since the last analysis has an analysis
ahead. -/
structure Covered (s : Program n) (h : Uncovered) : Prop where
  analysed : (∀ signalled results, s.pc ≠ .outputting signalled results) → h.analysed = []
  exiting : s.Exiting → s.Closed ∧ (s.AnalysisAhead ∨ h.since = [])
  breakloop : s.pc = .analysing true → s.breakloop = true

theorem covered_start (cfg : Farm.Config n) : Covered (start cfg) {} where
  analysed := fun _ => rfl
  exiting := by simp [Exiting, start]
  breakloop := by simp [start]

namespace Covered

variable {s : Program n} {h : Uncovered}

/-- Exiting without an analysis ahead: everything handled has been analysed. -/
theorem since_eq_nil (hcov : Covered s h) (hexit : s.Exiting) (hpc : ¬ s.AnalysisAhead) :
    h.since = [] :=
  (hcov.exiting hexit).2.resolve_left hpc

/-- The invariant does not see what the emitter and the workers do, as long as packets keep
coming only while the analyzer is not bound to exit. -/
theorem of_farm (hcov : Covered s h) (farm : Farm n) (task : Fin n → Option FlowUpdate)
    (em : EmitterPc) (since : List FlowUpdate)
    (hclosed : s.Closed → Closed { s with farm, task, emitter := em } ∧ since = h.since) :
    Covered { s with farm, task, emitter := em } { h with since := since } where
  analysed := hcov.analysed
  breakloop := hcov.breakloop
  exiting := by
    intro hexit
    obtain ⟨hold, hahead⟩ := hcov.exiting hexit
    obtain ⟨hnew, rfl⟩ := hclosed hold
    exact ⟨hnew, hahead⟩

/-- A closed program reads no packet: `breakloop` was called. -/
theorem read_step (hcov : Covered s h) (fup : FlowUpdate) :
    ∃ s', s.step B (.read fup) = .ok s' ∧ Covered s' h := by
  cases hem : s.emitter with
  | polling =>
    refine ⟨{ s with emitter := if s.breakloop then .returned else .delivering fup },
      by simp only [step, hem], hcov.of_farm _ _ _ _ fun hcl => ?_⟩
    have hbreak : s.breakloop = true := by
      rcases hcl.emitter with hret | ⟨-, hbreak⟩
      · rw [hem] at hret; cases hret
      · exact hbreak
    exact ⟨⟨hcl.handled, Or.inl (by simp [hbreak])⟩, rfl⟩
  | _ => exact ⟨s, by simp only [step, hem], hcov⟩

/-- A closed program has no packet to deliver. -/
theorem deliver_step (hcov : Covered s h) : ∃ s', s.step B .deliver = .ok s' ∧ Covered s' h := by
  cases hem : s.emitter with
  | delivering fup =>
    refine ⟨{ s with farm := s.farm.capture B fup, emitter := .polling },
      by simp only [step, hem], hcov.of_farm _ _ _ _ fun hcl => ?_⟩
    rcases hcl.emitter with hret | ⟨hpoll, -⟩
    · rw [hem] at hret; cases hret
    · rw [hem] at hpoll; cases hpoll
  | _ => exact ⟨s, by simp only [step, hem], hcov⟩

/-- The end of the capture brings no packet. -/
theorem captureEnds_step (hcov : Covered s h) :
    ∃ s', s.step B .captureEnds = .ok s' ∧ Covered s' h := by
  cases hem : s.emitter with
  | polling =>
    refine ⟨{ s with emitter := .returned }, by simp only [step, hem],
      hcov.of_farm _ _ _ _ fun hcl => ?_⟩
    exact ⟨⟨hcl.handled, Or.inl rfl⟩, rfl⟩
  | _ => exact ⟨s, by simp only [step, hem], hcov⟩

/-- Once the program is closed, a worker has nothing to take and nothing to handle. -/
theorem svc_step (hcov : Covered s h) (i : Fin n) :
    ∃ s', s.step B (.svc i) = .ok s' ∧ Covered s' (uncovered s (.svc i) s' h) := by
  rcases s.svc_cases (B := B) i with
    ⟨htask, -, hok⟩ | ⟨fup, rest, htask, hq, hok⟩ | ⟨fup, w, htask, -, hok⟩
  · refine ⟨s, hok, ?_⟩
    simpa [uncovered, htask] using hcov
  · refine ⟨_, hok, ?_⟩
    -- closed, and a task in a queue: both cannot be
    refine hcov.of_farm _ _ s.emitter _ fun hcl => ?_
    rw [(hcl.handled i).1] at hq
    cases hq
  · refine ⟨_, hok, ?_⟩
    -- nor with a task taken
    refine hcov.of_farm _ _ s.emitter _ fun hcl => ?_
    rw [(hcl.handled i).2] at htask
    cases htask

/-- `stop` sets the flag when the farm has drained; the condition on the step is about this. -/
theorem stop_step (hcov : Covered s h) (hC : Covering (s, h) .stop) :
    ∃ s', s.step B .stop = .ok s' ∧ Covered s' h := by
  by_cases hstop : s.Drained ∧ ¬ s.stopped
  · refine ⟨{ s with m_stoprequested := true, stopped := true }, if_pos hstop, ?_⟩
    refine { analysed := hcov.analysed, breakloop := hcov.breakloop, exiting := fun _ => ?_ }
    exact ⟨⟨hstop.1.2, Or.inl hstop.1.1⟩, hC hstop.1 (by simpa using hstop.2)⟩
  · exact ⟨s, if_neg hstop, hcov⟩

/-- The steps of the analyzer that bind it to nothing: they keep the queues, leave nothing waiting
for its output, and do not turn from an analysis that `stop` relies on. -/
theorem goto (hcov : Covered s h) (farm : Farm n) (hqueue : farm.queue = s.farm.queue)
    {pc : DoWorkPc}
    (hpc : pc = .testing ∨ pc = .waiting ∨ pc = .stopping ∨ pc = .analysing false)
    {h' : Uncovered} (hanalysed : h'.analysed = [])
    (hahead : s.m_stoprequested = true → AnalysisAhead { s with farm, pc } ∨ h'.since = []) :
    Covered { s with farm, pc } h' where
  analysed := fun _ => hanalysed
  breakloop := by rcases hpc with rfl | rfl | rfl | rfl <;> simp
  exiting := by
    intro hexit
    -- none of these places binds the analyzer to exit, so it must be the flag
    have hstop : s.m_stoprequested = true := by
      rcases hpc with rfl | rfl | rfl | rfl <;> simpa [Exiting] using hexit
    obtain ⟨hhandled, hemitter⟩ := (hcov.exiting (Or.inl hstop)).1
    refine ⟨⟨fun i => ⟨?_, (hhandled i).2⟩, hemitter⟩, hahead hstop⟩
    exact (congrFun hqueue i).trans (hhandled i).1

/-- The steps of the analyzer once it is bound to exit and no analysis is ahead: everything handled
has been analysed, and nothing comes any more. -/
theorem leave (hcov : Covered s h) (hexit : s.Exiting) (hahead : ¬ s.AnalysisAhead) (farm : Farm n)
    (hqueue : farm.queue = s.farm.queue) {pc : DoWorkPc}
    (hpc : pc = .testing ∨ pc = .setting ∨ pc = .exited) (m_stoprequested : Bool) {h' : Uncovered}
    (hanalysed : h'.analysed = []) (hsince : h'.since = h.since) :
    Covered { s with farm, pc, m_stoprequested } h' where
  analysed := fun _ => hanalysed
  breakloop := by rcases hpc with rfl | rfl | rfl <;> simp
  exiting := by
    intro _
    obtain ⟨hhandled, hemitter⟩ := (hcov.exiting hexit).1
    refine ⟨⟨fun i => ⟨?_, (hhandled i).2⟩, hemitter⟩,
      Or.inr (hsince.trans (hcov.since_eq_nil hexit hahead))⟩
    exact (congrFun hqueue i).trans (hhandled i).1

/-- **A step of the analyzer**, by where it is. -/
theorem do_work (hcov : Covered s h) {wake : Wake} {startT stopT : Int}
    (hC : Covering (s, h) (.analyzer wake startT stopT)) :
    Covered (s.do_work wake startT stopT)
      (uncovered s (.analyzer wake startT stopT) (s.do_work wake startT stopT) h) := by
  obtain ⟨hCsignal, hCfail⟩ := hC
  cases hpc : s.pc with
  | testing =>
    have hanalysed := hcov.analysed (by simp [hpc])
    by_cases hstop : s.m_stoprequested = true
    · -- the loop ends; no analysis is ahead, so there must be nothing left
      simp only [Program.do_work, uncovered, hpc]
      rw [if_pos hstop]
      exact hcov.leave (Or.inl hstop) (by simp [AnalysisAhead, hpc]) s.farm rfl
        (Or.inr (Or.inr rfl)) s.m_stoprequested hanalysed rfl
    · simp only [Program.do_work, uncovered, hpc]
      rw [if_neg hstop]
      exact hcov.goto s.farm rfl (Or.inr (Or.inl rfl)) hanalysed fun h => absurd h hstop
  | waiting =>
    have hanalysed := hcov.analysed (by simp [hpc])
    -- the wait only stamps the times
    let farm := { s.farm with analyzer := s.farm.analyzer.waited startT stopT }
    cases wake with
    | timeout =>
      simp only [Program.do_work, uncovered, hpc]
      exact hcov.goto farm rfl (Or.inr (Or.inr (Or.inr rfl))) hanalysed
        fun _ => Or.inl (by simp [AnalysisAhead])
    | signal =>
      simp only [Program.do_work, uncovered, hpc]
      exact hcov.goto farm rfl (Or.inr (Or.inr (Or.inl rfl))) hanalysed
        fun _ => Or.inl (by simp [AnalysisAhead])
    | failed =>
      -- back to the test without an analysis
      simp only [Program.do_work, uncovered, hpc]
      exact hcov.goto farm rfl (Or.inl rfl) hanalysed fun hstop => Or.inr (hCfail hpc rfl hstop)
  | stopping =>
    have hanalysed := hcov.analysed (by simp [hpc])
    simp only [Program.do_work, uncovered, hpc]
    refine ⟨fun _ => hanalysed, fun hexit => ?_, by simp⟩
    have hstop : s.m_stoprequested = true := by simpa [Exiting] using hexit
    obtain ⟨hhandled, hemitter⟩ := (hcov.exiting (Or.inl hstop)).1
    exact ⟨⟨hhandled, hemitter.imp_right fun hpoll => ⟨hpoll.1, rfl⟩⟩,
      Or.inl (by simp [AnalysisAhead])⟩
  | analysing signalled =>
    simp only [Program.do_work, uncovered, hpc, analyse]
    refine ⟨fun hne => absurd rfl (hne _ _), fun hexit => ⟨?_, Or.inr rfl⟩, by simp⟩
    cases signalled with
    | false =>
      have hstop : s.m_stoprequested = true := by simpa [Exiting] using hexit
      obtain ⟨hhandled, hemitter⟩ := (hcov.exiting (Or.inl hstop)).1
      exact ⟨hhandled, hemitter⟩
    | true =>
      -- from here on the analyzer is bound to exit: the capture is stopped, nothing is pending
      obtain ⟨hhandled, hidle⟩ := hCsignal hpc
      refine ⟨hhandled, ?_⟩
      cases hem : s.emitter with
      | polling => exact Or.inr ⟨rfl, hcov.breakloop hpc⟩
      | delivering fup => exact absurd hem (hidle fup)
      | returned => exact Or.inl rfl
  | outputting signalled results =>
    simp only [Program.do_work, uncovered, hpc, output]
    let a := s.farm.analyzer
    let exported := s.farm.exported ++ [(a.output_results, results)]
    cases signalled with
    | false =>
      refine hcov.goto { s.farm with
        exported
        analyzer := { a with intervalCounter := a.intervalCounter + 1 } } rfl (Or.inl rfl) rfl
        fun hstop => Or.inr ?_
      exact hcov.since_eq_nil (Or.inl hstop) (by simp [AnalysisAhead, hpc])
    | true =>
      exact hcov.leave (Or.inr (Or.inl ⟨results, hpc⟩)) (by simp [AnalysisAhead, hpc])
        { s.farm with exported } rfl (Or.inr (Or.inl rfl)) s.m_stoprequested rfl rfl
  | setting =>
    simp only [Program.do_work, uncovered, hpc]
    exact hcov.leave (Or.inr (Or.inr (Or.inl hpc))) (by simp [AnalysisAhead, hpc]) s.farm rfl
      (Or.inl rfl) true (hcov.analysed (by simp [hpc])) rfl
  | exited =>
    simp only [Program.do_work, uncovered, hpc]
    exact hcov

theorem step (hcov : Covered s h) {e : Action n} (hC : Covering (s, h) e) :
    ∃ s', s.step B e = .ok s' ∧ Covered s' (uncovered s e s' h) := by
  cases e with
  | read fup => exact hcov.read_step fup
  | deliver => exact hcov.deliver_step
  | captureEnds => exact hcov.captureEnds_step
  | svc i => exact hcov.svc_step i
  | stop => exact hcov.stop_step hC
  | analyzer wake startT stopT => exact ⟨_, rfl, hcov.do_work hC⟩

end Covered

/-- **No handled packet is lost by covering steps.** In every state that a run of such steps
reaches with the analyzer thread terminated, all packets handled so far have been analysed and
output, and no packet will ever reach a worker again. -/
theorem packets_covered (B : Boost) (cfg : Farm.Config n) (es : List (Action n))
    (hC : Run.AllSteps (Run.observed (Program.step B) uncovered) Covering (start cfg, {}) es) :
    ∃ s h, Run.run (Run.observed (Program.step B) uncovered) (start cfg, {}) es = .ok (s, h) ∧
      (s.pc = .exited → h = {} ∧ s.Closed) := by
  have hstep : ∀ (p : Program n × Uncovered) (e : Action n), Covered p.1 p.2 → Covering p e →
      ∃ p', Run.observed (Program.step B) uncovered p e = .ok p' ∧ Covered p'.1 p'.2 := by
    rintro ⟨s, h⟩ e hcov hC
    obtain ⟨s', hok, hcov'⟩ := hcov.step (B := B) hC
    exact ⟨_, Run.observed_of_ok hok h, hcov'⟩
  obtain ⟨⟨s, h⟩, hrun, hcov⟩ := Run.run_invariant_of_allSteps
    (I := fun p : Program n × Uncovered => Covered p.1 p.2) hstep (covered_start cfg) hC
  refine ⟨s, h, hrun, fun hpc => ?_⟩
  -- a terminated analyzer is bound to exit, and has no analysis ahead
  have hexit : s.Exiting := Or.inr (Or.inr (Or.inr hpc))
  have hsince := hcov.since_eq_nil hexit (by simp [AnalysisAhead, hpc])
  have hanalysed := hcov.analysed (by simp [hpc])
  obtain ⟨analysed, since⟩ := h
  simp only at hsince hanalysed
  subst hsince hanalysed
  exact ⟨rfl, (hcov.exiting hexit).1⟩

/-! ## Three ends of a capture

One packet. In the first run it is in the hands of the worker when the signal comes, and is handled
after the analyzer has terminated. In the second it is handled before the signal, whose analysis
covers it. In the third the capture ends while the analyzer waits, and the timeout's analysis covers
it. -/

namespace Ends

def fup : FlowUpdate := ⟨⟨1, 9, 1000, 80, 6⟩, 150, 34⟩

/-- The signal comes between the taking and the handling. -/
def bySignal : List (Action 1) :=
  [.analyzer .timeout 0 0, .read fup, .deliver, .svc ⟨0, Nat.one_pos⟩, .analyzer .signal 0 1,
    .analyzer .timeout 0 1, .analyzer .timeout 0 1, .analyzer .timeout 0 1,
    .analyzer .timeout 0 1, .analyzer .timeout 0 1, .svc ⟨0, Nat.one_pos⟩]

/-- The signal comes after the handling; `stop` finds the analyzer's thread terminated. -/
def afterHandling : List (Action 1) :=
  [.analyzer .timeout 0 0, .read fup, .deliver, .svc ⟨0, Nat.one_pos⟩, .svc ⟨0, Nat.one_pos⟩,
    .analyzer .signal 0 1, .analyzer .timeout 0 1, .analyzer .timeout 0 1,
    .analyzer .timeout 0 1, .analyzer .timeout 0 1, .analyzer .timeout 0 1, .read fup, .stop]

/-- `stop` comes while the analyzer waits. -/
def byTimeout : List (Action 1) :=
  [.analyzer .timeout 0 0, .read fup, .deliver, .captureEnds, .svc ⟨0, Nat.one_pos⟩,
    .svc ⟨0, Nat.one_pos⟩, .stop, .analyzer .timeout 0 1, .analyzer .timeout 0 1,
    .analyzer .timeout 0 1, .analyzer .timeout 0 1]

/-- The analyzer has terminated, and the packet is not covered. -/
theorem bySignal_uncovered :
    (Run.run (Run.observed (Program.step .standard) uncovered)
        (start (.single 1), {}) bySignal).map (fun p => (p.1.pc, p.2.since)) =
      .ok (.exited, [fup]) := by
  decide +kernel

end Ends

/-- A packet is handled after the last analysis. -/
theorem packet_lost_by_signal :
    ¬ ∀ (n : Nat) (B : Boost) (cfg : Farm.Config n) (es : List (Action n)),
      ∃ s h, Run.run (Run.observed (Program.step B) uncovered) (start cfg, {}) es =
          .ok (s, h) ∧ (s.pc = .exited → h = {}) := by
  intro hall
  obtain ⟨s, h, hrun, hcovered⟩ := hall 1 .standard (.single 1) Ends.bySignal
  have hlost := Ends.bySignal_uncovered
  rw [hrun] at hlost
  simp only [Except.map, Except.ok.injEq, Prod.mk.injEq] at hlost
  rw [hcovered hlost.1] at hlost
  cases hlost.2

/-- The runs that end by a signal after the packet was handled, and by a timeout. -/
theorem packets_covered_ends :
    (∃ s h, Run.run (Run.observed (Program.step .standard) uncovered)
        (start (.single 1), {}) Ends.afterHandling = .ok (s, h) ∧
      (s.pc = .exited → h = {} ∧ s.Closed)) ∧
    ∃ s h, Run.run (Run.observed (Program.step .standard) uncovered)
        (start (.single 1), {}) Ends.byTimeout = .ok (s, h) ∧
      (s.pc = .exited → h = {} ∧ s.Closed) :=
  ⟨packets_covered .standard (.single 1) Ends.afterHandling (by decide +kernel),
    packets_covered .standard (.single 1) Ends.byTimeout (by decide +kernel)⟩

end Program

end FHF
