import FHFCapturing.Dispatch

/-!
# Scheduling does not matter

What the farm is for, without its threads: a meter that handles every packet when it is captured
(`Meter`). The farm delays packets in the workers' queues. Draining them gives the state of the
meter (`Flushes`): a capture is the meter's packet, a worker that handles a task changes nothing,
and an analysis is the meter's when no packet is waiting. So two schedules of the same captures
and intervals, both drained before each analysis, export the same reports (`schedule_irrelevant`).

With packets waiting, an analysis is early for them. The run is then that of the meter on the
packets in the order in which the workers handle them, and no packet overtakes another of the
same worker (`linearizable`).
-/

namespace FHF

/-- The farm with no queue between capture and worker. -/
@[ext] structure Meter (n : Nat) where
  workers : Fin n → Worker
  analyzer : Analyzer
  exported : List (IntervalDescriptor × List FlowDescriptor)

/-- A packet, or the end of an interval. -/
inductive MeterEvent where
  | packet (fup : FlowUpdate)
  | analysis (startT stopT : Int)
  deriving DecidableEq, Repr

/-- The ends of intervals among the events. -/
def MeterEvent.isAnalysis : MeterEvent → Bool
  | .packet _ => false
  | .analysis _ _ => true

namespace Meter

variable {n : Nat} (B : Boost)

/-- The worker of the packet's flow handles it. -/
def packet (m : Meter n) (fup : FlowUpdate) : Except String (Meter n) :=
  if h : dispatchPolicy B n fup.fid < n then
    match (m.workers ⟨_, h⟩).svc B.placement fup with
    | .ok w => .ok { m with workers := Function.update m.workers ⟨_, h⟩ w }
    | .error msg => .error msg
  else .ok m

/-- One turn of `do_work` after a timeout. -/
def analysis (m : Meter n) (startT stopT : Int) : Meter n :=
  let (a, ws, results) := (m.analyzer.waited startT stopT).do_boundedAnalysis m.workers []
  { workers := ws
    analyzer := { a with intervalCounter := a.intervalCounter + 1 }
    exported := m.exported ++ [(a.output_results, results)] }

def step (m : Meter n) : MeterEvent → Except String (Meter n)
  | .packet fup => m.packet B fup
  | .analysis startT stopT => .ok (m.analysis startT stopT)

def run (m : Meter n) (es : List MeterEvent) : Except String (Meter n) := Run.run (step B) m es

variable {B}

/-- The packet of a flow changes the worker of the flow. -/
theorem packet_of_svc {m : Meter n} {fup : FlowUpdate} {i : Fin n} {w : Worker}
    (hi : dispatchPolicy B n fup.fid = i) (hok : (m.workers i).svc B.placement fup = .ok w) :
    m.packet B fup = .ok { m with workers := Function.update m.workers i w } := by
  have hlt : dispatchPolicy B n fup.fid < n := hi ▸ i.isLt
  obtain rfl : i = ⟨_, hlt⟩ := Fin.ext hi.symm
  simp only [packet, hlt, ↓reduceDIte, hok]

end Meter

namespace Farm

variable {n : Nat} {B : Boost}

/-- The farm without its queues. -/
def toMeter (s : Farm n) : Meter n := ⟨s.workers, s.analyzer, s.exported⟩

theorem toMeter_analysis (s : Farm n) (startT stopT : Int) :
    (s.analysis startT stopT).toMeter = s.toMeter.analysis startT stopT := rfl

/-! ## Draining the queues -/

/-- The meter is what the farm becomes when its queues drain. -/
structure Flushes (B : Boost) (s : Farm n) (m : Meter n) : Prop where
  workers : ∀ i, (s.workers i).svcAll B.placement (s.queue i) = .ok (m.workers i)
  analyzer : m.analyzer = s.analyzer
  exported : m.exported = s.exported

/-- What the meter sees of an event. -/
def visible : Event n → Option MeterEvent
  | .capture fup => some (.packet fup)
  | .svc _ => none
  | .analysis startT stopT => some (.analysis startT stopT)

/-- No packet waits when an interval is analysed. -/
def DrainedAnalysis (s : Farm n) (e : Event n) : Prop :=
  e.isAnalysis = true → ∀ i, s.queue i = []

instance (s : Farm n) (e : Event n) : Decidable (DrainedAnalysis s e) :=
  inferInstanceAs (Decidable (e.isAnalysis = true → ∀ i, s.queue i = []))

namespace Flushes

variable {s : Farm n} {m : Meter n}

/-- A farm with empty queues is its own meter. -/
theorem refl_of_drained (hq : ∀ i, s.queue i = []) : Flushes B s s.toMeter where
  workers := fun i => by rw [hq i]; rfl
  analyzer := rfl
  exported := rfl

/-- With empty queues there is nothing to drain. -/
theorem eq_of_drained (h : Flushes B s m) (hq : ∀ i, s.queue i = []) : m = s.toMeter := by
  have hworkers : m.workers = s.workers := funext fun i => by
    have hi := h.workers i
    rw [hq i] at hi
    exact (Except.ok.inj hi).symm
  exact Meter.ext hworkers h.analyzer h.exported

/-- A captured packet is the last that its worker will handle. -/
theorem capture (h : Flushes B s m) (fup : FlowUpdate) :
    ∃ m', m.step B (.packet fup) = .ok m' ∧ Flushes B (s.capture B fup) m' := by
  by_cases hlt : dispatchPolicy B n fup.fid < n
  · -- the packet's worker handles it last, after all that it has queued
    obtain ⟨w, hok, -⟩ := Worker.svc_cases B.placement (m.workers ⟨_, hlt⟩) fup
    refine ⟨_, Meter.packet_of_svc rfl hok, ?_⟩
    unfold Farm.capture
    rw [dif_pos hlt]
    refine ⟨fun i => ?_, h.analyzer, h.exported⟩
    dsimp only
    by_cases hi : i = ⟨_, hlt⟩
    · subst hi
      rw [Function.update_self, Function.update_self, Worker.svcAll,
        Run.run_append_of_ok (h.workers _)]
      exact Run.run_singleton hok
    · -- the other workers have the same queues
      rw [Function.update_of_ne hi, Function.update_of_ne hi]
      exact h.workers i
  · -- no worker, and the packet is dropped by both
    refine ⟨m, by simp [Meter.step, Meter.packet, hlt], ?_⟩
    unfold Farm.capture
    rwa [dif_neg hlt]

/-- Handling the first task is a part of the draining. -/
theorem svc (h : Flushes B s m) {s' : Farm n} {j : Fin n} (hok : s.svc B j = .ok s') :
    Flushes B s' m := by
  refine ⟨fun i => ?_, h.analyzer.trans (svc_analyzer hok).symm,
    h.exported.trans (svc_exported hok).symm⟩
  cases hq : s.queue j with
  -- an empty queue: no step
  | nil =>
    rw [svc_of_nil hq] at hok
    obtain rfl := Except.ok.inj hok
    exact h.workers i
  -- the first of the queue is the first of the draining
  | cons fup rest =>
    simp only [Farm.svc, hq] at hok
    cases hsvc : (s.workers j).svc B.placement fup with
    | error msg => simp [hsvc] at hok
    | ok w =>
      rw [hsvc] at hok
      obtain rfl := Except.ok.inj hok
      dsimp only
      by_cases hi : i = j
      · subst hi
        have hall := h.workers i
        rw [hq, Worker.svcAll, Run.run_cons_of_ok hsvc] at hall
        rwa [Function.update_self, Function.update_self]
      · rw [Function.update_of_ne hi, Function.update_of_ne hi]
        exact h.workers i

/-- **The simulation.** What the meter sees of an event, it does when the packet is captured. -/
theorem step (h : Flushes B s m) {e : Event n} (hC : DrainedAnalysis s e) :
    ∃ s' m', s.step B e = .ok s' ∧ Run.run (Meter.step B) m (visible e).toList = .ok m' ∧
      Flushes B s' m' := by
  cases e with
  | capture fup =>
    obtain ⟨m', hok, h'⟩ := h.capture fup
    exact ⟨_, m', rfl, Run.run_singleton hok, h'⟩
  | svc i =>
    obtain ⟨s', hok⟩ := step_ok (B := B) s (.svc i)
    exact ⟨s', m, hok, rfl, h.svc hok⟩
  | analysis startT stopT =>
    -- the queues are empty, so the farm is its meter
    have hq := hC rfl
    obtain rfl := h.eq_of_drained hq
    refine ⟨_, _, rfl, Run.run_singleton rfl, ?_⟩
    rw [← toMeter_analysis]
    exact refl_of_drained hq

end Flushes

/-- **The farm refines the meter**, as long as no analysis is early for a packet. -/
theorem run_flushes (B : Boost) (cfg : Config n) {es : List (Event n)}
    (hC : Run.AllSteps (step B) DrainedAnalysis (init cfg) es) :
    ∃ s m, (init cfg).run B es = .ok s ∧
      (init cfg).toMeter.run B (es.filterMap visible) = .ok m ∧ Flushes B s m := by
  have hstep : ∀ (s : Farm n) (m : Meter n) (e : Event n), Flushes B s m → DrainedAnalysis s e →
      ∃ s' m', Farm.step B s e = .ok s' ∧
        Run.run (Meter.step B) m (visible e).toList = .ok m' ∧ Flushes B s' m' :=
    fun _ _ _ h hC => h.step hC
  exact Run.run_refines_of_allSteps hstep (Flushes.refl_of_drained fun _ => rfl) hC

/-- **Scheduling is irrelevant.** Two runs with the same captures and intervals in the same order,
each analysis with drained queues: whatever the workers did in between, the same reports are
exported, the analyzer has the same state, and once both have drained so do the workers. -/
theorem schedule_irrelevant (B : Boost) (cfg : Config n) (es₁ es₂ : List (Event n))
    (hsame : es₁.filterMap visible = es₂.filterMap visible)
    (h₁ : Run.AllSteps (step B) DrainedAnalysis (init cfg) es₁)
    (h₂ : Run.AllSteps (step B) DrainedAnalysis (init cfg) es₂) :
    ∃ s₁ s₂, (init cfg).run B es₁ = .ok s₁ ∧ (init cfg).run B es₂ = .ok s₂ ∧
      s₁.exported = s₂.exported ∧ s₁.analyzer = s₂.analyzer ∧
      ((∀ i, s₁.queue i = []) → (∀ i, s₂.queue i = []) → s₁.workers = s₂.workers) := by
  obtain ⟨s₁, m₁, hrun₁, hmeter₁, hf₁⟩ := run_flushes B cfg h₁
  obtain ⟨s₂, m₂, hrun₂, hmeter₂, hf₂⟩ := run_flushes B cfg h₂
  -- one meter for both
  obtain rfl : m₁ = m₂ := by
    rw [hsame, hmeter₂] at hmeter₁
    exact (Except.ok.inj hmeter₁).symm
  refine ⟨s₁, s₂, hrun₁, hrun₂, hf₁.exported.symm.trans hf₂.exported,
    hf₁.analyzer.symm.trans hf₂.analyzer, fun hq₁ hq₂ => ?_⟩
  have heq := (hf₁.eq_of_drained hq₁).symm.trans (hf₂.eq_of_drained hq₂)
  exact congrArg Meter.workers heq

/-! Two packets in one interval: handled one by one, or both at its end. -/

namespace Schedules

/-- A packet of 150 bytes from `src`. -/
def fup (src : UInt32) : FlowUpdate := ⟨⟨src, 9, 1000, 80, 6⟩, 150, 34⟩

/-- Each packet is handled as soon as it is captured. -/
def eager : List (Event 1) :=
  [.capture (fup 1), .svc ⟨0, Nat.one_pos⟩, .capture (fup 2), .svc ⟨0, Nat.one_pos⟩,
    .analysis 0 5]

/-- Both are handled after the second capture. -/
def lazy : List (Event 1) :=
  [.capture (fup 1), .capture (fup 2), .svc ⟨0, Nat.one_pos⟩, .svc ⟨0, Nat.one_pos⟩,
    .analysis 0 5]

end Schedules

theorem schedule_irrelevant_eager_lazy :
    ∃ s₁ s₂, (init (.single 1)).run .standard Schedules.eager = .ok s₁ ∧
      (init (.single 1)).run .standard Schedules.lazy = .ok s₂ ∧
      s₁.exported = s₂.exported ∧ s₁.analyzer = s₂.analyzer ∧
      ((∀ i, s₁.queue i = []) → (∀ i, s₂.queue i = []) → s₁.workers = s₂.workers) :=
  schedule_irrelevant .standard (.single 1) Schedules.eager Schedules.lazy rfl
    (by decide +kernel) (by decide +kernel)

/-! ## Packets that wait over an analysis -/

/-- The packets among the events that worker `i` handles. -/
def packetsAt (B : Boost) (i : Fin n) (es : List MeterEvent) : List FlowUpdate :=
  es.filterMap fun
    | .packet fup => if dispatchPolicy B n fup.fid = i then some fup else none
    | .analysis _ _ => none

theorem packetsAt_append (i : Fin n) (es fs : List MeterEvent) :
    packetsAt B i (es ++ fs) = packetsAt B i es ++ packetsAt B i fs :=
  List.filterMap_append

theorem packetsAt_packet (i : Fin n) (fup : FlowUpdate) :
    packetsAt B i [.packet fup] = if dispatchPolicy B n fup.fid = i then [fup] else [] := by
  unfold packetsAt
  by_cases hi : dispatchPolicy B n fup.fid = i <;> simp [hi]

theorem dispatchPolicy_lt (i : Fin n) (fid : FlowID) : dispatchPolicy B n fid < n :=
  Nat.mod_lt _ i.pos

/-- Between two analyses each worker handles its packets. Induction on the events. -/
theorem svcAll_of_run {m m' : Meter n} {es : List MeterEvent} (hrun : m.run B es = .ok m')
    (hes : ∀ e ∈ es, e.isAnalysis = false) (i : Fin n) :
    (m.workers i).svcAll B.placement (packetsAt B i es) = .ok (m'.workers i) := by
  induction es generalizing m with
  | nil =>
    obtain rfl := Except.ok.inj hrun
    rfl
  | cons e es ih =>
    obtain ⟨hhead, htail⟩ := List.forall_mem_cons.mp hes
    cases e with
    | analysis startT stopT => cases hhead
    -- the packet is for one worker, and it is this one or another
    | packet fup =>
      obtain ⟨j, hj⟩ : ∃ j : Fin n, dispatchPolicy B n fup.fid = j :=
        ⟨⟨_, dispatchPolicy_lt i fup.fid⟩, rfl⟩
      obtain ⟨w, hok, -⟩ := Worker.svc_cases B.placement (m.workers j) fup
      have hstep : m.step B (.packet fup) = .ok _ := Meter.packet_of_svc hj hok
      rw [Meter.run, Run.run_cons_of_ok hstep] at hrun
      have hrest := ih hrun htail
      dsimp only at hrest
      rw [← List.singleton_append, packetsAt_append, packetsAt_packet]
      -- its packet is the first of the sequence
      by_cases hi : i = j
      · subst hi
        rw [Function.update_self] at hrest
        rw [if_pos hj, List.singleton_append, Worker.svcAll, Run.run_cons_of_ok hok]
        exact hrest
      · -- no packet of this worker
        rw [Function.update_of_ne hi] at hrest
        rw [if_neg fun h => hi (Fin.ext (h.symm.trans hj))]
        exact hrest

/-- History variable: packets and analyses in the order in which they are handled. -/
def handlingOrder (s : Farm n) (e : Event n) (_ : Farm n) (h : List MeterEvent) :
    List MeterEvent :=
  match e with
  | .capture _ => h
  | .svc i => h ++ ((s.queue i).head?.map MeterEvent.packet).toList
  | .analysis startT stopT => h ++ [.analysis startT stopT]

/-- The state is the meter's on the events in handling order, which are those so far without the
packets that wait; each worker's packets keep their order, and so do the analyses. -/
structure Linearized (B : Boost) (m₀ : Meter n) (pre : List (Event n)) (s : Farm n)
    (h : List MeterEvent) : Prop where
  dispatched : Dispatched B s
  run : m₀.run B h = .ok s.toMeter
  packets : ∀ i, packetsAt B i h ++ s.queue i = packetsAt B i (pre.filterMap visible)
  analyses : h.filter MeterEvent.isAnalysis =
    (pre.filterMap visible).filter MeterEvent.isAnalysis

namespace Linearized

variable {m₀ : Meter n} {pre : List (Event n)} {s : Farm n} {h : List MeterEvent}

/-- A captured packet joins the events not handled yet. -/
theorem capture (hlin : Linearized B m₀ pre s h) (fup : FlowUpdate) :
    Linearized B m₀ (pre ++ [.capture fup]) (s.capture B fup) h where
  dispatched := hlin.dispatched.capture fup
  run := by
    -- the workers have handled what they had before
    rw [hlin.run]
    unfold toMeter
    rw [capture_workers, capture_analyzer, capture_exported]
  packets := fun i => by
    -- the packet is captured, and waits for its worker
    rw [capture_queue, ← List.append_assoc, hlin.packets i, List.filterMap_append,
      packetsAt_append]
    exact congrArg _ (packetsAt_packet i fup).symm
  analyses := by
    rw [hlin.analyses, List.filterMap_append, List.filter_append]
    exact (List.append_nil _).symm

/-- A handled packet goes to the end of the handling order. -/
theorem svc (hlin : Linearized B m₀ pre s h) {s' : Farm n} {j : Fin n}
    (hok : s.svc B j = .ok s') :
    Linearized B m₀ (pre ++ [.svc j]) s' (handlingOrder s (.svc j) s' h) := by
  have hpre : (pre ++ [Event.svc j]).filterMap visible = pre.filterMap visible := by
    rw [List.filterMap_append]
    exact List.append_nil _
  have hdispatched := hlin.dispatched.svc hok
  cases hq : s.queue j with
  | nil =>
    rw [svc_of_nil hq] at hok
    obtain rfl := Except.ok.inj hok
    simp only [handlingOrder, hq, List.head?_nil, Option.map_none, Option.toList_none,
      List.append_nil]
    exact ⟨hdispatched, hlin.run, by rw [hpre]; exact hlin.packets,
      by rw [hpre]; exact hlin.analyses⟩
  | cons fup rest =>
    -- the packet waits where the meter handles it
    have hj : dispatchPolicy B n fup.fid = j := hlin.dispatched.queued j fup (by rw [hq]; simp)
    simp only [Farm.svc, hq] at hok
    cases hsvc : (s.workers j).svc B.placement fup with
    | error msg => simp [hsvc] at hok
    | ok w =>
      rw [hsvc] at hok
      obtain rfl := Except.ok.inj hok
      simp only [handlingOrder, hq, List.head?_cons, Option.map_some, Option.toList_some]
      refine ⟨hdispatched, ?_, fun i => ?_, ?_⟩
      · rw [Meter.run, Run.run_append_of_ok hlin.run]
        exact Run.run_singleton (Meter.packet_of_svc hj hsvc)
      · rw [hpre, ← hlin.packets i, packetsAt_append, packetsAt_packet, List.append_assoc]
        by_cases hi : i = j
        · subst hi
          simp [hj, hq]
        · have hne : dispatchPolicy B n fup.fid ≠ i := fun h => hi (Fin.ext (h ▸ hj))
          simp [hne, hi]
      · rw [hpre, ← hlin.analyses, List.filter_append]
        exact List.append_nil _

/-- An analysis goes to the end of the handling order. -/
theorem analysis (hlin : Linearized B m₀ pre s h) (startT stopT : Int) :
    Linearized B m₀ (pre ++ [.analysis startT stopT]) (s.analysis startT stopT)
      (h ++ [.analysis startT stopT]) where
  dispatched := hlin.dispatched.analysis startT stopT
  run := by
    rw [Meter.run, Run.run_append_of_ok hlin.run, toMeter_analysis]
    exact Run.run_singleton rfl
  packets := fun i => by
    -- no packet is handled by an analysis
    rw [List.filterMap_append, packetsAt_append, packetsAt_append, ← hlin.packets i]
    rw [show packetsAt B i [MeterEvent.analysis startT stopT] = [] from rfl, List.append_nil]
    exact (List.append_nil _).symm
  analyses := by
    rw [List.filterMap_append, List.filter_append, List.filter_append, hlin.analyses]
    rfl

theorem step (hlin : Linearized B m₀ pre s h) (e : Event n) :
    ∃ s', s.step B e = .ok s' ∧
      Linearized B m₀ (pre ++ [e]) s' (handlingOrder s e s' h) := by
  cases e with
  | capture fup => exact ⟨_, rfl, hlin.capture fup⟩
  | analysis startT stopT => exact ⟨_, rfl, hlin.analysis startT stopT⟩
  | svc i =>
    obtain ⟨s', hok⟩ := step_ok (B := B) s (.svc i)
    exact ⟨s', hok, hlin.svc hok⟩

end Linearized

theorem run_linearized (B : Boost) (cfg : Config n) (es : List (Event n)) :
    ∃ s h, (init cfg).run B es = .ok s ∧ Linearized B (init cfg).toMeter es s h := by
  have hinit : Linearized B (init cfg).toMeter [] (init cfg) [] :=
    ⟨dispatched_init cfg, rfl, fun _ => rfl, rfl⟩
  obtain ⟨s, h, hrun, hlin⟩ := Run.run_observed_events_invariant
    (fun _ _ _ e hlin => hlin.step e) hinit es
  exact ⟨s, h, Run.run_of_observed hrun, hlin⟩

/-- **Every run is linearizable.** Whatever the schedule, the workers, the analyzer and the reports
are those of the meter on the events in the order `h` in which they were handled. That order has
the intervals of the run, and for every worker the captured packets of its flows, each once and in
the order of capture, up to those that still wait in its queue. -/
theorem linearizable (B : Boost) (cfg : Config n) (es : List (Event n)) :
    ∃ s h, (init cfg).run B es = .ok s ∧ (init cfg).toMeter.run B h = .ok s.toMeter ∧
      (∀ i, packetsAt B i h ++ s.queue i = packetsAt B i (es.filterMap visible)) ∧
      h.filter MeterEvent.isAnalysis =
        (es.filterMap visible).filter MeterEvent.isAnalysis := by
  obtain ⟨s, h, hrun, hlin⟩ := run_linearized B cfg es
  exact ⟨s, h, hrun, hlin.run, hlin.packets, hlin.analyses⟩

end Farm

end FHF
