import FHFCapturing.Shutdown
import Mathlib.Algebra.Order.BigOperators.Group.Finset

/-!
# The end of the program

`Analyzer::stop` sets a flag and waits for the analyzer's thread. The thread tests the flag at the
top of its loop, so it first finishes the interval it is in: with the flag set it is at most six
steps from its exit, whatever the other threads do and however its wait ends, and it exports at most
one more interval (`stop_is_prompt`). Nothing it has exported changes.

Once the capture has ended, every run that gives the threads enough turns ends: the workers empty
their queues, `main` calls `stop`, and the analyzer leaves (`fair_run_ends`). And that end can be
reached from every state of a run (`can_exit`).
-/

namespace FHF

/-- The steps to the exit once the flag is set, with the longer way that a signal takes. -/
def DoWorkPc.left : DoWorkPc → Nat
  | .exited => 0
  | .testing => 1
  | .setting => 2
  | .outputting signalled _ => if signalled then 3 else 2
  | .analysing signalled => if signalled then 4 else 3
  | .stopping => 5
  | .waiting => 6

/-- A packet that is delivered still has to be taken from a queue and handled. -/
def EmitterPc.left : EmitterPc → Nat
  | .returned => 0
  | .polling => 1
  | .delivering _ => 4

/-- The intervals still to be exported before the next test of the flag. -/
def DoWorkPc.exportsAhead : DoWorkPc → Nat
  | .waiting => 1
  | .stopping => 1
  | .analysing _ => 1
  | .outputting _ _ => 1
  | _ => 0

/-- At most a wait ended by the signal, and what follows. -/
theorem DoWorkPc.left_le (pc : DoWorkPc) : pc.left ≤ 6 := by
  unfold left
  split <;> (try split) <;> omega

theorem DoWorkPc.exited_of_left {pc : DoWorkPc} (h : pc.left = 0) : pc = .exited := by
  cases pc with
  | exited => rfl
  | analysing signalled => cases signalled <;> cases h
  | outputting signalled results => cases signalled <;> cases h
  | _ => cases h

theorem DoWorkPc.exportsAhead_le (pc : DoWorkPc) : pc.exportsAhead ≤ 1 := by
  unfold exportsAhead
  split <;> omega

namespace Program

variable {n : Nat} {B : Boost}

/-! ## The analyzer on its way out -/

/-- With the flag set, from `s` to `s'` with so many steps of the analyzer: nearer to its exit, and
an export only where one was ahead. -/
structure Leaves (s s' : Program n) (steps : Nat) : Prop where
  stop : s'.m_stoprequested = true
  left : s'.pc.left ≤ s.pc.left - steps
  exported : s.farm.exported <+: s'.farm.exported
  exports : s'.farm.exported.length + s'.pc.exportsAhead ≤
    s.farm.exported.length + s.pc.exportsAhead

namespace Leaves

variable {s s' s'' : Program n}

theorem refl (hstop : s.m_stoprequested = true) : Leaves s s 0 :=
  ⟨hstop, Nat.le_refl _, List.prefix_refl _, Nat.le_refl _⟩

theorem trans {j k : Nat} (h : Leaves s s' j) (h' : Leaves s' s'' k) : Leaves s s'' (j + k) where
  stop := h'.stop
  left := by
    have hfirst := h.left
    have hsecond := h'.left
    omega
  exported := h.exported.trans h'.exported
  exports := h'.exports.trans h.exports

/-- The other threads leave the analyzer where it is. -/
theorem of_undisturbed (hstop : s.m_stoprequested = true) (hu : Undisturbed s s') :
    Leaves s s' 0 where
  stop := hu.stop hstop
  left := by rw [hu.pc]; exact Nat.le_refl _
  exported := by rw [hu.exported]
  exports := by rw [hu.pc, hu.exported]

/-- A step without an export. -/
theorem goto (pc' : DoWorkPc) {pc : DoWorkPc} (hpc : s.pc = pc) (hpc' : s'.pc = pc')
    (hstop : s'.m_stoprequested = true) (hexported : s'.farm.exported = s.farm.exported)
    (hleft : pc'.left ≤ pc.left - 1) (hahead : pc'.exportsAhead ≤ pc.exportsAhead) :
    Leaves s s' 1 where
  stop := hstop
  left := by rw [hpc, hpc']; exact hleft
  exported := by rw [hexported]
  exports := by rw [hpc, hpc', hexported]; exact Nat.add_le_add_left hahead _

/-- A step of the analyzer takes one from what is left, or there was none. -/
theorem do_work (hstop : s.m_stoprequested = true) (wake : Wake) (startT stopT : Int) :
    Leaves s (s.do_work wake startT stopT) 1 := by
  cases hpc : s.pc with
  | testing =>
    simp only [Program.do_work, hpc]
    rw [if_pos hstop]
    exact .goto .exited hpc rfl hstop rfl (by decide) (by decide)
  | waiting =>
    simp only [Program.do_work, hpc]
    cases wake with
    | timeout => exact .goto (.analysing false) hpc rfl hstop rfl (by decide) (by decide)
    | signal => exact .goto .stopping hpc rfl hstop rfl (by decide) (by decide)
    | failed => exact .goto .testing hpc rfl hstop rfl (by decide) (by decide)
  | stopping =>
    simp only [Program.do_work, hpc]
    exact .goto (.analysing true) hpc rfl hstop rfl (by decide) (by decide)
  | analysing signalled =>
    simp only [Program.do_work, hpc, analyse]
    refine .goto (.outputting signalled _) hpc rfl hstop rfl ?_ (Nat.le_refl _)
    cases signalled <;> exact Nat.le_refl _
  | outputting signalled results =>
    -- the export that was ahead
    simp only [Program.do_work, hpc, output]
    refine ⟨hstop, ?_, List.prefix_append _ _, ?_⟩
    · rw [hpc]
      cases signalled <;> exact Nat.le_refl _
    · rw [hpc]
      cases signalled <;> simp [DoWorkPc.exportsAhead]
  | setting =>
    simp only [Program.do_work, hpc]
    exact .goto .testing hpc rfl rfl rfl (by decide) (by decide)
  | exited =>
    simp only [Program.do_work, hpc]
    exact .goto .exited hpc hpc hstop rfl (by decide) (by decide)

/-- The steps of the other threads take none. -/
theorem step {e : Action n} (hstop : s.m_stoprequested = true) (hok : s.step B e = .ok s') :
    Leaves s s' (if Action.isAnalyzer e then 1 else 0) := by
  cases he : Action.isAnalyzer e with
  | false => exact .of_undisturbed hstop (undisturbed_of_step hok he)
  | true =>
    cases e with
    | analyzer wake startT stopT =>
      obtain rfl := Except.ok.inj hok
      exact .do_work hstop wake startT stopT
    | _ => cases he

end Leaves

theorem run_leaves {s : Program n} (hstop : s.m_stoprequested = true) (es : List (Action n)) :
    ∃ s', Run.run (step B) s es = .ok s' ∧ Leaves s s' (es.filter Action.isAnalyzer).length := by
  refine Run.run_events_invariant
    (I := fun pre s' => Leaves s s' (pre.filter Action.isAnalyzer).length) ?_ (.refl hstop) es
  intro pre s' e hleaves
  obtain ⟨s'', hok⟩ := step_ok (B := B) s' e
  refine ⟨s'', hok, ?_⟩
  have hboth := hleaves.trans (.step hleaves.stop hok)
  rw [List.filter_append, List.length_append]
  cases he : Action.isAnalyzer e <;> simpa [he] using hboth

/-- **`stop` is prompt.** With `m_stoprequested` set, whatever steps the threads make: what has been
exported stays, at most one more interval is, and after six steps of the analyzer or more its thread
has left the loop. -/
theorem stop_is_prompt (B : Boost) {s : Program n} (hstop : s.m_stoprequested = true)
    (es : List (Action n)) :
    ∃ s', Run.run (step B) s es = .ok s' ∧ s.farm.exported <+: s'.farm.exported ∧
      s'.farm.exported.length ≤ s.farm.exported.length + 1 ∧
      (6 ≤ (es.filter Action.isAnalyzer).length → s'.pc = .exited) := by
  obtain ⟨s', hrun, hleaves⟩ := run_leaves (B := B) hstop es
  have hexports := hleaves.exports
  have hahead := s.pc.exportsAhead_le
  refine ⟨s', hrun, hleaves.exported, by omega, fun hsix => ?_⟩
  have hleft := hleaves.left
  have hmax := s.pc.left_le
  exact DoWorkPc.exited_of_left (by omega)

/-- The analyzer waits when `main` stops it. -/
def stoppedWaiting : Program 1 :=
  { start (.single 1) with
    emitter := .returned, pc := .waiting, m_stoprequested := true, stopped := true }

/-- The signal arrives in the wait, so the longer way is taken. -/
theorem stop_is_prompt_waiting :
    ∃ s', Run.run (step .standard) stoppedWaiting
        (List.replicate 6 (.analyzer .signal 0 1)) = .ok s' ∧
      stoppedWaiting.farm.exported <+: s'.farm.exported ∧
      s'.farm.exported.length ≤ stoppedWaiting.farm.exported.length + 1 ∧
      (6 ≤ ((List.replicate 6 (.analyzer .signal 0 1)).filter
        (Action.isAnalyzer (n := 1))).length → s'.pc = .exited) :=
  stop_is_prompt .standard rfl _

/-! ## What stays -/

/-- `main` sets the flag when it stops the analyzer, and nobody clears it. -/
def StopSet (s : Program n) : Prop := s.stopped = true → s.m_stoprequested = true

/-- The analyzer does not touch the emitter, the queues, the tasks taken or what `main` has done. -/
theorem do_work_keeps (s : Program n) (wake : Wake) (startT stopT : Int) :
    (s.do_work wake startT stopT).emitter = s.emitter ∧
      (s.do_work wake startT stopT).farm.queue = s.farm.queue ∧
      (s.do_work wake startT stopT).task = s.task ∧
      (s.do_work wake startT stopT).stopped = s.stopped := by
  unfold do_work
  split
  · split <;> exact ⟨rfl, rfl, rfl, rfl⟩
  · cases wake <;> exact ⟨rfl, rfl, rfl, rfl⟩
  all_goals exact ⟨rfl, rfl, rfl, rfl⟩

theorem stopSet_step {s s' : Program n} {e : Action n} (hset : StopSet s)
    (hok : s.step B e = .ok s') : StopSet s' := by
  intro hstopped
  cases he : Action.isAnalyzer e with
  | false =>
    -- the other threads never clear the flag, and `stop` sets both
    have hu := undisturbed_of_step hok he
    exact (hu.stopped hstopped).elim (fun hold => hu.stop (hset hold)) id
  | true =>
    cases e with
    | analyzer wake startT stopT =>
      obtain rfl := Except.ok.inj hok
      -- nor does the analyzer
      rw [(do_work_keeps s wake startT stopT).2.2.2] at hstopped
      exact (Leaves.do_work (hset hstopped) wake startT stopT).stop
    | _ => cases he

theorem run_ok (s : Program n) (es : List (Action n)) : ∃ s', Run.run (step B) s es = .ok s' := by
  have hkept (s : Program n) (e : Action n) (_ : True) : ∃ s', s.step B e = .ok s' ∧ True :=
    (step_ok s e).imp fun s' hok => ⟨hok, trivial⟩
  exact (Run.run_invariant hkept (s := s) trivial es).imp fun s' h => h.1

theorem stopSet_of_run {cfg : Farm.Config n} {es : List (Action n)} {s : Program n}
    (hrun : Run.run (step B) (start cfg) es = .ok s) : StopSet s := by
  have hkept (s : Program n) (e : Action n) (hset : StopSet s) :
      ∃ s', s.step B e = .ok s' ∧ StopSet s' :=
    (step_ok s e).imp fun s' hok => ⟨hok, stopSet_step hset hok⟩
  obtain ⟨s', hrun', hset⟩ := Run.run_invariant hkept (s := start cfg) nofun es
  obtain rfl := Except.ok.inj (hrun.symm.trans hrun')
  exact hset

/-- The farm has drained, `main` has called `stop`, and the analyzer's thread has left its loop. -/
def Ended (s : Program n) : Prop := s.Drained ∧ s.stopped = true ∧ s.pc = .exited

/-! ## The end of every fair run -/

/-- The steps that worker `i` has to make: two for each task in its queue, one for the task it
has. -/
def work (s : Program n) (i : Fin n) : Nat :=
  2 * (s.farm.queue i).length + if (s.task i).isSome then 1 else 0

theorem work_eq_zero_iff {s : Program n} {i : Fin n} :
    s.work i = 0 ↔ s.farm.queue i = [] ∧ s.task i = none := by
  unfold work
  cases s.farm.queue i <;> cases s.task i <;> simp

theorem allHandled_iff {s : Program n} : s.AllHandled ↔ ∀ i, s.work i = 0 :=
  forall_congr' fun _ => work_eq_zero_iff.symm

/-- Work is counted on queues and tasks alone. -/
theorem work_congr {s s' : Program n} (hqueue : s'.farm.queue = s.farm.queue)
    (htask : s'.task = s.task) (i : Fin n) : s'.work i = s.work i := by
  unfold work
  rw [hqueue, htask]

/-- A worker touches neither the emitter nor what `main` and the analyzer have done. -/
theorem svc_keeps {s s' : Program n} {j : Fin n} (hok : s.svc B j = .ok s') :
    s'.emitter = s.emitter ∧ s'.stopped = s.stopped ∧ s'.pc = s.pc := by
  rcases s.svc_cases (B := B) j with ⟨-, -, h⟩ | ⟨fup, rest, -, -, h⟩ | ⟨fup, w, -, -, h⟩
  all_goals
    obtain rfl := Except.ok.inj (h.symm.trans hok)
    exact ⟨rfl, rfl, rfl⟩

/-- A step of a worker is one less for it to make, if there was one, and changes nothing for the
others. -/
theorem work_svc {s s' : Program n} {j : Fin n} (hok : s.svc B j = .ok s') (i : Fin n) :
    s'.work i = s.work i - if j = i then 1 else 0 := by
  rcases s.svc_cases (B := B) j with
    ⟨htask, hq, h⟩ | ⟨fup, rest, htask, hq, h⟩ | ⟨fup, w, htask, -, h⟩
  all_goals obtain rfl := Except.ok.inj (h.symm.trans hok)
  · by_cases hj : j = i
    · subst hj
      rw [work_eq_zero_iff.mpr ⟨hq, htask⟩, Nat.zero_sub]
    · rw [if_neg hj, Nat.sub_zero]
  · -- one task fewer in the queue, and one in hand
    by_cases hj : j = i
    · subst hj
      simp only [work, taken, htask, hq, Function.update_self]
      simp
      omega
    · simp [work, taken, hj, Ne.symm hj]
  · by_cases hj : j = i
    · subst hj
      simp [work, handled, htask]
    · simp [work, handled, hj, Ne.symm hj]

/-- From `s` to `s'` after the capture has ended: each worker has made so many of its steps, and
`main` does not take its call of `stop` back. -/
structure Drains (s s' : Program n) (turns : Fin n → Nat) : Prop where
  emitter : s'.emitter = .returned
  work : ∀ i, s'.work i = s.work i - turns i
  stopped : s.stopped = true → s'.stopped = true

/-- Once the capture has returned, a step of a worker takes one from its work, and no step adds
any. -/
theorem Drains.step {s s' : Program n} {e : Action n} (hem : s.emitter = .returned)
    (hok : s.step B e = .ok s') : Drains s s' fun i => if e = .svc i then 1 else 0 := by
  cases e with
  | svc j =>
    rw [Program.step] at hok
    obtain ⟨hemitter, hstopped, -⟩ := svc_keeps hok
    simp only [Action.svc.injEq]
    exact ⟨hemitter.trans hem, work_svc hok, hstopped.trans⟩
  | stop =>
    simp only [Program.step] at hok
    split at hok <;> obtain rfl := Except.ok.inj hok
    · exact ⟨hem, fun _ => rfl, fun _ => rfl⟩
    · exact ⟨hem, fun _ => rfl, id⟩
  | analyzer wake startT stopT =>
    obtain rfl := Except.ok.inj hok
    -- the analyzer touches neither the queues nor the tasks
    obtain ⟨hemitter, hqueue, htask, hstill⟩ := do_work_keeps s wake startT stopT
    exact ⟨hemitter.trans hem, fun i => work_congr hqueue htask i, hstill.trans⟩
  | _ =>
    simp only [Program.step, hem] at hok
    obtain rfl := Except.ok.inj hok
    exact ⟨hem, fun _ => rfl, id⟩

theorem Drains.trans {s s' s'' : Program n} {f g : Fin n → Nat} (h : Drains s s' f)
    (h' : Drains s' s'' g) : Drains s s'' fun i => f i + g i where
  emitter := h'.emitter
  work := by
    intro i
    rw [h'.work, h.work, Nat.sub_sub]
  stopped := fun hstopped => h'.stopped (h.stopped hstopped)

theorem run_drains {s : Program n} (hem : s.emitter = .returned) (hset : StopSet s)
    (es : List (Action n)) :
    ∃ s', Run.run (step B) s es = .ok s' ∧ Drains s s' (fun i => es.count (.svc i)) ∧
      StopSet s' := by
  refine Run.run_events_invariant
    (I := fun pre s' => Drains s s' (fun i => pre.count (.svc i)) ∧ StopSet s') ?_
    ⟨⟨hem, fun _ => rfl, id⟩, hset⟩ es
  intro pre s' e hI
  obtain ⟨s'', hok⟩ := step_ok (B := B) s' e
  refine ⟨s'', hok, ?_, stopSet_step hI.2 hok⟩
  have hboth := hI.1.trans (.step hI.1.emitter hok)
  simpa only [List.count_append, List.count_singleton, beq_iff_eq] using hboth

/-- Once the farm has drained, `main` calls `stop` at its next step. -/
theorem run_stop {s : Program n} (hdrained : s.Drained) (hset : StopSet s) :
    ∃ s', s.step B .stop = .ok s' ∧ s'.Drained ∧ s'.stopped = true ∧ s'.m_stoprequested = true := by
  cases hstopped : s.stopped with
  | false =>
    refine ⟨{ s with m_stoprequested := true, stopped := true },
      if_pos ⟨hdrained, by simp [hstopped]⟩, hdrained, rfl, rfl⟩
  | true =>
    refine ⟨s, if_neg (fun h => h.2 hstopped), hdrained, hstopped, hset hstopped⟩

/-- **Every fair run ends.** Once the capture has ended: steps among which each worker makes two for
every task in its queue and one for the task it has, the call of `stop`, then steps among which the
analyzer makes six, all in any order with any others, end the program. -/
theorem fair_run_ends (B : Boost) (cfg : Farm.Config n) {es : List (Action n)} {s : Program n}
    (hrun : Run.run (step B) (start cfg) es = .ok s) (hem : s.emitter = .returned)
    {draining leaving : List (Action n)}
    (hdraining : ∀ i, s.work i ≤ draining.count (.svc i))
    (hleaving : 6 ≤ (leaving.filter Action.isAnalyzer).length) :
    ∃ s', Run.run (step B) s (draining ++ .stop :: leaving) = .ok s' ∧ s'.Ended := by
  obtain ⟨s₁, hrun₁, hdrains, hset₁⟩ := run_drains (B := B) hem (stopSet_of_run hrun) draining
  -- as many turns as there is work
  have hhandled : s₁.AllHandled := by
    refine allHandled_iff.mpr fun i => ?_
    have hleft := hdrains.work i
    have hturns := hdraining i
    omega
  -- `main` can stop the analyzer then
  obtain ⟨s₂, hok, hdrained, hstopped, hstop⟩ := run_stop (B := B) ⟨hdrains.emitter, hhandled⟩ hset₁
  obtain ⟨s', hrun₂, hleaves⟩ := run_leaves (B := B) hstop leaving
  obtain ⟨t, hagain, hstays, -⟩ := run_drains (B := B) hdrained.1 (fun _ => hstop) leaving
  obtain rfl : s' = t := Except.ok.inj (hrun₂.symm.trans hagain)
  -- the analyzer's own steps change nothing about the farm, and six of them are enough
  refine ⟨s', by rw [Run.run_append_of_ok hrun₁, Run.run_cons_of_ok hok, hrun₂], ⟨?_, ?_⟩, ?_, ?_⟩
  · exact hstays.emitter
  · refine allHandled_iff.mpr fun i => ?_
    have hleft := hstays.work i
    rw [allHandled_iff.mp hdrained.2 i] at hleft
    omega
  · exact hstays.stopped hstopped
  · -- no step is left
    have hleft := hleaves.left
    have hmax := s₂.pc.left_le
    exact DoWorkPc.exited_of_left (by omega)

/-- One packet in the queue, and the capture has returned. -/
theorem fair_run_ends_onePacket :
    ∃ s', Run.run (step .standard) { start (.single 1) with
        farm := (start (.single 1)).farm.capture .standard Ends.fup, emitter := .returned }
        ([.svc ⟨0, Nat.one_pos⟩, .analyzer .timeout 0 0, .svc ⟨0, Nat.one_pos⟩] ++
          .stop :: List.replicate 6 (.analyzer .signal 0 1)) = .ok s' ∧ s'.Ended :=
  fair_run_ends .standard (.single 1)
    (show Run.run _ (start _) [.read Ends.fup, .deliver, .captureEnds] = .ok _ from rfl)
    rfl (by decide +kernel) (by decide)

/-! ## The way to the end -/

/-- The steps that all workers have to make. -/
def allWork (s : Program n) : Nat := ∑ i, s.work i

/-- A delivery is two steps more for one worker. -/
theorem allWork_deliver {s s' : Program n} {fup : FlowUpdate}
    (hqueue : s'.farm.queue = (s.farm.capture B fup).queue) (htask : s'.task = s.task) :
    s'.allWork ≤ s.allWork + 2 := by
  -- at most one worker gets the packet
  have hone : ∑ i : Fin n, (if dispatchPolicy B n fup.fid = i then [fup] else []).length ≤ 1 := by
    simp only [apply_ite List.length, List.length_singleton, List.length_nil, Finset.sum_boole]
    refine Finset.card_le_one.mpr fun i hi j hj => ?_
    exact Fin.ext ((Finset.mem_filter.mp hi).2.symm.trans (Finset.mem_filter.mp hj).2)
  have hwork (i : Fin n) : s'.work i =
      s.work i + 2 * (if dispatchPolicy B n fup.fid = i then [fup] else []).length := by
    unfold work
    rw [hqueue, htask, Farm.capture_queue, List.length_append]
    omega
  simp only [allWork, hwork, Finset.sum_add_distrib, ← Finset.mul_sum]
  omega

/-- A worker with work has a step that takes one from the work of all. -/
theorem allWork_svc {s : Program n} {i : Fin n} (hi : s.work i ≠ 0) :
    ∃ s', s.step B (.svc i) = .ok s' ∧ s'.emitter = s.emitter ∧ s'.stopped = s.stopped ∧
      s'.pc = s.pc ∧ s'.allWork < s.allWork := by
  obtain ⟨s', hok⟩ := s.svc_ok (B := B) i
  obtain ⟨hemitter, hstopped, hpc⟩ := svc_keeps hok
  refine ⟨s', hok, hemitter, hstopped, hpc, ?_⟩
  refine Finset.sum_lt_sum (fun j _ => ?_) ⟨i, Finset.mem_univ i, ?_⟩
  · rw [work_svc hok j]
    exact Nat.sub_le _ _
  · rw [work_svc hok i, if_pos rfl]
    exact Nat.sub_lt (Nat.pos_of_ne_zero hi) Nat.one_pos

/-- Steps of the emitter, steps of the workers, then steps of the analyzer. -/
def distance (s : Program n) : Nat :=
  s.emitter.left + s.allWork + if s.stopped then s.pc.left else 7

/-- A program that has not ended has a thread that brings it nearer to its end: the emitter, then
the workers, then `main`, then the analyzer. -/
theorem exists_nearer {s : Program n} (hset : StopSet s) (hend : ¬ Ended s) :
    ∃ e s', s.step B e = .ok s' ∧ s'.distance < s.distance := by
  cases hem : s.emitter with
  | polling =>
    -- the capture ends
    refine ⟨.captureEnds, { s with emitter := .returned }, by simp only [step, hem], ?_⟩
    simp only [distance, hem, allWork, work, EmitterPc.left]
    omega
  | delivering fup =>
    refine ⟨.deliver, { s with farm := s.farm.capture B fup, emitter := .polling },
      by simp only [step, hem], ?_⟩
    -- the packet is delivered: a worker gets two steps, and the emitter has one of its four left
    have hwork : allWork { s with farm := s.farm.capture B fup, emitter := .polling } ≤
        s.allWork + 2 := allWork_deliver rfl rfl
    simp only [distance, hem, EmitterPc.left]
    omega
  | returned =>
    by_cases hwork : ∀ i, s.work i = 0
    · have hdrained : s.Drained := ⟨hem, allHandled_iff.mpr hwork⟩
      cases hstopped : s.stopped with
      | false =>
        -- `main` calls `stop`
        refine ⟨.stop, { s with m_stoprequested := true, stopped := true },
          if_pos ⟨hdrained, by simp [hstopped]⟩, ?_⟩
        have hmax := s.pc.left_le
        simp only [distance, hstopped, allWork, work]
        simp only [Bool.false_eq_true, if_false, if_true]
        omega
      | true =>
        have hpc : s.pc.left ≠ 0 := fun hleft =>
          hend ⟨hdrained, hstopped, DoWorkPc.exited_of_left hleft⟩
        -- the analyzer makes a step
        have hleft := (Leaves.do_work (hset hstopped) .timeout 0 0).left
        obtain ⟨hemitter, hqueue, htask, hstill⟩ := do_work_keeps s .timeout 0 0
        refine ⟨.analyzer .timeout 0 0, _, rfl, ?_⟩
        simp only [distance, allWork, work, hemitter, hqueue, htask, hstill, hstopped, if_true]
        omega
    · obtain ⟨i, hi⟩ := not_forall.mp hwork
      obtain ⟨s', hok, hemitter, hstopped, hpc, hless⟩ := allWork_svc (B := B) hi
      -- a worker makes a step
      refine ⟨.svc i, s', hok, ?_⟩
      simp only [distance, hemitter, hstopped, hpc]
      omega

/-- **The program can always end.** Whatever steps it has made, there are steps after which the
capture has ended, every task has been handled, and the analyzer has been stopped and has left its
loop. -/
theorem can_exit (B : Boost) (cfg : Farm.Config n) (es : List (Action n)) :
    ∃ s, Run.run (step B) (start cfg) es = .ok s ∧
      ∃ more s', Run.run (step B) s more = .ok s' ∧ s'.Ended := by
  obtain ⟨s, hrun⟩ := run_ok (B := B) (start cfg) es
  refine ⟨s, hrun, ?_⟩
  have hstep (s : Program n) (hset : StopSet s) (hend : ¬ s.Ended) :
      ∃ e s', s.step B e = .ok s' ∧ StopSet s' ∧ s'.distance < s.distance := by
    obtain ⟨e, s', hok, hlt⟩ := exists_nearer (B := B) hset hend
    exact ⟨e, s', hok, stopSet_step hset hok, hlt⟩
  obtain ⟨more, s', hmore, -, hend⟩ :=
    Run.exists_run_of_measure distance hstep (stopSet_of_run hrun)
  exact ⟨more, s', hmore, hend⟩

end Program

end FHF
