import FHFCapturing.Exporter

/-!
# The log of a run

What ends up in the output file of the program, in any order of its threads' steps and however it
ends. The reports are numbered from 0 on without a gap (`reports_numbered`): a report that a signal
causes is not counted, but it is the last one, since the analyzer only leaves its loop after it. As
long as no wait takes `10 ^ 6` seconds, everything that was exported can be read back from the
file (`log_reads_back`).
-/

namespace FHF

namespace Analyzer

/-- The adaptation does not touch what identifies the interval. -/
theorem adapt_interval (a : Analyzer) (results : List FlowDescriptor) :
    (a.adapt results).intervalCounter = a.intervalCounter ∧
      (a.adapt results).startT = a.startT ∧ (a.adapt results).stopT = a.stopT := by
  unfold adapt
  rcases (a.counted results).update_thresholds_cases with
    ⟨-, heq⟩ | ⟨-, -, heq⟩ | ⟨-, -, heq⟩ <;> rw [heq] <;> exact ⟨rfl, rfl, rfl⟩

end Analyzer

namespace Program

variable {n : Nat} {B : Boost}

/-! ## The numbers of the reports -/

/-- The analyzer has left its loop, or will at the next test. -/
def Finished (s : Program n) : Prop :=
  s.pc = .setting ∨ s.pc = .exited ∨ s.pc = .testing ∧ s.m_stoprequested = true

/-- The reports are numbered, and the counter is the number of the next one, if there is one. -/
structure Numbered (s : Program n) : Prop where
  numbered : ∀ k p, s.farm.exported[k]? = some p → p.1.intervalNum = UInt32.ofNat k
  counter : s.Finished ∨ s.farm.analyzer.intervalCounter = UInt32.ofNat s.farm.exported.length

theorem numbered_start (cfg : Farm.Config n) : Numbered (start cfg) where
  numbered := by intro k p h; cases h
  counter := Or.inr rfl

namespace Numbered

variable {s s' : Program n}

/-- The other threads export nothing. -/
theorem of_undisturbed (h : Numbered s) (hu : Undisturbed s s') : Numbered s' where
  numbered := by
    rw [hu.exported]
    exact h.numbered
  counter := by
    rw [hu.analyzer, hu.exported]
    refine h.counter.imp_left ?_
    unfold Finished
    rw [hu.pc]
    exact Or.imp_right (Or.imp_right (And.imp_right hu.stop))

/-- Before the analyzer has finished, the counter is right. -/
theorem counter_eq (h : Numbered s) (hpc : ¬ s.Finished) :
    s.farm.analyzer.intervalCounter = UInt32.ofNat s.farm.exported.length :=
  h.counter.resolve_left hpc

/-- An output has the number of the reports before it. -/
theorem output (h : Numbered s) {signalled : Bool} {results : List FlowDescriptor}
    (hpc : s.pc = .outputting signalled results) : Numbered (s.output signalled results) := by
  have hcounter := h.counter_eq (by simp [Finished, hpc])
  refine ⟨fun k p hk => ?_, ?_⟩
  · simp only [Program.output] at hk
    -- an old report, the one written now, or none
    rcases Nat.lt_trichotomy k s.farm.exported.length with hlt | rfl | hgt
    · rw [List.getElem?_append_left hlt] at hk
      exact h.numbered k p hk
    · rw [List.getElem?_concat_length] at hk
      -- the branch of the signal does not count, and is the last
      obtain rfl := Option.some.inj hk
      exact hcounter
    · rw [List.getElem?_eq_none (by simpa using hgt)] at hk
      cases hk
  · cases signalled with
    | true => exact Or.inl (Or.inl rfl)
    | false =>
      -- the branch of the timeout counts the report
      right
      show s.farm.analyzer.intervalCounter + 1 = UInt32.ofNat (s.farm.exported ++ [_]).length
      rw [hcounter, List.length_append, List.length_singleton, UInt32.ofNat_add]
      rfl

/-- Each step of the analyzer keeps the numbering; only the export of an interval adds to it. -/
theorem do_work (h : Numbered s) (wake : Wake) (startT stopT : Int) :
    Numbered (s.do_work wake startT stopT) := by
  cases hpc : s.pc with
  | outputting signalled results =>
    simp only [Program.do_work, hpc]
    -- the one step that exports
    exact h.output hpc
  | testing =>
    simp only [Program.do_work, hpc]
    by_cases hstop : s.m_stoprequested = true
    · -- the flag is set, so nothing is exported any more
      rw [if_pos hstop]
      exact ⟨h.numbered, Or.inl (Or.inr (Or.inl rfl))⟩
    · rw [if_neg hstop]
      exact ⟨h.numbered, Or.inr (h.counter_eq (by simp [Finished, hpc, hstop]))⟩
  | waiting =>
    have hcounter := h.counter_eq (by simp [Finished, hpc])
    cases wake <;> simp only [Program.do_work, hpc] <;> exact ⟨h.numbered, Or.inr hcounter⟩
  | stopping =>
    simp only [Program.do_work, hpc]
    exact ⟨h.numbered, Or.inr (h.counter_eq (by simp [Finished, hpc]))⟩
  | analysing signalled =>
    have hcounter := h.counter_eq (by simp [Finished, hpc])
    simp only [Program.do_work, hpc, analyse, Analyzer.do_boundedAnalysis_eq]
    -- the adaptation does not touch the number of the interval
    exact ⟨h.numbered, Or.inr ((Analyzer.adapt_interval _ _).1.trans hcounter)⟩
  | setting =>
    simp only [Program.do_work, hpc]
    exact ⟨h.numbered, Or.inl (Or.inr (Or.inr ⟨rfl, rfl⟩))⟩
  | exited =>
    simp only [Program.do_work, hpc]
    exact h

end Numbered

/-- **The reports are numbered without a gap.** In every run of the program, with timeouts, signals,
failed waits and the end of the capture in any order, the report at position `k` of the output has
the number `k` (as an `unsigned int`). -/
theorem reports_numbered (B : Boost) (cfg : Farm.Config n) (es : List (Action n)) :
    ∃ s, Run.run (step B) (start cfg) es = .ok s ∧
      ∀ k p, s.farm.exported[k]? = some p → p.1.intervalNum = UInt32.ofNat k := by
  obtain ⟨s, hrun, h⟩ := run_undisturbed (C := fun _ => True)
    (fun _ _ h hu => h.of_undisturbed hu)
    (fun _ wake startT stopT h _ => h.do_work wake startT stopT)
    (numbered_start cfg) fun e (_ : e ∈ es) => trivial
  exact ⟨s, hrun, h.numbered⟩

/-! ## Reading the file back -/

/-- A wait of less than eleven and a half days. -/
def ShortWait : Action n → Prop
  | .analyzer _ startT stopT => (stopT - startT).natAbs < 10 ^ 6
  | _ => True

instance (e : Action n) : Decidable (ShortWait e) :=
  match e with
  | .analyzer _ startT stopT => inferInstanceAs (Decidable ((stopT - startT).natAbs < 10 ^ 6))
  | .read _ | .deliver | .captureEnds | .svc _ | .stop => inferInstanceAs (Decidable True)

/-- All intervals are short, that of the analyzer and those exported. -/
structure Short (s : Program n) : Prop where
  current : (s.farm.analyzer.stopT - s.farm.analyzer.startT).natAbs < 10 ^ 6
  exported : ∀ p ∈ s.farm.exported, (p.1.stopT - p.1.startT).natAbs < 10 ^ 6

theorem short_start (cfg : Farm.Config n) : Short (start cfg) where
  current := show (0 : Nat) < 10 ^ 6 by decide
  exported := by intro p h; cases h

/-- A wait below the bound leaves all stamped durations below it. -/
theorem Short.do_work {s : Program n} (h : Short s) {wake : Wake} {startT stopT : Int}
    (hwait : (stopT - startT).natAbs < 10 ^ 6) : Short (s.do_work wake startT stopT) := by
  cases hpc : s.pc with
  | outputting signalled results =>
    simp only [Program.do_work, hpc, output]
    refine ⟨?_, fun p hp => ?_⟩
    · -- the current interval is as before, and is the one that is exported
      split <;> exact h.current
    · rcases List.mem_append.mp hp with hold | hnew
      · exact h.exported p hold
      · obtain rfl := List.mem_singleton.mp hnew
        exact h.current
  | waiting =>
    -- the only step that stamps the interval
    cases wake <;> simp only [Program.do_work, hpc] <;> exact ⟨hwait, h.exported⟩
  | analysing signalled =>
    simp only [Program.do_work, hpc, analyse, Analyzer.do_boundedAnalysis_eq]
    refine ⟨?_, h.exported⟩
    -- the adaptation keeps the stamps
    obtain ⟨-, hstart, hstop⟩ := Analyzer.adapt_interval
      s.farm.analyzer.shiftEntries.enterScan ([] ++ (List.finRange n).flatMap fun i =>
        Analyzer.reported s.farm.analyzer.t_threshold s.farm.analyzer.old_r_threshold
          (s.farm.workers i).ht)
    dsimp only
    rw [hstart, hstop]
    exact h.current
  | testing => simp only [Program.do_work, hpc]; split <;> exact ⟨h.current, h.exported⟩
  | stopping => simp only [Program.do_work, hpc]; exact ⟨h.current, h.exported⟩
  | setting => simp only [Program.do_work, hpc]; exact ⟨h.current, h.exported⟩
  | exited => simp only [Program.do_work, hpc]; exact h

/-- **The log reads back.** After any run in which every wait takes less than `10 ^ 6` seconds, the
file that the exporter has written between `go` and `stop` reads back as the list of all headers
and flows that were exported. -/
theorem log_reads_back (B : Boost) (cfg : Farm.Config n) {es : List (Action n)}
    (hes : ∀ e ∈ es, ShortWait e) (contents : List Char) :
    ∃ s fe, Run.run (step B) (start cfg) es = .ok s ∧
      FileExporter.session ⟨false, contents⟩ true s.farm.exported = .ok fe ∧
      Log.readLog fe.contents = some s.farm.exported := by
  obtain ⟨s, hrun, h⟩ := run_undisturbed (C := ShortWait)
    (fun _ _ h hu => ⟨by rw [hu.analyzer]; exact h.current, by rw [hu.exported]; exact h.exported⟩)
    (fun _ _ _ _ h hwait => h.do_work hwait) (short_start cfg) hes
  exact ⟨s, _, hrun, FileExporter.session_eq _ _, Log.readLog_log h.exported⟩

theorem log_reads_back_byTimeout :
    ∃ s fe, Run.run (step .standard) (start (.single 1)) Ends.byTimeout = .ok s ∧
      FileExporter.session ⟨false, []⟩ true s.farm.exported = .ok fe ∧
      Log.readLog fe.contents = some s.farm.exported :=
  log_reads_back .standard (.single 1) (show ∀ e ∈ Ends.byTimeout, ShortWait e by decide) []

end Program

end FHF
