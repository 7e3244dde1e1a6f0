import FHFCapturing.Farm

/-!
# The thresholds exported with an interval

`output_results` exports `old_t_threshold` and `old_r_threshold` after `update_thresholds` has
written both; the scan read them before. For `t` the two agree, because the analysis copies
`t_threshold` before the scan. For `r` it does not: the scan still reads what the previous
adaptation started from, and the header gets what it ended with. So the header is that of the
scan exactly when the previous adaptation left `r_threshold` as it was
(`Farm.exported_thresholds_iff`).
-/

namespace FHF

namespace Analyzer

/-- The adaptation lowers the threshold, to one with another early-removal threshold. -/
def ChangesR (a : Analyzer) : Prop :=
  ¬ a.usage > target ∧ 3 ≤ a.noVarIntervals ∧
    ⌊clampThreshold a.first_t_threshold a.loweredThreshold * r_mul⌋₊ ≠ a.r_threshold

theorem update_thresholds_r_eq_iff (a : Analyzer) :
    a.update_thresholds.r_threshold = a.r_threshold ↔ ¬ a.ChangesR := by
  -- raised; lowered; left alone
  unfold ChangesR
  rcases a.update_thresholds_cases with
    ⟨hraise, heq⟩ | ⟨hraise, hquiet, heq⟩ | ⟨-, hquiet, heq⟩
  · simp [heq, hraise]
  · simp [heq, hraise, hquiet]
  · simp [heq, hquiet]

/-- The early-removal threshold stays at or below the first threshold. -/
theorem update_thresholds_r_le {a : Analyzer} (h : a.r_threshold ≤ a.first_t_threshold) :
    a.update_thresholds.r_threshold ≤ a.first_t_threshold := by
  rcases a.update_thresholds_cases with ⟨-, heq⟩ | ⟨-, -, heq⟩ | ⟨-, -, heq⟩
  · rw [heq]
    exact h
  · rw [heq]
    exact (floor_r_mul_le _).trans (clampThreshold_le _ _)
  · rw [heq]
    exact h

end Analyzer

namespace Farm

variable {n : Nat} {B : Boost}

/-- The analyzer as `update_thresholds` of the next analysis gets it. -/
def adapting (s : Farm n) (startT stopT : Int) : Analyzer :=
  (s.analyzer.waited startT stopT).shiftEntries.enterScan.counted s.results

/-- History variable: the analyzer as `update_thresholds` of the last analysis got it. -/
def lastAdapting (s : Farm n) (e : Event n) (_ : Farm n) (h : Option Analyzer) :
    Option Analyzer :=
  match e with
  | .analysis startT stopT => some (s.adapting startT stopT)
  | _ => h

/-- Where the analyzer's two early-removal thresholds come from: `h` is what the last adaptation
started from. -/
structure EarlyRemoval (a : Analyzer) (h : Option Analyzer) : Prop where
  r_le : a.r_threshold ≤ a.first_t_threshold
  old_r_le : a.old_r_threshold ≤ a.first_t_threshold
  first_lt : a.first_t_threshold < 2 ^ 32
  unadapted : h = none → a.old_r_threshold = a.r_threshold
  adapted : ∀ p, h = some p →
    a.old_r_threshold = p.r_threshold ∧ a.r_threshold = p.update_thresholds.r_threshold

/-- The constructor sets both thresholds to the same value. -/
theorem earlyRemoval_init (cfg : Config n) : EarlyRemoval (init cfg).analyzer none where
  r_le := Analyzer.floor_r_mul_le _
  old_r_le := Analyzer.floor_r_mul_le _
  first_lt := by
    have hlt := (cfg.worker ⟨0, cfg.workers_pos⟩).threshold.toNat_lt
    simpa [init, Analyzer.new, Worker.getThreshold] using hlt
  unadapted := fun _ => rfl
  adapted := by intro p hp; cases hp

/-- Only an analysis touches the thresholds, and it makes itself the last adaptation. -/
theorem EarlyRemoval.step {s s' : Farm n} {h : Option Analyzer} {e : Event n}
    (hold : EarlyRemoval s.analyzer h) (hok : s.step B e = .ok s') :
    EarlyRemoval s'.analyzer (lastAdapting s e s' h) := by
  cases e with
  | capture fup =>
    obtain rfl := Except.ok.inj hok
    -- neither a capture nor a packet is seen by the analyzer
    rw [capture_analyzer]
    exact hold
  | svc i =>
    rw [svc_analyzer hok]
    exact hold
  | analysis startT stopT =>
    obtain rfl := Except.ok.inj hok
    rw [analysis_eq]
    -- `update_thresholds` saves both thresholds before it changes them
    obtain ⟨-, holdr, hfirst⟩ := (s.adapting startT stopT).update_thresholds_old
    have hr : (s.adapting startT stopT).update_thresholds.r_threshold ≤
        s.analyzer.first_t_threshold := Analyzer.update_thresholds_r_le hold.r_le
    refine { r_le := ?_, old_r_le := ?_, first_lt := ?_, unadapted := ?_, adapted := ?_ }
    · exact hfirst ▸ hr
    · exact holdr.trans_le (hfirst ▸ hold.r_le)
    · exact hfirst.trans_lt hold.first_lt
    · intro hnone
      cases hnone
    · intro p hp
      obtain rfl := Option.some.inj hp
      exact ⟨holdr, rfl⟩

/-- The origin of the two thresholds, after any run. -/
theorem run_earlyRemoval (B : Boost) (cfg : Config n) (es : List (Event n)) :
    ∃ s h, Run.run (Run.observed (step B) lastAdapting) (init cfg, none) es = .ok (s, h) ∧
      EarlyRemoval s.analyzer h := by
  refine Run.run_observed_invariant (I := fun (s : Farm n) h => EarlyRemoval s.analyzer h) ?_
    (earlyRemoval_init cfg) es
  intro s h e hold
  obtain ⟨s', hok⟩ := step_ok (B := B) s e
  exact ⟨s', hok, hold.step hok⟩

/-- **The thresholds exported with an interval.** After any run, the pair the next analysis exports
is the pair its scan compared the entries against, exactly when the last adaptation (if there was
one) did not change the early-removal threshold. -/
theorem exported_thresholds_iff (B : Boost) (cfg : Config n) (es : List (Event n))
    (startT stopT : Int) :
    ∃ s h, Run.run (Run.observed (step B) lastAdapting) (init cfg, none) es = .ok (s, h) ∧
      let a := (s.analyzer.waited startT stopT).shiftEntries.enterScan
      let a' := ((s.analyzer.waited startT stopT).do_boundedAnalysis s.workers []).1
      (a'.output_results.threshold = a.old_t_threshold ∧
          a'.output_results.r_threshold = a.old_r_threshold ↔
        ∀ p, h = some p → ¬ p.ChangesR) := by
  obtain ⟨s, h, hrun, hinv⟩ := run_earlyRemoval B cfg es
  refine ⟨s, h, hrun, ?_⟩
  rw [Analyzer.do_boundedAnalysis_eq]
  -- the header keeps 32 bits of the early-removal threshold
  have hmod : s.analyzer.r_threshold % 2 ^ 32 = s.analyzer.r_threshold :=
    Nat.mod_eq_of_lt (hinv.r_le.trans_lt hinv.first_lt)
  have hr : (s.adapted startT stopT).output_results.r_threshold = s.analyzer.r_threshold := by
    rw [← hmod]
    exact congrArg (· % 2 ^ 32) (Analyzer.adapt_old_r _ _)
  have ht : (s.adapted startT stopT).output_results.threshold = s.analyzer.t_threshold :=
    Analyzer.adapt_old_t _ _
  have hpair : (s.adapted startT stopT).output_results.threshold = s.analyzer.t_threshold ∧
      (s.adapted startT stopT).output_results.r_threshold = s.analyzer.old_r_threshold ↔
      s.analyzer.r_threshold = s.analyzer.old_r_threshold := by
    rw [ht, hr]
    exact and_iff_right rfl
  refine hpair.trans ?_
  cases h with
  | none =>
    -- no adaptation yet: both are what the constructor set
    simpa using (hinv.unadapted rfl).symm
  | some p =>
    obtain ⟨hold, hnew⟩ := hinv.adapted p rfl
    rw [hold, hnew, Analyzer.update_thresholds_r_eq_iff]
    simp

/-! ## The interval after quiet ones

Five intervals without packets: the fourth adaptation lowers the threshold from 1000 to 27 and the
early-removal threshold from 200 to 5. The fifth scan still compares with 200. -/

namespace Quiet

/-- Four analyses of an empty table. The third is the first that finds three intervals without a
change, so it and the fourth may lower the threshold. -/
def events : List (Event 1) :=
  [.analysis 0 1, .analysis 1 2, .analysis 2 3, .analysis 3 4]

/-- The pair of the scan, and the pair in the header. -/
theorem fifth_interval :
    ((init (Config.single 1000)).run Boost.standard events).map (fun s =>
      let a := (s.analyzer.waited 4 5).shiftEntries.enterScan
      let a' := ((s.analyzer.waited 4 5).do_boundedAnalysis s.workers []).1
      ((a.old_t_threshold, a.old_r_threshold),
        (a'.output_results.threshold, a'.output_results.r_threshold))) =
    .ok ((27, 200), (27, 5)) := by
  decide +kernel

end Quiet

/-- The exported early-removal threshold is not that of the scan. -/
theorem exported_thresholds_differ :
    ¬ ∀ (n : Nat) (B : Boost) (cfg : Config n) (es : List (Event n)) (startT stopT : Int),
      ∃ s, (init cfg).run B es = .ok s ∧
        let a := (s.analyzer.waited startT stopT).shiftEntries.enterScan
        let a' := ((s.analyzer.waited startT stopT).do_boundedAnalysis s.workers []).1
        a'.output_results.threshold = a.old_t_threshold ∧
          a'.output_results.r_threshold = a.old_r_threshold := by
  intro hall
  obtain ⟨s, hrun, -, hr⟩ := hall 1 Boost.standard (Config.single 1000) Quiet.events 4 5
  have hfifth := Quiet.fifth_interval
  rw [hrun] at hfifth
  simp only [Except.map, Except.ok.injEq, Prod.mk.injEq] at hfifth
  obtain ⟨⟨-, hscan⟩, -, hheader⟩ := hfifth
  -- 200 in the scan, 5 in the header
  rw [hscan, hheader] at hr
  exact absurd hr (by decide)

end Farm

end FHF
