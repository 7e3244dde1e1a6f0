import FHFCapturing.Convergence
import FHFCapturing.Population

/-!
# The adaptation in the farm

The results about the adaptation are about runs of calls of `update_thresholds` with any averages. A
run of the farm is such a run for its analyzer: what a call reads and writes, but for the average,
is not touched by anything else (`Control`), and every analysis makes one call with the average it
has just computed. So the thresholds of the farm after any run are those of the analyzer after as
many calls as there were analyses (`Farm.run_controlled`), and what holds of every run of calls
holds of the farm: its thresholds stay in their bounds (`Farm.thresholds_always_bounded`).
-/

namespace FHF

namespace Analyzer

/-- The fields of the control law. -/
structure Control where
  first_t_threshold : Nat
  t_threshold : Nat
  r_threshold : Nat
  filter_threshold : Nat
  noVarIntervals : UInt32
  flowMemSize : UInt32
  deriving DecidableEq, Repr

/-- The members that `update_thresholds` reads and writes, the averages apart. -/
def control (a : Analyzer) : Control where
  first_t_threshold := a.first_t_threshold
  t_threshold := a.t_threshold
  r_threshold := a.r_threshold
  filter_threshold := a.filter_threshold
  noVarIntervals := a.noVarIntervals
  flowMemSize := a.flowMemSize

theorem control_update_thresholds {a b : Analyzer} (h : a.control = b.control)
    (havg : a.entriesUsedAVG = b.entriesUsedAVG) :
    a.update_thresholds.control = b.update_thresholds.control := by
  simp only [control, Control.mk.injEq] at h
  obtain ⟨hfirst, ht, hr, -, hquiet, hsize⟩ := h
  -- the usage is a quotient of two of the fields
  have husage : a.usage = b.usage := by
    unfold usage
    rw [havg, hsize]
  have hraised : a.raisedThreshold = b.raisedThreshold := by
    unfold raisedThreshold
    rw [ht, husage]
  have hlowered : a.loweredThreshold = b.loweredThreshold := by
    unfold loweredThreshold
    rw [ht, husage]
  by_cases hraise : a.usage > target
  · -- both take the same branch, and it reads only these fields
    rw [update_thresholds_of_raise hraise, update_thresholds_of_raise (husage ▸ hraise)]
    simp only [control, hfirst, hraised, hr, hsize]
  · by_cases hthree : 3 ≤ a.noVarIntervals
    · rw [update_thresholds_of_lower hraise hthree,
        update_thresholds_of_lower (husage ▸ hraise) (hquiet ▸ hthree)]
      simp only [control, hfirst, hlowered, hsize]
    · rw [update_thresholds_of_wait hraise hthree,
        update_thresholds_of_wait (husage ▸ hraise) (hquiet ▸ hthree)]
      simp only [control, hfirst, ht, hr, hquiet, hsize]

/-- The bounds are about these members only. -/
theorem Bounded.of_control {a b : Analyzer} (hb : b.Bounded) (h : a.control = b.control) :
    a.Bounded := by
  simp only [control, Control.mk.injEq] at h
  obtain ⟨hfirst, ht, -, hfilter, -, -⟩ := h
  obtain ⟨hone, hle, heq⟩ := hb
  constructor <;> omega

end Analyzer

namespace Farm

variable {n : Nat} {B : Boost}

/-- History variable: the averages that the analyses computed. -/
def averages (_ : Farm n) (e : Event n) (s' : Farm n) (h : List UInt32) : List UInt32 :=
  match e with
  | .analysis _ _ => h ++ [s'.analyzer.entriesUsedAVG]
  | _ => h

/-- The thresholds are those after one call for each of the averages. -/
def Controlled (w : Worker) (a : Analyzer) (h : List UInt32) : Prop :=
  ∀ used : Nat → UInt32, (∀ k (hk : k < h.length), used k = h[k]) →
    a.control = ((Analyzer.new w).afterCalls used h.length).control

/-- The members after a run of the farm are those after that many calls. -/
theorem Controlled.control_eq {w : Worker} {a : Analyzer} {h : List UInt32}
    (hcontrol : Controlled w a h) :
    a.control = ((Analyzer.new w).afterCalls (fun k => h.getD k 0) h.length).control :=
  hcontrol _ fun _ hk => (List.getElem_eq_getD (h := hk) 0).symm

/-- An analysis is a call with the average it computes. -/
theorem Controlled.analysis {w : Worker} {s : Farm n} {h : List UInt32}
    (hold : Controlled w s.analyzer h) (startT stopT : Int) :
    Controlled w (s.analysis startT stopT).analyzer
      (h ++ [(s.analysis startT stopT).analyzer.entriesUsedAVG]) := by
  intro used hused
  have hbefore := hold used fun k hk => by
    rw [hused k (by rw [List.length_append]; omega), List.getElem_append_left hk]
  have havg : used h.length = (s.analysis startT stopT).analyzer.entriesUsedAVG := by
    rw [hused h.length (by simp), List.getElem_append_right (Nat.le_refl _)]
    simp
  rw [List.length_append, List.length_singleton, Analyzer.afterCalls_succ]
  -- before the call, the count and the average are all that is new
  have hcounts := Analyzer.update_thresholds_counts
    ((s.analyzer.waited startT stopT).shiftEntries.enterScan.counted s.results)
  rw [analysis_eq] at havg ⊢
  refine Analyzer.control_update_thresholds
    (a := (s.analyzer.waited startT stopT).shiftEntries.enterScan.counted s.results) ?_ ?_
  · exact hbefore
  · exact hcounts.2.2.symm.trans havg.symm

/-- The farm's run together with the averages of its analyses: induction on the events. -/
theorem run_controlled_of (cfg : Config n) (es : List (Event n)) :
    ∃ s h, Run.run (Run.observed (step B) averages) (init cfg, []) es = .ok (s, h) ∧
      h.length = (es.filter Event.isAnalysis).length ∧
      Controlled (cfg.worker ⟨0, cfg.workers_pos⟩) s.analyzer h := by
  have hinit : Controlled (cfg.worker ⟨0, cfg.workers_pos⟩) (init cfg).analyzer [] :=
    fun _ _ => rfl
  refine Run.run_observed_events_invariant
    (I := fun pre (s : Farm n) h => h.length = (pre.filter Event.isAnalysis).length ∧
      Controlled (cfg.worker ⟨0, cfg.workers_pos⟩) s.analyzer h) ?_ ⟨rfl, hinit⟩ es
  intro pre s h e ⟨hlen, hold⟩
  obtain ⟨s', hok⟩ := step_ok (B := B) s e
  refine ⟨s', hok, ?_⟩
  rw [List.filter_append, List.length_append, ← hlen]
  cases e with
  | capture fup =>
    -- only an analysis runs `update_thresholds`
    obtain rfl := Except.ok.inj hok
    exact ⟨rfl, by rw [capture_analyzer]; exact hold⟩
  | svc i => exact ⟨rfl, by rw [svc_analyzer hok]; exact hold⟩
  | analysis startT stopT =>
    obtain rfl := Except.ok.inj hok
    exact ⟨List.length_append, hold.analysis startT stopT⟩

/-- **The farm runs the control law.** After any run of the farm, with the averages its analyses
computed: the thresholds, the count of quiet intervals and the size of the flow memory are those of
the analyzer after one call of `update_thresholds` for each analysis, with these averages. -/
theorem run_controlled (B : Boost) (cfg : Config n) (es : List (Event n)) :
    ∃ s h, Run.run (Run.observed (step B) averages) (init cfg, []) es = .ok (s, h) ∧
      h.length = (es.filter Event.isAnalysis).length ∧
      s.analyzer.control = ((Analyzer.new (cfg.worker ⟨0, cfg.workers_pos⟩)).afterCalls
        (fun k => h.getD k 0) h.length).control := by
  obtain ⟨s, h, hrun, hlen, hcontrol⟩ := run_controlled_of (B := B) cfg es
  exact ⟨s, h, hrun, hlen, hcontrol.control_eq⟩

/-- **Bounds in the farm.** With a first threshold of at least 1: after any run the threshold of the
analyzer is between 1 and the first one, the threshold for the filters is the same, and the
early-removal threshold is not above it unless the product of some analysis has overflowed. -/
theorem thresholds_always_bounded (B : Boost) (cfg : Config n) (hfirst : 1 ≤ cfg.firstThreshold)
    (es : List (Event n)) :
    ∃ s h, Run.run (Run.observed (step B) averages) (init cfg, []) es = .ok (s, h) ∧
      1 ≤ s.analyzer.t_threshold ∧ s.analyzer.t_threshold ≤ cfg.firstThreshold.toNat ∧
      s.analyzer.filter_threshold = s.analyzer.t_threshold ∧
      ((∀ k < h.length, ¬ ((Analyzer.new (cfg.worker ⟨0, cfg.workers_pos⟩)).atCall
          (fun k => h.getD k 0) k).Overflows) →
        s.analyzer.r_threshold ≤ s.analyzer.t_threshold) := by
  obtain ⟨s, h, hrun, -, hcontrol⟩ := run_controlled_of (B := B) cfg es
  have hthreshold : (cfg.worker ⟨0, cfg.workers_pos⟩).getThreshold.toNat =
      cfg.firstThreshold.toNat := UInt32.toNat_toUInt64 _
  have hnew : (Analyzer.new (cfg.worker ⟨0, cfg.workers_pos⟩)).Bounded :=
    Analyzer.bounded_new (hthreshold ▸ UInt32.le_iff_toNat_le.mp hfirst)
  -- the bounds of the calls, and the first threshold that they keep
  have hafter := hcontrol.control_eq
  have hbounded := (hnew.afterCalls (fun k => h.getD k 0) h.length).of_control hafter
  have hkept : s.analyzer.first_t_threshold = cfg.firstThreshold.toNat :=
    (congrArg Analyzer.Control.first_t_threshold hafter).trans <|
      (Analyzer.first_t_threshold_afterCalls _ _ _).trans hthreshold
  refine ⟨s, h, hrun, hbounded.one_le, hkept ▸ hbounded.le_first, hbounded.filter_eq,
    fun hfits => ?_⟩
  have hle := Analyzer.r_threshold_afterCalls_le hnew (Analyzer.floor_r_mul_le _) hfits
  rw [show s.analyzer.r_threshold = _ from congrArg Analyzer.Control.r_threshold hafter,
    show s.analyzer.t_threshold = _ from congrArg Analyzer.Control.t_threshold hafter]
  exact hle

end Farm

end FHF
