import FHFCapturing.Farm
import FHFCapturing.TableScan

/-!
# The usage that the adaptation is fed

`entriesUsedAVG` is meant to follow the population of the tables over the last three intervals
("Collect Stats on table's population"). The analysis counts the results of its scan instead,
which leave out the records not over the threshold. The window `e1`, `e2`, `e3` holds the counts
of the last analyses (`Windowed`), so the average is that of the populations exactly when the
records left out of the last three counts do not carry the sum past a multiple of 3
(`Farm.entriesUsedAVG_eq_iff`).
-/

namespace FHF

namespace Analyzer

/-- Adapting the thresholds leaves the counts alone. -/
theorem update_thresholds_counts (a : Analyzer) :
    a.update_thresholds.e1 = a.e1 ∧ a.update_thresholds.e2 = a.e2 ∧
      a.update_thresholds.entriesUsedAVG = a.entriesUsedAVG := by
  rcases a.update_thresholds_cases with ⟨-, heq⟩ | ⟨-, -, heq⟩ | ⟨-, -, heq⟩ <;> simp [heq]

/-- The records of a table that a scan with the threshold `t` does not report. -/
def unreported (t : Nat) (ht : HashTable) : Nat :=
  (ht.fmap.entries.map Prod.snd).countP fun fd => decide (fd.dOctets.toNat ≤ t)

/-- Every record of the table is reported or not. -/
theorem length_reported_add_unreported (t r : Nat) (ht : HashTable) :
    (reported t r ht).length + unreported t ht = ht.fmap.size := by
  have hsplit := List.length_eq_countP_add_countP (fun fd => decide (t < fd.dOctets.toNat))
    (l := ht.fmap.entries.map Prod.snd)
  rw [List.length_map] at hsplit
  unfold unreported IterMap.size
  rw [reported_eq_filter, ← List.countP_eq_length_filter, hsplit]
  congr 2
  funext fd
  simp

end Analyzer

namespace Farm

variable {n : Nat} {B : Boost}

/-- The records in all the workers' tables. -/
def population (s : Farm n) : Nat :=
  ((List.finRange n).map fun i => (s.workers i).ht.fmap.size).sum

/-- Those that are not over the threshold of the next analysis. -/
def light (s : Farm n) : Nat :=
  ((List.finRange n).map fun i =>
    Analyzer.unreported s.analyzer.t_threshold (s.workers i).ht).sum

theorem length_results_add_light (s : Farm n) : s.results.length + s.light = s.population := by
  unfold results light population
  rw [List.length_flatMap, ← List.sum_map_add]
  congr 1
  refine List.map_congr_left fun i _ => ?_
  exact Analyzer.length_reported_add_unreported _ _ _

/-- What an analysis finds when it has locked the workers. -/
structure Census where
  population : Nat
  light : Nat
  deriving DecidableEq, Repr

/-- History variable: what the analyses so far found, the last one first. -/
def census (s : Farm n) (e : Event n) (_ : Farm n) (h : List Census) : List Census :=
  match e with
  | .analysis _ _ => ⟨s.population, s.light⟩ :: h
  | _ => h

/-- The count that an analysis made of what it found. -/
def Census.counted (c : Census) : UInt32 := UInt32.ofNat (c.population - c.light)

/-- The analyzer's window: the counts of the last two analyses. -/
structure Windowed (a : Analyzer) (h : List Census) : Prop where
  e1_eq : ∀ c rest, h = c :: rest → a.e1 = c.counted
  e2_eq : ∀ c d rest, h = c :: d :: rest → a.e2 = d.counted

/-- Before the first analysis nothing has been counted. -/
theorem windowed_init (cfg : Config n) : Windowed (init cfg).analyzer [] where
  e1_eq := by intro c rest h; cases h
  e2_eq := by intro c d rest h; cases h

/-- The counts after an analysis: its own, the one before, and the average of three. -/
theorem analysis_counts (s : Farm n) (startT stopT : Int) :
    (s.analysis startT stopT).analyzer.e1 = UInt32.ofNat s.results.length ∧
      (s.analysis startT stopT).analyzer.e2 = s.analyzer.e1 ∧
      (s.analysis startT stopT).analyzer.entriesUsedAVG =
        (UInt32.ofNat s.results.length + s.analyzer.e1 + s.analyzer.e2) / 3 + 1 := by
  rw [analysis_eq]
  obtain ⟨he1, he2, havg⟩ := Analyzer.update_thresholds_counts
    ((s.analyzer.waited startT stopT).shiftEntries.enterScan.counted s.results)
  have hcount : 0 + UInt32.ofNat s.results.length = UInt32.ofNat s.results.length :=
    UInt32.zero_add _
  refine ⟨he1.trans hcount, he2, havg.trans ?_⟩
  rw [← hcount]
  rfl

/-- The count of an analysis is the number of its records. -/
theorem counted_census (s : Farm n) :
    Census.counted ⟨s.population, s.light⟩ = UInt32.ofNat s.results.length := by
  have hsplit := s.length_results_add_light
  unfold Census.counted
  rw [show s.population - s.light = s.results.length by omega]

/-- An analysis moves the window by one; the other events leave it. -/
theorem Windowed.step {s s' : Farm n} {h : List Census} {e : Event n}
    (hold : Windowed s.analyzer h) (hok : s.step B e = .ok s') :
    Windowed s'.analyzer (census s e s' h) := by
  cases e with
  | capture fup =>
    obtain rfl := Except.ok.inj hok
    -- the workers alone do not touch the counts
    rw [capture_analyzer]
    exact hold
  | svc i =>
    rw [svc_analyzer hok]
    exact hold
  | analysis startT stopT =>
    obtain rfl := Except.ok.inj hok
    obtain ⟨he1, he2, -⟩ := s.analysis_counts startT stopT
    refine ⟨fun c rest heq => ?_, fun c d rest heq => ?_⟩
    · -- the new count is of the tables as this analysis found them
      obtain ⟨rfl, rfl⟩ := List.cons.inj heq
      rw [he1, counted_census]
    · obtain ⟨-, rfl⟩ := List.cons.inj heq
      -- the count before moves to the second place
      rw [he2]
      exact hold.e1_eq d rest rfl

theorem run_windowed (B : Boost) (cfg : Config n) (es : List (Event n)) :
    ∃ s h, Run.run (Run.observed (step B) census) (init cfg, []) es = .ok (s, h) ∧
      Windowed s.analyzer h ∧ ∀ c ∈ h, c.light ≤ c.population := by
  refine Run.run_observed_invariant
    (I := fun (s : Farm n) h => Windowed s.analyzer h ∧ ∀ c ∈ h, c.light ≤ c.population) ?_
    ⟨windowed_init cfg, fun c hc => nomatch hc⟩ es
  rintro s h e ⟨hold, hle⟩
  obtain ⟨s', hok⟩ := step_ok (B := B) s e
  -- the window, and that no census has more light records than records
  refine ⟨s', hok, hold.step hok, ?_⟩
  cases e with
  | capture fup => exact hle
  | svc i => exact hle
  | analysis startT stopT =>
    have hsplit := s.length_results_add_light
    -- the census of this analysis
    refine List.forall_mem_cons.mpr ⟨?_, hle⟩
    show s.light ≤ s.population
    omega

/-- The average of three counts, when their sum fits. -/
theorem toNat_average {x y z : Nat} (h : x + y + z < 2 ^ 32) :
    ((UInt32.ofNat x + UInt32.ofNat y + UInt32.ofNat z) / 3 + 1).toNat =
      1 + (x + y + z) / 3 := by
  simp only [UInt32.toNat_add, UInt32.toNat_div, UInt32.toNat_ofNat']
  rw [show (1 : UInt32).toNat = 1 from rfl, show (3 : UInt32).toNat = 3 from rfl]
  omega

/-- **The usage that the adaptation is fed.** After any run with two analyses or more, the next one
computes the average of the populations it and the two before it found, exactly when the records
not over the threshold, in these three, are at most what dividing the sum of the populations by 3
leaves over. -/
theorem entriesUsedAVG_eq_iff (B : Boost) (cfg : Config n) (es : List (Event n))
    (startT stopT : Int) :
    ∃ s h, Run.run (Run.observed (step B) census) (init cfg, []) es = .ok (s, h) ∧
      ∀ c d rest, h = c :: d :: rest →
        s.population + c.population + d.population < 2 ^ 32 →
        ((s.analysis startT stopT).analyzer.entriesUsedAVG.toNat =
            1 + (s.population + c.population + d.population) / 3 ↔
          s.light + c.light + d.light ≤
            (s.population + c.population + d.population) % 3) := by
  obtain ⟨s, h, hrun, hwindow, hle⟩ := run_windowed B cfg es
  refine ⟨s, h, hrun, fun c d rest heq hsum => ?_⟩
  -- for each of the three analyses: counted are the records that are not light
  have hsplit := s.length_results_add_light
  have hc : c.light ≤ c.population := hle c (by simp [heq])
  have hd : d.light ≤ d.population := hle d (by simp [heq])
  rw [(s.analysis_counts startT stopT).2.2, hwindow.e1_eq c _ heq, hwindow.e2_eq c d rest heq]
  unfold Census.counted
  rw [toNat_average (by omega)]
  omega

/-! ## Records that stay without being reported -/

namespace Idle

/-- A packet of a flow of its own, over the threshold. -/
def packet (src : UInt32) : FlowUpdate := { fid := ⟨src, 9, 1000, 80, 6⟩, dOctets := 150 }

/-- Three flows are recorded; the first analysis reports them, and the second finds their records
empty. -/
def events : List (Event 1) :=
  [.capture (packet 1), .capture (packet 2), .capture (packet 3), .svc 0, .svc 0, .svc 0,
    .analysis 0 1, .analysis 1 2]

/-- What the two analyses found, what the third finds, and the average it computes. -/
theorem third_interval :
    (Run.run (Run.observed (step Boost.standard) census) (init (Config.single 1), [])
      events).map (fun (s, h) =>
        (h, s.population, (s.analysis 2 3).analyzer.entriesUsedAVG.toNat)) =
    .ok ([⟨3, 3⟩, ⟨3, 0⟩], 0, 2) := by
  decide +kernel

end Idle

/-- The second analysis counts none of the three records in the tables. -/
theorem entriesUsedAVG_fails :
    ¬ ∀ (n : Nat) (B : Boost) (cfg : Config n) (es : List (Event n)) (startT stopT : Int),
      ∃ s h, Run.run (Run.observed (step B) census) (init cfg, []) es = .ok (s, h) ∧
        ∀ c d rest, h = c :: d :: rest →
          s.population + c.population + d.population < 2 ^ 32 →
          (s.analysis startT stopT).analyzer.entriesUsedAVG.toNat =
            1 + (s.population + c.population + d.population) / 3 := by
  intro hall
  obtain ⟨s, h, hrun, havg⟩ := hall 1 Boost.standard (Config.single 1) Idle.events 2 3
  have hthird := Idle.third_interval
  rw [hrun] at hthird
  simp only [Except.map, Except.ok.injEq, Prod.mk.injEq] at hthird
  obtain ⟨hcensus, hpop, hcode⟩ := hthird
  -- three and three records, of which the second time none was counted
  have hspec := havg ⟨3, 3⟩ ⟨3, 0⟩ [] hcensus (by rw [hpop]; decide)
  rw [hcode, hpop] at hspec
  exact absurd hspec (by decide)

end Farm

end FHF
