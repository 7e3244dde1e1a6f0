import FHFCapturing.Lifetime

/-!
# Which packets an entry's counters count

`Ledger` splits the packets accounted to an entry since its insertion at the last analysis.
Handling a packet keeps both counters in step with the packets (modulo `2 ^ 32`), but the scan
resets `dOctets` and leaves `dPkts` as it is: so `dOctets` counts the packets since the last
analysis and `dPkts` those since the insertion (`Posted`). The two describe one set of packets
exactly when nothing was accounted to the entry before the last analysis
(`Farm.exported_counters_agree_iff`).
-/

namespace FHF

/-- The packets accounted to an entry: before the last analysis, and since. -/
structure Ledger where
  before : List FlowUpdate := []
  since : List FlowUpdate := []

@[simp] theorem totalBytes_nil : totalBytes [] = 0 := rfl

@[simp] theorem totalBytes_append (xs ys : List FlowUpdate) :
    totalBytes (xs ++ ys) = totalBytes xs + totalBytes ys :=
  Tally.total_append xs ys

@[simp] theorem totalBytes_singleton (fup : FlowUpdate) :
    totalBytes [fup] = fup.dOctets.toNat := by
  simp [totalBytes]

namespace Worker

variable {P : IterMap.Placement FlowID FlowDescriptor}

/-- History variable: the ledger of every recorded flow's entry. -/
def posted (_ : Worker) (e : WorkerEvent) (w' : Worker) (h : FlowID → Ledger) (fid : FlowID) :
    Ledger :=
  if w'.ht.lookupFlow fid then
    match e with
    | .packet fup =>
        if fid = fup.fid then { h fid with since := (h fid).since ++ [fup] } else h fid
    | .analysis _ _ _ => { before := (h fid).before ++ (h fid).since }
  else {}

/-- `dOctets` sums the packets since the last analysis, `dPkts` counts all of them. -/
def Posted (w : Worker) (h : FlowID → Ledger) : Prop :=
  ∀ fid, match w.ht.descriptor? fid with
    | none => h fid = {}
    | some fd =>
        fd.dOctets.toNat = totalBytes (h fid).since % 2 ^ 32 ∧
        fd.dPkts.toNat = ((h fid).before.length + (h fid).since.length) % 2 ^ 32

/-- A packet is accounted to the entry of its flow, if it has one, and to the flow's ledger. -/
theorem Posted.packet {w w' : Worker} {h : FlowID → Ledger} {fup : FlowUpdate}
    (hpost : Posted w h) (hsvc : Svc P w fup w') : Posted w' (posted w (.packet fup) w' h) := by
  intro fid
  have hold := hpost fid
  by_cases hfid : fid = fup.fid
  · subst hfid
    rcases hsvc.descriptor?_self with ⟨fd, h₀, h₁⟩ | ⟨h₀, h₁⟩ | ⟨h₀, h₁⟩
    · -- one more packet in an entry
      have hrec := HashTable.lookupFlow_of_some h₁
      rw [h₀] at hold
      simp only [h₁, posted, hrec, ↓reduceIte, HashTable.account_dOctets,
        HashTable.account_dPkts, UInt32.toNat_add, hold.1, hold.2, totalBytes_append,
        totalBytes_singleton, List.length_append, List.length_singleton]
      refine ⟨Nat.mod_add_mod _ _ _, ?_⟩
      rw [← Nat.add_assoc]
      exact Nat.mod_add_mod _ _ _
    · -- the packet that is recorded is the first of its ledger
      have hrec := HashTable.lookupFlow_of_some h₁
      rw [h₀] at hold
      simp only [h₁, posted, hrec, ↓reduceIte, hold, HashTable.firstEntry_dOctets,
        HashTable.firstEntry_dPkts]
      refine ⟨?_, rfl⟩
      rw [List.nil_append, totalBytes_singleton]
      exact (Nat.mod_eq_of_lt fup.dOctets.toNat_lt).symm
    · -- dropped by the filter, and still no entry
      simp [h₁, posted, HashTable.lookupFlow_eq_false.mpr h₁]
  · -- another flow's packet
    have hsame := hsvc.descriptor?_of_ne hfid
    cases hfd : w'.ht.descriptor? fid with
    | none => simp [posted, HashTable.lookupFlow_eq_false.mpr hfd]
    | some fd =>
      rw [← hsame, hfd] at hold
      simpa [posted, HashTable.lookupFlow_of_some hfd, hfid] using hold

/-- The scan resets the byte counter of what it keeps and not the packet counter. -/
theorem Posted.analysis {w : Worker} {h : FlowID → Ledger} (hpost : Posted w h) (t r : Nat)
    (ft : UInt64) :
    Posted (w.analysed t r ft) (posted w (.analysis t r ft) (w.analysed t r ft) h) := by
  intro fid
  cases hfd' : (w.analysed t r ft).ht.descriptor? fid with
  -- erased: its ledger starts anew
  | none => simp [posted, HashTable.lookupFlow_eq_false.mpr hfd']
  | some fd' =>
    have hrec := HashTable.lookupFlow_of_some hfd'
    rw [descriptor?_analysed] at hfd'
    obtain ⟨fd, hfd, hkeep⟩ := Option.bind_eq_some_iff.mp hfd'
    -- kept, with the byte counter at zero and the packet counter as it was
    obtain rfl := Analyzer.eq_nextInterval_of_kept hkeep
    have hold := hpost fid
    rw [hfd] at hold
    simp only [posted, hrec, ↓reduceIte, Analyzer.nextInterval_dOctets,
      Analyzer.nextInterval_dPkts, totalBytes_nil, List.length_append, List.length_nil]
    exact ⟨rfl, hold.2⟩

/-- Either kind of event keeps counters and ledgers together. -/
theorem Posted.step {w w' : Worker} {h : FlowID → Ledger} {e : WorkerEvent}
    (hpost : Posted w h) (hok : w.step P e = .ok w') : Posted w' (posted w e w' h) := by
  cases e with
  | packet fup => exact hpost.packet (svc_of_step hok)
  | analysis t r ft =>
    obtain rfl := Except.ok.inj hok
    exact hpost.analysis t r ft

end Worker

namespace Farm

variable {n : Nat} {B : Boost}

/-- Counters and ledgers agree in every worker after any run. -/
theorem run_posted (B : Boost) (cfg : Config n) (es : List (Event n)) :
    ∃ s h, Run.run (Run.observed (step B) (observeWorkers Worker.posted))
        (init cfg, fun _ _ => {}) es = .ok (s, h) ∧
      ∀ i, Worker.Posted (s.workers i) (h i) :=
  run_workers_invariant (fun _ _ _ _ hpost hok => hpost.step hok) (fun _ _ => rfl) es

/-- **What the exported counters count.** After any run, for every record the analysis reports,
with fewer than `2 ^ 32` packets and bytes accounted to its entry since the previous analysis: the
packet and byte counters are those of these packets exactly when the packets accounted to the
entry before that analysis are none (or a multiple of `2 ^ 32`). -/
theorem exported_counters_agree_iff (B : Boost) (cfg : Config n) (es : List (Event n))
    (startT stopT : Int) :
    ∃ s h, Run.run (Run.observed (step B) (observeWorkers Worker.posted))
        (init cfg, fun _ _ => {}) es = .ok (s, h) ∧
      ∀ fd ∈ ((s.analyzer.waited startT stopT).do_boundedAnalysis s.workers []).2.2,
        ∃ i, (s.workers i).ht.descriptor? fd.fid = some fd ∧
          ((h i fd.fid).since.length < 2 ^ 32 → totalBytes (h i fd.fid).since < 2 ^ 32 →
            ((fd.dPkts.toNat = (h i fd.fid).since.length ∧
              fd.dOctets.toNat = totalBytes (h i fd.fid).since) ↔
              2 ^ 32 ∣ (h i fd.fid).before.length)) := by
  obtain ⟨s, h, hrun, hpost⟩ := run_posted B cfg es
  refine ⟨s, h, hrun, fun fd hfd => ?_⟩
  rw [Analyzer.do_boundedAnalysis_eq] at hfd
  obtain ⟨i, -, hmem⟩ := List.mem_flatMap.mp hfd
  obtain ⟨hentry, -⟩ := Analyzer.mem_reported.mp hmem
  refine ⟨i, hentry, fun hlen hbytes => ?_⟩
  have hcounts := hpost i fd.fid
  rw [hentry] at hcounts
  obtain ⟨hoctets, hpkts⟩ := hcounts
  -- the bytes are those since the last analysis, the packets all the entry has had
  rw [Nat.mod_eq_of_lt hbytes] at hoctets
  rw [hpkts, hoctets, Nat.dvd_iff_mod_eq_zero]
  omega

/-! ## A flow reported twice

One flow, one packet in each of two intervals, both over the threshold of one byte. The second
record has the bytes of the second packet and a count of two. -/

namespace Drift

def flow : FlowID := ⟨1, 9, 1000, 80, 6⟩

/-- A packet, an analysis, and a second packet. -/
def events : List (Event 1) :=
  [.capture ⟨flow, 150, 54⟩, .svc ⟨0, Nat.one_pos⟩, .analysis 0 1,
    .capture ⟨flow, 60, 54⟩, .svc ⟨0, Nat.one_pos⟩]

/-- What the next analysis exports, and the one packet it should have counted. -/
theorem second_record :
    (Run.run (Run.observed (step Boost.standard) (observeWorkers Worker.posted))
        (init (Config.single 1), fun _ _ => {}) events).map (fun p =>
      (((p.1.analyzer.waited 1 2).do_boundedAnalysis p.1.workers []).2.2, (p.2 0 flow).since)) =
    .ok ([⟨flow, 2, 60, 1⟩], [⟨flow, 60, 54⟩]) := by
  decide +kernel

end Drift

/-- The exported packet counter is not that of the packets whose bytes are exported. -/
theorem exported_counters_drift :
    ¬ ∀ (n : Nat) (B : Boost) (cfg : Config n) (es : List (Event n)) (startT stopT : Int),
      ∃ s h, Run.run (Run.observed (step B) (observeWorkers Worker.posted))
          (init cfg, fun _ _ => {}) es = .ok (s, h) ∧
        ∀ fd ∈ ((s.analyzer.waited startT stopT).do_boundedAnalysis s.workers []).2.2,
          ∃ i, (s.workers i).ht.descriptor? fd.fid = some fd ∧
            ((h i fd.fid).since.length < 2 ^ 32 → totalBytes (h i fd.fid).since < 2 ^ 32 →
              (fd.dPkts.toNat = (h i fd.fid).since.length ∧
                fd.dOctets.toNat = totalBytes (h i fd.fid).since)) := by
  intro hall
  obtain ⟨s, h, hrun, hagree⟩ := hall 1 Boost.standard (Config.single 1) Drift.events 1 2
  have hrec := Drift.second_record
  rw [hrun] at hrec
  simp only [Except.map, Except.ok.injEq, Prod.mk.injEq] at hrec
  obtain ⟨hresults, hsince⟩ := hrec
  obtain ⟨i, -, hcounts⟩ := hagree ⟨Drift.flow, 2, 60, 1⟩ (by simp [hresults])
  obtain rfl : i = 0 := Subsingleton.elim i 0
  -- one packet since the last analysis, and two in the counter
  rw [hsince] at hcounts
  exact absurd (hcounts (by decide) (by decide)).1 (by decide)

end Farm

end FHF
