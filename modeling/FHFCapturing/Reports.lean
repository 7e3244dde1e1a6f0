import FHFCapturing.Dispatch

/-!
# Reports are sound

A reported flow really sent more than the threshold: along every run the bytes of a table entry
are at most the bytes of its flow's packets that the workers handled since the last analysis
(`Accounted`). With the dispatch invariant no two reports name one flow, so the reports of one
interval account for disjoint packets, and there are at most (bytes handled) / (threshold + 1) of
them.
-/

namespace FHF

namespace Farm

variable {n : Nat} {B : Boost}

/-- History variable: the packets the workers handled since the last analysis. -/
def handledSince (s : Farm n) (e : Event n) (_ : Farm n) (h : List FlowUpdate) :
    List FlowUpdate :=
  match e with
  | .capture _ => h
  | .svc i => h ++ (s.queue i).head?.toList
  | .analysis _ _ => []

/-- The bytes of every entry come from packets handled since the last analysis. -/
structure Accounted (B : Boost) (s : Farm n) (h : List FlowUpdate) : Prop where
  dispatched : Dispatched B s
  octets : ∀ i fid fd, (s.workers i).ht.descriptor? fid = some fd →
    fd.dOctets.toNat ≤ bytesOf fid h

theorem accounted_init (cfg : Config n) : Accounted B (init cfg) [] where
  dispatched := dispatched_init cfg
  octets := by intro i fid fd hfd; cases hfd

/-- Handling a packet adds at most its own bytes to its own flow's entry. -/
theorem octets_le_of_svc {P : IterMap.Placement FlowID FlowDescriptor} {w w' : Worker}
    {fup : FlowUpdate} {h : List FlowUpdate} (hsvc : Worker.Svc P w fup w')
    (hold : ∀ fid fd, w.ht.descriptor? fid = some fd → fd.dOctets.toNat ≤ bytesOf fid h)
    {fid : FlowID} {fd : FlowDescriptor} (hfd : w'.ht.descriptor? fid = some fd) :
    fd.dOctets.toNat ≤ bytesOf fid (h ++ [fup]) := by
  rw [bytesOf_append, bytesOf_singleton]
  by_cases hfid : fid = fup.fid
  · subst hfid
    rw [if_pos rfl]
    rcases hsvc.descriptor?_self with ⟨fd₀, h₀, h₁⟩ | ⟨-, h₁⟩ | ⟨-, h₁⟩
    · -- updated: the 32-bit sum is at most the sum
      obtain rfl := Option.some.inj (h₁.symm.trans hfd)
      have hbytes := hold _ _ h₀
      have hsum : (fd₀.dOctets + fup.dOctets).toNat ≤ fd₀.dOctets.toNat + fup.dOctets.toNat := by
        rw [UInt32.toNat_add]
        exact Nat.mod_le _ _
      rw [HashTable.account_dOctets]
      omega
    · -- recorded with the bytes of this packet
      obtain rfl := Option.some.inj (h₁.symm.trans hfd)
      exact Nat.le_add_left _ _
    · -- dropped
      rw [h₁] at hfd
      cases hfd
  · rw [hsvc.descriptor?_of_ne hfid] at hfd
    exact Nat.le_add_right_of_le (hold fid fd hfd)

/-- One event: only a packet adds to the bytes handled, and at most what it carries. -/
theorem Accounted.step {s s' : Farm n} {h : List FlowUpdate} {e : Event n}
    (hacc : Accounted B s h) (hok : s.step B e = .ok s') :
    Accounted B s' (handledSince s e s' h) := by
  refine ⟨hacc.dispatched.step hok, ?_⟩
  intro i fid fd hfd
  cases e with
  | capture fup =>
    obtain rfl := Except.ok.inj hok
    rw [capture_workers] at hfd
    exact hacc.octets i fid fd hfd
  | analysis startT stopT =>
    -- whatever survived the scan has its bytes reset
    obtain rfl := Except.ok.inj hok
    rw [descriptor?_analysis] at hfd
    obtain ⟨fd₀, -, hkeep⟩ := Option.bind_eq_some_iff.mp hfd
    obtain rfl := Analyzer.eq_nextInterval_of_kept hkeep
    exact Nat.zero_le _
  | svc j =>
    rcases svc_cases hok with ⟨hq, rfl⟩ | ⟨fup, rest, w, hq, hsvc, rfl⟩
    · simp only [handledSince, hq, List.head?_nil, Option.toList_none, List.append_nil]
      exact hacc.octets i fid fd hfd
    · simp only [handledSince, hq, List.head?_cons, Option.toList_some]
      dsimp only at hfd
      by_cases hij : i = j
      · -- the worker that handled the packet
        subst hij
        rw [Function.update_self] at hfd
        exact octets_le_of_svc hsvc (hacc.octets i) hfd
      · rw [Function.update_of_ne hij] at hfd
        rw [bytesOf_append]
        exact Nat.le_add_right_of_le (hacc.octets i fid fd hfd)

theorem run_accounted {s : Farm n} {h : List FlowUpdate} (hacc : Accounted B s h)
    (es : List (Event n)) :
    ∃ s' h', Run.run (Run.observed (step B) handledSince) (s, h) es = .ok (s', h') ∧
      Accounted B s' h' := by
  refine Run.run_observed_invariant ?_ hacc es
  intro s h e hacc
  obtain ⟨s', hok⟩ := step_ok (B := B) s e
  exact ⟨s', hok, hacc.step hok⟩

namespace Accounted

variable {s : Farm n} {h : List FlowUpdate}

/-- A reported flow has sent more than the threshold, and at least what is reported. -/
theorem of_mem_results (hacc : Accounted B s h) {fd : FlowDescriptor} (hfd : fd ∈ s.results) :
    s.analyzer.t_threshold < bytesOf fd.fid h ∧ fd.dOctets.toNat ≤ bytesOf fd.fid h := by
  obtain ⟨i, -, hmem⟩ := List.mem_flatMap.mp hfd
  obtain ⟨hentry, hover⟩ := Analyzer.mem_reported.mp hmem
  have hle := hacc.octets i _ _ hentry
  exact ⟨Nat.lt_of_lt_of_le hover hle, hle⟩

/-- The reported flows are different, so their bytes add up. -/
theorem length_results_le (hacc : Accounted B s h) :
    s.results.length * (s.analyzer.t_threshold + 1) ≤ totalBytes h := by
  have hover : ∀ fid ∈ s.results.map FlowDescriptor.fid,
      s.analyzer.t_threshold + 1 ≤ bytesOf fid h := by
    intro fid hfid
    obtain ⟨fd, hfd, rfl⟩ := List.mem_map.mp hfid
    exact (hacc.of_mem_results hfd).1
  rw [← List.length_map FlowDescriptor.fid]
  exact Tally.length_mul_le_total hacc.dispatched.results_nodup hover

end Accounted

/-- **Soundness of reports.** After any run, with `h` the packets handled since the previous
analysis: every descriptor the analysis pushes to its results belongs to a flow that sent more
than the threshold in `h`, with no more bytes than the flow sent there, and the number of results
is bounded by the bytes of `h`. -/
theorem reports_sound (B : Boost) (cfg : Config n) (es : List (Event n)) (startT stopT : Int) :
    ∃ s h, Run.run (Run.observed (step B) handledSince) (init cfg, []) es = .ok (s, h) ∧
      let a := (s.analyzer.waited startT stopT).shiftEntries.enterScan
      let (a', _, results) := (s.analyzer.waited startT stopT).do_boundedAnalysis s.workers []
      a'.old_t_threshold = a.old_t_threshold ∧
      (∀ fd ∈ results,
        a.old_t_threshold < bytesOf fd.fid h ∧ fd.dOctets.toNat ≤ bytesOf fd.fid h) ∧
      results.length * (a.old_t_threshold + 1) ≤ totalBytes h := by
  obtain ⟨s, h, hrun, hacc⟩ := run_accounted (B := B) (accounted_init cfg) es
  refine ⟨s, h, hrun, ?_⟩
  rw [Analyzer.do_boundedAnalysis_eq]
  exact ⟨Analyzer.adapt_old_t _ _, fun fd hfd => hacc.of_mem_results hfd,
    hacc.length_results_le⟩

end Farm

end FHF
