import FHFCapturing.WorkerRun

/-!
# Recorded flows between two analyses

A flow in the table when an interval starts has every one of its packets accounted, in a 32-bit
counter that starts at zero: at the next analysis it has the bytes of the interval modulo
`2 ^ 32` (`svcAll_octets`). So a recorded heavy flow is reported and kept exactly when its bytes
still exceed the threshold after that reduction (`heavyFlow_reported_iff`).
-/

namespace FHF

namespace Worker

variable {P : IterMap.Placement FlowID FlowDescriptor}

/-- **Accounting over an interval.** The counter of a flow recorded just after an analysis is, after
any packets, the bytes of the flow's own packets modulo `2 ^ 32`. -/
theorem svcAll_octets {w₀ : Worker} {t₀ r₀ : Nat} {ft₀ : UInt64} {f : FlowID}
    (hrec : (w₀.analysed t₀ r₀ ft₀).ht.lookupFlow f = true) (fups : List FlowUpdate) :
    ∃ w, (w₀.analysed t₀ r₀ ft₀).svcAll P fups = .ok w ∧
      ∃ fd, w.ht.descriptor? f = some fd ∧ fd.dOctets.toNat = bytesOf f fups % 2 ^ 32 := by
  refine Run.run_events_invariant
    (I := fun pre (w : Worker) =>
      ∃ fd, w.ht.descriptor? f = some fd ∧ fd.dOctets.toNat = bytesOf f pre % 2 ^ 32) ?_ ?_ fups
  · rintro pre w fup ⟨fd, hfd, hoctets⟩
    obtain ⟨w', hok, hsvc⟩ := svc_cases P w fup
    refine ⟨w', hok, ?_⟩
    rw [bytesOf_append, bytesOf_singleton]
    by_cases hf : f = fup.fid
    · -- the flow has an entry, so its packet updates it
      subst hf
      rcases hsvc.descriptor?_self with ⟨fd₀, h₀, h₁⟩ | ⟨h₀, -⟩ | ⟨h₀, -⟩
      · obtain rfl := Option.some.inj (h₀.symm.trans hfd)
        refine ⟨_, h₁, ?_⟩
        rw [HashTable.account_dOctets, UInt32.toNat_add, hoctets, if_pos rfl]
        exact Nat.mod_add_mod _ _ _
      · rw [h₀] at hfd
        cases hfd
      · rw [h₀] at hfd
        cases hfd
    · rw [hsvc.descriptor?_of_ne hf, if_neg fun h => hf h.symm, Nat.add_zero]
      exact ⟨fd, hfd, hoctets⟩
  · -- an entry that survived the analysis starts at zero
    obtain ⟨fd, hfd⟩ := HashTable.exists_of_lookupFlow hrec
    refine ⟨fd, hfd, ?_⟩
    rw [descriptor?_analysed] at hfd
    obtain ⟨fd₀, -, hkeep⟩ := Option.bind_eq_some_iff.mp hfd
    obtain rfl := Analyzer.eq_nextInterval_of_kept hkeep
    rfl

/-- The scan keeps an entry that is over the threshold. -/
theorem lookupFlow_of_over {t r : Nat} {ht : HashTable} {f : FlowID} {fd : FlowDescriptor}
    (hfd : ht.descriptor? f = some fd) (hover : t < fd.dOctets.toNat) :
    (Analyzer.scanTable t r ht []).1.lookupFlow f = true := by
  rw [HashTable.lookupFlow_eq, Analyzer.descriptor?_scanTable, hfd, Option.bind_some]
  rcases Analyzer.checkEntry_cases t r fd with ⟨-, heq⟩ | ⟨hle, -⟩ | ⟨hle, -⟩
  · rw [heq]; rfl
  · exact absurd hover (Nat.not_lt.mpr hle)
  · exact absurd hover (Nat.not_lt.mpr hle)

/-- **Recorded heavy flows.** For a flow recorded just after an analysis and any packets since:
the next scan does what it should (reports and keeps the flow if its bytes exceed the threshold)
exactly when the bytes modulo `2 ^ 32` exceed the threshold whenever the bytes do. -/
theorem heavyFlow_reported_iff (P : IterMap.Placement FlowID FlowDescriptor) (w₀ : Worker)
    (t₀ r₀ : Nat) (ft₀ : UInt64) (f : FlowID)
    (hrec : (w₀.analysed t₀ r₀ ft₀).ht.lookupFlow f = true) (fups : List FlowUpdate)
    (T R : Nat) :
    ∃ w, (w₀.analysed t₀ r₀ ft₀).svcAll P fups = .ok w ∧
      ((T < bytesOf f fups →
          f ∈ (Analyzer.scanTable T R w.ht []).2.map FlowDescriptor.fid ∧
            (Analyzer.scanTable T R w.ht []).1.lookupFlow f = true) ↔
        (T < bytesOf f fups → T < bytesOf f fups % 2 ^ 32)) := by
  obtain ⟨w, hrun, fd, hfd, hoctets⟩ := svcAll_octets (P := P) hrec fups
  refine ⟨w, hrun, imp_congr_right fun _ => ?_⟩
  rw [Analyzer.scanTable_snd, List.nil_append, Analyzer.mem_reported_fids hfd, hoctets]
  exact ⟨fun h => h.1, fun h => ⟨h, lookupFlow_of_over hfd (hoctets ▸ h)⟩⟩

/-! ## More than 4 GiB in one interval -/

namespace Wrap

/-- The flow whose byte counter wraps. -/
def flow : FlowID := ⟨1, 9, 1000, 80, 6⟩

/-- A worker whose table holds one flow, with 150 bytes. -/
def worker : Worker :=
  { new 1201 [StageContainer.zeroHash] StageContainer.single_ne_nil 100 with
    ht := (HashTable.new 1201).insertFlow .atEnd ⟨flow, 150, 54⟩ }

/-- Packets of the largest IP length, 65534 bytes past 4 GiB together. -/
def packets : List FlowUpdate := List.replicate 65538 ⟨flow, 65535, 54⟩

/-- Copies of one packet count as often as there are copies. -/
theorem bytesOf_replicate (k : Nat) (fup : FlowUpdate) :
    bytesOf fup.fid (List.replicate k fup) = k * fup.dOctets.toNat := by
  induction k with
  | zero => simp
  | succ k ih => rw [List.replicate_succ, bytesOf_cons, ih, if_pos rfl, Nat.succ_mul, Nat.add_comm]

/-- In sum the packets are over any 32-bit threshold. -/
theorem bytesOf_packets : bytesOf flow packets = 2 ^ 32 + 65534 :=
  bytesOf_replicate 65538 ⟨flow, 65535, 54⟩

/-- The flow is in the table before the interval starts. -/
theorem flow_recorded : (worker.analysed 100 20 1).ht.lookupFlow flow = true := by
  decide

end Wrap

/-- A flow that sends 65534 bytes past 4 GiB in an interval is not reported over a threshold of
100000. -/
theorem heavyFlow_wraps :
    ¬ ∀ (P : IterMap.Placement FlowID FlowDescriptor) (w₀ : Worker) (t₀ r₀ : Nat)
      (ft₀ : UInt64) (f : FlowID), (w₀.analysed t₀ r₀ ft₀).ht.lookupFlow f = true →
      ∀ fups : List FlowUpdate, (∀ fup ∈ fups, fup.dOctets.toNat ≤ 65535) → ∀ T R : Nat,
        ∃ w, (w₀.analysed t₀ r₀ ft₀).svcAll P fups = .ok w ∧
          (T < bytesOf f fups →
            f ∈ (Analyzer.scanTable T R w.ht []).2.map FlowDescriptor.fid ∧
              (Analyzer.scanTable T R w.ht []).1.lookupFlow f = true) := by
  intro hall
  -- no packet is longer than an IP packet can be
  have hlen : ∀ fup ∈ Wrap.packets, fup.dOctets.toNat ≤ 65535 := by
    intro fup hfup
    rw [List.eq_of_mem_replicate hfup]
    decide
  obtain ⟨w, hrun, hreport⟩ := hall .atEnd Wrap.worker 100 20 1 Wrap.flow Wrap.flow_recorded
    Wrap.packets hlen 100000 20000
  obtain ⟨w', hrun', fd, hfd, hoctets⟩ :=
    svcAll_octets (P := .atEnd) Wrap.flow_recorded Wrap.packets
  obtain rfl := Except.ok.inj (hrun'.symm.trans hrun)
  -- the bytes are over the threshold, and what the counter keeps of them is not
  rw [Wrap.bytesOf_packets] at hreport hoctets
  have hover := (hreport (by decide)).1
  rw [Analyzer.scanTable_snd, List.nil_append, Analyzer.mem_reported_fids hfd, hoctets] at hover
  exact absurd hover (by decide)

/-- Two packets of 80 bytes after an analysis: the sum of 160 bytes is below `2 ^ 32`, and over the
threshold of 100. -/
theorem heavyFlow_reported_iff_wrap :
    ∃ w, (Wrap.worker.analysed 100 20 1).svcAll .atEnd
        [⟨Wrap.flow, 80, 54⟩, ⟨Wrap.flow, 80, 54⟩] = .ok w ∧
      ((100 < bytesOf Wrap.flow [⟨Wrap.flow, 80, 54⟩, ⟨Wrap.flow, 80, 54⟩] →
          Wrap.flow ∈ (Analyzer.scanTable 100 20 w.ht []).2.map FlowDescriptor.fid ∧
            (Analyzer.scanTable 100 20 w.ht []).1.lookupFlow Wrap.flow = true) ↔
        (100 < bytesOf Wrap.flow [⟨Wrap.flow, 80, 54⟩, ⟨Wrap.flow, 80, 54⟩] →
          100 < bytesOf Wrap.flow [⟨Wrap.flow, 80, 54⟩, ⟨Wrap.flow, 80, 54⟩] % 2 ^ 32)) :=
  heavyFlow_reported_iff .atEnd Wrap.worker 100 20 1 Wrap.flow Wrap.flow_recorded _ 100 20

end Worker

end FHF
