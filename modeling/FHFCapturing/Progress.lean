import FHFCapturing.Atomicity
import Mathlib.Algebra.Order.BigOperators.Group.Finset

/-!
# No deadlock

The analyzer takes the mutexes in the order of the workers and waits for one it does not hold; a
worker holds at most its own and waits for nothing while it does. So in every state of the
threads some turn gets the whole nearer to its end: the analyzer's, or that of the worker it
waits for (`Conc.Matches.exists_turn`). Every interleaving is therefore the start of one that
handles every packet and leaves every thread at the top of its loop (`Conc.can_finish`), which
is where `FHFCapturing.Atomicity` compares the threads with the farm.
-/

namespace FHF

/-! ## How far the threads are from the top of their loops -/

/-- The turns left in `svc`, with the longer way through the filter. -/
def SvcPc.left : SvcPc → Nat
  | .idle => 0
  | .entered _ => 5
  | .locked _ => 4
  | .updating _ => 2
  | .filtering _ => 3
  | .inserting _ => 2
  | .unlocking => 1
  | .thrown _ => 0

/-- The turns left for the task in `svc` and for those in the queue. -/
def Thread.left (th : Thread) : Nat := 6 * th.queue.length + th.pc.left

/-- The turns left of the analyzer with `n` workers: four loops, and four turns between them. -/
def AnalyzerPc.left (n : Nat) : AnalyzerPc → Nat
  | .waiting => 0
  | .exporting => 1
  | .releasing k => (n - k) + 2
  | .refiltering k => (n - k) + (n + 3)
  | .adapting => 2 * n + 4
  | .scanning k => (n - k) + (2 * n + 5)
  | .acquiring k => (n - k) + (3 * n + 6)

namespace Thread

variable {P : IterMap.Placement FlowID FlowDescriptor}

/-- A worker thread whose mutex the analyzer does not hold never waits. -/
theorem Stands.left_next {th : Thread} {q : List FlowUpdate} (h : Stands false th q)
    (hbusy : ¬ (th.pc = .idle ∧ th.queue = [])) : (th.next P).left < th.left := by
  cases h with
  | idle =>
    cases q with
    | nil => exact absurd ⟨rfl, rfl⟩ hbusy
    -- taking the task is the first of its six steps
    | cons fup rest =>
      simp only [left, Thread.next, SvcPc.left, List.length_cons]
      omega
  -- the mutex is free, since nobody holds it
  | entered => simp [left, Thread.next, SvcPc.left, outsideLock]
  | locked =>
    simp only [left, Thread.next]
    split <;> simp [SvcPc.left]
  | updating hrec =>
    -- the entry is there, so no exception
    simp [left, Thread.next, SvcPc.left, HashTable.updateTable_of_recorded hrec]
  | filtering =>
    simp only [left, Thread.next]
    split <;> simp [SvcPc.left]
  | inserting => simp [left, Thread.next, SvcPc.left]
  | unlocking => simp [left, Thread.next, SvcPc.left]

end Thread

namespace Conc

variable {n : Nat} {B : Boost}

/-- The steps left to all the threads. -/
def left (c : Conc n) : Nat := c.analyst.pc.left n + ∑ i, (c.threads i).left

/-- Every packet is handled, and every thread is at the top of its loop. -/
def Finished (c : Conc n) : Prop := c.Quiescent ∧ ∀ i, (c.threads i).queue = []

/-- The analyzer waits for a mutex only while it acquires them. -/
theorem analyst_left_next (c : Conc n) (startT stopT : Int) (hpc : c.analyst.pc ≠ .waiting)
    (hfree : ∀ (k : Nat) (h : k < n), c.analyst.pc = .acquiring k →
      (c.threads ⟨k, h⟩).lock = none) :
    (c.nextAnalyzer startT stopT).analyst.pc.left n < c.analyst.pc.left n := by
  unfold nextAnalyzer
  cases hcase : c.analyst.pc with
  | waiting => exact absurd hcase hpc
  -- each step of a loop is one index less, and the last one goes on to the next loop
  | acquiring k =>
    by_cases hk : k < n
    · simp only [hk, ↓reduceDIte, hfree k hk hcase, setPc, AnalyzerPc.left]
      omega
    · simp only [hk, ↓reduceDIte, AnalyzerPc.left]
      omega
  | scanning k =>
    by_cases hk : k < n
    · simp only [hk, ↓reduceDIte, AnalyzerPc.left]
      omega
    · simp only [hk, ↓reduceDIte, setPc, AnalyzerPc.left]
      omega
  | adapting => simp only [AnalyzerPc.left]; omega
  | refiltering k =>
    by_cases hk : k < n
    · simp only [hk, ↓reduceDIte, setPc, AnalyzerPc.left]
      omega
    · simp only [hk, ↓reduceDIte, setPc, AnalyzerPc.left]
      omega
  | releasing k =>
    by_cases hk : k < n
    · simp only [hk, ↓reduceDIte, setPc, AnalyzerPc.left]
      omega
    · simp only [hk, ↓reduceDIte, setPc, AnalyzerPc.left]
      omega
  | exporting => simp [AnalyzerPc.left]

/-- The analyzer's step takes no step from a worker thread. -/
theorem threads_left_nextAnalyzer (c : Conc n) (startT stopT : Int) (i : Fin n) :
    ((c.nextAnalyzer startT stopT).threads i).left = (c.threads i).left := by
  -- the locks of a worker are no part of its steps
  have hlock : ∀ (j : Fin n) (l : Option Holder),
      ((c.setLock j l).threads i).left = (c.threads i).left := by
    intro j l
    by_cases hj : i = j
    · subst hj; rw [setLock_threads_self]; rfl
    · rw [setLock_threads_of_ne _ hj]
  -- the analyzer's steps change locks, tables and filters of the workers
  unfold nextAnalyzer
  split
  · rfl
  · split
    · split
      · exact hlock _ _
      · rfl
    · rfl
  · split <;> rfl
  · rfl
  · split <;> rfl
  · split
    · exact hlock _ _
    · rfl
  · rfl

/-- A worker thread with something to do makes a step. -/
theorem left_next_worker {c : Conc n} {i : Fin n} {q : List FlowUpdate}
    (h : (c.threads i).Stands false q)
    (hbusy : ¬ ((c.threads i).pc = .idle ∧ (c.threads i).queue = [])) :
    (c.next B (.worker i)).left < c.left := by
  have hi := h.left_next (P := B.placement) hbusy
  refine Nat.add_lt_add_left (Finset.sum_lt_sum (fun j _ => ?_) ⟨i, Finset.mem_univ i, ?_⟩) _
  · by_cases hj : j = i
    · subst hj; simpa [next] using hi.le
    · simp [next, hj]
  · simpa [next] using hi

/-- **No deadlock.** While there is a packet to handle or a thread inside its loop, some turn gets
nearer to the end. -/
theorem Matches.exists_turn {c : Conc n} {s : Farm n} (h : Matches c s)
    (hnot : ¬ c.Finished) : ∃ t, (c.next B t).left < c.left := by
  by_cases hpc : c.analyst.pc = .waiting
  · -- the analyzer holds no mutex, so any worker with something to do can go on
    obtain ⟨i, hbusy⟩ : ∃ i, ¬ ((c.threads i).pc = .idle ∧ (c.threads i).queue = []) := by
      by_contra hall
      have hidle := not_exists_not.mp hall
      exact hnot ⟨⟨fun i => (hidle i).1, hpc⟩, fun i => (hidle i).2⟩
    exact ⟨.worker i, left_next_worker ((h.stands i).cast (by simp [hpc, AnalyzerPc.holds])) hbusy⟩
  · by_cases hfree : ∀ (k : Nat) (hk : k < n), c.analyst.pc = .acquiring k →
        (c.threads ⟨k, hk⟩).lock = none
    · refine ⟨.analyzer 0 0, Nat.add_lt_add_of_lt_of_le (analyst_left_next c 0 0 hpc hfree) ?_⟩
      exact (Finset.sum_congr rfl fun i _ => threads_left_nextAnalyzer c 0 0 i).le
    · -- the analyzer waits for worker `k`, which is in its critical section
      simp only [not_forall] at hfree
      obtain ⟨k, hk, hacq, hlock⟩ := hfree
      have hstands : (c.threads ⟨k, hk⟩).Stands false (s.queue ⟨k, hk⟩) :=
        (h.stands ⟨k, hk⟩).cast (by simp [hacq, AnalyzerPc.holds])
      refine ⟨.worker ⟨k, hk⟩, left_next_worker hstands fun hidle => hlock ?_⟩
      exact hstands.lock_of_idle hidle.1

/-- **Every interleaving can be finished.** Whatever turns the threads have taken, there are further
turns after which every packet is handled and every thread is at the top of its loop. -/
theorem can_finish (B : Boost) (s₀ : Farm n) (turns : List (Turn n)) :
    ∃ more, ((start s₀).runTurns B (turns ++ more)).Finished := by
  have hreached : ∃ s, Matches ((start s₀).runTurns B turns) s := exists_matches_runTurns s₀ turns
  have hstep : ∀ c : Conc n, (∃ s, Matches c s) → ¬ c.Finished →
      ∃ t, (∃ s, Matches (c.next B t) s) ∧ (c.next B t).left < c.left := by
    rintro c ⟨s, h⟩ hnot
    obtain ⟨t, hlt⟩ := h.exists_turn (B := B) hnot
    exact ⟨t, exists_matches_next ⟨s, h⟩ t, hlt⟩
  obtain ⟨more, hmore⟩ := Run.exists_turns_of_measure (next B) left hstep hreached
  exact ⟨more, by rwa [runTurns, List.foldl_append]⟩

end Conc

end FHF
