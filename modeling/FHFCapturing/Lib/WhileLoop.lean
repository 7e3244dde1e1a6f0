import Mathlib.Logic.Function.Iterate

/-!
# Loops with a variant

`while (guard s) s = body s`, as a structure that carries the reason why it ends: a natural number
that every iteration lowers. So `run` is a total function and can be evaluated, with the variant
as the bound on the number of iterations. What a loop computes is proved by an invariant
(`run_invariant`) and the exit condition (`guard_run`); what holds while it runs, of the states
after its first iterations (`exists_iterations`, `iterate_invariant`).
-/

/-- A `while` loop with the variant that ends it. -/
structure WhileLoop (σ : Type) where
  guard : σ → Bool
  body : σ → σ
  variant : σ → Nat
  variant_body_lt : ∀ s, guard s = true → variant (body s) < variant s

namespace WhileLoop

variable {σ : Type} (L : WhileLoop σ)

/-- At most `k` iterations. -/
def runFor : Nat → σ → σ
  | 0, s => s
  | k + 1, s => if L.guard s then runFor k (L.body s) else s

/-- The state in which the loop is left. -/
def run (s : σ) : σ := L.runFor (L.variant s) s

variable {L}

/-- The states of a loop: some number of iterations, each of them entered, and then the exit.
Induction on a bound for the variant. -/
theorem exists_iterations_of_le {k : Nat} {s : σ} (hk : L.variant s ≤ k) :
    ∃ j, L.runFor k s = L.body^[j] s ∧ L.guard (L.body^[j] s) = false ∧
      ∀ i < j, L.guard (L.body^[i] s) = true := by
  induction k generalizing s with
  | zero =>
    refine ⟨0, rfl, ?_, fun i hi => absurd hi (Nat.not_lt_zero i)⟩
    cases hguard : L.guard s with
    | false => exact hguard
    | true =>
      -- a variant of zero cannot fall
      have hlt := L.variant_body_lt s hguard
      omega
  | succ k ih =>
    cases hguard : L.guard s with
    | false =>
      exact ⟨0, by simp [runFor, hguard], hguard, fun i hi => absurd hi (Nat.not_lt_zero i)⟩
    | true =>
      have hlt := L.variant_body_lt s hguard
      -- the iterations after the first
      obtain ⟨j, hrun, hexit, henter⟩ := ih (s := L.body s) (by omega)
      refine ⟨j + 1, ?_, hexit, fun i hi => ?_⟩
      · rw [runFor, if_pos hguard, hrun]
        rfl
      · cases i with
        | zero => exact hguard
        | succ i => exact henter i (by omega)

theorem exists_iterations (L : WhileLoop σ) (s : σ) :
    ∃ j, L.run s = L.body^[j] s ∧ L.guard (L.body^[j] s) = false ∧
      ∀ i < j, L.guard (L.body^[i] s) = true :=
  exists_iterations_of_le (Nat.le_refl _)

/-- The loop has ended. -/
theorem guard_run (L : WhileLoop σ) (s : σ) : L.guard (L.run s) = false := by
  obtain ⟨j, hrun, hexit, -⟩ := L.exists_iterations s
  rw [hrun]
  exact hexit

/-- An invariant holds after each of the iterations entered. -/
theorem iterate_invariant {I : σ → Prop} (hbody : ∀ s, I s → L.guard s = true → I (L.body s))
    {s : σ} (hs : I s) {j : Nat} (henter : ∀ i < j, L.guard (L.body^[i] s) = true) :
    I (L.body^[j] s) := by
  induction j with
  | zero => exact hs
  | succ j ih =>
    rw [Function.iterate_succ_apply']
    exact hbody _ (ih fun i hi => henter i (by omega)) (henter j (by omega))

/-- The invariant rule. -/
theorem run_invariant {I : σ → Prop} (hbody : ∀ s, I s → L.guard s = true → I (L.body s))
    {s : σ} (hs : I s) : I (L.run s) := by
  obtain ⟨j, hrun, -, henter⟩ := L.exists_iterations s
  rw [hrun]
  exact iterate_invariant hbody hs henter

end WhileLoop
