import Mathlib.Algebra.Order.BigOperators.Group.Finset
import Mathlib.Algebra.Order.Floor.Div
import Mathlib.Algebra.Order.Ring.Nat
import Mathlib.Order.Interval.Finset.Nat
import Mathlib.SetTheory.Cardinal.Finite

/-!
# Scaling a draw to a smaller range

`m * r / N` sends the `N` values of a draw `r` to the `m` values below `m`, in order. It is as even
as such a map can be: every value has `N / m` draws, rounded down or up (`card_bin`).

Where no value of `f` has more than `c` draws (`FibersLe`), the draws with a property of `f` are at
most `c` times the values with it (`FibersLe.card_le`), and vectors of independent draws have at
most `c ^ k` of them for every vector of values (`FibersLe.pi`).
-/

namespace Binning

/-! ## Bins -/

section Bins

variable {N m : Nat}

theorem bin_lt (hm : 0 < m) {r : Nat} (hr : r < N) : m * r / N < m :=
  Nat.div_lt_of_lt_mul (by rw [Nat.mul_comm N]; exact Nat.mul_lt_mul_of_pos_left hr hm)

/-- The least draw whose value is `v` or more. -/
def first (N m v : Nat) : Nat := (v * N) ⌈/⌉ m

theorem first_le_iff (hm : 0 < m) {v r : Nat} : first N m v ≤ r ↔ v * N ≤ m * r :=
  ceilDiv_le_iff_le_mul hm

theorem le_bin_iff (hm : 0 < m) (hN : 0 < N) {v r : Nat} : v ≤ m * r / N ↔ first N m v ≤ r := by
  rw [first_le_iff hm, Nat.le_div_iff_mul_le hN]

/-- The draws with value `v` are an interval. -/
theorem bin_eq_iff (hm : 0 < m) (hN : 0 < N) {v r : Nat} :
    m * r / N = v ↔ first N m v ≤ r ∧ r < first N m (v + 1) := by
  have hlow := le_bin_iff hm hN (v := v) (r := r)
  have hhigh := le_bin_iff hm hN (v := v + 1) (r := r)
  omega

theorem first_add_le (hm : 0 < m) (v : Nat) : first N m v + N / m ≤ first N m (v + 1) := by
  have hnext : (v + 1) * N ≤ m * first N m (v + 1) := (first_le_iff hm).mp (Nat.le_refl _)
  have hquot : m * (N / m) ≤ N := Nat.mul_div_le N m
  have hstep : (v + 1) * N = v * N + N := Nat.succ_mul v N
  have hle : N / m ≤ first N m (v + 1) := by
    refine Nat.le_of_mul_le_mul_left ?_ hm
    omega
  have hback : first N m v ≤ first N m (v + 1) - N / m := by
    rw [first_le_iff hm, Nat.mul_sub]
    omega
  omega

theorem first_le_add (hm : 0 < m) (v : Nat) : first N m (v + 1) ≤ first N m v + N ⌈/⌉ m := by
  have hfirst : v * N ≤ m * first N m v := (first_le_iff hm).mp (Nat.le_refl _)
  have hquot : N ≤ m * (N ⌈/⌉ m) := (ceilDiv_le_iff_le_mul hm).mp (Nat.le_refl _)
  rw [first_le_iff hm, Nat.succ_mul, Nat.mul_add]
  exact Nat.add_le_add hfirst hquot

/-- **Every value has the same number of draws**, up to rounding. -/
theorem card_bin (hm : 0 < m) (hN : 0 < N) {v : Nat} (hv : v < m) :
    N / m ≤ Nat.card {r : Fin N // m * r / N = v} ∧
      Nat.card {r : Fin N // m * r / N = v} ≤ N ⌈/⌉ m := by
  have hlast : first N m (v + 1) ≤ N := by
    rw [first_le_iff hm]
    exact Nat.mul_le_mul_right N hv
  -- the draws are the interval between two firsts
  have hinterval : {r : Fin N // m * r / N = v} ≃
      {r : Nat // r ∈ Finset.Ico (first N m v) (first N m (v + 1))} :=
    { toFun := fun r => ⟨r.1, Finset.mem_Ico.mpr ((bin_eq_iff hm hN).mp r.2)⟩
      invFun := fun r => ⟨⟨r.1, Nat.lt_of_lt_of_le (Finset.mem_Ico.mp r.2).2 hlast⟩,
        (bin_eq_iff hm hN).mpr (Finset.mem_Ico.mp r.2)⟩
      left_inv := fun _ => rfl
      right_inv := fun _ => rfl }
  have hcard : Nat.card {r : Fin N // m * r / N = v} = first N m (v + 1) - first N m v := by
    rw [Nat.card_congr hinterval, Nat.card_eq_fintype_card, Fintype.card_coe, Nat.card_Ico]
  have hlow := first_add_le (N := N) hm v
  have hhigh := first_le_add (N := N) hm v
  omega

/-- All bins at the larger number of draws are hardly more than the draws. -/
theorem mul_ceilDiv_le (N m : Nat) : m * (N ⌈/⌉ m) ≤ N + m := by
  rw [Nat.ceilDiv_eq_add_pred_div]
  exact (Nat.mul_div_le _ _).trans (Nat.sub_le _ _)

end Bins

/-! ## Fibres -/

variable {α β ι : Type}

/-- No value of `f` is taken more than `c` times. -/
def FibersLe (f : α → β) (c : Nat) : Prop := ∀ b, Nat.card {a // f a = b} ≤ c

namespace FibersLe

variable {f : α → β} {c : Nat}

/-- The draws with a property of their value. -/
theorem card_le [Finite α] [Finite β] (h : FibersLe f c) (p : β → Prop) :
    Nat.card {a // p (f a)} ≤ Nat.card {b // p b} * c := by
  have := Fintype.ofFinite {b // p b}
  calc Nat.card {a // p (f a)}
      = Nat.card (Σ b : {b // p b}, {a // f a = b}) :=
        (Nat.card_congr (Equiv.sigmaSubtypeFiberEquivSubtype f fun _ => Iff.rfl)).symm
    _ = ∑ b : {b // p b}, Nat.card {a // f a = b} := Nat.card_sigma
    _ ≤ ∑ _b : {b // p b}, c := Finset.sum_le_sum fun b _ => h b
    _ = Nat.card {b // p b} * c := by
        rw [Finset.sum_const, Finset.card_univ, smul_eq_mul, Nat.card_eq_fintype_card]

/-- Independent draws. -/
theorem pi [Fintype ι] (h : FibersLe f c) :
    FibersLe (fun (x : ι → α) i => f (x i)) (c ^ Fintype.card ι) := by
  intro y
  have hsplit : {x : ι → α // (fun i => f (x i)) = y} ≃ ∀ i, {a // f a = y i} :=
    (Equiv.subtypeEquivRight fun _ => funext_iff).trans
      (Equiv.subtypePiEquivPi (p := fun i a => f a = y i))
  calc Nat.card {x : ι → α // (fun i => f (x i)) = y}
      = ∏ i, Nat.card {a // f a = y i} := by rw [Nat.card_congr hsplit, Nat.card_pi]
    _ ≤ c ^ Fintype.card ι := Finset.prod_le_pow_card Finset.univ _ c fun i _ => h (y i)

/-- Other names for the values. -/
theorem comp {γ : Type} (h : FibersLe f c) {g : β → γ} (hg : Function.Injective g) :
    FibersLe (fun a => g (f a)) c := by
  intro b
  by_cases hb : ∃ b₀, g b₀ = b
  · obtain ⟨b₀, rfl⟩ := hb
    rw [Nat.card_congr (Equiv.subtypeEquivRight fun a => hg.eq_iff)]
    exact h b₀
  · have : IsEmpty {a // g (f a) = b} := ⟨fun a => hb ⟨_, a.2⟩⟩
    rw [Nat.card_of_isEmpty]
    exact Nat.zero_le c

end FibersLe

end Binning
