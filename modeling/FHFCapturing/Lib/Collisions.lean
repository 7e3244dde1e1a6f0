import FHFCapturing.Lib.Tally
import FHFCapturing.Lib.UniversalFamily

/-!
# What collides with a key

Items have keys, and a hash function sends every item to the index of its key. The weight that
ends up at the index of `k` is that of the items of `k` and of the items that collide with it
(`tally_hash`). Over all draws of a universal family each other item collides with `k` once in
`|I|` times (`sum_collidingWeight_mul`), so few draws let much collide: at most
`others / (t * |I|)` of them let `t` or more (`card_heavy_mul_le`), and of `d` independent draws at
most the `d`-th power of that let `t` or more in every one (`card_heavy_pi_mul_le`).
-/

namespace UniversalFamily

open Tally

variable {A K I α : Type} [DecidableEq K] [DecidableEq I]

section Weight

variable (h : A → K → I) (key : α → K) (weight : α → Nat) (k : K)

/-- The weight of the items of other keys. -/
def otherWeight (xs : List α) : Nat := total weight (xs.filter fun x => key x ≠ k)

/-- The weight of the items of other keys that have the index of `k` under the draw. -/
def collidingWeight (a : A) (xs : List α) : Nat :=
  total weight (xs.filter fun x => key x ≠ k ∧ h a (key x) = h a k)

variable {h key weight k}

theorem otherWeight_cons (x : α) (xs : List α) :
    otherWeight key weight k (x :: xs) =
      (if key x ≠ k then weight x else 0) + otherWeight key weight k xs := by
  unfold otherWeight
  by_cases hx : key x = k <;> simp [hx]

theorem collidingWeight_cons (a : A) (x : α) (xs : List α) :
    collidingWeight h key weight k a (x :: xs) =
      (if key x ≠ k ∧ h a (key x) = h a k then weight x else 0) +
        collidingWeight h key weight k a xs := by
  unfold collidingWeight
  by_cases hx : key x ≠ k ∧ h a (key x) = h a k <;> simp [hx]

theorem tally_add_otherWeight (xs : List α) :
    tally key weight k xs + otherWeight key weight k xs = total weight xs := by
  induction xs with
  | nil => rfl
  | cons x xs ih =>
    rw [tally_cons, otherWeight_cons, total_cons]
    by_cases hx : key x = k
    · simp only [hx, ↓reduceIte, ne_eq, not_true]
      omega
    · simp only [hx, ↓reduceIte, ne_eq, not_false_eq_true]
      omega

/-- **What is at the index of a key**: its own items, and what collides with it. -/
theorem tally_hash (a : A) (xs : List α) :
    tally (fun x => h a (key x)) weight (h a k) xs =
      tally key weight k xs + collidingWeight h key weight k a xs := by
  induction xs with
  | nil => rfl
  | cons x xs ih =>
    rw [tally_cons, tally_cons, collidingWeight_cons, ih]
    by_cases hx : key x = k
    · simp only [hx, ↓reduceIte, ne_eq, not_true, false_and]
      omega
    · simp only [hx, ↓reduceIte, ne_eq, not_false_eq_true, true_and]
      omega

end Weight

theorem collidingWeight_le_of_sublist {h : A → K → I} {key : α → K} {weight : α → Nat} {k : K}
    {a : A} {xs ys : List α} (hsub : xs.Sublist ys) :
    collidingWeight h key weight k a xs ≤ collidingWeight h key weight k a ys :=
  total_le_of_sublist (hsub.filter _)

/-! ## Over all draws -/

section Draws

variable {h : A → K → I} {key : α → K} {weight : α → Nat} {k : K}

/-- One item, over all draws: it collides in one of `|I|`. -/
theorem Universal.sum_colliding_item [Fintype A] (hu : Universal h) (x : α) :
    (∑ a, if key x ≠ k ∧ h a (key x) = h a k then weight x else 0) * Nat.card I =
      (if key x ≠ k then weight x else 0) * Nat.card A := by
  by_cases hx : key x = k
  · simp [hx]
  · have hcard : (∑ a, if h a (key x) = h a k then weight x else 0) =
        Nat.card (Colliding h (key x) k) * weight x := by
      rw [← Finset.sum_filter, Finset.sum_const, smul_eq_mul, Colliding,
        Nat.card_eq_fintype_card, Fintype.card_subtype]
    simp only [ne_eq, hx, not_false_eq_true, true_and, ↓reduceIte]
    rw [hcard, Nat.mul_right_comm, hu _ _ hx, Nat.mul_comm]

/-- All items, over all draws. Induction on the items. -/
theorem Universal.sum_collidingWeight_mul [Fintype A] (hu : Universal h) (xs : List α) :
    (∑ a, collidingWeight h key weight k a xs) * Nat.card I =
      otherWeight key weight k xs * Nat.card A := by
  induction xs with
  | nil => simp [collidingWeight, otherWeight]
  | cons x xs ih =>
    simp only [collidingWeight_cons]
    rw [Finset.sum_add_distrib, Nat.add_mul, hu.sum_colliding_item, ih, otherWeight_cons,
      Nat.add_mul]

/-- Few draws have a large value. -/
theorem card_le_mul_le_sum [Fintype A] (g : A → Nat) (t : Nat) :
    Nat.card {a // t ≤ g a} * t ≤ ∑ a, g a := by
  rw [Nat.card_eq_fintype_card, Fintype.card_subtype]
  calc (Finset.univ.filter fun a => t ≤ g a).card * t
      = ∑ _a ∈ Finset.univ.filter fun a => t ≤ g a, t := by rw [Finset.sum_const, smul_eq_mul]
    _ ≤ ∑ a ∈ Finset.univ.filter fun a => t ≤ g a, g a :=
        Finset.sum_le_sum fun a ha => (Finset.mem_filter.mp ha).2
    _ ≤ ∑ a, g a := Finset.sum_le_sum_of_subset (Finset.filter_subset _ _)

/-- **Few draws let much collide.** -/
theorem Universal.card_heavy_mul_le [Finite A] (hu : Universal h) (t : Nat) (xs : List α) :
    Nat.card {a // t ≤ collidingWeight h key weight k a xs} * (Nat.card I * t) ≤
      otherWeight key weight k xs * Nat.card A := by
  have := Fintype.ofFinite A
  calc Nat.card {a // t ≤ collidingWeight h key weight k a xs} * (Nat.card I * t)
      = Nat.card {a // t ≤ collidingWeight h key weight k a xs} * t * Nat.card I := by
        rw [Nat.mul_assoc, Nat.mul_comm t]
    _ ≤ (∑ a, collidingWeight h key weight k a xs) * Nat.card I :=
        Nat.mul_le_mul_right _ (card_le_mul_le_sum _ t)
    _ = otherWeight key weight k xs * Nat.card A := hu.sum_collidingWeight_mul xs

/-- **Independent draws**: the bound to the power of their number. -/
theorem Universal.card_heavy_pi_mul_le {d : Nat} [Finite A] (hu : Universal h) (t : Nat)
    (xs : List α) :
    Nat.card {as : Fin d → A // ∀ i, t ≤ collidingWeight h key weight k (as i) xs} *
        (Nat.card I * t) ^ d ≤
      otherWeight key weight k xs ^ d * Nat.card (Fin d → A) := by
  rw [Nat.card_congr (Equiv.subtypePiEquivPi
      (p := fun (_ : Fin d) a => t ≤ collidingWeight h key weight k a xs)),
    Nat.card_fun, Nat.card_fun, Nat.card_eq_fintype_card (α := Fin d), Fintype.card_fin,
    ← Nat.mul_pow, ← Nat.mul_pow]
  exact Nat.pow_le_pow_left (hu.card_heavy_mul_le t xs) d

/-- A bound on one of several independent draws. -/
theorem card_coordinate_mul_le {ι X : Type} [DecidableEq ι] (i : ι) {p : X → Prop} {t o : Nat}
    (h : Nat.card {x // p x} * t ≤ o * Nat.card X) :
    Nat.card {g : ι → X // p (g i)} * t ≤ o * Nat.card (ι → X) := by
  have hsplit : {g : ι → X // p (g i)} ≃ {x // p x} × ({j // j ≠ i} → X) :=
    ((Equiv.funSplitAt i X).subtypeEquiv fun _ => Iff.rfl).trans
      (Equiv.prodSubtypeFstEquivSubtypeProd (p := p))
  rw [Nat.card_congr hsplit, Nat.card_congr (Equiv.funSplitAt i X), Nat.card_prod, Nat.card_prod,
    Nat.mul_right_comm, ← Nat.mul_assoc]
  exact Nat.mul_le_mul_right _ h

end Draws

end UniversalFamily
