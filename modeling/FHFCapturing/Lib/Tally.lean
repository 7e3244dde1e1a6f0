import Mathlib.Algebra.Order.BigOperators.Group.List
import Mathlib.Algebra.Order.Ring.Nat
import Mathlib.Data.List.Nodup

/-!
# Weights tallied by key

A list of items, each with a key and a weight: `tally k` is the weight of the items of key `k`,
`total` the weight of all of them. Distinct keys tally disjoint items, so the tallies of any
list of distinct keys add up to at most the total (`sum_tally_le_total`), and `m` distinct keys
that tally at least `b` each account for `m * b` of it (`length_mul_le_total`).
-/

namespace Tally

variable {α K : Type} [DecidableEq K] (key : α → K) (weight : α → Nat)

/-- The weight of all the items. -/
def total (xs : List α) : Nat := (xs.map weight).sum

/-- The weight of the items with a key. -/
def tally (k : K) (xs : List α) : Nat := total weight (xs.filter fun x => key x = k)

variable {key weight}

@[simp] theorem total_nil : total weight [] = 0 := rfl

@[simp] theorem total_cons (x : α) (xs : List α) :
    total weight (x :: xs) = weight x + total weight xs := by
  simp [total]

@[simp] theorem total_append (xs ys : List α) :
    total weight (xs ++ ys) = total weight xs + total weight ys := by
  simp [total]

@[simp] theorem tally_nil (k : K) : tally key weight k [] = 0 := rfl

@[simp] theorem tally_append (k : K) (xs ys : List α) :
    tally key weight k (xs ++ ys) = tally key weight k xs + tally key weight k ys := by
  simp [tally]

theorem tally_cons (k : K) (x : α) (xs : List α) :
    tally key weight k (x :: xs) =
      (if key x = k then weight x else 0) + tally key weight k xs := by
  by_cases h : key x = k <;> simp [tally, h]

theorem tally_singleton (k : K) (x : α) :
    tally key weight k [x] = if key x = k then weight x else 0 := by
  simp [tally_cons]

/-- Keys under other names. -/
theorem mem_map_of_tally_ne_zero {k : K} {xs : List α} (h : tally key weight k xs ≠ 0) :
    k ∈ xs.map key := by
  induction xs with
  | nil => exact absurd rfl h
  | cons x xs ih =>
    rw [tally_cons] at h
    by_cases hx : key x = k
    · exact List.mem_map.mpr ⟨x, List.mem_cons_self, hx⟩
    · rw [if_neg hx, Nat.zero_add] at h
      exact List.mem_cons_of_mem _ (ih h)

theorem tally_comp {L : Type} [DecidableEq L] {g : K → L} (hg : Function.Injective g) (k : K)
    (xs : List α) : tally (fun x => g (key x)) weight (g k) xs = tally key weight k xs := by
  unfold tally
  simp only [hg.eq_iff]

theorem total_le_of_sublist {xs ys : List α} (h : xs.Sublist ys) :
    total weight xs ≤ total weight ys :=
  (h.map weight).sum_le_sum fun _ _ => Nat.zero_le _

theorem tally_le_of_sublist {xs ys : List α} (h : xs.Sublist ys) (k : K) :
    tally key weight k xs ≤ tally key weight k ys :=
  total_le_of_sublist (h.filter _)

theorem sum_ite_key_le (x : α) {ks : List K} (h : ks.Nodup) :
    (ks.map fun k => if key x = k then weight x else 0).sum ≤ weight x := by
  induction ks with
  | nil => simp
  | cons k ks ih =>
    obtain ⟨hk, hks⟩ := List.nodup_cons.mp h
    rw [List.map_cons, List.sum_cons]
    -- this key is the item's, and then no other is
    by_cases hx : key x = k
    · have hrest : (ks.map fun k' => if key x = k' then weight x else 0).sum = 0 := by
        apply List.sum_eq_zero
        intro w hw
        obtain ⟨k', hk', rfl⟩ := List.mem_map.mp hw
        refine if_neg fun heq => hk ?_
        rwa [← hx, heq]
      simp [hx] at hrest ⊢
      omega
    · -- this key is not
      have hih := ih hks
      rw [if_neg hx]
      omega

/-- The tallies of distinct keys add up to at most the total. Induction on the items. -/
theorem sum_tally_le_total {ks : List K} (h : ks.Nodup) (xs : List α) :
    (ks.map fun k => tally key weight k xs).sum ≤ total weight xs := by
  induction xs with
  | nil => simp
  | cons x xs ih =>
    have hsplit : (ks.map fun k => tally key weight k (x :: xs)).sum =
        (ks.map fun k => if key x = k then weight x else 0).sum +
          (ks.map fun k => tally key weight k xs).sum := by
      rw [← List.sum_map_add]
      exact congrArg List.sum (List.map_congr_left fun k _ => tally_cons k x xs)
    rw [hsplit, total_cons]
    exact Nat.add_le_add (sum_ite_key_le x h) ih

/-- Distinct keys that tally at least `b` each. -/
theorem length_mul_le_total {ks : List K} {b : Nat} {xs : List α} (h : ks.Nodup)
    (hb : ∀ k ∈ ks, b ≤ tally key weight k xs) : ks.length * b ≤ total weight xs := by
  calc ks.length * b = (ks.map fun _ => b).sum := by simp
    _ ≤ (ks.map fun k => tally key weight k xs).sum := List.sum_le_sum hb
    _ ≤ total weight xs := sum_tally_le_total h xs

end Tally
