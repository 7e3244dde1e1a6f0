import Mathlib.Data.List.FinRange

/-!
# Counting loops over an indexed family

`for (i = 0; i < n; i++) body(i)`: `loopTo k` is the state after the first `k` iterations. Two
bodies over a family `f : Fin n → α` have their loops in closed form: one that replaces `f i`
(`updateAt`), and one that also appends to an output sequence (`visit`). Since iteration `i`
reads and writes only `f i`, after `k` iterations the first `k` members are replaced and the
output is that of the first `k` members in order.
-/

namespace IndexLoop

variable {σ α β : Type} {n : Nat}

/-- The loop up to index `k`, over a state. -/
def loopTo (body : σ → Fin n → σ) (s : σ) : Nat → σ
  | 0 => s
  | k + 1 => if h : k < n then body (loopTo body s k) ⟨k, h⟩ else loopTo body s k

@[simp] theorem loopTo_zero (body : σ → Fin n → σ) (s : σ) : loopTo body s 0 = s := rfl

theorem loopTo_succ {body : σ → Fin n → σ} {s : σ} {k : Nat} (h : k < n) :
    loopTo body s (k + 1) = body (loopTo body s k) ⟨k, h⟩ := by
  rw [loopTo, dif_pos h]

/-! ## Replacing the members -/

/-- A body that changes the component at its index. -/
def updateAt (g : Fin n → α → α) (f : Fin n → α) (i : Fin n) : Fin n → α :=
  Function.update f i (g i (f i))

/-- The members up to `k` are replaced, the others are as before. -/
theorem loopTo_updateAt (g : Fin n → α → α) (f : Fin n → α) (k : Nat) (i : Fin n) :
    loopTo (updateAt g) f k i = if i.val < k then g i (f i) else f i := by
  induction k with
  | zero => simp
  | succ k ih =>
    by_cases hk : k < n
    · rw [loopTo_succ hk, updateAt]
      -- the index that the body changes, or another
      by_cases hi : i = ⟨k, hk⟩
      · subst hi
        simp [ih]
      · have hne : i.val ≠ k := fun h => hi (Fin.ext h)
        have hiff : i.val < k ↔ i.val < k + 1 := by omega
        rw [Function.update_of_ne hi, ih]
        simp only [hiff]
    · -- past the last index nothing changes
      have hi := i.isLt
      rw [loopTo, dif_neg hk, ih, if_pos (by omega), if_pos (by omega)]

theorem loopTo_updateAt_self (g : Fin n → α → α) (f : Fin n → α) :
    loopTo (updateAt g) f n = fun i => g i (f i) := by
  funext i
  rw [loopTo_updateAt, if_pos i.isLt]

/-! ## Replacing the members and collecting an output -/

/-- Replace member `i` and append what it puts out. -/
def visit (body : Fin n → α → α × List β) (s : (Fin n → α) × List β) (i : Fin n) :
    (Fin n → α) × List β :=
  (updateAt (fun i a => (body i a).1) s.1 i, s.2 ++ (body i (s.1 i)).2)

variable (body : Fin n → α → α × List β) (s : (Fin n → α) × List β)

theorem loopTo_visit_fst (k : Nat) :
    (loopTo (visit body) s k).1 = loopTo (updateAt fun i a => (body i a).1) s.1 k := by
  induction k with
  | zero => rfl
  | succ k ih =>
    by_cases hk : k < n
    · rw [loopTo_succ hk, loopTo_succ hk, visit, ih]
    · rw [loopTo, dif_neg hk, ih, loopTo, dif_neg hk]

/-- The output is that of the first `k` members of the family the loop started on. -/
theorem loopTo_visit_snd (k : Nat) :
    (loopTo (visit body) s k).2 =
      s.2 ++ ((List.finRange n).take k).flatMap fun i => (body i (s.1 i)).2 := by
  induction k with
  | zero => simp
  | succ k ih =>
    by_cases hk : k < n
    · -- the next index of the list is `k`
      have hget : (List.finRange n)[k]? = some ⟨k, hk⟩ := by
        rw [List.getElem?_eq_getElem (by simpa using hk)]
        simp
      -- and no earlier iteration has touched its component
      have hmember : (loopTo (visit body) s k).1 ⟨k, hk⟩ = s.1 ⟨k, hk⟩ := by
        rw [loopTo_visit_fst, loopTo_updateAt, if_neg (Nat.lt_irrefl k)]
      rw [loopTo_succ hk, visit, ih, hmember, List.take_add_one, hget]
      simp
    · have hlen : (List.finRange n).length = n := List.length_finRange
      rw [loopTo, dif_neg hk, ih, List.take_of_length_le (by omega),
        List.take_of_length_le (by omega)]

theorem loopTo_visit_self :
    loopTo (visit body) s n =
      (fun i => (body i (s.1 i)).1,
        s.2 ++ (List.finRange n).flatMap fun i => (body i (s.1 i)).2) := by
  apply Prod.ext
  · rw [loopTo_visit_fst, loopTo_updateAt_self]
  · rw [loopTo_visit_snd, List.take_of_length_le (by simp)]

end IndexLoop
