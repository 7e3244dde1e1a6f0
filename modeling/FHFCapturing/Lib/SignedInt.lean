import Mathlib.Algebra.Order.Ring.Int

/-!
# Signed 32-bit arithmetic without wrapping

The `int` of C and C++: an operation whose exact result does not fit has no defined value, nor has
a division by zero. `ofInt?` is the value that an exact result has, if any; it is characterised by
`ofInt?_eq_some`. On non-negative operands the remainder is that of naturals.
-/

namespace SignedInt

/-- The `int` of a value in range. -/
def ofInt? (z : Int) : Option Int32 :=
  if -2 ^ 31 ≤ z ∧ z < 2 ^ 31 then some (Int32.ofInt z) else none

theorem ofInt?_eq_some {z : Int} {v : Int32} : ofInt? z = some v ↔ v.toInt = z := by
  unfold ofInt?
  constructor
  · intro h
    split at h
    · next hfit =>
      obtain rfl := Option.some.inj h
      exact Int32.toInt_ofInt_of_le hfit.1 hfit.2
    · cases h
  · rintro rfl
    rw [if_pos ⟨v.le_toInt, v.toInt_lt⟩, Int32.ofInt_toInt]

theorem ofInt?_eq_none {z : Int} : ofInt? z = none ↔ ¬ (-2 ^ 31 ≤ z ∧ z < 2 ^ 31) := by
  unfold ofInt?
  simp

/-- A natural number below `2 ^ 31`. -/
theorem exists_ofInt?_natCast {n : Nat} (h : n < 2 ^ 31) :
    ∃ v, ofInt? n = some v ∧ v.toInt = n := by
  have hfit : -2 ^ 31 ≤ (n : Int) ∧ (n : Int) < 2 ^ 31 := by omega
  exact ⟨_, if_pos hfit, Int32.toInt_ofInt_of_le hfit.1 hfit.2⟩

def add (x y : Int32) : Option Int32 := ofInt? (x.toInt + y.toInt)

def sub (x y : Int32) : Option Int32 := ofInt? (x.toInt - y.toInt)

def mul (x y : Int32) : Option Int32 := ofInt? (x.toInt * y.toInt)

/-- The remainder of the division that truncates, defined when the quotient is. -/
def rem (x y : Int32) : Option Int32 :=
  if y = 0 then none
  else (ofInt? (x.toInt.tdiv y.toInt)).bind fun _ => ofInt? (x.toInt.tmod y.toInt)

variable {x y : Int32}

theorem exists_add {m n : Nat} (hx : x.toInt = m) (hy : y.toInt = n) (h : m + n < 2 ^ 31) :
    ∃ v, add x y = some v ∧ v.toInt = (m + n : Nat) := by
  unfold add
  rw [hx, hy, ← Int.natCast_add]
  exact exists_ofInt?_natCast h

theorem add_eq_none {m n : Nat} (hx : x.toInt = m) (hy : y.toInt = n) (h : 2 ^ 31 ≤ m + n) :
    add x y = none := by
  unfold add
  rw [hx, hy, ofInt?_eq_none]
  omega

theorem exists_mul {m n : Nat} (hx : x.toInt = m) (hy : y.toInt = n) (h : m * n < 2 ^ 31) :
    ∃ v, mul x y = some v ∧ v.toInt = (m * n : Nat) := by
  unfold mul
  rw [hx, hy, ← Int.natCast_mul]
  exact exists_ofInt?_natCast h

theorem mul_eq_none {m n : Nat} (hx : x.toInt = m) (hy : y.toInt = n) (h : 2 ^ 31 ≤ m * n) :
    mul x y = none := by
  unfold mul
  rw [hx, hy, ← Int.natCast_mul, ofInt?_eq_none]
  omega

/-- A non-negative dividend: the sign of the divisor does not matter. -/
theorem exists_rem {n : Nat} (hx : x.toInt = n) (hy : y ≠ 0) :
    ∃ v, rem x y = some v ∧ v.toInt = (n % y.toInt.natAbs : Nat) := by
  have hlt : n < 2 ^ 31 := by
    have := x.toInt_lt
    omega
  -- the quotient of a natural number fits; only the least `int` divided by -1 does not
  have hquot : ∃ v, ofInt? ((n : Int).tdiv y.toInt) = some v := by
    have habs : ((n : Int).tdiv y.toInt).natAbs ≤ n := by
      rw [Int.natAbs_tdiv]
      exact Nat.div_le_self _ _
    have hfit : -2 ^ 31 ≤ (n : Int).tdiv y.toInt ∧ (n : Int).tdiv y.toInt < 2 ^ 31 := by omega
    exact ⟨_, if_pos hfit⟩
  -- and the remainder has the sign of the dividend
  have hrem : (n : Int).tmod y.toInt = (n % y.toInt.natAbs : Nat) := by
    have habs := Int.natAbs_tmod (n : Int) y.toInt
    have hnonneg := Int.tmod_nonneg y.toInt (Int.natCast_nonneg n)
    rw [Int.natAbs_natCast] at habs
    omega
  obtain ⟨q, hq⟩ := hquot
  obtain ⟨v, hv, hval⟩ := exists_ofInt?_natCast (n := n % y.toInt.natAbs)
    (Nat.lt_of_le_of_lt (Nat.mod_le _ _) hlt)
  refine ⟨v, ?_, hval⟩
  unfold rem
  rw [if_neg hy, hx, hq, Option.bind_some, hrem, hv]

end SignedInt
