import FHFCapturing.Lib.SignedInt
import FHFCapturing.Lib.UniversalFamily
import Mathlib.Algebra.BigOperators.Fin
import Mathlib.Tactic.NormNum.Prime

/-!
# The stage hash functions

`UniversalHashFunction` of `UniversalHashFunction.cpp`: a vector of coefficients below the table
size, and the sum of their products with the bytes of the key, reduced after every term. The code
computes in `int`, where an overflow has no defined value (`SignedInt`); a read outside an array
has none either. As long as no intermediate sum reaches `2 ^ 31` the loop computes the residue of
the sum (`hashTo_eq_some_iff`).

For a prime table size above 255 and up to `2 ^ 23`, where no sum overflows, the functions are a
universal family (`hash_universal`): this is the assumption under which a filter of several stages
seldom lets a small flow pass.
-/

namespace FHF

open SignedInt

/-- The members of the class: the table size, the coefficients, and their number. -/
structure UniversalHashFunction where
  m : Int32
  a : List Int32
  keySize : Int32
  deriving DecidableEq, Repr

namespace UniversalHashFunction

/-- The local variable `hash` after the first `i` iterations. -/
def hashTo (h : UniversalHashFunction) (key : List UInt8) : Nat → Option Int32
  | 0 => some 0
  | i + 1 => do
      let hash ← h.hashTo key i
      let kpart := Int32.ofNat (← key[i]?).toNat
      let product ← mul kpart (← h.a[i]?)
      rem (← add hash product) h.m

/-- With a negative `keySize` the loop is not entered. -/
def Hash (h : UniversalHashFunction) (key : List UInt8) : Option Int32 :=
  h.hashTo key h.keySize.toNatClampNeg

/-- What `randomValues(0, tableSize - 1, keyLenght)` is meant to draw. -/
structure RandomValues (tableSize keyLenght : UInt32) where
  a : List Int32
  length_eq : a.length = keyLenght.toNat
  mem_range : ∀ c ∈ a, 0 ≤ c.toInt ∧ c.toInt < tableSize.toNat

/-- The constructor takes both sizes as `int`. -/
def functionGenerator {tableSize keyLenght : UInt32} (perm : RandomValues tableSize keyLenght) :
    UniversalHashFunction :=
  { m := tableSize.toInt32, a := perm.a, keySize := keyLenght.toInt32 }

/-! ## What the loop computes -/

/-- What byte `i` of the key adds to the hash. -/
def term (h : UniversalHashFunction) (key : List UInt8) (i : Nat) : Nat :=
  (key.getD i 0).toNat * (h.a.getD i 0).toInt.toNat

/-- The sum of the first `i` terms, modulo the table size. -/
def residue (h : UniversalHashFunction) (key : List UInt8) (i : Nat) : Nat :=
  (∑ j ∈ Finset.range i, h.term key j) % h.m.toInt.natAbs

theorem residue_succ (h : UniversalHashFunction) (key : List UInt8) (i : Nat) :
    h.residue key (i + 1) = (h.residue key i + h.term key i) % h.m.toInt.natAbs := by
  unfold residue
  rw [Finset.sum_range_succ, Nat.mod_add_mod]

/-- The first `n` iterations divide by a number that is not zero, and read inside the arrays,
coefficients that are not negative. -/
structure Readable (h : UniversalHashFunction) (key : List UInt8) (n : Nat) : Prop where
  m_ne_zero : h.m ≠ 0
  le_key : n ≤ key.length
  le_a : n ≤ h.a.length
  nonneg : ∀ c ∈ h.a, 0 ≤ c.toInt

section Loop

variable {h : UniversalHashFunction} {key : List UInt8} {n i r : Nat}

/-- The two reads of an iteration, and the term they give. -/
theorem Readable.reads (hread : Readable h key n) (hi : i < n) :
    ∃ b c, key[i]? = some b ∧ h.a[i]? = some c ∧ h.term key i = b.toNat * c.toInt.toNat ∧
      c.toInt = c.toInt.toNat := by
  have hkey : i < key.length := Nat.lt_of_lt_of_le hi hread.le_key
  have ha : i < h.a.length := Nat.lt_of_lt_of_le hi hread.le_a
  refine ⟨key[i], h.a[i], List.getElem?_eq_getElem hkey, List.getElem?_eq_getElem ha, ?_, ?_⟩
  · unfold term
    rw [List.getD_eq_getElem?_getD, List.getD_eq_getElem?_getD, List.getElem?_eq_getElem hkey,
      List.getElem?_eq_getElem ha]
    rfl
  · have := hread.nonneg _ (List.getElem_mem ha)
    omega

theorem toInt_byte (b : UInt8) : (Int32.ofNat b.toNat).toInt = b.toNat := by
  have := b.toNat_lt
  exact Int32.toInt_ofNat_of_lt (by omega)

/-- An iteration whose sum fits. -/
theorem Readable.hashTo_succ (hread : Readable h key n) (hi : i < n) {hash : Int32}
    (hprev : h.hashTo key i = some hash) (hval : hash.toInt = r)
    (hfit : r + h.term key i < 2 ^ 31) :
    ∃ v, h.hashTo key (i + 1) = some v ∧
      v.toInt = ((r + h.term key i) % h.m.toInt.natAbs : Nat) := by
  obtain ⟨b, c, hb, hc, hterm, hnonneg⟩ := hread.reads hi
  rw [hterm] at hfit ⊢
  obtain ⟨product, hmul, hproduct⟩ := exists_mul (toInt_byte b) hnonneg
    (Nat.lt_of_le_of_lt (Nat.le_add_left _ r) hfit)
  obtain ⟨sum, hadd, hsum⟩ := exists_add hval hproduct hfit
  obtain ⟨v, hrem, hv⟩ := exists_rem hsum hread.m_ne_zero
  exact ⟨v, by simp [hashTo, hprev, hb, hc, hmul, hadd, hrem], hv⟩

/-- An iteration whose sum does not fit. -/
theorem Readable.hashTo_succ_eq_none (hread : Readable h key n) (hi : i < n) {hash : Int32}
    (hprev : h.hashTo key i = some hash) (hval : hash.toInt = r)
    (hover : 2 ^ 31 ≤ r + h.term key i) : h.hashTo key (i + 1) = none := by
  obtain ⟨b, c, hb, hc, hterm, hnonneg⟩ := hread.reads hi
  rw [hterm] at hover
  rcases Nat.lt_or_ge (b.toNat * c.toInt.toNat) (2 ^ 31) with hfit | hmulover
  · -- the product fits, and the addition overflows
    obtain ⟨product, hmul, hproduct⟩ := exists_mul (toInt_byte b) hnonneg hfit
    have hadd := add_eq_none hval hproduct hover
    simp [hashTo, hprev, hb, hc, hmul, hadd]
  · have hmul := mul_eq_none (toInt_byte b) hnonneg hmulover
    simp [hashTo, hprev, hb, hc, hmul]

/-- As long as every sum fits, the loop computes the residue. Induction on the iterations. -/
theorem Readable.exists_hashTo (hread : Readable h key n) (hi : i ≤ n)
    (hfit : ∀ j < i, h.residue key j + h.term key j < 2 ^ 31) :
    ∃ v, h.hashTo key i = some v ∧ v.toInt = h.residue key i := by
  induction i with
  | zero =>
    have hzero : h.residue key 0 = 0 := Nat.zero_mod _
    rw [hzero]
    exact ⟨0, rfl, rfl⟩
  | succ i ih =>
    obtain ⟨hash, hprev, hval⟩ := ih (by omega) fun j hj => hfit j (by omega)
    rw [residue_succ]
    exact hread.hashTo_succ hi hprev hval (hfit i (Nat.lt_succ_self i))

/-- With a value after some iterations there was one before each of them. -/
theorem hashTo_of_succ {v : Int32} (hsome : h.hashTo key (i + 1) = some v) :
    ∃ hash, h.hashTo key i = some hash := by
  cases hprev : h.hashTo key i with
  | none => simp [hashTo, hprev] at hsome
  | some hash => exact ⟨hash, rfl⟩

/-- If the loop has a value, every sum has fitted. -/
theorem Readable.fits_of_hashTo (hread : Readable h key n) (hi : i ≤ n) {v : Int32}
    (hsome : h.hashTo key i = some v) :
    ∀ j < i, h.residue key j + h.term key j < 2 ^ 31 := by
  induction i generalizing v with
  | zero => exact fun j hj => absurd hj (Nat.not_lt_zero j)
  | succ i ih =>
    obtain ⟨hash, hprev⟩ := hashTo_of_succ hsome
    have hbefore := ih (by omega) hprev
    intro j hj
    rcases Nat.lt_or_eq_of_le (Nat.le_of_lt_succ hj) with hlt | rfl
    · exact hbefore j hlt
    · -- the last sum: the value before it is the residue
      by_contra hover
      obtain ⟨hash', hprev', hval⟩ := hread.exists_hashTo (by omega) hbefore
      have hnone := hread.hashTo_succ_eq_none hi hprev' hval (Nat.le_of_not_lt hover)
      rw [hnone] at hsome
      cases hsome

/-- **What the loop computes**: the residue, if every intermediate sum fits, and nothing
otherwise. -/
theorem Readable.hashTo_eq_some_iff (hread : Readable h key n) (hi : i ≤ n) (v : Int32) :
    h.hashTo key i = some v ↔
      (∀ j < i, h.residue key j + h.term key j < 2 ^ 31) ∧ v.toInt = h.residue key i := by
  constructor
  · intro hsome
    have hfit := hread.fits_of_hashTo hi hsome
    obtain ⟨v', hsome', hval⟩ := hread.exists_hashTo hi hfit
    obtain rfl := Option.some.inj (hsome.symm.trans hsome')
    exact ⟨hfit, hval⟩
  · rintro ⟨hfit, hval⟩
    obtain ⟨v', hsome', hval'⟩ := hread.exists_hashTo hi hfit
    rw [hsome', show v' = v from Int32.toInt_inj.mp (hval'.trans hval.symm)]

end Loop

/-! ## A universal family -/

section Family

variable {m : Nat} {keySize : Int32}

/-- The function that the constructor makes of the table size `m` and the coefficients `a`. -/
def ofCoefficients (m : Nat) (keySize : Int32) (a : Fin keySize.toNatClampNeg → Fin m) :
    UniversalHashFunction :=
  { m := Int32.ofNat m, a := List.ofFn fun i => Int32.ofNat (a i), keySize := keySize }

theorem toInt_coefficient (hle : m ≤ 2 ^ 23) (c : Fin m) : (Int32.ofNat c).toInt = (c : Nat) := by
  have := c.isLt
  exact Int32.toInt_ofNat_of_lt (by omega)

theorem toInt_m (hle : m ≤ 2 ^ 23) : (Int32.ofNat m).toInt = m :=
  Int32.toInt_ofNat_of_lt (by omega)

variable (a : Fin keySize.toNatClampNeg → Fin m) (x : Fin keySize.toNatClampNeg → UInt8)

/-- All the reads of a key of the right length are inside the arrays. -/
theorem readable_ofCoefficients (hpos : 0 < m) (hle : m ≤ 2 ^ 23) :
    Readable (ofCoefficients m keySize a) (List.ofFn x) keySize.toNatClampNeg where
  m_ne_zero := by
    intro hzero
    -- the size is not zero as an `int`
    have htoInt := toInt_m hle
    rw [show Int32.ofNat m = 0 from hzero] at htoInt
    have : (0 : Int) = m := htoInt
    omega
  le_key := by rw [List.length_ofFn]
  le_a := by
    show _ ≤ (List.ofFn _).length
    rw [List.length_ofFn]
  nonneg := by
    intro c hc
    obtain ⟨i, rfl⟩ := List.mem_ofFn.mp hc
    rw [toInt_coefficient hle]
    exact Int.natCast_nonneg _

theorem term_ofCoefficients (hle : m ≤ 2 ^ 23) (i : Fin keySize.toNatClampNeg) :
    (ofCoefficients m keySize a).term (List.ofFn x) i = (x i).toNat * (a i : Nat) := by
  have hcoefficient := toInt_coefficient hle (a i)
  have hi := i.isLt
  unfold term ofCoefficients
  simp only [List.getD_eq_getElem?_getD, List.getElem?_ofFn, hi, dif_pos, Option.getD_some,
    Fin.eta, hcoefficient, Int.toNat_natCast]

/-- The reductions keep every sum below `256 * m`. -/
theorem residue_add_term_lt (hpos : 0 < m) (hle : m ≤ 2 ^ 23) {j : Nat}
    (hj : j < keySize.toNatClampNeg) :
    (ofCoefficients m keySize a).residue (List.ofFn x) j +
      (ofCoefficients m keySize a).term (List.ofFn x) j < 2 ^ 31 := by
  have hterm := term_ofCoefficients a x hle ⟨j, hj⟩
  have hbyte := (x ⟨j, hj⟩).toNat_lt
  have hcoefficient := (a ⟨j, hj⟩).isLt
  -- the residue is below the size, the product at most 255 times the largest coefficient
  have hresidue : (ofCoefficients m keySize a).residue (List.ofFn x) j < m := by
    unfold residue
    rw [show (ofCoefficients m keySize a).m.toInt = m from toInt_m hle, Int.natAbs_natCast]
    exact Nat.mod_lt _ hpos
  have hproduct : (x ⟨j, hj⟩).toNat * (a ⟨j, hj⟩ : Nat) ≤ 255 * (m - 1) :=
    Nat.mul_le_mul (by omega) (by omega)
  rw [show (ofCoefficients m keySize a).term (List.ofFn x) j = _ from hterm]
  omega

/-- The loop computes the sum of the products modulo the table size. -/
theorem Hash_ofCoefficients (hpos : 0 < m) (hle : m ≤ 2 ^ 23) :
    ∃ v, (ofCoefficients m keySize a).Hash (List.ofFn x) = some v ∧
      v.toInt = ((∑ i, (x i).toNat * (a i : Nat)) % m : Nat) := by
  have hread := readable_ofCoefficients a x hpos hle
  -- all the terms together are the sum over the key
  have hresidue : (ofCoefficients m keySize a).residue (List.ofFn x) keySize.toNatClampNeg =
      (∑ i, (x i).toNat * (a i : Nat)) % m := by
    unfold residue
    rw [show (ofCoefficients m keySize a).m.toInt = m from toInt_m hle, Int.natAbs_natCast,
      Finset.sum_range]
    exact congrArg (· % m) (Finset.sum_congr rfl fun i _ => term_ofCoefficients a x hle i)
  obtain ⟨v, hsome, hv⟩ := hread.exists_hashTo (Nat.le_refl _) fun j hj =>
    residue_add_term_lt a x hpos hle hj
  rw [hresidue] at hv
  exact ⟨v, hsome, hv⟩

/-- Two keys get the same index. -/
def Collide (h : UniversalHashFunction) (x y : List UInt8) : Prop :=
  ∃ v, h.Hash x = some v ∧ h.Hash y = some v

/-- Two keys collide iff the two sums are congruent. -/
theorem collide_ofCoefficients_iff (hpos : 0 < m) (hle : m ≤ 2 ^ 23)
    (y : Fin keySize.toNatClampNeg → UInt8) :
    Collide (ofCoefficients m keySize a) (List.ofFn x) (List.ofFn y) ↔
      (∑ i, (x i).toNat * (a i : Nat)) % m = (∑ i, (y i).toNat * (a i : Nat)) % m := by
  obtain ⟨v, hv, hvx⟩ := Hash_ofCoefficients a x hpos hle
  obtain ⟨u, hu, huy⟩ := Hash_ofCoefficients a y hpos hle
  unfold Collide
  constructor
  · -- a value that both keys get is the residue of both sums
    rintro ⟨w, hw, hw'⟩
    obtain rfl := Option.some.inj (hv.symm.trans hw)
    obtain rfl := Option.some.inj (hu.symm.trans hw')
    exact Int.ofNat.inj (hvx.symm.trans huy)
  · intro heq
    refine ⟨v, hv, ?_⟩
    rw [hu, show u = v from Int32.toInt_inj.mp (by rw [huy, hvx, heq])]

theorem card_coefficients (m k : Nat) : Nat.card (Fin k → Fin m) = m ^ k := by
  rw [Nat.card_eq_fintype_card, Fintype.card_fun, Fintype.card_fin, Fintype.card_fin]

/-- The draws that make two distinct keys collide are one in `m`. -/
theorem card_collide_mul (hprime : m.Prime) (hbyte : 255 < m) (hle : m ≤ 2 ^ 23)
    {x y : Fin keySize.toNatClampNeg → UInt8} (hne : x ≠ y) :
    Nat.card {a : Fin keySize.toNatClampNeg → Fin m //
        Collide (ofCoefficients m keySize a) (List.ofFn x) (List.ofFn y)} * m =
      m ^ keySize.toNatClampNeg := by
  -- keys as vectors of numbers below 256
  have hkey : Function.Injective fun (x : Fin keySize.toNatClampNeg → UInt8) i => (x i).toFin :=
    fun x y heq => funext fun i => UInt8.toFin_inj.mp (congrFun heq i)
  have hcard := (UniversalFamily.universal_sum_mod (k := keySize.toNatClampNeg) hprime
    (show 256 ≤ m by omega)).comp hkey x y hne
  rw [Nat.card_eq_fintype_card (α := Fin m), Fintype.card_fin, card_coefficients] at hcard
  rw [← hcard]
  congr 1
  -- a collision of the code is one of the sums
  refine Nat.card_congr (Equiv.subtypeEquivRight fun a => ?_)
  exact (collide_ofCoefficients_iff a x hprime.pos hle y).trans Fin.mk_eq_mk.symm

end Family

/-- **The stage hash family is universal.** For a prime table size above 255 and up to `2 ^ 23`, any
key length and any two distinct keys: exactly `m ^ (k - 1)` of the `m ^ k` vectors of coefficients
make them collide, one in `m`. -/
theorem hash_universal (m : Nat) (hprime : m.Prime) (hbyte : 255 < m) (hle : m ≤ 2 ^ 23)
    (keySize : Int32) (hk : 1 ≤ keySize) (x y : Fin keySize.toNatClampNeg → UInt8)
    (hne : x ≠ y) :
    Nat.card {a : Fin keySize.toNatClampNeg → Fin m //
        Collide (ofCoefficients m keySize a) (List.ofFn x) (List.ofFn y)} =
      m ^ (keySize.toNatClampNeg - 1) ∧
    (Nat.card {a : Fin keySize.toNatClampNeg → Fin m //
        Collide (ofCoefficients m keySize a) (List.ofFn x) (List.ofFn y)} : ℚ) /
      Nat.card (Fin keySize.toNatClampNeg → Fin m) = 1 / m := by
  have hmul := @card_collide_mul m keySize hprime hbyte hle x y hne
  have hpos := hprime.pos
  have hlen : 1 ≤ keySize.toNatClampNeg := by
    have h1 : (1 : Int32).toInt ≤ keySize.toInt := Int32.le_iff_toInt_le.mp hk
    rw [← Int32.toNat_toInt]
    have : (1 : Int32).toInt = 1 := rfl
    omega
  constructor
  · -- one draw in `m`, multiplied out
    apply Nat.eq_of_mul_eq_mul_right hpos
    rw [hmul, ← pow_succ, show keySize.toNatClampNeg - 1 + 1 = keySize.toNatClampNeg by omega]
  · have hm : (m : ℚ) ≠ 0 := Nat.cast_ne_zero.mpr (by omega)
    have hpow : ((m ^ keySize.toNatClampNeg : Nat) : ℚ) ≠ 0 :=
      Nat.cast_ne_zero.mpr (Nat.pow_pos hpos).ne'
    rw [card_coefficients, div_eq_div_iff hpow hm, one_mul]
    exact_mod_cast hmul

/-- Two keys that differ in their first byte. -/
def threeBytes (b : UInt8) : Fin (3 : Int32).toNatClampNeg → UInt8 := ![b, 7, 255]

/-- Two keys of three bytes that differ in the first. -/
theorem hash_universal_threeBytes :
    Nat.card {a : Fin (3 : Int32).toNatClampNeg → Fin 257 //
        Collide (ofCoefficients 257 3 a) (List.ofFn (threeBytes 0)) (List.ofFn (threeBytes 1))} =
      257 ^ ((3 : Int32).toNatClampNeg - 1) ∧
    (Nat.card {a : Fin (3 : Int32).toNatClampNeg → Fin 257 //
        Collide (ofCoefficients 257 3 a) (List.ofFn (threeBytes 0))
          (List.ofFn (threeBytes 1))} : ℚ) /
      Nat.card (Fin (3 : Int32).toNatClampNeg → Fin 257) = 1 / (257 : Nat) :=
  hash_universal 257 (by norm_num) (by omega) (by omega) 3 (by decide) (threeBytes 0)
    (threeBytes 1) fun heq => absurd (congrFun heq ⟨0, by decide⟩) (by decide)

end UniversalHashFunction

end FHF
