import FHFCapturing.UniversalHash

/-!
# The index of a counter

`StageContainer` indexes its counter array with the hash of a flow. `init` accepts any sizes that
are not zero, as `unsigned int`, and the hash is computed in `int`. With at most `2 ^ 23` counters
no sum can reach `2 ^ 31`, and the hash is an index; with more there is a draw of coefficients and
a key for which an operation overflows (`hash_index_iff`). The two exceptions are keys of one byte,
for which no residue is added to the product, and key lengths that become negative, for which the
loop is not entered.
-/

namespace FHF

namespace UniversalHashFunction

section Index

variable {stageSize keyLenght : UInt32}

/-- An unsigned number read as an `int`. -/
theorem toInt_toInt32 (x : UInt32) :
    x.toInt32.toInt = if x.toNat < 2 ^ 31 then (x.toNat : Int) else x.toNat - 2 ^ 32 := by
  show x.toBitVec.toInt = _
  rw [BitVec.toInt_eq_toNat_cond, show x.toBitVec.toNat = x.toNat from rfl]
  split <;> split <;> omega

/-- How often a loop with such a bound runs. -/
theorem toNatClampNeg_toInt32 (x : UInt32) :
    x.toInt32.toNatClampNeg = if x.toNat < 2 ^ 31 then x.toNat else 0 := by
  have hlt := x.toNat_lt
  rw [← Int32.toNat_toInt, toInt_toInt32]
  split <;> omega

/-- The conversion to `int` keeps a table size apart from zero, and does not make it larger. -/
theorem natAbs_toInt32 (h : 0 < stageSize) :
    0 < stageSize.toInt32.toInt.natAbs ∧ stageSize.toInt32.toInt.natAbs ≤ stageSize.toNat := by
  have hpos : 0 < stageSize.toNat := UInt32.lt_iff_toNat_lt.mp h
  have hlt := stageSize.toNat_lt
  rw [toInt_toInt32]
  split <;> omega

/-- The loop of `Hash` reads neither coefficients nor bytes that are not there. -/
theorem readable_functionGenerator (hstage : 0 < stageSize)
    (perm : RandomValues stageSize keyLenght) {key : List UInt8}
    (hkey : key.length = keyLenght.toNat) :
    Readable (functionGenerator perm) key keyLenght.toInt32.toNatClampNeg where
  m_ne_zero := by
    -- the size is positive as an `int`, or negative, but never zero
    intro hzero
    have hpos := (natAbs_toInt32 hstage).1
    rw [show stageSize.toInt32 = 0 from hzero] at hpos
    exact absurd hpos (by decide)
  le_key := by
    -- a key length from `2 ^ 31` on is negative as an `int`, and the loop is not entered
    rw [hkey, toNatClampNeg_toInt32]
    split <;> omega
  le_a := by
    show _ ≤ perm.a.length
    rw [perm.length_eq, toNatClampNeg_toInt32]
    split <;> omega
  nonneg := fun c hc => (perm.mem_range c hc).1

/-- The hash of a key has a value, and it is the index of a counter. -/
def IndexInRange (h : UniversalHashFunction) (stageSize : UInt32) (key : List UInt8) : Prop :=
  ∃ v, h.Hash key = some v ∧ 0 ≤ v.toInt ∧ v.toInt < stageSize.toNat

/-- For one draw and one key: every intermediate sum fits. -/
theorem indexInRange_iff (hstage : 0 < stageSize) (perm : RandomValues stageSize keyLenght)
    {key : List UInt8} (hkey : key.length = keyLenght.toNat) :
    IndexInRange (functionGenerator perm) stageSize key ↔
      ∀ i < keyLenght.toInt32.toNatClampNeg,
        (functionGenerator perm).residue key i + (functionGenerator perm).term key i < 2 ^ 31 := by
  have hread := readable_functionGenerator hstage perm hkey
  obtain ⟨hpos, hle⟩ := natAbs_toInt32 hstage
  constructor
  · -- a value in range is a value
    rintro ⟨v, hv, -⟩
    exact hread.fits_of_hashTo (Nat.le_refl _) hv
  · -- if every sum fits, the value is the residue, which is below the size
    intro hfit
    have hlt : (functionGenerator perm).residue key keyLenght.toInt32.toNatClampNeg <
        stageSize.toInt32.toInt.natAbs := Nat.mod_lt _ hpos
    obtain ⟨v, hsome, hv⟩ := hread.exists_hashTo (Nat.le_refl _) hfit
    exact ⟨v, hsome, by omega, by omega⟩

/-- A coefficient of a draw is less than the table size. -/
theorem term_le (perm : RandomValues stageSize keyLenght) (key : List UInt8) (i : Nat) :
    (functionGenerator perm).term key i ≤ 255 * (stageSize.toNat - 1) := by
  have hbyte := (key.getD i 0).toNat_lt
  refine Nat.mul_le_mul (by omega) ?_
  show (perm.a.getD i 0).toInt.toNat ≤ _
  rcases Nat.lt_or_ge i perm.a.length with hi | hi
  · have hc := perm.mem_range _ (List.getElem_mem hi)
    rw [List.getD_eq_getElem?_getD, List.getElem?_eq_getElem hi, Option.getD_some]
    omega
  · rw [List.getD_eq_getElem?_getD, List.getElem?_eq_none hi]
    exact Nat.zero_le _

theorem residue_zero (h : UniversalHashFunction) (key : List UInt8) : h.residue key 0 = 0 :=
  Nat.zero_mod _

/-- The table sizes and key lengths for which no draw and no key overflow. -/
def SizeFits (stageSize keyLenght : UInt32) : Prop :=
  stageSize.toNat ≤ 2 ^ 23 ∨ 2 ^ 31 ≤ keyLenght.toNat ∨
    (keyLenght.toNat = 1 ∧ stageSize.toNat ≤ 8421505)

/-- For sizes that fit, every sum stays below `2 ^ 31`, and the index below the size. -/
theorem indexInRange_of_sizeFits (hstage : 0 < stageSize) (hfits : SizeFits stageSize keyLenght)
    (perm : RandomValues stageSize keyLenght) {key : List UInt8}
    (hkey : key.length = keyLenght.toNat) :
    IndexInRange (functionGenerator perm) stageSize key := by
  rw [indexInRange_iff hstage perm hkey]
  intro i hi
  have hterm := term_le perm key i
  rw [toNatClampNeg_toInt32] at hi
  rcases hfits with hsmall | hlong | ⟨hone, hsize⟩
  · -- a residue and a product stay below `256 * 2 ^ 23`
    obtain ⟨hpos, hle⟩ := natAbs_toInt32 hstage
    have hresidue : (functionGenerator perm).residue key i < stageSize.toInt32.toInt.natAbs :=
      Nat.mod_lt _ hpos
    omega
  · -- no iteration
    rw [if_neg (by omega)] at hi
    exact absurd hi (Nat.not_lt_zero i)
  · -- one iteration, from the residue 0
    have hzero : i = 0 := by
      rw [if_pos (by omega)] at hi
      omega
    rw [hzero] at hterm ⊢
    rw [residue_zero]
    omega

/-! ## Draws that overflow -/

/-- All coefficients the same. -/
def RandomValues.constant (stageSize keyLenght : UInt32) (c : Nat) (hc : c < 2 ^ 31)
    (hlt : c < stageSize.toNat) : RandomValues stageSize keyLenght where
  a := List.replicate keyLenght.toNat (Int32.ofNat c)
  length_eq := List.length_replicate
  mem_range := by
    intro x hx
    rw [List.eq_of_mem_replicate hx, Int32.toInt_ofNat_of_lt hc]
    omega

/-- With equal coefficients a term is the byte times the coefficient. -/
theorem term_constant {c : Nat} (hc : c < 2 ^ 31) (hlt : c < stageSize.toNat)
    (key : List UInt8) {i : Nat} (hi : i < keyLenght.toNat) :
    (functionGenerator (RandomValues.constant stageSize keyLenght c hc hlt)).term key i =
      (key.getD i 0).toNat * c := by
  have hcoefficient : (List.replicate keyLenght.toNat (Int32.ofNat c)).getD i 0 =
      Int32.ofNat c := by
    rw [List.getD_eq_getElem?_getD, List.getElem?_replicate_of_lt hi, Option.getD_some]
  show _ * ((List.replicate keyLenght.toNat (Int32.ofNat c)).getD i 0).toInt.toNat = _
  rw [hcoefficient, Int32.toInt_ofNat_of_lt hc, Int.toNat_natCast]

/-- The first product overflows. -/
theorem overflow_of_large (hstage : 8421505 < stageSize.toNat) (hkey : 0 < keyLenght.toNat)
    (hlen : keyLenght.toNat < 2 ^ 31) :
    ∃ (perm : RandomValues stageSize keyLenght) (key : List UInt8),
      key.length = keyLenght.toNat ∧ ¬ IndexInRange (functionGenerator perm) stageSize key := by
  -- all bytes of the key 255, all coefficients at the bound
  have hlength : (List.replicate keyLenght.toNat (255 : UInt8)).length = keyLenght.toNat :=
    List.length_replicate
  have hpos : 0 < stageSize :=
    UInt32.lt_iff_toNat_lt.mpr (Nat.lt_of_le_of_lt (Nat.zero_le _) hstage)
  refine ⟨.constant _ _ 8421505 (by omega) hstage, _, hlength, fun hin => ?_⟩
  -- the sum of the first iteration is the product of these two
  have hfit := (indexInRange_iff hpos _ hlength).mp hin 0 (by
    rw [toNatClampNeg_toInt32, if_pos hlen]
    exact hkey)
  rw [residue_zero, term_constant _ _ _ hkey, List.getD_eq_getElem?_getD,
    List.getElem?_replicate_of_lt hkey, Option.getD_some,
    show (255 : UInt8).toNat = 255 from rfl] at hfit
  omega

/-- The first sum is the largest residue, and adding the second product overflows. -/
theorem overflow_of_two_terms (hstage : 2 ^ 23 < stageSize.toNat)
    (hle : stageSize.toNat ≤ 8421505) (hkey : 1 < keyLenght.toNat)
    (hlen : keyLenght.toNat < 2 ^ 31) :
    ∃ (perm : RandomValues stageSize keyLenght) (key : List UInt8),
      key.length = keyLenght.toNat ∧ ¬ IndexInRange (functionGenerator perm) stageSize key := by
  have hlength : ((1 : UInt8) :: List.replicate (keyLenght.toNat - 1) 255).length =
      keyLenght.toNat := by
    rw [List.length_cons, List.length_replicate]
    omega
  have hpos : 0 < stageSize :=
    UInt32.lt_iff_toNat_lt.mpr (Nat.lt_of_le_of_lt (Nat.zero_le _) hstage)
  have hc : 2 ^ 23 < 2 ^ 31 := by omega
  refine ⟨.constant _ _ (2 ^ 23) hc hstage, _, hlength, fun hin => ?_⟩
  -- the key is a byte 1 and then bytes 255; the second iteration is the one that overflows
  have hfit := (indexInRange_iff hpos _ hlength).mp hin 1 (by
    rw [toNatClampNeg_toInt32, if_pos hlen]
    exact hkey)
  have hmod : stageSize.toInt32.toInt.natAbs = stageSize.toNat := by
    rw [toInt_toInt32, if_pos (by omega), Int.natAbs_natCast]
  have hfirst :
      (functionGenerator (RandomValues.constant stageSize keyLenght (2 ^ 23) hc hstage)).residue
        (1 :: List.replicate (keyLenght.toNat - 1) 255) 1 = 2 ^ 23 := by
    rw [residue_succ, residue_zero, term_constant _ _ _ (by omega)]
    show (0 + 1 * 2 ^ 23) % stageSize.toInt32.toInt.natAbs = 2 ^ 23
    rw [hmod]
    exact Nat.mod_eq_of_lt (by omega)
  rw [hfirst, term_constant _ _ _ hkey, List.getD_eq_getElem?_getD, List.getElem?_cons_succ,
    List.getElem?_replicate_of_lt (by omega), Option.getD_some,
    show (255 : UInt8).toNat = 255 from rfl] at hfit
  omega

/-- For sizes that do not fit, some draw and some key overflow. -/
theorem overflow_of_not_sizeFits (hkey : 0 < keyLenght) (hfits : ¬ SizeFits stageSize keyLenght) :
    ∃ (perm : RandomValues stageSize keyLenght) (key : List UInt8),
      key.length = keyLenght.toNat ∧ ¬ IndexInRange (functionGenerator perm) stageSize key := by
  have hkey' : 0 < keyLenght.toNat := UInt32.lt_iff_toNat_lt.mp hkey
  unfold SizeFits at hfits
  push Not at hfits
  obtain ⟨hlarge, hlen, hone⟩ := hfits
  rcases Nat.lt_or_ge 8421505 stageSize.toNat with hover | hle
  · exact overflow_of_large hover hkey' hlen
  · have htwo : keyLenght.toNat ≠ 1 := fun h => by
      have := hone h
      omega
    exact overflow_of_two_terms hlarge hle (by omega) hlen

end Index

/-- **The hash index.** For sizes that are not zero, every draw of coefficients and every key of the
right length: the hash is computed without overflow and is the index of a counter iff, at every
byte, the residue of the terms before it and its own term add up to less than `2 ^ 31`. For all
draws and keys of given sizes that is so iff the table has at most `2 ^ 23` counters, or the key
length is 1 and the table has at most 8421505, or the key length is from `2 ^ 31` on. -/
theorem hash_index_iff (stageSize keyLenght : UInt32) (hstage : 0 < stageSize)
    (hkey : 0 < keyLenght) :
    (∀ (perm : RandomValues stageSize keyLenght) (key : List UInt8),
      key.length = keyLenght.toNat →
        (IndexInRange (functionGenerator perm) stageSize key ↔
          ∀ i < keyLenght.toInt32.toNatClampNeg,
            (functionGenerator perm).residue key i + (functionGenerator perm).term key i <
              2 ^ 31)) ∧
    ((∀ (perm : RandomValues stageSize keyLenght) (key : List UInt8),
      key.length = keyLenght.toNat → IndexInRange (functionGenerator perm) stageSize key) ↔
      SizeFits stageSize keyLenght) := by
  refine ⟨fun perm key hlen => indexInRange_iff hstage perm hlen, ?_⟩
  constructor
  · intro hall
    -- the witness of the overflow is a draw and a key at once
    by_contra hfits
    obtain ⟨perm, key, hlen, hout⟩ := overflow_of_not_sizeFits hkey hfits
    exact hout (hall perm key hlen)
  · exact fun hfits perm key hlen => indexInRange_of_sizeFits hstage hfits perm hlen

theorem hash_index_iff_1201 :
    (∀ (perm : RandomValues 1201 13) (key : List UInt8), key.length = (13 : UInt32).toNat →
      (IndexInRange (functionGenerator perm) 1201 key ↔
        ∀ i < (13 : UInt32).toInt32.toNatClampNeg,
          (functionGenerator perm).residue key i + (functionGenerator perm).term key i <
            2 ^ 31)) ∧
    ((∀ (perm : RandomValues 1201 13) (key : List UInt8), key.length = (13 : UInt32).toNat →
      IndexInRange (functionGenerator perm) 1201 key) ↔ SizeFits 1201 13) :=
  hash_index_iff 1201 13 (by decide) (by decide)

/-- A draw for a table of 10000019 counters, a prime, and keys of 13 bytes. -/
def largeDraw : RandomValues 10000019 13 :=
  .constant _ _ 10000018 (by omega) (show 10000018 < 10000019 by omega)

/-- The product of the first byte, 255, with its coefficient is above the largest `int`. -/
theorem hash_index_fails :
    ¬ ∀ stageSize keyLenght : UInt32, 0 < stageSize → 0 < keyLenght →
      ∀ (perm : RandomValues stageSize keyLenght) (key : List UInt8),
        key.length = keyLenght.toNat → IndexInRange (functionGenerator perm) stageSize key := by
  intro hall
  obtain ⟨v, hsome, -⟩ := hall 10000019 13 (by decide) (by decide) largeDraw
    (List.replicate 13 255) (by decide)
  have hnone : (functionGenerator largeDraw).Hash (List.replicate 13 255) = none := by decide
  rw [hnone] at hsome
  cases hsome

end UniversalHashFunction

end FHF
