import FHFCapturing.HashIndex
import FHFCapturing.MultistageFilter
import FHFCapturing.NextPrime
import FHFCapturing.Lib.ByteOrder

/-!
# The hash functions of a filter

A stage hashes the bytes of a `FlowID_t`, which is packed: 13 bytes, on a little-endian machine.
When the sizes fit, the hash is the index of a counter (`index`), and so every draw of the generator
gives a stage of `FHFCapturing.MultistageFilter` its hash function (`drawnFilter`). Distinct flows
have distinct bytes, so the draws are a universal family of functions on flows when the size of the
tables is a prime in the right range (`universal_index`), as `nextPrime` finds it. With every stage
more, two flows share all their counters under fewer of the draws (`flows_share_counters`).
-/

namespace FHF

open ByteOrder UniversalFamily

namespace FlowID

/-- `sizeof(FlowID_t)`. -/
def KEY_LEN : UInt32 := 13

/-- The 13 bytes of a flow in memory, little-endian, which the stages hash. -/
def key (f : FlowID) : List UInt8 :=
  toLE 4 f.srcaddr.toNat ++ toLE 4 f.dstaddr.toNat ++ toLE 2 f.srcport.toNat ++
    toLE 2 f.dstport.toNat ++ [f.prot]

/-- `sizeof(FlowID_t)`. -/
theorem length_key (f : FlowID) : f.key.length = KEY_LEN.toNat := by
  unfold key
  simp only [List.length_append, length_toLE, List.length_singleton]
  rfl

/-- The fields can be read off the bytes, so different flows have different keys. -/
theorem key_injective : Function.Injective key := by
  intro f g h
  unfold key at h
  -- the parts have fixed lengths, so from the end they can be told apart
  obtain ⟨h, hprot⟩ := List.append_inj' h rfl
  obtain ⟨h, hdstport⟩ := List.append_inj' h (by simp)
  obtain ⟨h, hsrcport⟩ := List.append_inj' h (by simp)
  obtain ⟨hsrcaddr, hdstaddr⟩ := List.append_inj' h (by simp)
  rw [toLE_inj f.srcaddr.toNat_lt g.srcaddr.toNat_lt, UInt32.toNat_inj] at hsrcaddr
  rw [toLE_inj f.dstaddr.toNat_lt g.dstaddr.toNat_lt, UInt32.toNat_inj] at hdstaddr
  rw [toLE_inj f.srcport.toNat_lt g.srcport.toNat_lt, UInt16.toNat_inj] at hsrcport
  rw [toLE_inj f.dstport.toNat_lt g.dstport.toNat_lt, UInt16.toNat_inj] at hdstport
  cases f
  cases g
  simp_all

end FlowID

namespace UniversalHashFunction

section Stage

variable {stageSize : UInt32}

/-- The index of a flow's counter, for sizes that fit. -/
def index (hstage : 0 < stageSize) (hfits : SizeFits stageSize FlowID.KEY_LEN)
    (perm : RandomValues stageSize FlowID.KEY_LEN) (f : FlowID) : Fin stageSize.toNat :=
  match h : (functionGenerator perm).Hash f.key with
  | some v => ⟨v.toInt.toNat, by
      obtain ⟨v', hv', hlow, hhigh⟩ := indexInRange_of_sizeFits hstage hfits perm f.length_key
      obtain rfl := Option.some.inj (h.symm.trans hv')
      omega⟩
  | none => ⟨0, UInt32.lt_iff_toNat_lt.mp hstage⟩

/-- It is the hash of the flow's bytes. -/
theorem Hash_key (hstage : 0 < stageSize) (hfits : SizeFits stageSize FlowID.KEY_LEN)
    (perm : RandomValues stageSize FlowID.KEY_LEN) (f : FlowID) :
    ∃ v, (functionGenerator perm).Hash f.key = some v ∧
      v.toInt = (index hstage hfits perm f : Nat) := by
  -- the sizes fit, so the loop has a value, and it is not negative
  obtain ⟨v, hv, hlow, -⟩ := indexInRange_of_sizeFits hstage hfits perm f.length_key
  refine ⟨v, hv, ?_⟩
  unfold index
  split
  · next v' h =>
    -- the two runs of the loop are one
    obtain rfl := Option.some.inj (h.symm.trans hv)
    show v'.toInt = v'.toInt.toNat
    omega
  · next h =>
    rw [hv] at h
    cases h

theorem coe_index (hstage : 0 < stageSize) (hfits : SizeFits stageSize FlowID.KEY_LEN)
    (perm : RandomValues stageSize FlowID.KEY_LEN) (f : FlowID) :
    (index hstage hfits perm f : Nat) =
      (functionGenerator perm).residue f.key FlowID.KEY_LEN.toInt32.toNatClampNeg := by
  have hread := readable_functionGenerator hstage perm f.length_key
  obtain ⟨v, hv, hval⟩ := Hash_key hstage hfits perm f
  have hresidue := ((hread.hashTo_eq_some_iff (Nat.le_refl _) v).mp hv).2
  exact Int.ofNat.inj (hval.symm.trans hresidue)

/-- With only zero coefficients, every flow has the first counter. -/
theorem coe_index_zero (hstage : 0 < stageSize) (hfits : SizeFits stageSize FlowID.KEY_LEN)
    (f : FlowID) :
    (index hstage hfits (.constant stageSize FlowID.KEY_LEN 0 (Nat.two_pow_pos 31)
      (UInt32.lt_iff_toNat_lt.mp hstage)) f : Nat) = 0 := by
  rw [coe_index]
  unfold residue
  rw [Finset.sum_eq_zero, Nat.zero_mod]
  intro i hi
  have hlt : i < FlowID.KEY_LEN.toNat := Finset.mem_range.mp hi
  rw [term_constant _ _ _ hlt, Nat.mul_zero]

example (hstage : 0 < (1201 : UInt32)) (hfits : SizeFits 1201 FlowID.KEY_LEN) (f : FlowID) :
    index hstage hfits (.constant 1201 FlowID.KEY_LEN 0 (Nat.two_pow_pos 31)
      (UInt32.lt_iff_toNat_lt.mp hstage)) f = StageContainer.zeroHash f :=
  Fin.ext (coe_index_zero hstage hfits f)

/-- Two flows collide under a draw exactly when they have the same counter. -/
theorem collide_iff_index_eq (hstage : 0 < stageSize) (hfits : SizeFits stageSize FlowID.KEY_LEN)
    (perm : RandomValues stageSize FlowID.KEY_LEN) (f g : FlowID) :
    Collide (functionGenerator perm) f.key g.key ↔
      index hstage hfits perm f = index hstage hfits perm g := by
  obtain ⟨u, hu, hvalu⟩ := Hash_key hstage hfits perm f
  obtain ⟨v, hv, hvalv⟩ := Hash_key hstage hfits perm g
  have hiff : u = v ↔ index hstage hfits perm f = index hstage hfits perm g := by
    rw [← Int32.toInt_inj, hvalu, hvalv, Int.natCast_inj, Fin.val_inj]
  rw [← hiff]
  unfold Collide
  rw [hu, hv]
  -- a common value is that of both
  constructor
  · rintro ⟨w, hw, hw'⟩
    exact Option.some.inj (hw.trans hw'.symm)
  · intro heq
    exact ⟨u, rfl, congrArg some heq.symm⟩

/-- The filter whose stages have the hash functions of these draws. -/
def drawnFilter {d : Nat} (hd : 0 < d) (hstage : 0 < stageSize)
    (hfits : SizeFits stageSize FlowID.KEY_LEN) (threshold : UInt64)
    (perms : Fin d → RandomValues stageSize FlowID.KEY_LEN) : MultistageFilter :=
  MultistageFilter.init stageSize.toNat (List.ofFn fun i => index hstage hfits (perms i))
    (List.ofFn_eq_nil_iff.not.mpr (Nat.ne_of_gt hd)) threshold

/-- Sharing the counters of all stages, in terms of the draws. -/
theorem forall_drawnFilter {d : Nat} (hd : 0 < d) (hstage : 0 < stageSize)
    (hfits : SizeFits stageSize FlowID.KEY_LEN) (threshold : UInt64)
    (perms : Fin d → RandomValues stageSize FlowID.KEY_LEN) (f g : FlowID) :
    (∀ st ∈ (drawnFilter hd hstage hfits threshold perms).stages, st.hfun f = st.hfun g) ↔
      ∀ i, index hstage hfits (perms i) f = index hstage hfits (perms i) g := by
  unfold drawnFilter MultistageFilter.init
  rw [List.forall_mem_map, List.forall_mem_ofFn_iff]
  rfl

end Stage

/-! ## Two flows and one counter -/

section Draws

variable {stageSize : UInt32}

/-- The draw with given coefficients. -/
def RandomValues.ofFn (hle : stageSize.toNat ≤ 2 ^ 23)
    (a : Fin FlowID.KEY_LEN.toNat → Fin stageSize.toNat) :
    RandomValues stageSize FlowID.KEY_LEN where
  a := List.ofFn fun i => Int32.ofNat (a i)
  length_eq := List.length_ofFn
  mem_range := by
    intro c hc
    obtain ⟨i, rfl⟩ := List.mem_ofFn.mp hc
    have hlt := (a i).isLt
    rw [toInt_coefficient hle]
    omega

/-- There is one for every vector of coefficients, and no other. -/
theorem RandomValues.ofFn_bijective (hle : stageSize.toNat ≤ 2 ^ 23) :
    Function.Bijective (RandomValues.ofFn hle) := by
  constructor
  · intro a b h
    -- the coefficients are those of the vector, as integers
    have hlist : (List.ofFn fun i => Int32.ofNat (a i)) = List.ofFn fun i => Int32.ofNat (b i) :=
      congrArg RandomValues.a h
    funext i
    have hi := congrArg Int32.toInt (congrFun (List.ofFn_injective hlist) i)
    rw [toInt_coefficient hle, toInt_coefficient hle] at hi
    exact Fin.ext (Int.ofNat.inj hi)
  · -- and every vector with coefficients in range has them as residues
    rintro ⟨l, hlen, hrange⟩
    refine ⟨fun i => ⟨(l.get (i.cast hlen.symm)).toInt.toNat, ?_⟩, ?_⟩
    · have := hrange _ (List.get_mem l (i.cast hlen.symm))
      omega
    · unfold RandomValues.ofFn
      rw [RandomValues.mk.injEq]
      refine List.ext_getElem (by rw [List.length_ofFn, hlen]) fun i hi hi' => ?_
      have hc := hrange _ (List.getElem_mem hi')
      rw [List.getElem_ofFn, ← Int32.toInt_inj, Int32.toInt_ofNat_of_lt]
      · show (l[i].toInt.toNat : Int) = l[i].toInt
        omega
      · show l[i].toInt.toNat < 2 ^ 31
        omega

/-- The bytes of a flow, by position. -/
def keyAt (f : FlowID) (i : Fin FlowID.KEY_LEN.toNat) : UInt8 :=
  f.key.get (i.cast f.length_key.symm)

theorem ofFn_keyAt (f : FlowID) : List.ofFn (keyAt f) = f.key := by
  refine List.ext_getElem (by rw [List.length_ofFn, f.length_key]) fun i hi hi' => ?_
  rw [List.getElem_ofFn]
  rfl

/-- The function that the generator makes of coefficients in the range. -/
theorem functionGenerator_ofFn (hle : stageSize.toNat ≤ 2 ^ 23)
    (a : Fin FlowID.KEY_LEN.toNat → Fin stageSize.toNat) :
    functionGenerator (RandomValues.ofFn hle a) =
      ofCoefficients stageSize.toNat FlowID.KEY_LEN.toInt32 a := by
  unfold functionGenerator ofCoefficients
  rw [← UInt32.toInt32_ofNat', UInt32.ofNat_toNat]
  rfl

/-- Under one in `stageSize` of the draws, two flows share a counter of the stage. -/
theorem card_collide_flows (hprime : stageSize.toNat.Prime) (hbyte : 255 < stageSize.toNat)
    (hle : stageSize.toNat ≤ 2 ^ 23) {f g : FlowID} (hne : f ≠ g) :
    Nat.card {perm : RandomValues stageSize FlowID.KEY_LEN //
        Collide (functionGenerator perm) f.key g.key} * stageSize.toNat =
      Nat.card (RandomValues stageSize FlowID.KEY_LEN) := by
  have hkey : keyAt f ≠ keyAt g := fun h => by
    refine hne (FlowID.key_injective ?_)
    rw [← ofFn_keyAt, h, ofFn_keyAt]
  have hmul : Nat.card {a : Fin FlowID.KEY_LEN.toNat → Fin stageSize.toNat //
      Collide (ofCoefficients stageSize.toNat FlowID.KEY_LEN.toInt32 a)
        (List.ofFn (keyAt f)) (List.ofFn (keyAt g))} * stageSize.toNat =
      stageSize.toNat ^ FlowID.KEY_LEN.toNat :=
    @card_collide_mul _ FlowID.KEY_LEN.toInt32 hprime hbyte hle _ _ hkey
  rw [ofFn_keyAt, ofFn_keyAt] at hmul
  -- from vectors of coefficients to the draws
  have hdraws := Nat.card_congr (Equiv.ofBijective _ (RandomValues.ofFn_bijective hle))
  rw [← hdraws, card_coefficients, ← hmul]
  congr 1
  refine (Nat.card_congr ?_).symm
  refine (Equiv.ofBijective _ (RandomValues.ofFn_bijective hle)).subtypeEquiv fun a => ?_
  rw [Equiv.ofBijective_apply, functionGenerator_ofFn]

/-- **The draws are a universal family on flows.** -/
theorem universal_index (hstage : 0 < stageSize) (hprime : stageSize.toNat.Prime)
    (hbyte : 255 < stageSize.toNat) (hle : stageSize.toNat ≤ 2 ^ 23) :
    Universal fun perm => index hstage (.inl hle) perm := by
  intro f g hne
  rw [Nat.card_eq_fintype_card (α := Fin _), Fintype.card_fin,
    ← card_collide_flows hprime hbyte hle hne]
  congr 1
  refine Nat.card_congr (Equiv.subtypeEquivRight fun perm => ?_)
  exact (collide_iff_index_eq hstage (.inl hle) perm f g).symm

end Draws

/-- **Flows that share their counters.** In a filter of `d` stages whose size, above 255 and up to
`2 ^ 23`, `nextPrime` has found, two distinct flows share the counters of all the stages under
exactly one in `stageSize ^ d` of the draws of the hash functions. -/
theorem flows_share_counters {num stageSize : UInt32} (hnum : 255 ≤ num) (hlt : num < 4294967291)
    (hsize : nextPrime num = some stageSize) (hstage : 0 < stageSize)
    (hle : stageSize.toNat ≤ 2 ^ 23) {d : Nat} (hd : 0 < d) (threshold : UInt64)
    {f g : FlowID} (hne : f ≠ g) :
    Nat.card {perms : Fin d → RandomValues stageSize FlowID.KEY_LEN //
        ∀ st ∈ (drawnFilter hd hstage (.inl hle) threshold perms).stages,
          st.hfun f = st.hfun g} * stageSize.toNat ^ d =
      Nat.card (RandomValues stageSize FlowID.KEY_LEN) ^ d := by
  have hnum' : 255 ≤ num.toNat := UInt32.le_iff_toNat_le.mp hnum
  obtain ⟨hprime, hgt⟩ := prime_of_nextPrime hlt hsize
  have hgt' := UInt32.lt_iff_toNat_lt.mp hgt
  -- the stages draw independently of each other
  have hcard := (universal_index hstage hprime (by omega) hle).pi (ι := Fin d) f g hne
  rw [Nat.card_fun, Nat.card_fun, Nat.card_eq_fintype_card (α := Fin d), Fintype.card_fin,
    Nat.card_eq_fintype_card (α := Fin _), Fintype.card_fin] at hcard
  rw [← hcard]
  congr 1
  refine Nat.card_congr (Equiv.subtypeEquivRight fun perms => ?_)
  exact (forall_drawnFilter hd hstage (.inl hle) threshold perms f g).trans funext_iff.symm

/-- The least prime above 255 is a size. -/
theorem size257_pos : 0 < (257 : UInt32) := by decide

theorem size257_le : (257 : UInt32).toNat ≤ 2 ^ 23 := by decide

theorem flows_share_counters_257 :
    Nat.card {perms : Fin 2 → RandomValues 257 FlowID.KEY_LEN //
        ∀ st ∈ (drawnFilter Nat.two_pos size257_pos (.inl size257_le) 500 perms).stages,
          st.hfun ⟨1, 9, 1000, 80, 6⟩ = st.hfun ⟨2, 9, 1000, 80, 6⟩} * (257 : UInt32).toNat ^ 2 =
      Nat.card (RandomValues 257 FlowID.KEY_LEN) ^ 2 :=
  flows_share_counters (show (255 : UInt32) ≤ 255 from UInt32.le_refl 255) (by decide)
    (by decide +kernel) size257_pos size257_le Nat.two_pos 500 (by decide)

end UniversalHashFunction

end FHF
