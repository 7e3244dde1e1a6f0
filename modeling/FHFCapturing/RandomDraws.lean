import FHFCapturing.FalsePositive
import FHFCapturing.Lib.Binning
import FHFCapturing.Lib.Rounding

/-!
# The draws of `rand`

`randomValues` scales the outputs of `rand` to the size of the table, in `double`: the product of
two 31-bit numbers may need rounding, but never enough to reach the size itself, so for every size
below `2 ^ 31` the coefficients are as the hash function needs them, whatever `rand` returns
(`randomValues_ofFn`). Up to a size of `2 ^ 22` the product is exact, and then every coefficient
comes from the same number of outputs, up to rounding (`card_coefficient`).

So the draws are not quite uniform, and the family not quite universal. What this costs is a factor
of `1 + stageSize / 2 ^ 31` for every output: the bound on the false positives holds with it,
counted over the outputs of `rand` (`rand_seldom_records_small_flow`).
-/

namespace FHF

open SignedInt Rounding Binning

/-- What `rand()` returns: `RAND_MAX` is `2 ^ 31 - 1`. -/
abbrev Rand : Type := Fin (2 ^ 31)

namespace UniversalHashFunction

/-- `minValue + int(range*(rand()/(RAND_MAX +1.0)))`. The quotient is exact, the product is rounded
to the 53 bits of a `double`, and the conversion truncates. -/
def randomValue (minValue range : Int32) (rand : Rand) : Option Int32 := do
  let product : Int := range.toInt.sign * roundBits 53 (range.toInt.natAbs * rand)
  add minValue (← ofInt? (product.tdiv (2 ^ 31)))

/-- The loop runs once for every output of `rand`. -/
def randomValues (minValue maxValue : Int32) (rands : List Rand) : Option (List Int32) := do
  let range ← add (← sub maxValue minValue) 1
  rands.mapM (randomValue minValue range)

/-! ## The coefficients are below the size of the table -/

/-- The coefficient that an output is scaled to. -/
def coefficient (m : Nat) (rand : Rand) : Nat := roundBits 53 (m * rand) / 2 ^ 31

/-- Up to a size of `2 ^ 22` nothing is rounded. -/
theorem coefficient_eq {m : Nat} (hm : m ≤ 2 ^ 22) (rand : Rand) :
    coefficient m rand = m * rand / 2 ^ 31 := by
  have hlt : m * rand < 2 ^ 53 :=
    calc m * rand ≤ 2 ^ 22 * rand := Nat.mul_le_mul_right _ hm
      _ < 2 ^ 22 * 2 ^ 31 := Nat.mul_lt_mul_of_pos_left rand.isLt (Nat.two_pow_pos 22)
      _ = 2 ^ 53 := (Nat.pow_add 2 22 31).symm
  unfold coefficient
  rw [roundBits_of_lt hlt]

/-- No output of `rand` is scaled to the size itself, rounding included. -/
theorem coefficient_lt {m : Nat} (hpos : 0 < m) (hm : m < 2 ^ 31) (rand : Rand) :
    coefficient m rand < m := by
  have hrand := rand.isLt
  rcases Nat.lt_or_ge m 512 with hsmall | hlarge
  · rw [coefficient_eq (by omega)]
    exact bin_lt hpos hrand
  · -- the product is at most this, which needs no rounding and is below `m * 2 ^ 31`
    have hmax : (m * 2 ^ 22 - 1) * 2 ^ 9 = m * 2 ^ 31 - 2 ^ 9 := by
      rw [Nat.sub_mul, Nat.mul_assoc, ← Nat.pow_add, Nat.one_mul]
    have hfits : Fits 53 (m * 2 ^ 31 - 2 ^ 9) :=
      hmax ▸ ⟨m * 2 ^ 22 - 1, 9, by omega, rfl⟩
    have hle : m * rand ≤ m * 2 ^ 31 - 2 ^ 9 := by
      refine (Nat.mul_le_mul_left m (Nat.le_pred_of_lt hrand)).trans ?_
      rw [Nat.mul_pred]
      exact Nat.sub_le_sub_left hlarge _
    refine Nat.div_lt_of_lt_mul ?_
    calc roundBits 53 (m * rand) ≤ m * 2 ^ 31 - 2 ^ 9 := hfits.roundBits_le (by omega) hle
      _ < m * 2 ^ 31 := Nat.sub_lt (Nat.mul_pos hpos (Nat.two_pow_pos 31)) (Nat.two_pow_pos 9)
      _ = 2 ^ 31 * m := Nat.mul_comm _ _

theorem toInt_coefficient_rand {m : Nat} (hpos : 0 < m) (hm : m < 2 ^ 31) (rand : Rand) :
    (Int32.ofNat (coefficient m rand)).toInt = coefficient m rand :=
  Int32.toInt_ofNat_of_lt ((coefficient_lt hpos hm rand).trans hm)

theorem randomValue_eq {m : Nat} (hpos : 0 < m) (hm : m < 2 ^ 31) {range : Int32}
    (hrange : range.toInt = m) (rand : Rand) :
    randomValue 0 range rand = some (Int32.ofNat (coefficient m rand)) := by
  have hval := toInt_coefficient_rand hpos hm rand
  have hscaled : (range.toInt.sign * roundBits 53 (range.toInt.natAbs * rand) : Int).tdiv (2 ^ 31) =
      coefficient m rand := by
    -- a positive range; the quotient is that of natural numbers
    rw [hrange, Int.sign_eq_one_of_pos (by omega), Int.one_mul, Int.natAbs_natCast]
    exact (Int.ofNat_tdiv _ _).symm
  have htruncate : ofInt? (coefficient m rand) = some (Int32.ofNat (coefficient m rand)) :=
    -- the coefficient is an `int`, so neither the conversion nor the addition overflows
    ofInt?_eq_some.mpr hval
  have hadd : add 0 (Int32.ofNat (coefficient m rand)) =
      some (Int32.ofNat (coefficient m rand)) := by
    refine ofInt?_eq_some.mpr ?_
    rw [show (0 : Int32).toInt = 0 from rfl, Int.zero_add]
  unfold randomValue
  simp only [hscaled, htruncate, hadd, Option.bind_eq_bind, Option.bind_some]

section Draw

variable {tableSize keyLenght : UInt32}

/-- The coefficients that the outputs of `rand` give. -/
def RandomValues.ofRands (hpos : 0 < tableSize.toNat) (hlt : tableSize.toNat < 2 ^ 31)
    (rands : Fin keyLenght.toNat → Rand) : RandomValues tableSize keyLenght where
  a := List.ofFn fun i => Int32.ofNat (coefficient tableSize.toNat (rands i))
  length_eq := List.length_ofFn
  mem_range := by
    intro c hc
    obtain ⟨i, rfl⟩ := List.mem_ofFn.mp hc
    have hcoefficient := coefficient_lt hpos hlt (rands i)
    rw [toInt_coefficient_rand hpos hlt]
    omega

/-- `(maxValue-minValue)+1` is the size of the table. -/
theorem range_eq (hpos : 0 < tableSize.toNat) (hlt : tableSize.toNat < 2 ^ 31) :
    ∃ range : Int32, ((sub (tableSize - 1).toInt32 0).bind fun width => add width 1) = some range ∧
      range.toInt = tableSize.toNat := by
  -- the largest value is the size less one, which does not wrap
  have hmax : (tableSize - 1).toInt32.toInt = (tableSize.toNat - 1 : Nat) := by
    have hsub : (tableSize - 1).toNat = tableSize.toNat - 1 :=
      UInt32.toNat_sub_of_le _ _ (UInt32.le_iff_toNat_le.mpr hpos)
    rw [toInt_toInt32, hsub, if_pos (by omega)]
  have hwidth : sub (tableSize - 1).toInt32 0 = some (tableSize - 1).toInt32 :=
    ofInt?_eq_some.mpr (Int.sub_zero _).symm
  -- adding one gives the size again, which fits as well
  obtain ⟨range, hadd, hrange⟩ := exists_add hmax (show (1 : Int32).toInt = (1 : Nat) from rfl)
    (show tableSize.toNat - 1 + 1 < 2 ^ 31 by omega)
  refine ⟨range, ?_, ?_⟩
  · rw [hwidth, Option.bind_some, hadd]
  · rw [hrange, Nat.sub_add_cancel hpos]

/-- The loop gives the vector of the coefficients. -/
theorem randomValues_ofFn (hpos : 0 < tableSize.toNat) (hlt : tableSize.toNat < 2 ^ 31)
    (rands : Fin keyLenght.toNat → Rand) :
    randomValues 0 (tableSize - 1).toInt32 (List.ofFn rands) =
      some (RandomValues.ofRands hpos hlt rands).a := by
  obtain ⟨range, hbind, hrange⟩ := range_eq hpos hlt
  -- every draw is independent of the others
  have heach : randomValue 0 range =
      fun rand => pure (Int32.ofNat (coefficient tableSize.toNat rand)) :=
    funext fun rand => randomValue_eq hpos hlt hrange rand
  have hmap : (List.ofFn rands).mapM (randomValue 0 range) =
      some (RandomValues.ofRands hpos hlt rands).a := by
    rw [heach, List.mapM_pure, List.map_ofFn]
    rfl
  unfold randomValues
  rw [← hmap, Option.bind_eq_bind, ← Option.bind_assoc, hbind, Option.bind_some]

/-- **Whatever `rand` returns.** For every table size below `2 ^ 31` and every length of the key, no
operation of `randomValues` overflows and every coefficient is below the size; so when the sizes fit
the hash of every key is the index of a counter. -/
theorem randomValues_valid (hpos : 0 < tableSize) (hlt : tableSize.toNat < 2 ^ 31)
    (rands : Fin keyLenght.toNat → Rand) :
    ∃ perm : RandomValues tableSize keyLenght,
      randomValues 0 (tableSize - 1).toInt32 (List.ofFn rands) = some perm.a ∧
      (SizeFits tableSize keyLenght → ∀ key : List UInt8, key.length = keyLenght.toNat →
        IndexInRange (functionGenerator perm) tableSize key) :=
  ⟨.ofRands (UInt32.lt_iff_toNat_lt.mp hpos) hlt rands, randomValues_ofFn _ hlt rands,
    fun hfits _ hkey => indexInRange_of_sizeFits hpos hfits _ hkey⟩

/-- The largest output, at the default size of a table. -/
theorem randomValues_valid_max :
    ∃ perm : RandomValues 1201 FlowID.KEY_LEN,
      randomValues 0 ((1201 : UInt32) - 1).toInt32
        (List.ofFn fun _ : Fin FlowID.KEY_LEN.toNat => (2147483647 : Rand)) = some perm.a ∧
      (SizeFits 1201 FlowID.KEY_LEN → ∀ key : List UInt8, key.length = FlowID.KEY_LEN.toNat →
        IndexInRange (functionGenerator perm) 1201 key) :=
  randomValues_valid (show (0 : UInt32) < 1201 by decide) (by decide) fun _ => 2147483647

/-- **Every coefficient comes from the same number of outputs**, up to rounding. -/
theorem card_coefficient {m : Nat} (hpos : 0 < m) (hm : m ≤ 2 ^ 22) (c : Fin m) :
    2 ^ 31 / m ≤ Nat.card {rand : Rand // coefficient m rand = c} ∧
      Nat.card {rand : Rand // coefficient m rand = c} ≤ 2 ^ 31 ⌈/⌉ m := by
  simp only [coefficient_eq hm]
  exact card_bin hpos (Nat.two_pow_pos 31) c.isLt

end Draw

/-! ## Counted over the outputs of `rand` -/

section Outputs

variable {stageSize : UInt32}

/-- Few outputs give one vector of coefficients. -/
theorem fibersLe_ofRands (hpos : 0 < stageSize.toNat) (hle : stageSize.toNat ≤ 2 ^ 22)
    (hlt : stageSize.toNat < 2 ^ 31) :
    FibersLe (fun rands : Fin FlowID.KEY_LEN.toNat → Rand =>
        (RandomValues.ofRands hpos hlt rands : RandomValues stageSize FlowID.KEY_LEN))
      ((2 ^ 31 ⌈/⌉ stageSize.toNat) ^ FlowID.KEY_LEN.toNat) := by
  -- one coefficient has at most `2 ^ 31 / m` outputs, rounded up
  have hone : FibersLe (fun rand : Rand =>
      (⟨coefficient stageSize.toNat rand, coefficient_lt hpos hlt rand⟩ : Fin stageSize.toNat))
      (2 ^ 31 ⌈/⌉ stageSize.toNat) := by
    intro c
    simp only [Fin.ext_iff]
    exact (card_coefficient hpos hle c).2
  -- and a vector is a draw for each place
  have hvector := (hone.pi (ι := Fin FlowID.KEY_LEN.toNat)).comp
    (RandomValues.ofFn_bijective (show stageSize.toNat ≤ 2 ^ 23 by omega)).1
  rwa [Fintype.card_fin] at hvector

/-- One coefficient for each byte of the key. -/
theorem card_randomValues (hle : stageSize.toNat ≤ 2 ^ 23) :
    Nat.card (RandomValues stageSize FlowID.KEY_LEN) = stageSize.toNat ^ FlowID.KEY_LEN.toNat := by
  rw [← Nat.card_congr (Equiv.ofBijective _ (RandomValues.ofFn_bijective hle)), card_coefficients]

/-- From a bound over uniform draws to one over the outputs: the loss of a coefficient is at most
`1 + stageSize / 2 ^ 31`. -/
theorem card_rands_mul_le (hpos : 0 < stageSize.toNat) (hle : stageSize.toNat ≤ 2 ^ 22)
    (hlt : stageSize.toNat < 2 ^ 31) {d t o : Nat}
    {p : (Fin d → RandomValues stageSize FlowID.KEY_LEN) → Prop}
    (h : Nat.card {perms // p perms} * t ≤
      o * Nat.card (Fin d → RandomValues stageSize FlowID.KEY_LEN)) :
    Nat.card {rands : Fin d → Fin FlowID.KEY_LEN.toNat → Rand //
        p fun j => .ofRands hpos hlt (rands j)} * t ≤
      o * (2 ^ 31 + stageSize.toNat) ^ (FlowID.KEY_LEN.toNat * d) := by
  -- there are at most so many outputs of `rand` for each vector
  have hfinite := Farm.finite_randomValues (show stageSize.toNat ≤ 2 ^ 23 by omega)
  have hcount := ((fibersLe_ofRands hpos hle hlt).pi (ι := Fin d)).card_le p
  rw [Fintype.card_fin, ← Nat.pow_mul] at hcount
  rw [Nat.card_fun, Nat.card_eq_fintype_card (α := Fin d), Fintype.card_fin,
    card_randomValues (by omega), ← Nat.pow_mul] at h
  have hceil := mul_ceilDiv_le (2 ^ 31) stageSize.toNat
  -- outputs, then vectors, then the bound on the vectors, and the rounding up
  calc _ ≤ Nat.card {perms // p perms} *
          (2 ^ 31 ⌈/⌉ stageSize.toNat) ^ (FlowID.KEY_LEN.toNat * d) * t :=
        Nat.mul_le_mul_right t hcount
    _ = Nat.card {perms // p perms} * t *
          (2 ^ 31 ⌈/⌉ stageSize.toNat) ^ (FlowID.KEY_LEN.toNat * d) := Nat.mul_right_comm _ _ _
    _ ≤ o * stageSize.toNat ^ (FlowID.KEY_LEN.toNat * d) *
          (2 ^ 31 ⌈/⌉ stageSize.toNat) ^ (FlowID.KEY_LEN.toNat * d) := Nat.mul_le_mul_right _ h
    _ = o * (stageSize.toNat * (2 ^ 31 ⌈/⌉ stageSize.toNat)) ^ (FlowID.KEY_LEN.toNat * d) := by
        rw [Nat.mul_assoc, Nat.mul_pow]
    _ ≤ _ := Nat.mul_le_mul_left o (Nat.pow_le_pow_left hceil _)

end Outputs

end UniversalHashFunction

namespace Farm

open UniversalHashFunction UniversalFamily

variable {n : Nat}

/-- The outputs of `rand` that `main` uses: `rands i j k` for coefficient `k` of the hash function
of stage `j` of worker `i`, one after the other in that order. -/
abbrev Rands (n d : Nat) : Type := Fin n → Fin d → Fin FlowID.KEY_LEN.toNat → Rand

section Sizes

variable {stageSize : UInt32}

theorem stageSize_pos (hstage : 0 < stageSize) : 0 < stageSize.toNat :=
  UInt32.lt_iff_toNat_lt.mp hstage

/-- The bound of the hash functions is below that of `int`. -/
theorem lt_of_fits (hle : stageSize.toNat ≤ 2 ^ 23) : stageSize.toNat < 2 ^ 31 :=
  hle.trans_lt (by decide)

/-- The sizes of the farm meet the conditions of a draw. -/
theorem sizeFits_of_le (hle : stageSize.toNat ≤ 2 ^ 23) : SizeFits stageSize FlowID.KEY_LEN :=
  .inl hle

end Sizes

/-- A farm whose workers draw the hash functions of their stages with `rand`. -/
def Config.rand {stageSize : UInt32} {d : Nat} (hn : 0 < n) (hd : 0 < d) (hstage : 0 < stageSize)
    (hle : stageSize.toNat ≤ 2 ^ 23) (threshold : UInt32) (rands : Rands n d) : Config n :=
  .drawn hn hd hstage (sizeFits_of_le hle) threshold fun i j =>
    .ofRands (stageSize_pos hstage) (lt_of_fits hle) (rands i j)

/-- **Small flows are seldom recorded, by the outputs of `rand`.** Let `nextPrime` have found the
size of the stages, above 255 and up to `2 ^ 22`. For any schedule of the first interval and any
flow, with `s` the flow's captured bytes, `C` all the captured bytes and `S` the stage threshold:
the flow is recorded under at most a fraction of `((C - s) / (stageSize * (S + 1 - s))) ^ d` of the
sequences of outputs, times `1 + stageSize / 2 ^ 31` for each of the `13 * d` outputs of one filter.
-/
theorem rand_seldom_records_small_flow (B : Boost) {num stageSize : UInt32} (hnum : 255 ≤ num)
    (hlt : num < 4294967291) (hsize : nextPrime num = some stageSize) (hstage : 0 < stageSize)
    (hle : stageSize.toNat ≤ 2 ^ 22) (hn : 0 < n) {d : Nat} (hd : 0 < d) (threshold : UInt32)
    {es : List (Event n)} (hes : ∀ e ∈ es, e.isAnalysis = false) (f : FlowID) :
    Nat.card {rands : Rands n d //
        ∃ s i, (init (.rand hn hd hstage (hle.trans (by decide)) threshold rands)).run B es =
            .ok s ∧ (s.workers i).ht.lookupFlow f = true} *
        ((stageSize.toNat *
          ((oversampled threshold.toUInt64).toNat + 1 - bytesOf f (captured es))) ^ d *
          (2 ^ 31) ^ (FlowID.KEY_LEN.toNat * d)) ≤
      (totalBytes (captured es) - bytesOf f (captured es)) ^ d *
        (2 ^ 31 + stageSize.toNat) ^ (FlowID.KEY_LEN.toNat * d) * Nat.card (Rands n d) := by
  have hnum' : 255 ≤ num.toNat := UInt32.le_iff_toNat_le.mp hnum
  obtain ⟨hprime, hgt⟩ := prime_of_nextPrime hlt hsize
  have hgt' := UInt32.lt_iff_toNat_lt.mp hgt
  have hpos := stageSize_pos hstage
  have hheavy := card_rands_mul_le hpos hle (by omega) <|
    card_collidingBytes_mul_le (d := d) hstage hprime (by omega) (by omega)
      ((oversampled threshold.toUInt64).toNat + 1 - bytesOf f (captured es)) f (captured es)
  have htotal : Nat.card (Fin d → Fin FlowID.KEY_LEN.toNat → Rand) =
      (2 ^ 31) ^ (FlowID.KEY_LEN.toNat * d) := by
    rw [Nat.card_fun, card_coefficients, Nat.card_eq_fintype_card, Fintype.card_fin, Nat.pow_mul]
  -- one filter, then that filter among all
  have hfilter := Nat.mul_le_mul_right ((2 ^ 31) ^ (FlowID.KEY_LEN.toNat * d)) hheavy
  rw [Nat.mul_assoc, ← htotal] at hfilter
  rw [← htotal]
  refine (Nat.mul_le_mul_right _ ?_).trans
    (card_coordinate_mul_le ⟨dispatchPolicy B n f, Nat.mod_lt _ hn⟩ hfilter)
  exact Nat.card_le_card_of_injective
    (Subtype.map id fun rands =>
      collidingBytes_of_exists_recorded hes fun i j => .ofRands hpos (by omega) (rands i j))
    (Subtype.map_injective _ fun _ _ h => h)

open TwoFlows in
/-- One worker, two stages of 257 counters, and a small flow among the traffic of another. -/
theorem rand_seldom_records_small_flow_twoFlows :
    Nat.card {rands : Rands 1 2 //
        ∃ s i, (init (.rand Nat.one_pos Nat.two_pos size257_pos
            ((show (257 : UInt32).toNat ≤ 2 ^ 22 by decide).trans (by decide)) 5 rands)).run
            Boost.standard events = .ok s ∧ (s.workers i).ht.lookupFlow small = true} *
        (((257 : UInt32).toNat * ((oversampled (5 : UInt32).toUInt64).toNat + 1 -
          bytesOf small (captured events))) ^ 2 * (2 ^ 31) ^ (FlowID.KEY_LEN.toNat * 2)) ≤
      (totalBytes (captured events) - bytesOf small (captured events)) ^ 2 *
        (2 ^ 31 + (257 : UInt32).toNat) ^ (FlowID.KEY_LEN.toNat * 2) * Nat.card (Rands 1 2) :=
  rand_seldom_records_small_flow Boost.standard (show (255 : UInt32) ≤ 255 from UInt32.le_refl 255)
    (by decide) (by decide +kernel) size257_pos (by decide) Nat.one_pos Nat.two_pos 5 (by decide)
    small

end Farm

end FHF
