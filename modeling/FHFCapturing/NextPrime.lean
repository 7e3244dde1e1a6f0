import FHFCapturing.Lib.TrialDivision
import FHFCapturing.Lib.WhileLoop

/-!
# The size of the tables

`nextPrime` of `utils.cpp`, from which `main` takes the size of every table. Its two searches are
loops over 32-bit unsigned locals: `division` tries the divisors of one number below its half, and
`search` goes on to the next number until `division` finds none. The search is right from every
number from 5 on, up to the last prime below `2 ^ 32` (`search_exact`).

The function itself only enters the search when its argument has a divisor. Otherwise it returns
its local variable `nextPrime` unassigned, `none` here; so it gives the next prime for composite
arguments other than 4, and for no other (`nextPrime_eq_next_iff`).
-/

namespace FHF

open TrialDivision

/-! ## One trial division -/

/-- The locals of `for (i = 2; i < n / 2; i++)`. -/
structure Division where
  prime : UInt32
  i : UInt32
  deriving DecidableEq, Repr

theorem flag_ne_zero : (1 : UInt32) ≠ 0 := by decide

theorem toNat_add_one {x : UInt32} (h : x.toNat + 1 < 2 ^ 32) : (x + 1).toNat = x.toNat + 1 := by
  rw [UInt32.toNat_add, UInt32.toNat_one]
  exact Nat.mod_eq_of_lt h

/-- Below a bound of the type an increment does not wrap. -/
theorem toNat_succ_of_lt {x y : UInt32} (h : x < y) : (x + 1).toNat = x.toNat + 1 := by
  have hx := UInt32.lt_iff_toNat_lt.mp h
  have hy := y.toNat_lt
  apply toNat_add_one
  omega

/-- The loop is left by its `break` as soon as the flag is set. -/
def division (n : UInt32) : WhileLoop Division where
  guard s := s.prime = 0 ∧ s.i < n / 2
  body s := if n % s.i = 0 then { s with prime := 1 } else { s with i := s.i + 1 }
  variant s := if s.prime = 0 then (n / 2).toNat - s.i.toNat else 0
  variant_body_lt := by
    intro s hguard
    obtain ⟨hflag, hlt⟩ := of_decide_eq_true hguard
    have hlt' := UInt32.lt_iff_toNat_lt.mp hlt
    have hsucc := toNat_succ_of_lt hlt
    rw [if_pos hflag]
    split
    · -- a divisor: the flag is set
      rw [if_neg flag_ne_zero]
      omega
    · dsimp only
      omega

/-- The flag `prime` after the trial division of `n`: set when a divisor is found. -/
def divided (n : UInt32) : UInt32 := ((division n).run { prime := 0, i := 2 }).prime

/-- All divisors below `i` have been tried; the flag is set only on one that divides. -/
structure Division.Sound (n : UInt32) (s : Division) : Prop where
  two_le : 2 ≤ s.i.toNat
  flag : s.prime = 0 ∨ s.prime = 1
  tried : s.prime = 0 → ∀ d, 2 ≤ d → d < s.i.toNat → ¬ d ∣ n.toNat
  found : s.prime = 1 → HasDivisor n.toNat

theorem Division.Sound.start (n : UInt32) : Sound n { prime := 0, i := 2 } where
  two_le := Nat.le_refl 2
  flag := Or.inl rfl
  tried := by
    intro _ d htwo hlt
    have : d < 2 := hlt
    omega
  found := fun h => absurd h.symm flag_ne_zero

/-- One candidate more has been tried, or it divides. -/
theorem Division.Sound.body {n : UInt32} {s : Division} (h : Sound n s)
    (hguard : (division n).guard s = true) : Sound n ((division n).body s) := by
  obtain ⟨hflag, hlt⟩ := of_decide_eq_true hguard
  have hhalf : s.i.toNat < n.toNat / 2 := by
    rw [UInt32.lt_iff_toNat_lt, UInt32.toNat_div] at hlt
    exact hlt
  have hdvd : n % s.i = 0 ↔ s.i.toNat ∣ n.toNat := by
    rw [← UInt32.toNat_inj, UInt32.toNat_mod, Nat.dvd_iff_mod_eq_zero]
    rfl
  have htwo := h.two_le
  unfold division
  dsimp only
  split
  · next hzero =>
    exact ⟨htwo, Or.inr rfl, fun hone => absurd hone flag_ne_zero,
      fun _ => ⟨s.i.toNat, htwo, hhalf, hdvd.mp hzero⟩⟩
  · next hnonzero =>
    have hsucc := toNat_succ_of_lt hlt
    refine ⟨by dsimp only; omega, Or.inl hflag, fun _ d hd hlt' => ?_, fun hone => ?_⟩
    · -- `i` itself has been tried now
      dsimp only at hlt'
      rcases Nat.lt_or_eq_of_le (show d ≤ s.i.toNat by omega) with hbelow | rfl
      · exact h.tried hflag d hd hbelow
      · exact fun hd' => hnonzero (hdvd.mpr hd')
    · exact h.found hone

/-- When the loop is left, the flag tells whether a divisor was found. -/
theorem division_sound (n : UInt32) :
    Division.Sound n ((division n).run { prime := 0, i := 2 }) :=
  WhileLoop.run_invariant (fun _ h hguard => h.body hguard) (Division.Sound.start n)

/-- The trial division finds a divisor below the half iff there is one. -/
theorem divided_ne_zero_iff (n : UInt32) : divided n ≠ 0 ↔ HasDivisor n.toNat := by
  have hsound := division_sound n
  have hexit := (division n).guard_run { prime := 0, i := 2 }
  unfold divided
  constructor
  · intro hne
    exact hsound.found (hsound.flag.resolve_left hne)
  · rintro ⟨d, htwo, hhalf, hdvd⟩ hzero
    -- the flag is not set, so the loop has run to the bound
    have hge : ¬ ((division n).run { prime := 0, i := 2 }).i < n / 2 := fun hlt =>
      of_decide_eq_false hexit ⟨hzero, hlt⟩
    rw [UInt32.lt_iff_toNat_lt, UInt32.toNat_div, show (2 : UInt32).toNat = 2 from rfl] at hge
    exact hsound.tried hzero d htwo (by omega) hdvd

/-- From 5 on the flag is set exactly on the composite numbers. At 4 the loop has no candidate. -/
theorem divided_ne_zero_iff_not_prime {n : UInt32} (h : 5 ≤ n) :
    divided n ≠ 0 ↔ ¬ n.toNat.Prime := by
  rw [divided_ne_zero_iff, hasDivisor_iff (UInt32.le_iff_toNat_le.mp h)]

/-! ## The search for the next prime -/

/-- The locals of `while (prime != 0)`. -/
structure Search where
  nextPrime : UInt32
  prime : UInt32
  deriving DecidableEq, Repr

theorem divided_zero : divided 0 = 0 := by decide

/-- A number with a divisor is not the zero that the increment wraps to. -/
theorem toNat_next_of_divided {x : UInt32} (h : divided (x + 1) ≠ 0) :
    (x + 1).toNat = x.toNat + 1 := by
  have hne : x + 1 ≠ 0 := fun hzero => h (hzero ▸ divided_zero)
  have hlt := x.toNat_lt
  rcases Nat.lt_or_eq_of_le (show x.toNat + 1 ≤ 2 ^ 32 by omega) with hfit | hwrap
  · exact toNat_add_one hfit
  · have hzero : x + 1 = 0 := by
      rw [← UInt32.toNat_inj, UInt32.toNat_add, UInt32.toNat_one, hwrap]
      rfl
    exact absurd hzero hne

/-- The search ends for every start: at the latest at the zero that follows the largest number. -/
def search : WhileLoop Search where
  guard s := s.prime ≠ 0
  body s := { nextPrime := s.nextPrime + 1, prime := divided (s.nextPrime + 1) }
  variant s := if s.prime = 0 then 0 else 2 ^ 32 - s.nextPrime.toNat
  variant_body_lt := by
    intro s hguard
    have hlt := s.nextPrime.toNat_lt
    -- still searching, so the state's variant is the distance to the end of the type
    rw [if_neg (of_decide_eq_true hguard)]
    dsimp only
    split
    · -- the next number has no divisor: the search ends
      omega
    · next hne =>
      have hnext := toNat_next_of_divided hne
      omega

/-- The search entered with `num`. -/
def Search.start (num : UInt32) : Search := { nextPrime := num, prime := 1 }

/-- `none` where the local `nextPrime` is returned unassigned. -/
def nextPrime (num : UInt32) : Option UInt32 :=
  -- the local variable `nextPrime`, not initialised
  let nextPrime : Option UInt32 := none
  if divided num = 1 then some (search.run (Search.start num)).nextPrime
  else nextPrime

/-- The search so far has passed no prime, and stops at the next one. -/
def Search.Below (num next : Nat) (s : Search) : Prop :=
  (s.prime ≠ 0 ∧ num ≤ s.nextPrime.toNat ∧ s.nextPrime.toNat < next) ∨
    (s.prime = 0 ∧ s.nextPrime.toNat = next)

section Search

variable {num : UInt32} {next : Nat}

theorem Search.Below.start (h : IsLeast {p | p.Prime ∧ num.toNat < p} next) :
    Below num.toNat next (Search.start num) :=
  Or.inl ⟨flag_ne_zero, Nat.le_refl _, h.1.2⟩

/-- As long as the search goes on, its next candidate fits into 32 bits. -/
theorem Search.Below.toNat_succ {s : Search} (hs : Below num.toNat next s)
    (hguard : search.guard s = true) (hnext : next < 2 ^ 32) :
    (s.nextPrime + 1).toNat = s.nextPrime.toNat + 1 := by
  rcases hs with ⟨-, -, hlt⟩ | ⟨hzero, -⟩
  · exact toNat_add_one (by omega)
  · exact absurd hzero (of_decide_eq_true hguard)

/-- One more number, while the next prime is still ahead. -/
theorem Search.Below.body (hnum : 5 ≤ num)
    (h : IsLeast {p | p.Prime ∧ num.toNat < p} next) (hnext : next < 2 ^ 32) {s : Search}
    (hs : Below num.toNat next s) (hguard : search.guard s = true) :
    Below num.toNat next (search.body s) := by
  have hsucc := hs.toNat_succ hguard hnext
  rcases hs with ⟨-, hle, hlt⟩ | ⟨hzero, -⟩
  · have hfive := UInt32.le_iff_toNat_le.mp hnum
    have hdivided := divided_ne_zero_iff_not_prime (n := s.nextPrime + 1)
      (UInt32.le_iff_toNat_le.mpr (by rw [hsucc]; omega))
    unfold search Below
    dsimp only
    rw [hsucc] at hdivided ⊢
    by_cases hprime : (s.nextPrime.toNat + 1).Prime
    · -- the flag stays unset, on the next prime
      have hleast : next ≤ s.nextPrime.toNat + 1 := h.2 ⟨hprime, by omega⟩
      have hflag : divided (s.nextPrime + 1) = 0 := by
        by_contra hne
        exact hdivided.mp hne hprime
      exact Or.inr ⟨hflag, by omega⟩
    · have hne : s.nextPrime.toNat + 1 ≠ next := by
        rintro rfl
        exact hprime h.1.1
      exact Or.inl ⟨hdivided.mpr hprime, by omega, by omega⟩
  · exact absurd hzero (of_decide_eq_true hguard)

/-- The locals after `k` iterations of the search entered with `num`. -/
def Search.after (num : UInt32) (k : Nat) : Search := search.body^[k] (Search.start num)

/-- A whole search that has a next prime ahead. -/
theorem exists_search (hnum : 5 ≤ num) (h : IsLeast {p | p.Prime ∧ num.toNat < p} next)
    (hnext : next < 2 ^ 32) :
    ∃ k, (∀ j < k, (Search.after num j).prime ≠ 0 ∧
        (Search.after num j).nextPrime.toNat + 1 < 2 ^ 32) ∧
      (Search.after num k).prime = 0 ∧ search.run (Search.start num) = Search.after num k ∧
      (Search.after num k).nextPrime.toNat = next := by
  obtain ⟨k, hrun, hexit, henter⟩ := search.exists_iterations (Search.start num)
  have hbelow : ∀ j ≤ k, Search.Below num.toNat next (Search.after num j) := fun j hj =>
    WhileLoop.iterate_invariant (fun _ hs hguard => Search.Below.body hnum h hnext hs hguard)
      (Search.Below.start h) (fun i hi => henter i (by omega))
  refine ⟨k, fun j hj => ?_, not_not.mp (of_decide_eq_false hexit), hrun, ?_⟩
  · -- still searching, and so below the next prime
    rcases hbelow j (by omega) with ⟨hne, -, hbefore⟩ | ⟨hzero, -⟩
    · exact ⟨hne, by omega⟩
    · exact absurd hzero (of_decide_eq_true (henter j hj))
  · rcases hbelow k (Nat.le_refl k) with ⟨hne, -⟩ | ⟨-, heq⟩
    · exact absurd hne (of_decide_eq_false hexit)
    · exact heq

/-- Where the search starts on a number from 5 on, it stops at the next prime. -/
theorem nextPrime_of_run (hnum : 5 ≤ num) (h : IsLeast {p | p.Prime ∧ num.toNat < p} next)
    (hnext : next < 2 ^ 32) : (search.run (Search.start num)).nextPrime.toNat = next := by
  obtain ⟨k, -, -, hrun, heq⟩ := exists_search hnum h hnext
  rw [hrun]
  exact heq

/-- Below the last prime of 32 bits there is a next one. -/
theorem exists_next (hlt : num < 4294967291) :
    ∃ next, IsLeast {p | p.Prime ∧ num.toNat < p} next ∧ next < 2 ^ 32 := by
  obtain ⟨next, hnext⟩ := exists_isLeast_prime_gt num.toNat
  have hle : next ≤ 4294967291 := hnext.2 ⟨prime_4294967291, UInt32.lt_iff_toNat_lt.mp hlt⟩
  exact ⟨next, hnext, by omega⟩

end Search

/-- **The search loop is exact.** From 5 on, the trial division finds a divisor iff the number is
composite. So the search entered with `num`, from 5 up to below the last prime of 32 bits, ends
after some number of iterations, at the least prime above `num`, and none of its increments
wraps. -/
theorem search_exact :
    (∀ n : UInt32, 5 ≤ n → (divided n ≠ 0 ↔ ¬ n.toNat.Prime)) ∧
      ∀ num : UInt32, 5 ≤ num → num < 4294967291 →
        ∃ k, (∀ j < k, (Search.after num j).prime ≠ 0 ∧
            (Search.after num j).nextPrime.toNat + 1 < 2 ^ 32) ∧
          (Search.after num k).prime = 0 ∧
          search.run (Search.start num) = Search.after num k ∧
          IsLeast {p | p.Prime ∧ num.toNat < p} (Search.after num k).nextPrime.toNat := by
  constructor
  · intro n hn
    exact divided_ne_zero_iff_not_prime hn
  · -- there is a prime ahead, and up to it the search neither stops nor wraps
    intro num hnum hlt
    obtain ⟨next, hnext, hbound⟩ := exists_next hlt
    obtain ⟨k, hsearching, hexit, hrun, heq⟩ := exists_search hnum hnext hbound
    refine ⟨k, hsearching, hexit, hrun, ?_⟩
    rw [heq]
    exact hnext

/-! ## The function -/

/-- The flag is 1 exactly when there is a divisor below the half. -/
theorem divided_eq_one_iff (n : UInt32) : divided n = 1 ↔ HasDivisor n.toNat := by
  rw [← divided_ne_zero_iff]
  constructor
  · intro hone
    rw [hone]
    exact flag_ne_zero
  · exact (division_sound n).flag.resolve_left

/-- Below 5, the only composite number is 4. -/
theorem five_le_of_not_prime {n : Nat} (htwo : 2 ≤ n) (hprime : ¬ n.Prime) (hfour : n ≠ 4) :
    5 ≤ n := by
  have h2 : n ≠ 2 := fun h => hprime (h ▸ Nat.prime_two)
  have h3 : n ≠ 3 := fun h => hprime (h ▸ Nat.prime_three)
  omega

/-- Nothing is assigned when the argument itself passes the trial division. -/
theorem nextPrime_eq_none_iff (num : UInt32) :
    nextPrime num = none ↔ num.toNat < 5 ∨ num.toNat.Prime := by
  -- a divisor below the half needs a number of five or more
  have hdivisor : HasDivisor num.toNat ↔ 5 ≤ num.toNat ∧ ¬ num.toNat.Prime := by
    constructor
    · intro h
      obtain ⟨d, htwo, hhalf, -⟩ := id h
      exact ⟨by omega, not_prime_of_hasDivisor h⟩
    · exact fun ⟨hfive, hprime⟩ => hasDivisor_of_not_prime hfive hprime
  unfold nextPrime
  dsimp only
  split
  · next hone =>
    have h := hdivisor.mp ((divided_eq_one_iff num).mp hone)
    simpa using h
  · next hne =>
    rw [divided_eq_one_iff, hdivisor] at hne
    simpa [imp_iff_not_or] using hne

/-- What is returned is the next prime above the argument. -/
theorem isLeast_of_nextPrime {num r : UInt32} (hlt : num < 4294967291)
    (h : nextPrime num = some r) : IsLeast {p | p.Prime ∧ num.toNat < p} r.toNat := by
  -- the prime after `num` is below `2 ^ 32`
  obtain ⟨next, hnext, hbound⟩ := exists_next hlt
  -- something was assigned, so `num` is not too small
  have hfive : 5 ≤ num.toNat := by
    by_contra hsmall
    rw [(nextPrime_eq_none_iff num).mpr (Or.inl (not_le.mp hsmall))] at h
    cases h
  have hrun := nextPrime_of_run (UInt32.le_iff_toNat_le.mpr hfive) hnext hbound
  unfold nextPrime at h
  dsimp only at h
  split at h
  · obtain rfl := Option.some.inj h
    rwa [hrun]
  · cases h

/-- What is returned is prime, and above the argument. -/
theorem prime_of_nextPrime {num r : UInt32} (hlt : num < 4294967291)
    (h : nextPrime num = some r) : r.toNat.Prime ∧ num < r :=
  (isLeast_of_nextPrime hlt h).1.imp_right UInt32.lt_iff_toNat_lt.mpr

/-- **The next prime.** For an argument from 2 on with a prime from it on in 32 bits: `nextPrime`
returns a defined value, the least such prime, iff the argument is composite and not 4. -/
theorem nextPrime_eq_next_iff (num : UInt32) (htwo : 2 ≤ num)
    (hexists : ∃ p : Nat, p.Prime ∧ num.toNat ≤ p ∧ p < 2 ^ 32) :
    (∃ r, nextPrime num = some r ∧ IsLeast {p | p.Prime ∧ num.toNat ≤ p} r.toNat) ↔
      ¬ num.toNat.Prime ∧ num ≠ 4 := by
  unfold nextPrime
  constructor
  · -- a value means that the first division has found a divisor
    rintro ⟨r, hsome, -⟩
    have hdivisor : HasDivisor num.toNat := by
      rw [← divided_eq_one_iff]
      by_contra hne
      rw [if_neg hne] at hsome
      cases hsome
    refine ⟨not_prime_of_hasDivisor hdivisor, ?_⟩
    rintro rfl
    exact not_hasDivisor_four hdivisor
  · rintro ⟨hprime, hfour⟩
    have hfive : 5 ≤ num.toNat := five_le_of_not_prime (UInt32.le_iff_toNat_le.mp htwo) hprime
      fun h => hfour (UInt32.toNat_inj.mp h)
    -- the argument itself is no prime, so the next prime is above it
    have hset : {p | p.Prime ∧ num.toNat ≤ p} = {p : Nat | p.Prime ∧ num.toNat < p} := by
      ext p
      refine and_congr_right fun hp => ⟨fun hle => ?_, Nat.le_of_lt⟩
      refine Nat.lt_of_le_of_ne hle fun heq => ?_
      exact hprime (heq ▸ hp)
    obtain ⟨p, hp, hle, hlt⟩ := hexists
    obtain ⟨next, hnext⟩ := exists_isLeast_prime_gt num.toNat
    have hbound : next ≤ p := by
      rw [← hset] at hnext
      exact hnext.2 ⟨hp, hle⟩
    have hrun := nextPrime_of_run (UInt32.le_iff_toNat_le.mpr hfive) hnext (by omega)
    refine ⟨_, if_pos ((divided_eq_one_iff num).mpr (hasDivisor_of_not_prime hfive hprime)), ?_⟩
    rw [hrun, hset]
    exact hnext

/-- A prime argument: the local variable is returned unassigned. -/
theorem nextPrime_fails :
    ¬ ∀ num : UInt32, 2 ≤ num → (∃ p : Nat, p.Prime ∧ num.toNat ≤ p ∧ p < 2 ^ 32) →
      ∃ r, nextPrime num = some r ∧ IsLeast {p | p.Prime ∧ num.toNat ≤ p} r.toNat := by
  intro hall
  obtain ⟨r, hsome, -⟩ := hall 7 (by decide) ⟨7, by norm_num, Nat.le_refl 7, by norm_num⟩
  rw [show nextPrime 7 = none by decide] at hsome
  cases hsome

theorem nextPrime_eq_next_iff_1200 :
    (∃ r, nextPrime 1200 = some r ∧ IsLeast {p | p.Prime ∧ (1200 : UInt32).toNat ≤ p} r.toNat) ↔
      ¬ (1200 : UInt32).toNat.Prime ∧ (1200 : UInt32) ≠ 4 :=
  nextPrime_eq_next_iff 1200 (by decide)
    ⟨1201, by norm_num, show 1200 ≤ 1201 by omega, by norm_num⟩

end FHF
