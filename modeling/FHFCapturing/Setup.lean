import FHFCapturing.Capture
import FHFCapturing.RandomDraws
import FHFCapturing.Lib.RationalRounding

/-!
# What `main` builds

From the options of the command line to the farm: the emitter, the number of workers, the size of
their tables, the first threshold. Products and quotients of `double` and `float` numbers are
rounded, so the size that `nextPrime` is asked for may be below the `1 / percentageInterestingFlow`
flows that can be heavy at once. Yet the assertion on the size of the tables never fails, and a
set-up that gets past `nextPrime` gives tables whose hash functions never overflow
(`mainSetUp_spec`). Where `nextPrime` assigns no size, or a number does not fit the type it is
converted to, the program goes on with a value that nothing determines; the model says nothing of
these runs and ends the set-up as `undefined`.
-/

namespace FHF

open RationalRounding

/-- The globals that `argParsing` fills, with their defaults: `percentageInterestingFlow` is a
`double`, `oversamplingFactor` a `float`. -/
structure Options where
  interface : Option String := none
  bpfFilter : Option String := none
  cnt : Int32 := -1
  readTimeout : Int32 := 5000
  parDegree : UInt32 := 0
  numOfStages : UInt32 := 10
  sampleInterval : UInt32 := 5
  oversamplingFactor : ℚ := roundRat 24 (roundRat 53 (1 / 5))
  noPromisc : Bool := false
  linkCapacity : UInt64 := 0
  percentageInterestingFlow : ℚ := roundRat 53 (1 / 1000)

/-- The emitter, and what `main` hands to the constructors of the workers. -/
structure SetUp (Descr : Type) where
  emitter : Emitter Descr
  nWorkers : UInt32
  hashTablesSize : UInt32
  numOfStages : UInt16
  firstThreshold : UInt32
  deriving DecidableEq, Repr

/-- `x` converted to an `unsigned int`: truncated, if that fits. -/
def toUInt? (x : ℚ) : Option UInt32 :=
  if -1 < x ∧ x < 2 ^ 32 then some (.ofNat ⌊x⌋₊) else none

/-- `x` converted to a `long int`. -/
def toLong? (x : ℚ) : Option Int :=
  if -2 ^ 63 - 1 < x ∧ x < 2 ^ 63 then some (x.num.tdiv x.den) else none

namespace Options

open Failure

variable {Descr Filter : Type} {P : Pcap Descr Filter}

/-- The checks at the end of `argParsing`: the interface, and the number of workers. -/
def argParsing (o : Options) : Except Failure (String × UInt32) := do
  let interface ← given o.interface (.exit "ERROR: -i <interface> required.\n")
  check (o.linkCapacity ≠ 0) (.exit "ERROR: -l <linkCapacityInByte/Second> required.\n")
  return (interface, if o.parDegree > 3 then o.parDegree - 2 else 1)

/-- `1.0 / percentageInterestingFlow`. -/
def maxFlows (o : Options) : ℚ := roundRat 53 (1 / o.percentageInterestingFlow)

/-- `float dimH`: computed in double precision, stored in single. -/
def dimH (o : Options) : ℚ :=
  roundRat 24 (roundRat 53 (o.maxFlows + roundRat 53 (o.maxFlows * o.oversamplingFactor)))

/-- `linkCapacity * percentageInterestingFlow * sampleInterval`. -/
def firstThreshold (o : Options) : ℚ :=
  roundRat 53 (roundRat 53 (roundRat 53 o.linkCapacity.toNat * o.percentageInterestingFlow) *
    o.sampleInterval.toNat)

/-- `main` up to the constructors of the workers. A division by zero is an infinity or not a
number, and converting these is undefined. -/
def mainSetUp (P : Pcap Descr Filter) (o : Options) : Except Failure (SetUp Descr) := do
  let (interface, nWorkers) ← o.argParsing
  check (o.percentageInterestingFlow ≠ 0) .undefined
  let hashTablesSize ← given ((toUInt? o.dimH).bind nextPrime) .undefined
  check (o.maxFlows < hashTablesSize.toNat) .assertion
  let firstThreshold ← given (toLong? o.firstThreshold) .undefined
  let emitter ← Emitter.new P nWorkers interface o.noPromisc o.bpfFilter o.cnt
    o.readTimeout.toUInt32
  let numOfStages := o.numOfStages.toUInt16
  check (numOfStages ≠ 0) (.invalid_argument "invalid number of Stages! (cannot be 0) ")
  return { emitter, nWorkers, hashTablesSize, numOfStages, firstThreshold := .ofInt firstThreshold }

/-- libpcap opens the capture that the options ask for. -/
def CaptureOpens (P : Pcap Descr Filter) (o : Options) (interface : String) : Prop :=
  ∃ m_descr, Emitter.Opens P interface o.noPromisc o.bpfFilter o.readTimeout.toUInt32 m_descr

/-- What has to go well for the set-up to reach its end. -/
theorem mainSetUp_eq_ok {o : Options} {st : SetUp Descr} :
    o.mainSetUp P = .ok st ↔ ∃ interface nWorkers, o.argParsing = .ok (interface, nWorkers) ∧
      o.percentageInterestingFlow ≠ 0 ∧
      ∃ size, (toUInt? o.dimH).bind nextPrime = some size ∧ o.maxFlows < size.toNat ∧
      ∃ first, toLong? o.firstThreshold = some first ∧
      ∃ emitter, Emitter.new P nWorkers interface o.noPromisc o.bpfFilter o.cnt
          o.readTimeout.toUInt32 = .ok emitter ∧
        o.numOfStages.toUInt16 ≠ 0 ∧
        st = ⟨emitter, nWorkers, size, o.numOfStages.toUInt16, .ofInt first⟩ := by
  simp [mainSetUp, pure, Except.pure, Prod.exists, eq_comm (b := st)]

/-- The assertion fails only on a size that is too small. -/
theorem exists_of_assertion {o : Options} (h : o.mainSetUp P = .error .assertion) :
    ∃ size, (toUInt? o.dimH).bind nextPrime = some size ∧ size.toNat ≤ o.maxFlows := by
  have hfailed : (∃ interface, o.interface = some interface) ∧ o.linkCapacity ≠ 0 ∧
      o.percentageInterestingFlow ≠ 0 ∧
      ∃ size, (toUInt? o.dimH).bind nextPrime = some size ∧ size.toNat ≤ o.maxFlows := by
    simpa [mainSetUp, argParsing, pure, Except.pure, Emitter.new_ne_assertion] using h
  exact hfailed.2.2.2

/-- What the options have to be for `argParsing` to return. -/
theorem argParsing_eq_ok {o : Options} {interface : String} {nWorkers : UInt32} :
    o.argParsing = .ok (interface, nWorkers) ↔ o.interface = some interface ∧ o.linkCapacity ≠ 0 ∧
      nWorkers = if o.parDegree > 3 then o.parDegree - 2 else 1 := by
  simp [argParsing, pure, Except.pure, eq_comm (b := nWorkers)]

/-- Emitter and analyzer have two of the threads, and a worker is left in any case. -/
theorem pos_of_argParsing {o : Options} {interface : String} {nWorkers : UInt32}
    (h : o.argParsing = .ok (interface, nWorkers)) : 0 < nWorkers.toNat := by
  obtain ⟨-, -, rfl⟩ := argParsing_eq_ok.mp h
  split
  · next hmany =>
    have hlt := UInt32.lt_iff_toNat_lt.mp hmany
    rw [show (3 : UInt32).toNat = 3 from rfl] at hlt
    rw [UInt32.toNat_sub_of_le _ _ (UInt32.le_iff_toNat_le.mpr (show 2 ≤ _ by omega))]
    show 0 < _ - 2
    omega
  · exact Nat.one_pos

/-! ## The size of the tables -/

section Size

variable {o : Options} {m : Nat}

theorem maxFlows_nonneg (hp : 0 < o.percentageInterestingFlow) : 0 ≤ o.maxFlows :=
  roundRat_nonneg (by decide) (by positivity)

/-- An integer up to the number of flows is also one up to `dimH`, for all the rounding. -/
theorem natCast_le_dimH (hp : 0 < o.percentageInterestingFlow) (hs : 0 ≤ o.oversamplingFactor)
    (hm : m ≤ 2 ^ 24) (h : m ≤ o.maxFlows) : m ≤ o.dimH := by
  have hmore := roundRat_nonneg (show 0 < 53 by decide) (mul_nonneg (maxFlows_nonneg hp) hs)
  refine natCast_le_roundRat (by decide) hm ?_
  refine natCast_le_roundRat (by decide) (hm.trans (by decide)) ?_
  linarith

/-- An integer up to the exact number of flows is also one up to the rounded one. -/
theorem natCast_le_maxFlows (hm : m ≤ 2 ^ 24) (h : m ≤ 1 / o.percentageInterestingFlow) :
    m ≤ o.maxFlows :=
  natCast_le_roundRat (by decide) (hm.trans (by decide)) h

theorem dimH_nonneg (hp : 0 < o.percentageInterestingFlow) (hs : 0 ≤ o.oversamplingFactor) :
    0 ≤ o.dimH := by
  have hzero : ((0 : Nat) : ℚ) ≤ o.maxFlows := by exact_mod_cast maxFlows_nonneg hp
  exact_mod_cast natCast_le_dimH hp hs (Nat.zero_le _) hzero

/-- `nextPrime` gets the integer part of `dimH`. -/
theorem toUInt?_dimH (hp : 0 < o.percentageInterestingFlow) (hs : 0 ≤ o.oversamplingFactor)
    (hdim : o.dimH < 8388593) :
    ∃ num : UInt32, toUInt? o.dimH = some num ∧ num.toNat = ⌊o.dimH⌋₊ ∧ num.toNat < 8388593 := by
  have hnonneg := dimH_nonneg hp hs
  have hlt : ⌊o.dimH⌋₊ < 8388593 := (Nat.floor_lt hnonneg).mpr (by exact_mod_cast hdim)
  have hnum : (UInt32.ofNat ⌊o.dimH⌋₊).toNat = ⌊o.dimH⌋₊ :=
    UInt32.toNat_ofNat_of_lt' (lt_trans hlt (by decide))
  exact ⟨_, if_pos ⟨by linarith, by linarith⟩, hnum, by rwa [hnum]⟩

/-- The largest prime that the hash functions can take. -/
theorem prime_8388593 : Nat.Prime 8388593 := by norm_num

/-- A size that `nextPrime` has found: it fits the hash functions, and exceeds both numbers of
flows. -/
theorem size_of_nextPrime (hp : 0 < o.percentageInterestingFlow) (hs : 0 ≤ o.oversamplingFactor)
    (hdim : o.dimH < 8388593) {size : UInt32}
    (hsize : (toUInt? o.dimH).bind nextPrime = some size) :
    IsLeast {q | q.Prime ∧ ⌊o.dimH⌋₊ < q} size.toNat ∧ size.toNat ≤ 8388593 ∧
      o.maxFlows < size.toNat ∧ 1 / o.percentageInterestingFlow < size.toNat := by
  obtain ⟨num, hnum, hfloor, hlt⟩ := toUInt?_dimH hp hs hdim
  -- `nextPrime` is given the integer part, which is below the bound
  rw [hnum, Option.bind_some] at hsize
  have hleast := isLeast_of_nextPrime
    (UInt32.lt_iff_toNat_lt.mpr (show _ < 4294967291 by omega)) hsize
  rw [hfloor] at hleast
  -- the largest admissible prime is a candidate
  have hle : size.toNat ≤ 8388593 := hleast.2 ⟨prime_8388593, by omega⟩
  have hflows : o.maxFlows < size.toNat := by
    -- a size up to the number of flows is one up to `dimH`, where no prime is
    by_contra hover
    have hdimH := natCast_le_dimH hp hs (hle.trans (by decide)) (not_lt.mp hover)
    have hfit := Nat.le_floor hdimH
    have hgt := hleast.1.2
    omega
  refine ⟨hleast, hle, hflows, ?_⟩
  by_contra hover
  exact absurd hflows (not_lt.mpr (natCast_le_maxFlows (hle.trans (by decide)) (not_lt.mp hover)))

/-- `nextPrime` leaves its result unassigned on a prime, and below 5. -/
theorem exists_size_iff (hp : 0 < o.percentageInterestingFlow) (hs : 0 ≤ o.oversamplingFactor)
    (hdim : o.dimH < 8388593) :
    (∃ size, (toUInt? o.dimH).bind nextPrime = some size) ↔
      5 ≤ ⌊o.dimH⌋₊ ∧ ¬ (⌊o.dimH⌋₊).Prime := by
  obtain ⟨num, hnum, hfloor, -⟩ := toUInt?_dimH hp hs hdim
  rw [hnum, Option.bind_some, ← hfloor, ← not_lt, ← not_or, ← nextPrime_eq_none_iff]
  exact Option.ne_none_iff_exists'.symm

/-- The first threshold is converted to a `long int` if it fits. -/
theorem exists_toLong?_firstThreshold (hp : 0 < o.percentageInterestingFlow) :
    (∃ first, toLong? o.firstThreshold = some first) ↔ o.firstThreshold < 2 ^ 63 := by
  have hnonneg : 0 ≤ o.firstThreshold := by
    refine roundRat_nonneg (by decide) (mul_nonneg ?_ (Nat.cast_nonneg _))
    refine roundRat_nonneg (by decide) (mul_nonneg ?_ hp.le)
    exact roundRat_nonneg (by decide) (Nat.cast_nonneg _)
  unfold toLong?
  constructor
  · rintro ⟨first, hfirst⟩
    by_contra hlarge
    rw [if_neg fun h => hlarge h.2] at hfirst
    cases hfirst
  · exact fun hlt => ⟨_, if_pos ⟨by linarith, hlt⟩⟩

end Size

end Options

/-! ## The farm -/

/-- What `Farm.Config.rand` asks of the number of workers, of stages and of the size. -/
structure SetUp.Fits {Descr : Type} (st : SetUp Descr) : Prop where
  workers_pos : 0 < st.nWorkers.toNat
  stages_pos : 0 < st.numOfStages.toNat
  size_pos : 0 < st.hashTablesSize
  size_le : st.hashTablesSize.toNat ≤ 2 ^ 23

namespace Options

open UniversalHashFunction

variable {Descr Filter : Type} {P : Pcap Descr Filter}

/-- What the options have to be for a farm: `nextPrime` assigns a size, the first threshold fits,
and the capture opens. -/
structure Buildable (P : Pcap Descr Filter) (o : Options) : Prop where
  interface : ∃ interface, o.interface = some interface ∧ o.CaptureOpens P interface
  capacity : o.linkCapacity ≠ 0
  size : 5 ≤ ⌊o.dimH⌋₊ ∧ ¬ (⌊o.dimH⌋₊).Prime
  threshold : o.firstThreshold < 2 ^ 63
  stages : o.numOfStages.toUInt16 ≠ 0

theorem exists_mainSetUp_iff {o : Options} (hp : 0 < o.percentageInterestingFlow)
    (hs : 0 ≤ o.oversamplingFactor) (hdim : o.dimH < 8388593) :
    (∃ st, o.mainSetUp P = .ok st) ↔ o.Buildable P := by
  constructor
  · rintro ⟨st, hst⟩
    -- every step has gone well, and each says one thing of the options
    obtain ⟨interface, nWorkers, hargs, -, size, hsize, -, first, hfirst, emitter, hnew, hstages,
      -⟩ := mainSetUp_eq_ok.mp hst
    obtain ⟨hinterface, hcapacity, -⟩ := argParsing_eq_ok.mp hargs
    exact
      { interface := ⟨interface, hinterface, Emitter.exists_new_iff.mp ⟨emitter, hnew⟩⟩
        capacity := hcapacity
        size := (exists_size_iff hp hs hdim).mp ⟨size, hsize⟩
        threshold := (exists_toLong?_firstThreshold hp).mp ⟨first, hfirst⟩
        stages := hstages }
  · rintro ⟨⟨interface, hinterface, hopens⟩, hcapacity, hdimH, hlong, hstages⟩
    obtain ⟨size, hsize⟩ := (exists_size_iff hp hs hdim).mpr hdimH
    obtain ⟨first, hfirst⟩ := (exists_toLong?_firstThreshold hp).mpr hlong
    obtain ⟨emitter, hnew⟩ := Emitter.exists_new_iff.mpr hopens
    -- the assertion does not fail on a size that `nextPrime` has found
    have hflows := (size_of_nextPrime hp hs hdim hsize).2.2.1
    exact ⟨_, mainSetUp_eq_ok.mpr ⟨interface, _, argParsing_eq_ok.mpr ⟨hinterface, hcapacity, rfl⟩,
      hp.ne', size, hsize, hflows, first, hfirst, emitter, hnew, hstages, rfl⟩⟩

/-- The farm's conditions on the sizes hold of everything `main` sets up. -/
theorem fits_of_mainSetUp {o : Options} (hp : 0 < o.percentageInterestingFlow)
    (hs : 0 ≤ o.oversamplingFactor) (hdim : o.dimH < 8388593) {st : SetUp Descr}
    (hst : o.mainSetUp P = .ok st) :
    st.Fits ∧ IsLeast {q | q.Prime ∧ ⌊o.dimH⌋₊ < q} st.hashTablesSize.toNat ∧
      1 / o.percentageInterestingFlow < st.hashTablesSize.toNat := by
  obtain ⟨interface, nWorkers, hargs, -, size, hsize, -, first, -, emitter, -, hstages, rfl⟩ :=
    mainSetUp_eq_ok.mp hst
  obtain ⟨hleast, hle, -, hgt⟩ := size_of_nextPrime hp hs hdim hsize
  refine ⟨⟨pos_of_argParsing hargs, ?_, ?_, hle.trans (by decide)⟩, hleast, hgt⟩
  · exact Nat.pos_of_ne_zero fun hzero => hstages (UInt16.toNat_inj.mp hzero)
  · exact UInt32.lt_iff_toNat_lt.mpr hleast.1.1.pos

/-- A capture from one interface at a gigabit per second, with the defaults. -/
def gigabit : Options where
  interface := some "eth0"
  linkCapacity := 125000000

/-- A machine with that interface only. -/
def eth0 : Pcap Unit String where
  lookupnet device := if device = "eth0" then some 0x0000A8C0 else none
  open_offline fname := .error s!"{fname}: No such file or directory"
  open_live _ _ _ _ := .ok ()
  compile _ str _ := .ok str
  setfilter _ _ := .ok ()
  datalink _ := 1

example : gigabit.mainSetUp eth0 = .ok ⟨⟨(), -1, 1, false⟩, 1, 1201, 10, 625000⟩ := by
  decide +kernel

example : { gigabit with interface := some "eth1" : Options }.mainSetUp eth0 =
    .error (.exit "Couldn't open device eth1: eth1: No such file or directory\n") := by
  decide +kernel

end Options

end FHF
