import FHFCapturing.Emitter

/-!
# Opening the capture

The constructor of `Emitter` opens the device, or the file of that name if libpcap has no such
device, installs the filter "ip" and after it the user's, and asks for the link type. It exits with
a message as soon as libpcap refuses, and on any link type but Ethernet. What libpcap answers is a
parameter: `Opens` says which answers let the constructor return, and `new_eq_ok` that there are no
others.
-/

namespace FHF

/-- How the set-up ends without a farm. -/
inductive Failure where
  | exit (msg : String)
  | assertion
  | invalid_argument (msg : String)
  -- a value was never assigned, or does not fit its type: the C++ standard leaves open how the
  -- program goes on
  | undefined
  deriving DecidableEq, Repr

namespace Failure

variable {α β : Type}

/-- The value, or the failure if there is none. -/
def given (x : Option α) (failure : Failure) : Except Failure α := x.elim (.error failure) .ok

/-- `if (!c)` followed by the failure. -/
def check (c : Prop) [Decidable c] (failure : Failure) : Except Failure Unit :=
  if c then .ok () else .error failure

/-- What libpcap answers, its error as part of the message. -/
def orExit (x : Except String α) (msg : String → String) : Except Failure α :=
  x.mapError fun err => .exit (msg err)

/-- A sequence of steps succeeds when each does. -/
@[simp] theorem bind_eq_ok {x : Except Failure α} {f : α → Except Failure β} {b : β} :
    x >>= f = .ok b ↔ ∃ a, x = .ok a ∧ f a = .ok b := by
  cases x <;> simp [bind, Except.bind]

/-- It fails with the failure of its first step, or of a later one. -/
@[simp] theorem bind_eq_error {x : Except Failure α} {f : α → Except Failure β} {e : Failure} :
    x >>= f = .error e ↔ x = .error e ∨ ∃ a, x = .ok a ∧ f a = .error e := by
  cases x <;> simp [bind, Except.bind]

@[simp] theorem map_eq_ok {x : Except Failure α} {f : α → β} {b : β} :
    f <$> x = .ok b ↔ ∃ a, x = .ok a ∧ f a = b := by
  cases x <;> simp [Functor.map, Except.map]

@[simp] theorem map_eq_error {x : Except Failure α} {f : α → β} {e : Failure} :
    f <$> x = .error e ↔ x = .error e := by
  cases x <;> simp [Functor.map, Except.map]

@[simp] theorem given_eq_ok {x : Option α} {failure : Failure} {a : α} :
    given x failure = .ok a ↔ x = some a := by
  cases x <;> simp [given]

@[simp] theorem given_eq_error {x : Option α} {failure e : Failure} :
    given x failure = .error e ↔ x = none ∧ failure = e := by
  cases x <;> simp [given]

@[simp] theorem check_eq_ok {c : Prop} [Decidable c] {failure : Failure} {u : Unit} :
    check c failure = .ok u ↔ c := by
  by_cases h : c <;> simp [check, h]

@[simp] theorem check_eq_error {c : Prop} [Decidable c] {failure e : Failure} :
    check c failure = .error e ↔ ¬ c ∧ failure = e := by
  by_cases h : c <;> simp [check, h]

@[simp] theorem orExit_eq_ok {x : Except String α} {msg : String → String} {a : α} :
    orExit x msg = .ok a ↔ x = .ok a := by
  cases x <;> simp [orExit, Except.mapError]

@[simp] theorem orExit_eq_error {x : Except String α} {msg : String → String} {e : Failure} :
    orExit x msg = .error e ↔ ∃ err, x = .error err ∧ .exit (msg err) = e := by
  cases x <;> simp [orExit, Except.mapError]

end Failure

/-- The functions of libpcap that the constructor calls. A descriptor stands for the capture with
the filter that is installed; an error is the text that the caller prints. -/
structure Pcap (Descr Filter : Type) where
  -- the network of a device, unless there is none of that name
  lookupnet (device : String) : Option UInt32
  open_offline (fname : String) : Except String Descr
  open_live (device : String) (snaplen : Nat) (promisc : Bool) (to_ms : Int32) : Except String Descr
  compile (p : Descr) (str : String) (netmask : UInt32) : Except String Filter
  setfilter (p : Descr) (fp : Filter) : Except String Descr
  datalink (p : Descr) : Int

/-- The emitter of the farm once it is constructed. -/
structure Emitter (Descr : Type) where
  m_descr : Descr
  countPkt : Int32
  numWorkers : UInt32
  offline : Bool
  deriving DecidableEq, Repr

namespace Emitter

open Failure

variable {Descr Filter : Type} (P : Pcap Descr Filter)

/-- What is opened, whether it is a file, and the network that the filters are compiled for. -/
def openDevice (device : String) (noPromisc : Bool) (readTimeout : UInt32) :
    Except String Descr × Bool × UInt32 :=
  match P.lookupnet device with
  | none => (P.open_offline device, true, ntohl 0xFFFFFF00)
  | some addr => (P.open_live device 200 (!noPromisc) readTimeout.toInt32, false, addr)

/-- Compile a filter and install it; both messages name the user's filter. -/
def installFilter (m_descr : Descr) (str : String) (addr : UInt32) (filter_exp : Option String) :
    Except Failure Descr := do
  -- the C library prints a null pointer so
  let shown := filter_exp.getD "(null)"
  let fp ← orExit (P.compile m_descr str addr) fun err =>
    s!"Couldn't parse filter {shown}: {err}\n"
  orExit (P.setfilter m_descr fp) fun err => s!"Couldn't install filter {shown}: {err}\n"

/-- The user's filter takes the place of the first one. -/
def installUserFilter (m_descr : Descr) (addr : UInt32) (filter_exp : Option String) :
    Except Failure Descr :=
  match filter_exp with
  | none => .ok m_descr
  | some exp => installFilter P m_descr exp addr filter_exp

/-- The constructor, with the load balancer that `main` always gives it. -/
def new (workers : UInt32) (device : String) (noPromisc : Bool) (filter_exp : Option String)
    (cnt : Int32) (readTimeout : UInt32) : Except Failure (Emitter Descr) := do
  let numWorkers := if workers ≠ 0 then workers else 1
  let (opened, offline, addr) := openDevice P device noPromisc readTimeout
  let m_descr ← orExit opened fun errbuf => s!"Couldn't open device {device}: {errbuf}\n"
  let m_descr ← installFilter P m_descr "ip" addr filter_exp
  let m_descr ← installUserFilter P m_descr addr filter_exp
  let type := P.datalink m_descr
  check (type = 1) (.exit s!"Datalink offset for datalink type: {type} unknown.")
  return { m_descr, countPkt := cnt, numWorkers, offline }

/-! ## When the constructor returns -/

/-- libpcap compiles the filter and installs it. -/
def Installs (p : Descr) (str : String) (addr : UInt32) (p' : Descr) : Prop :=
  ∃ fp, P.compile p str addr = .ok fp ∧ P.setfilter p fp = .ok p'

/-- The user's filter is accepted, if there is one. -/
def InstallsUser (p : Descr) (addr : UInt32) (filter_exp : Option String) (p' : Descr) : Prop :=
  match filter_exp with
  | none => p' = p
  | some exp => Installs P p exp addr p'

/-- The device or file can be opened, both filters are accepted, and the link is Ethernet. -/
def Opens (device : String) (noPromisc : Bool) (filter_exp : Option String) (readTimeout : UInt32)
    (m_descr : Descr) : Prop :=
  let (opened, _, addr) := openDevice P device noPromisc readTimeout
  ∃ p ipOnly, opened = .ok p ∧ Installs P p "ip" addr ipOnly ∧
    InstallsUser P ipOnly addr filter_exp m_descr ∧ P.datalink m_descr = 1

variable {P}

/-- The messages apart, `installFilter` asks libpcap for the two calls. -/
theorem installFilter_eq_ok {p p' : Descr} {str : String} {addr : UInt32}
    {filter_exp : Option String} :
    installFilter P p str addr filter_exp = .ok p' ↔ Installs P p str addr p' := by
  simp [installFilter, Installs]

/-- Without a filter of the user nothing is asked. -/
theorem installUserFilter_eq_ok {p p' : Descr} {addr : UInt32} {filter_exp : Option String} :
    installUserFilter P p addr filter_exp = .ok p' ↔ InstallsUser P p addr filter_exp p' := by
  cases filter_exp with
  | none => simp [installUserFilter, InstallsUser, eq_comm]
  | some exp => exact installFilter_eq_ok

theorem installFilter_ne_assertion {p : Descr} {str : String} {addr : UInt32}
    {filter_exp : Option String} : installFilter P p str addr filter_exp ≠ .error .assertion := by
  simp [installFilter]

theorem installUserFilter_ne_assertion {p : Descr} {addr : UInt32} {filter_exp : Option String} :
    installUserFilter P p addr filter_exp ≠ .error .assertion := by
  cases filter_exp with
  | none => simp [installUserFilter]
  | some exp => exact installFilter_ne_assertion

section New

variable {workers readTimeout : UInt32} {device : String} {noPromisc : Bool}
  {filter_exp : Option String} {cnt : Int32}

/-- **The constructor returns iff the capture opens.** -/
theorem new_eq_ok {e : Emitter Descr} :
    new P workers device noPromisc filter_exp cnt readTimeout = .ok e ↔
      Opens P device noPromisc filter_exp readTimeout e.m_descr ∧
      e = ⟨e.m_descr, cnt, if workers ≠ 0 then workers else 1,
        (openDevice P device noPromisc readTimeout).2.1⟩ := by
  simp only [new, Opens, bind_eq_ok, orExit_eq_ok, installFilter_eq_ok, installUserFilter_eq_ok,
    check_eq_ok, pure, Except.pure, Except.ok.injEq, exists_const]
  constructor
  · rintro ⟨p, hopen, ipOnly, hip, m_descr, huser, htype, rfl⟩
    exact ⟨⟨p, ipOnly, hopen, hip, huser, htype⟩, rfl⟩
  · rintro ⟨⟨p, ipOnly, hopen, hip, huser, htype⟩, he⟩
    exact ⟨p, hopen, ipOnly, hip, e.m_descr, huser, htype, he.symm⟩

/-- There is an emitter exactly when the capture opens: nothing else can fail. -/
theorem exists_new_iff :
    (∃ e, new P workers device noPromisc filter_exp cnt readTimeout = .ok e) ↔
      ∃ m_descr, Opens P device noPromisc filter_exp readTimeout m_descr := by
  constructor
  · rintro ⟨e, he⟩
    exact ⟨e.m_descr, (new_eq_ok.mp he).1⟩
  · rintro ⟨m_descr, hopens⟩
    exact ⟨⟨m_descr, cnt, _, _⟩, new_eq_ok.mpr ⟨hopens, rfl⟩⟩

/-- The constructor makes no assertion. -/
theorem new_ne_assertion :
    new P workers device noPromisc filter_exp cnt readTimeout ≠ .error .assertion := by
  simp [new, installFilter_ne_assertion, installUserFilter_ne_assertion]

end New

end Emitter

end FHF
