import FHFCapturing.Lib.IterMap
import FHFCapturing.Lib.Tally

/-!
# Flows, packets and descriptors

The records of `DataStructures.h`: the 5-tuple that identifies a flow, the update a captured
packet becomes (`FlowUpdate`), the per-flow table entry (`FlowDescriptor`) and the interval
header handed to the exporter (`IntervalDescriptor`), with the field widths of the source.

`ihash` only decides where `boost::unordered_map` puts an entry, so it has no counterpart here
(see `IterMap.Placement`); `iequal_to` is the key equality of that map and compares all five
fields.
-/

namespace FHF

/-- The five fields that tell flows apart. -/
structure FlowID where
  srcaddr : UInt32
  dstaddr : UInt32
  srcport : UInt16
  dstport : UInt16
  prot : UInt8
  deriving DecidableEq, Repr

/-- The equality of the table's keys: field by field, as `operator==` would be. -/
def iequal_to (l r : FlowID) : Bool :=
  l.dstaddr == r.dstaddr && l.dstport == r.dstport && l.prot == r.prot &&
    l.srcaddr == r.srcaddr && l.srcport == r.srcport

/-- `iequal_to` is equality of flow IDs, so the table is a map in the ordinary sense. -/
theorem iequal_to_iff (l r : FlowID) : iequal_to l r = true ↔ l = r := by
  cases l
  cases r
  simp only [iequal_to, Bool.and_eq_true, beq_iff_eq, FlowID.mk.injEq]
  tauto

/-- What the emitter extracts from a captured packet. -/
structure FlowUpdate where
  fid : FlowID
  dOctets : UInt32 := 0
  payloadOffset : UInt32 := 0
  deriving DecidableEq, Repr

/-- A flow's entry in a worker's table. -/
structure FlowDescriptor where
  fid : FlowID
  dPkts : UInt32 := 0
  dOctets : UInt32 := 0
  cycles : UInt32 := 0
  deriving DecidableEq, Repr

namespace FlowDescriptor

/-- The octets of a packet are added modulo `2 ^ 32`. -/
def incrementd_0ctects (fd : FlowDescriptor) (add : UInt32) : FlowDescriptor :=
  { fd with dOctets := fd.dOctets + add }

/-- One packet more. -/
def increment_dPkts (fd : FlowDescriptor) : FlowDescriptor :=
  { fd with dPkts := fd.dPkts + 1 }

@[simp] theorem incrementd_0ctects_fid (fd : FlowDescriptor) (add : UInt32) :
    (fd.incrementd_0ctects add).fid = fd.fid := rfl

@[simp] theorem increment_dPkts_fid (fd : FlowDescriptor) : fd.increment_dPkts.fid = fd.fid := rfl

end FlowDescriptor

/-- The header of a report. -/
structure IntervalDescriptor where
  intervalNum : UInt32
  startT : Int
  stopT : Int
  threshold : Nat
  r_threshold : Nat
  deriving DecidableEq, Repr

/-- The constructor takes `r_threshold` as an `unsigned int`. -/
def IntervalDescriptor.new (num : UInt32) (start stop : Int) (threshold r_threshold : Nat) :
    IntervalDescriptor :=
  { intervalNum := num, startT := start, stopT := stop, threshold,
    r_threshold := r_threshold % 2 ^ 32 }

/-! ## Bytes of a packet sequence -/

/-- The octets of one flow in a list of packets, as a natural number: no sum wraps. -/
def bytesOf (f : FlowID) (fups : List FlowUpdate) : Nat :=
  Tally.tally FlowUpdate.fid (fun fup => fup.dOctets.toNat) f fups

/-- The octets of all packets. -/
def totalBytes (fups : List FlowUpdate) : Nat :=
  Tally.total (fun fup : FlowUpdate => fup.dOctets.toNat) fups

theorem bytesOf_cons (f : FlowID) (fup : FlowUpdate) (fups : List FlowUpdate) :
    bytesOf f (fup :: fups) = (if fup.fid = f then fup.dOctets.toNat else 0) + bytesOf f fups :=
  Tally.tally_cons f fup fups

theorem totalBytes_cons (fup : FlowUpdate) (fups : List FlowUpdate) :
    totalBytes (fup :: fups) = fup.dOctets.toNat + totalBytes fups :=
  Tally.total_cons fup fups

@[simp] theorem bytesOf_nil (f : FlowID) : bytesOf f [] = 0 := rfl

@[simp] theorem bytesOf_append (f : FlowID) (xs ys : List FlowUpdate) :
    bytesOf f (xs ++ ys) = bytesOf f xs + bytesOf f ys :=
  Tally.tally_append f xs ys

@[simp] theorem bytesOf_singleton (f : FlowID) (fup : FlowUpdate) :
    bytesOf f [fup] = if fup.fid = f then fup.dOctets.toNat else 0 :=
  Tally.tally_singleton f fup

end FHF
