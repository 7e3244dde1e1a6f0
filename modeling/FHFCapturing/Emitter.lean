import FHFCapturing.DataStructures
import FHFCapturing.Lib.ByteOrder

/-!
# From captured frames to updates

`Emitter::handler` of `ParallelStages.cpp`, as compiled for Linux on a little-endian machine: the
addresses, the ports, the protocol and the total length are read from the Ethernet frame at the
offsets of `struct iphdr`, `struct tcphdr` and `struct udphdr`, and turned from network to host
byte order. A read outside the captured bytes has no value, so the handler has none.

The handler inverts the encoding of a frame, whatever the length of the options
(`handler_encode`). It takes the presence of the headers for granted: it never looks at the
captured length, and reads outside the captured bytes exactly when these end before the addresses
of the IP header or, for TCP and UDP, before the ports that the header length points to
(`handler_isSome_iff`).
-/

namespace FHF

open ByteOrder

/-- Two bytes of the captured ones as the host reads them; none if they are not all there. -/
def read16 (bytes : List UInt8) (off : Nat) : Option UInt16 :=
  (readLE bytes off 2).map UInt16.ofNat

def read32 (bytes : List UInt8) (off : Nat) : Option UInt32 :=
  (readLE bytes off 4).map UInt32.ofNat

/-- Network byte order is big-endian. -/
def ntohs (x : UInt16) : UInt16 := UInt16.ofNat (byteSwap 2 x.toNat)

def ntohl (x : UInt32) : UInt32 := UInt32.ofNat (byteSwap 4 x.toNat)

/-! ## The headers as structures -/

namespace Iphdr

/-- The low half of the first byte; the version is the high half. -/
def ihl (pdata : List UInt8) (ip_hdr : Nat) : Option UInt8 := (pdata[ip_hdr]?).map (· &&& 0x0f)

/-- The length of the whole packet, in network byte order. -/
def tot_len (pdata : List UInt8) (ip_hdr : Nat) : Option UInt16 := read16 pdata (ip_hdr + 2)

/-- The protocol of the payload. -/
def protocol (pdata : List UInt8) (ip_hdr : Nat) : Option UInt8 := pdata[ip_hdr + 9]?

/-- The source address, in network byte order. -/
def saddr (pdata : List UInt8) (ip_hdr : Nat) : Option UInt32 := read32 pdata (ip_hdr + 12)

/-- The destination address, in network byte order. -/
def daddr (pdata : List UInt8) (ip_hdr : Nat) : Option UInt32 := read32 pdata (ip_hdr + 16)

end Iphdr

namespace Tcphdr

/-- The source port of TCP, in network byte order. -/
def source (pdata : List UInt8) (tcp : Nat) : Option UInt16 := read16 pdata tcp

/-- The destination port of TCP, in network byte order. -/
def dest (pdata : List UInt8) (tcp : Nat) : Option UInt16 := read16 pdata (tcp + 2)

end Tcphdr

namespace Udphdr

/-- The source port of UDP. -/
def source (pdata : List UInt8) (udp : Nat) : Option UInt16 := read16 pdata udp

/-- The destination port of UDP. -/
def dest (pdata : List UInt8) (udp : Nat) : Option UInt16 := read16 pdata (udp + 2)

end Udphdr

/-- The protocol number of TCP. -/
def IPPROTO_TCP : UInt8 := 6

/-- The protocol number of UDP. -/
def IPPROTO_UDP : UInt8 := 17

/-- The setter of the flow ID, with its arguments in the order of the source. -/
def FlowUpdate.initFlowID (fup : FlowUpdate) (srcaddr dstaddr : UInt32) (srcport dstport : UInt16)
    (prot : UInt8) : FlowUpdate :=
  { fup with fid := { srcaddr, dstaddr, srcport, dstport, prot } }

/-- The default constructor. -/
def FlowUpdate.new : FlowUpdate := { fid := ⟨0, 0, 0, 0, 0⟩ }

namespace Emitter

/-- The constructor exits on any link type but Ethernet. -/
def datalinkOffset : UInt32 := 14

/-- What the task for a captured packet holds. -/
def handler (pdata : List UInt8) : Option FlowUpdate := do
  let ip_hdr := datalinkOffset.toNat
  let fd := { FlowUpdate.new with dOctets := (ntohs (← Iphdr.tot_len pdata ip_hdr)).toUInt32 }
  let ipHdrLen := ((← Iphdr.ihl pdata ip_hdr) &&& 0x0f).toUInt32 * 4
  let transportOffset := datalinkOffset + ipHdrLen
  let protocol ← Iphdr.protocol pdata ip_hdr
  let saddr := ntohl (← Iphdr.saddr pdata ip_hdr)
  let daddr := ntohl (← Iphdr.daddr pdata ip_hdr)
  if protocol = IPPROTO_TCP then
    let tcp := transportOffset.toNat
    let source := ntohs (← Tcphdr.source pdata tcp)
    let dest := ntohs (← Tcphdr.dest pdata tcp)
    return { fd.initFlowID saddr daddr source dest protocol with
      payloadOffset := transportOffset + 20 }
  else if protocol = IPPROTO_UDP then
    let udp := transportOffset.toNat
    let source := ntohs (← Udphdr.source pdata udp)
    let dest := ntohs (← Udphdr.dest pdata udp)
    return { fd.initFlowID saddr daddr source dest protocol with
      payloadOffset := transportOffset + 8 }
  else
    -- unrecognized transport protocol
    return { fd.initFlowID saddr daddr 0 0 protocol with payloadOffset := transportOffset }

end Emitter

/-! ## Fields in network byte order -/

/-- A two-byte field as it is sent. -/
def be16 (x : UInt16) : List UInt8 := toBE 2 x.toNat

/-- A four-byte field as it is sent. -/
def be32 (x : UInt32) : List UInt8 := toBE 4 x.toNat

/-- Reading a field as the host does and converting it gives what was sent. -/
theorem ntohs_ofNat_be16 (x : UInt16) : ntohs (UInt16.ofNat (ofLE (be16 x))) = x := by
  have hx : x.toNat < 256 ^ 2 := x.toNat_lt
  have hlt : ofLE (be16 x) < 256 ^ 2 := by
    have := ofLE_lt (be16 x)
    rwa [show (be16 x).length = 2 from length_toBE 2 _] at this
  unfold ntohs
  rw [UInt16.toNat_ofNat_of_lt' hlt, be16, byteSwap_ofLE_toBE hx, UInt16.ofNat_toNat]

theorem ntohl_ofNat_be32 (x : UInt32) : ntohl (UInt32.ofNat (ofLE (be32 x))) = x := by
  have hx : x.toNat < 256 ^ 4 := x.toNat_lt
  have hlt : ofLE (be32 x) < 256 ^ 4 := by
    have := ofLE_lt (be32 x)
    rwa [show (be32 x).length = 4 from length_toBE 4 _] at this
  unfold ntohl
  rw [UInt32.toNat_ofNat_of_lt' hlt, be32, byteSwap_ofLE_toBE hx, UInt32.ofNat_toNat]

/-- Reading a field written in network byte order. -/
theorem read16_be16 {bytes : List UInt8} {off : Nat} (pre post : List UInt8) (x : UInt16)
    (hbytes : bytes = pre ++ (be16 x ++ post)) (hoff : pre.length = off) :
    (read16 bytes off).map ntohs = some x := by
  have hleft : readLE (be16 x ++ post) 0 2 = some (ofLE (be16 x)) :=
    readLE_append_left (be16 x) post
  subst hbytes hoff
  unfold read16
  rw [show pre.length = pre.length + 0 from rfl, readLE_append_right, hleft, Option.map_some,
    Option.map_some, ntohs_ofNat_be16]

theorem read32_be32 {bytes : List UInt8} {off : Nat} (pre post : List UInt8) (x : UInt32)
    (hbytes : bytes = pre ++ (be32 x ++ post)) (hoff : pre.length = off) :
    (read32 bytes off).map ntohl = some x := by
  have hleft : readLE (be32 x ++ post) 0 4 = some (ofLE (be32 x)) :=
    readLE_append_left (be32 x) post
  subst hbytes hoff
  unfold read32
  rw [show pre.length = pre.length + 0 from rfl, readLE_append_right, hleft, Option.map_some,
    Option.map_some, ntohl_ofNat_be32]

/-- Reading one byte behind a known prefix. -/
theorem getElem?_of_append {bytes : List UInt8} {off : Nat} (pre post : List UInt8) (b : UInt8)
    (hbytes : bytes = pre ++ (b :: post)) (hoff : pre.length = off) : bytes[off]? = some b := by
  subst hbytes hoff
  rw [List.getElem?_append_right (Nat.le_refl _), Nat.sub_self]
  rfl

@[simp] theorem length_be16 (x : UInt16) : (be16 x).length = 2 := length_toBE 2 _

@[simp] theorem length_be32 (x : UInt32) : (be32 x).length = 4 := length_toBE 4 _

namespace Emitter

/-! ## What the handler reads -/

/-- The protocols with ports. -/
def HasPorts (protocol : UInt8) : Prop := protocol = IPPROTO_TCP ∨ protocol = IPPROTO_UDP

instance (protocol : UInt8) : Decidable (HasPorts protocol) := inferInstanceAs (Decidable (_ ∨ _))

/-- The length of the transport header that the payload offset counts. -/
def transportLen (protocol : UInt8) : UInt32 :=
  if protocol = IPPROTO_TCP then 20 else if protocol = IPPROTO_UDP then 8 else 0

/-- Where the transport header begins, an `int` of at most 74 in the source. -/
def transportOffset (ihl : UInt8) : UInt32 := datalinkOffset + (ihl &&& 0x0f).toUInt32 * 4

/-- The mask takes the header length out of the byte it shares with the version. -/
theorem toNat_and_15 (b : UInt8) : (b &&& 0x0f).toNat = b.toNat % 16 := by
  rw [UInt8.toNat_and]
  exact Nat.and_two_pow_sub_one_eq_mod b.toNat 4

/-- Where the handler looks for the ports, without a wrap: at most 14 + 60 bytes. -/
theorem toNat_transportOffset (b : UInt8) :
    (transportOffset (b &&& 0x0f)).toNat = 14 + 4 * (b.toNat % 16) := by
  unfold transportOffset datalinkOffset
  rw [UInt32.toNat_add, UInt32.toNat_mul, UInt8.toNat_toUInt32, toNat_and_15, toNat_and_15,
    show (14 : UInt32).toNat = 14 from rfl, show (4 : UInt32).toNat = 4 from rfl]
  omega

section Handler

variable {pdata : List UInt8} {len : UInt16} {ihl protocol : UInt8} {saddr daddr : UInt32}

/-- The fields of the IP header that every packet's update is made of. -/
structure Header (pdata : List UInt8) (len : UInt16) (ihl protocol : UInt8)
    (saddr daddr : UInt32) : Prop where
  tot_len : (Iphdr.tot_len pdata 14).map ntohs = some len
  ihl : Iphdr.ihl pdata 14 = some ihl
  protocol : Iphdr.protocol pdata 14 = some protocol
  saddr : (Iphdr.saddr pdata 14).map ntohl = some saddr
  daddr : (Iphdr.daddr pdata 14).map ntohl = some daddr

/-- TCP and UDP: the handler goes on to the ports, which both headers begin with. -/
theorem Header.handler_of_ports (h : Header pdata len ihl protocol saddr daddr)
    (hports : HasPorts protocol) :
    handler pdata =
      (read16 pdata (transportOffset ihl).toNat).bind fun source =>
        (read16 pdata ((transportOffset ihl).toNat + 2)).bind fun dest =>
          some
            { fid := ⟨saddr, daddr, ntohs source, ntohs dest, protocol⟩
              dOctets := len.toUInt32
              payloadOffset := transportOffset ihl + transportLen protocol } := by
  -- the header fields are stored big-endian; each read is converted
  obtain ⟨len', hlen, rfl⟩ := Option.map_eq_some_iff.mp h.tot_len
  obtain ⟨saddr', hsaddr, rfl⟩ := Option.map_eq_some_iff.mp h.saddr
  obtain ⟨daddr', hdaddr, rfl⟩ := Option.map_eq_some_iff.mp h.daddr
  simp only [handler, show datalinkOffset.toNat = 14 from rfl, hlen, h.ihl, h.protocol, hsaddr,
    hdaddr, Option.bind_eq_bind, Option.bind_some]
  rcases hports with rfl | rfl
  · -- for both protocols the ports are at the same place
    rw [if_pos rfl]
    rfl
  · rw [if_neg (show ¬ IPPROTO_UDP = IPPROTO_TCP by decide), if_pos rfl]
    rfl

/-- For any other protocol the ports are 0, and nothing behind the IP header is read. -/
theorem Header.handler_of_no_ports (h : Header pdata len ihl protocol saddr daddr)
    (hports : ¬ HasPorts protocol) :
    handler pdata = some
      { fid := ⟨saddr, daddr, 0, 0, protocol⟩
        dOctets := len.toUInt32
        payloadOffset := transportOffset ihl + transportLen protocol } := by
  obtain ⟨len', hlen, rfl⟩ := Option.map_eq_some_iff.mp h.tot_len
  obtain ⟨saddr', hsaddr, rfl⟩ := Option.map_eq_some_iff.mp h.saddr
  obtain ⟨daddr', hdaddr, rfl⟩ := Option.map_eq_some_iff.mp h.daddr
  -- neither TCP nor UDP, so no port is read and the transport header has length zero
  obtain ⟨htcp, hudp⟩ := not_or.mp hports
  simp only [handler, show datalinkOffset.toNat = 14 from rfl, hlen, h.ihl, h.protocol, hsaddr,
    hdaddr, Option.bind_eq_bind, Option.bind_some]
  rw [if_neg htcp, if_neg hudp, transportLen, if_neg htcp, if_neg hudp, UInt32.add_zero]
  rfl

end Handler

/-! ## Decoding inverts encoding -/

/-- An IPv4 packet in an Ethernet frame, not fragmented: `flags` are the three bits above the
fragment offset, which is zero. After the ports, or after the IP header if the protocol has none,
`rest` is what the frame holds. -/
structure Frame where
  dhost : Vector UInt8 6
  shost : Vector UInt8 6
  version : Fin 16
  ihl : Nat
  five_le_ihl : 5 ≤ ihl
  ihl_le : ihl ≤ 15
  tos : UInt8
  tot_len : UInt16
  id : UInt16
  flags : Fin 8
  ttl : UInt8
  protocol : UInt8
  check : UInt16
  saddr : UInt32
  daddr : UInt32
  options : Vector UInt8 (4 * (ihl - 5))
  source : UInt16
  dest : UInt16
  rest : List UInt8

namespace Frame

/-- The Ethernet header, with the type of IPv4. -/
def ethernet (f : Frame) : List UInt8 := f.dhost.toList ++ f.shost.toList ++ [0x08, 0x00]

/-- The first byte of the IP header. -/
def versionIhl (f : Frame) : UInt8 := UInt8.ofNat (f.version.val * 16 + f.ihl)

/-- What is behind the options: the ports, if the protocol has any, and the rest. -/
def transport (f : Frame) : List UInt8 :=
  if HasPorts f.protocol then be16 f.source ++ be16 f.dest ++ f.rest else f.rest

/-- Everything before the total length. -/
def beforeLength (f : Frame) : List UInt8 := f.ethernet ++ [f.versionIhl, f.tos]

/-- The IP header between the total length and the protocol. -/
def beforeProtocol (f : Frame) : List UInt8 :=
  be16 f.id ++ be16 (UInt16.ofNat (f.flags.val * 8192)) ++ [f.ttl]

/-- The bytes on the wire. -/
def encode (f : Frame) : List UInt8 :=
  f.beforeLength ++ be16 f.tot_len ++ f.beforeProtocol ++ [f.protocol] ++ be16 f.check ++
    be32 f.saddr ++ be32 f.daddr ++ f.options.toList ++ f.transport

variable (f : Frame)

@[simp] theorem length_beforeLength : f.beforeLength.length = 16 := by
  simp [beforeLength, ethernet]

@[simp] theorem length_beforeProtocol : f.beforeProtocol.length = 5 := by
  simp [beforeProtocol]

theorem ihl_encode : Iphdr.ihl f.encode 14 = some (f.versionIhl &&& 0x0f) := by
  have hbyte : f.encode[14]? = some f.versionIhl := by
    refine getElem?_of_append f.ethernet
      (f.tos :: (be16 f.tot_len ++ (f.beforeProtocol ++ (f.protocol :: (be16 f.check ++
        (be32 f.saddr ++ (be32 f.daddr ++ (f.options.toList ++ f.transport)))))))) _ ?_ ?_
    · simp [encode, beforeLength]
    · simp [ethernet]
  unfold Iphdr.ihl
  rw [hbyte]
  rfl

/-- The length is behind the first two bytes of the IP header. -/
theorem tot_len_encode : (Iphdr.tot_len f.encode 14).map ntohs = some f.tot_len := by
  refine read16_be16 f.beforeLength
    (f.beforeProtocol ++ (f.protocol :: (be16 f.check ++ (be32 f.saddr ++ (be32 f.daddr ++
      (f.options.toList ++ f.transport)))))) _ ?_ ?_
  · simp [encode]
  · simp

/-- The protocol is the tenth byte of the IP header. -/
theorem protocol_encode : Iphdr.protocol f.encode 14 = some f.protocol := by
  refine getElem?_of_append (f.beforeLength ++ be16 f.tot_len ++ f.beforeProtocol)
    (be16 f.check ++ (be32 f.saddr ++ (be32 f.daddr ++ (f.options.toList ++ f.transport)))) _ ?_ ?_
  · simp [encode]
  · simp

/-- The source address is behind the checksum. -/
theorem saddr_encode : (Iphdr.saddr f.encode 14).map ntohl = some f.saddr := by
  refine read32_be32
    (f.beforeLength ++ be16 f.tot_len ++ f.beforeProtocol ++ [f.protocol] ++ be16 f.check)
    (be32 f.daddr ++ (f.options.toList ++ f.transport)) _ ?_ ?_
  · simp [encode]
  · simp

theorem daddr_encode : (Iphdr.daddr f.encode 14).map ntohl = some f.daddr := by
  refine read32_be32
    (f.beforeLength ++ be16 f.tot_len ++ f.beforeProtocol ++ [f.protocol] ++ be16 f.check ++
      be32 f.saddr) (f.options.toList ++ f.transport) _ ?_ ?_
  · simp [encode]
  · simp

/-- The ports are behind the options, whatever their number. -/
theorem source_encode (h : HasPorts f.protocol) :
    (read16 f.encode (14 + 4 * f.ihl)).map ntohs = some f.source := by
  refine read16_be16
    (f.beforeLength ++ be16 f.tot_len ++ f.beforeProtocol ++ [f.protocol] ++ be16 f.check ++
      be32 f.saddr ++ be32 f.daddr ++ f.options.toList) (be16 f.dest ++ f.rest) _ ?_ ?_
  · simp [encode, transport, h]
  · have hihl := f.five_le_ihl
    simp
    omega

/-- The destination port is behind the source port. -/
theorem dest_encode (h : HasPorts f.protocol) :
    (read16 f.encode (14 + 4 * f.ihl + 2)).map ntohs = some f.dest := by
  refine read16_be16
    (f.beforeLength ++ be16 f.tot_len ++ f.beforeProtocol ++ [f.protocol] ++ be16 f.check ++
      be32 f.saddr ++ be32 f.daddr ++ f.options.toList ++ be16 f.source) f.rest _ ?_ ?_
  · simp [encode, transport, h]
  · have hihl := f.five_le_ihl
    simp
    omega

/-- The header length that the handler takes from the byte is the frame's. -/
theorem toNat_versionIhl_mod : f.versionIhl.toNat % 16 = f.ihl := by
  have hversion := f.version.isLt
  have hihl := f.ihl_le
  unfold versionIhl
  rw [UInt8.toNat_ofNat']
  omega

/-- So the handler looks for the ports where they are. -/
theorem toNat_transportOffset_encode :
    (transportOffset (f.versionIhl &&& 0x0f)).toNat = 14 + 4 * f.ihl := by
  rw [toNat_transportOffset, toNat_versionIhl_mod]

/-- All fields of the IP header that the handler reads. -/
theorem header_encode :
    Header f.encode f.tot_len (f.versionIhl &&& 0x0f) f.protocol f.saddr f.daddr where
  tot_len := f.tot_len_encode
  ihl := f.ihl_encode
  protocol := f.protocol_encode
  saddr := f.saddr_encode
  daddr := f.daddr_encode

/-- The update that stands for the frame. -/
def update : FlowUpdate where
  fid :=
    { srcaddr := f.saddr
      dstaddr := f.daddr
      srcport := if HasPorts f.protocol then f.source else 0
      dstport := if HasPorts f.protocol then f.dest else 0
      prot := f.protocol }
  dOctets := f.tot_len.toUInt32
  payloadOffset := UInt32.ofNat (14 + 4 * f.ihl) + transportLen f.protocol

/-- The handler on an encoded frame: with or without ports. -/
theorem handler_eq_update : handler f.encode = some f.update := by
  have hoffset : transportOffset (f.versionIhl &&& 0x0f) = UInt32.ofNat (14 + 4 * f.ihl) := by
    rw [← f.toNat_transportOffset_encode, UInt32.ofNat_toNat]
  unfold update
  by_cases hports : HasPorts f.protocol
  · -- the ports are where the header length says
    obtain ⟨source, hsource, hsource'⟩ := Option.map_eq_some_iff.mp (f.source_encode hports)
    obtain ⟨dest, hdest, hdest'⟩ := Option.map_eq_some_iff.mp (f.dest_encode hports)
    rw [f.header_encode.handler_of_ports hports, f.toNat_transportOffset_encode, hsource, hdest,
      Option.bind_some, Option.bind_some, hsource', hdest', hoffset, if_pos hports, if_pos hports]
  · rw [f.header_encode.handler_of_no_ports hports, hoffset, if_neg hports, if_neg hports]

end Frame

/-- **Decoding inverts encoding.** From the bytes of any frame the handler makes an update with the
frame's addresses and protocol, its ports if the protocol is TCP or UDP and ports 0 otherwise, and
its total length. -/
theorem handler_encode (f : Frame) :
    ∃ fup, handler f.encode = some fup ∧
      fup.fid.srcaddr = f.saddr ∧ fup.fid.dstaddr = f.daddr ∧ fup.fid.prot = f.protocol ∧
      (HasPorts f.protocol → fup.fid.srcport = f.source ∧ fup.fid.dstport = f.dest) ∧
      (¬ HasPorts f.protocol → fup.fid.srcport = 0 ∧ fup.fid.dstport = 0) ∧
      fup.dOctets.toNat = f.tot_len.toNat := by
  refine ⟨f.update, f.handler_eq_update, rfl, rfl, rfl, fun hports => ?_, fun hports => ?_, ?_⟩
  · exact ⟨if_pos hports, if_pos hports⟩
  · exact ⟨if_neg hports, if_neg hports⟩
  · exact UInt16.toNat_toUInt32 f.tot_len

/-! ## The captured length -/

section Captured

variable {pdata : List UInt8}

theorem read16_isSome (pdata : List UInt8) (off : Nat) :
    (read16 pdata off).isSome ↔ off + 2 ≤ pdata.length := by
  unfold read16
  rw [Option.isSome_map, readLE_isSome Nat.two_pos]

theorem read32_isSome (pdata : List UInt8) (off : Nat) :
    (read32 pdata off).isSome ↔ off + 4 ≤ pdata.length := by
  unfold read32
  rw [Option.isSome_map, readLE_isSome (Nat.succ_pos 3)]

/-- Two reads of which neither depends on the other. -/
theorem isSome_bind_bind {α β γ : Type} (x : Option α) (y : Option β) (f : α → β → γ) :
    (x.bind fun a => y.bind fun b => some (f a b)).isSome ↔ x.isSome ∧ y.isSome := by
  cases x <;> cases y <;> simp

/-- From 34 bytes on, all fields of the IP header can be read. -/
theorem exists_header (h : 34 ≤ pdata.length) :
    ∃ b protocol len saddr daddr, pdata[14]? = some b ∧ pdata[23]? = some protocol ∧
      Header pdata len (b &&& 0x0f) protocol saddr daddr := by
  -- the last byte of the header that is read is the thirty-third
  obtain ⟨len, hlen⟩ := Option.isSome_iff_exists.mp
    ((read16_isSome pdata 16).mpr (by omega))
  obtain ⟨saddr, hsaddr⟩ := Option.isSome_iff_exists.mp
    ((read32_isSome pdata 26).mpr (by omega))
  obtain ⟨daddr, hdaddr⟩ := Option.isSome_iff_exists.mp
    ((read32_isSome pdata 30).mpr (by omega))
  have hb : pdata[14]? = some pdata[14] := List.getElem?_eq_getElem (by omega)
  have hprotocol : pdata[23]? = some pdata[23] := List.getElem?_eq_getElem (by omega)
  refine ⟨pdata[14], pdata[23], ntohs len, ntohl saddr, ntohl daddr, hb, hprotocol, ?_⟩
  refine { tot_len := ?_, ihl := ?_, protocol := hprotocol, saddr := ?_, daddr := ?_ }
  · -- the total length is the third field, after version and type of service
    show (read16 pdata 16).map ntohs = _
    rw [hlen, Option.map_some]
  · unfold Iphdr.ihl
    rw [hb, Option.map_some]
  · show (read32 pdata 26).map ntohl = _
    rw [hsaddr, Option.map_some]
  · show (read32 pdata 30).map ntohl = _
    rw [hdaddr, Option.map_some]

/-- The destination address is the last field of the IP header that is read. -/
theorem handler_of_short (h : pdata.length < 34) : handler pdata = none := by
  have hdaddr : Iphdr.daddr pdata 14 = none := by
    rw [← Option.not_isSome_iff_eq_none]
    show ¬ (read32 pdata 30).isSome
    rw [read32_isSome]
    omega
  simp [handler, show datalinkOffset.toNat = 14 from rfl, hdaddr]

end Captured

/-- **What the handler reads is captured.** For any captured bytes: no read of the handler is
outside of them iff they reach to the end of the addresses in the IP header and, when the protocol
is TCP or UDP, to the end of the ports after as many words as the header length says. -/
theorem handler_isSome_iff (pdata : List UInt8) :
    (handler pdata).isSome ↔
      34 ≤ pdata.length ∧ ∀ b protocol, pdata[14]? = some b → pdata[23]? = some protocol →
        HasPorts protocol → 14 + 4 * (b.toNat % 16) + 4 ≤ pdata.length := by
  rcases Nat.lt_or_ge pdata.length 34 with hshort | hlong
  · rw [handler_of_short hshort]
    exact iff_of_false Bool.false_ne_true fun h => absurd h.1 (Nat.not_le.mpr hshort)
  -- the bytes 14 and 23 are there, and are the ones that the header is read from
  obtain ⟨b, protocol, len, saddr, daddr, hb, hprotocol, hheader⟩ := exists_header hlong
  have hunique : (∀ b' protocol', pdata[14]? = some b' → pdata[23]? = some protocol' →
      HasPorts protocol' → 14 + 4 * (b'.toNat % 16) + 4 ≤ pdata.length) ↔
      (HasPorts protocol → 14 + 4 * (b.toNat % 16) + 4 ≤ pdata.length) := by
    constructor
    · exact fun hall => hall b protocol hb hprotocol
    · intro hthis b' protocol' hb' hprotocol'
      obtain rfl := Option.some.inj (hb.symm.trans hb')
      obtain rfl := Option.some.inj (hprotocol.symm.trans hprotocol')
      exact hthis
  rw [hunique, and_iff_right hlong]
  by_cases hports : HasPorts protocol
  · -- the destination port is read after the source port, and decides
    rw [hheader.handler_of_ports hports, toNat_transportOffset, forall_prop_of_true hports,
      isSome_bind_bind, read16_isSome, read16_isSome]
    omega
  · rw [hheader.handler_of_no_ports hports]
    exact iff_of_true rfl fun h => absurd h hports

/-- A frame of 60 bytes, the least on Ethernet, with the EtherType of IPv4, the largest header
length and the protocol TCP. -/
def longHeader : List UInt8 :=
  List.replicate 12 0 ++ [0x08, 0x00, 0x4f] ++ List.replicate 8 0 ++ [6] ++ List.replicate 36 0

/-- The ports are looked for at the offset 74. -/
theorem handler_reads_outside :
    ¬ ∀ pdata : List UInt8, 14 ≤ pdata.length → pdata[12]? = some 0x08 → pdata[13]? = some 0x00 →
      (handler pdata).isSome := by
  intro hall
  have hsome := hall longHeader (by decide) rfl rfl
  rw [show handler longHeader = none by decide] at hsome
  cases hsome

end Emitter

end FHF
