import FHFCapturing.Emitter

/-!
# The two builds of the handler

Without `__USE_LINUX` the handler reads the same bytes through `struct ip` and the BSD names of the
ports. It leaves the addresses and the ports in network byte order, and takes the length of the
packet from the capture instead of the IP header. So a captured packet has an update in one build
iff it has one in the other, with the same payload offset and, under other names, the same flow: two
packets belong to one flow in both builds or in neither (`handlers_separate_same_flows`).
-/

namespace FHF

open ByteOrder

/-- Converting the byte order twice is the identity. -/
theorem ntohs_ntohs (x : UInt16) : ntohs (ntohs x) = x := ntohs_ofNat_be16 x

theorem ntohl_ntohl (x : UInt32) : ntohl (ntohl x) = x := ntohl_ofNat_be32 x

/-- The same flow with the bytes of its addresses and ports in the other order. -/
def FlowID.swapBytes (f : FlowID) : FlowID where
  srcaddr := ntohl f.srcaddr
  dstaddr := ntohl f.dstaddr
  srcport := ntohs f.srcport
  dstport := ntohs f.dstport
  prot := f.prot

/-- Swapping the bytes of all fields twice is the identity. -/
theorem FlowID.swapBytes_swapBytes (f : FlowID) : f.swapBytes.swapBytes = f := by
  unfold swapBytes
  simp only [ntohl_ntohl, ntohs_ntohs]

/-- Flows that differ still differ with their bytes swapped. -/
theorem FlowID.swapBytes_injective : Function.Injective FlowID.swapBytes :=
  Function.LeftInverse.injective FlowID.swapBytes_swapBytes

namespace Emitter

/-- The handler of the other build; `len` is the length in the header of the capture. -/
def handlerBSD (len : UInt32) (pdata : List UInt8) : Option FlowUpdate := do
  let ip_hdr := datalinkOffset.toNat
  let fd := { FlowUpdate.new with
    dOctets := (← Iphdr.tot_len pdata ip_hdr).toUInt32 - datalinkOffset }
  let ipHdrLen := ((← Iphdr.ihl pdata ip_hdr) &&& 0x0f).toUInt32 * 4
  let transportOffset := datalinkOffset + ipHdrLen
  let ip_p ← Iphdr.protocol pdata ip_hdr
  let ip_src ← Iphdr.saddr pdata ip_hdr
  let ip_dst ← Iphdr.daddr pdata ip_hdr
  let fd ←
    if ip_p = IPPROTO_TCP then
      let tcp := transportOffset.toNat
      let th_sport ← Tcphdr.source pdata tcp
      let th_dport ← Tcphdr.dest pdata tcp
      pure { fd.initFlowID ip_src ip_dst th_sport th_dport ip_p with
        payloadOffset := transportOffset + 20 }
    else if ip_p = IPPROTO_UDP then
      let udp := transportOffset.toNat
      let uh_sport ← Udphdr.source pdata udp
      let uh_dport ← Udphdr.dest pdata udp
      pure { fd.initFlowID ip_src ip_dst uh_sport uh_dport ip_p with
        payloadOffset := transportOffset + 8 }
    else
      -- unrecognized transport protocol
      pure { fd.initFlowID ip_src ip_dst 0 0 ip_p with payloadOffset := transportOffset }
  -- the length in the IP header is not used
  return { fd with dOctets := len - datalinkOffset }

/-- The update of one build from that of the other. -/
def toBSD (len : UInt32) (fup : FlowUpdate) : FlowUpdate :=
  { fup with fid := fup.fid.swapBytes, dOctets := len - datalinkOffset }

/-- The other branch of the handler is the Linux one, up to the octets and the byte order. -/
theorem handlerBSD_eq (len : UInt32) (pdata : List UInt8) :
    handlerBSD len pdata = (handler pdata).map (toBSD len) := by
  have hzero : ntohs 0 = 0 := by decide
  unfold handlerBSD handler
  simp only [Option.bind_eq_bind, Option.map_bind, Function.comp_def]
  -- read for read, with the same offsets
  refine Option.bind_congr fun len' _ => Option.bind_congr fun ihl _ =>
    Option.bind_congr fun protocol _ => Option.bind_congr fun saddr _ =>
    Option.bind_congr fun daddr _ => ?_
  by_cases htcp : protocol = IPPROTO_TCP
  · simp [htcp, toBSD, FlowUpdate.initFlowID, FlowID.swapBytes, ntohs_ntohs, ntohl_ntohl]
  · by_cases hudp : protocol = IPPROTO_UDP
    · have hne : ¬ IPPROTO_UDP = IPPROTO_TCP := by decide
      simp [hne, hudp, toBSD, FlowUpdate.initFlowID, FlowID.swapBytes, ntohs_ntohs, ntohl_ntohl]
    · simp [htcp, hudp, hzero, toBSD, FlowUpdate.initFlowID, FlowID.swapBytes, ntohl_ntohl]

/-- **Both builds separate the same flows.** For any captured bytes and lengths: one build has an
update iff the other has, with the same payload offset and protocol and with the length in the
capture's header, less the Ethernet header, instead of the total length; and two updates belong to
one flow in one build iff they do in the other. -/
theorem handlers_separate_same_flows (len len' : UInt32) (pdata pdata' : List UInt8) :
    ((handlerBSD len pdata).isSome ↔ (handler pdata).isSome) ∧
    (∀ u v, handler pdata = some u → handlerBSD len pdata = some v →
      v.payloadOffset = u.payloadOffset ∧ v.fid.prot = u.fid.prot ∧
        v.dOctets = len - datalinkOffset) ∧
    ∀ u v u' v', handler pdata = some u → handlerBSD len pdata = some v →
      handler pdata' = some u' → handlerBSD len' pdata' = some v' →
      (v.fid = v'.fid ↔ u.fid = u'.fid) := by
  -- the second build does what the first does, on a key with its bytes swapped and another length
  have hupdate : ∀ {len pdata u v}, handler pdata = some u → handlerBSD len pdata = some v →
      v = toBSD len u := by
    intro len pdata u v hu hv
    rw [handlerBSD_eq, hu] at hv
    exact (Option.some.inj hv).symm
  refine ⟨by rw [handlerBSD_eq, Option.isSome_map], fun u v hu hv => ?_,
    fun u v u' v' hu hv hu' hv' => ?_⟩
  · obtain rfl := hupdate hu hv
    exact ⟨rfl, rfl, rfl⟩
  · obtain rfl := hupdate hu hv
    obtain rfl := hupdate hu' hv'
    -- swapping the bytes twice is swapping none, so different flows keep different keys
    exact ⟨fun h => FlowID.swapBytes_injective h, fun h => congrArg FlowID.swapBytes h⟩

end Emitter

end FHF
