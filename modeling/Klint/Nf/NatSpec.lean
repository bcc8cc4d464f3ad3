/-
# The NAT meets its specification

`nf/nat/spec.py`, and that it holds of every packet of every run. The specification asks
nothing of the checksums, so the slips in them do not show. Its port arithmetic is the
code's: the subtraction of `start port` in 16 bits, and an addition in 64 bits that the
16-bit port is compared with the low bits of.
-/
import Klint.Lib.Monitor
import Klint.Nf.NatRewrite
import Klint.Tool.SpecTables

namespace Klint
namespace NatNf

open Tool

/-! ### The specification -/

/-- `transmitted_packet.device == 1 - packet.device` -/
def specOtherDevice (packet transmitted : SpecPacket) : Except String Unit := do
  let device ← packet.device
  specAssert ((← transmitted.device).eq (device.rsub (device.int 1))) ""

/-- A packet from the WAN, for the flow of its port. -/
def specInbound (flows : SpecExpiringSet) (packet : SpecPacket) (ipv4 tcpudp : SpecPacketHeader)
    (transmittedPacket : Option SpecPacket) : Option SpecItem → Except String Unit
  | none => specAssert transmittedPacket.isNone ""
  | some flow => do
    if (← flow.field "dst_ip").ne (← ipv4.getAttr "src") || (← flow.field "dst_port").ne (← tcpudp.getAttr "src") ||
        (← flow.field "protocol").ne (← ipv4.getAttr "protocol") then
      specAssert transmittedPacket.isNone ""
    else
      specAssert (← flows.didRefresh flow) ""
      let transmitted ← notNone transmittedPacket
      specAssert ((← (← notNone (← transmitted.ipv4)).getAttr "dst").eq (← flow.field "src_ip")) ""
      specAssert ((← (← notNone (← transmitted.tcpudp)).getAttr "dst").eq (← flow.field "src_port")) ""
      specOtherDevice packet transmitted

/-- A packet from inside. -/
def specOutbound (flows : SpecExpiringSet) (packet : SpecPacket) (config : SpecConfig)
    (transmittedPacket : Option SpecPacket) (flow : SpecItem) : Except String Unit := do
  if !(← flows.contains flow) then
    specAssert (← flows.old.full) ""
    specAssert transmittedPacket.isNone ""
  else
    let transmitted ← notNone transmittedPacket
    specAssert ((← (← notNone (← transmitted.ipv4)).getAttr "src").eq (← config.get "external addr")) ""
    let port := (← config.get "start port").add (← notNone (← flows.getIndex flow))
    specAssert ((← (← notNone (← transmitted.tcpudp)).getAttr "src").eq port) ""
    specOtherDevice packet transmitted

/-- `spec`, with the maps chosen for `flows`. -/
def spec (maps : ChosenSet) (packet : SpecPacket) (config : SpecConfig) (transmittedPacket : Option SpecPacket) :
    Except String Unit := do
  match ← packet.ipv4, ← packet.tcpudp with
  | some ipv4, some tcpudp =>
    let flows := SpecExpiringSet.new (some flowType) (← config.get "expiration time") (← config.get "max flows")
      (← packet.receivedTime) maps
    if (← packet.device).eq (← config.get "wan device") then
      let flowIndex := (← tcpudp.getAttr "dst").sub (← config.get "start port")
      specInbound flows packet ipv4 tcpudp transmittedPacket (← flows.old.getByIndex flowIndex)
    else
      let flow := flowItem (← ipv4.getAttr "src") (← ipv4.getAttr "dst") (← tcpudp.getAttr "src")
        (← tcpudp.getAttr "dst") (← ipv4.getAttr "protocol")
      specOutbound flows packet config transmittedPacket flow
  | _, _ => specAssert transmittedPacket.isNone ""

variable (hash : Flow → UInt32)

/-- The specification of the NAT's answer to a packet, on its own table before and after. -/
def checkSpec (items : ConfigItems) (s : State) (packet : NetPacket) : Except String Unit :=
  specWrapper (spec (tableMaps flowLayout s.table.toKeyedPool (nfHandle hash s packet).1.table.toKeyedPool)) ⟨items, 2⟩
    packet ((nfHandle hash s packet).2.toList.map Transmission.ofCall)

/-! ### One packet -/

variable {hash} {E n now : ℕ} {s : State} {p : NetPacket} {items : ConfigItems}

/-- What `nf_init` read. -/
structure Configured (items : ConfigItems) (E n : ℕ) (s : State) : Prop where
  expiration : (SpecConfig.mk items 2).get "expiration time" = .ok (SpecNum.nat64 E)
  capacity : (SpecConfig.mk items 2).get "max flows" = .ok (SpecNum.nat64 n)
  wan : ∃ d, (SpecConfig.mk items 2).get "wan device" = .ok (SpecNum.nat64 d) ∧ s.wanDevice = UInt16.ofNat d
  addr : ∃ d, (SpecConfig.mk items 2).get "external addr" = .ok (SpecNum.nat64 d) ∧ s.externalAddr = UInt32.ofNat d
  port : ∃ d, (SpecConfig.mk items 2).get "start port" = .ok (SpecNum.nat64 d) ∧ s.table.startPort = UInt16.ofNat d

/-- The specification of a TCP or UDP packet, with what it reads. -/
theorem spec_flow (hc : Configured items E n s) (hh : flowHeaders p = some (14, 34)) (before after : KeyedPool Flow)
    (transmitted : Option SpecPacket) :
    spec (tableMaps flowLayout before after) (receivedPacket p) ⟨items, 2⟩ transmitted =
      let flows := tableSet flowLayout E n p.time before after
      if p.device = s.wanDevice then
        (flows.old.getByIndex (SpecNum.nat64 (dstPort p.data 34 - s.table.startPort).toNat)).bind
          (specInbound flows (receivedPacket p) (receivedPacket p).ipv4Header (receivedPacket p).tcpudpHeader
            transmitted)
      else specOutbound flows (receivedPacket p) ⟨items, 2⟩ transmitted (flowLayout.item (flowOf p.data 14 34)) := by
  obtain ⟨-, -, hipv4, htcpudp⟩ := received_flow hh
  obtain ⟨d, hd, hwan⟩ := hc.wan
  obtain ⟨sp, hsp, hport⟩ := hc.port
  have hdev : (SpecNum.u16 p.device).eq (SpecNum.nat64 d) = decide (p.device = s.wanDevice) := by
    rw [eq_u16_nat64, hwan]
  have hindex : (SpecNum.u16 (dstPort p.data 34)).sub (SpecNum.nat64 sp) =
      SpecNum.nat64 (dstPort p.data 34 - s.table.startPort).toNat := by
    rw [sub_u16_nat64, hport]
  simp only [spec, hipv4, htcpudp, hc.expiration, hc.capacity, hd, hsp, received_time, received_device, bind,
    Except.bind, hdev, hindex, received_src, received_dst, received_protocol, received_srcPort, received_dstPort,
    decide_eq_true_iff]
  rfl

theorem specOtherDevice_transmit (config : SpecConfig) (p : NetPacket) (data : ℕ → UInt8) :
    specOtherDevice (receivedPacket p) (transmittedPacket config (.ofCall (transmit p data))) = .ok () := by
  have hdevice : (SpecNum.u16 (1 - p.device)).eq ((SpecNum.u16 p.device).rsub ((SpecNum.u16 p.device).int 1)) = true :=
    (eq_u16 (1 - p.device) (1 - p.device)).trans (decide_eq_true rfl)
  exact if_pos hdevice

section

variable {flows : SpecExpiringSet} {f : Flow}

theorem field_srcIp : (flowLayout.item f).field "src_ip" = .ok (.u32 f.srcIp) := rfl
theorem field_dstIp : (flowLayout.item f).field "dst_ip" = .ok (.u32 f.dstIp) := rfl
theorem field_srcPort : (flowLayout.item f).field "src_port" = .ok (.u16 f.srcPort) := rfl
theorem field_dstPort : (flowLayout.item f).field "dst_port" = .ok (.u16 f.dstPort) := rfl
theorem field_protocol : (flowLayout.item f).field "protocol" = .ok (.u8 f.protocol) := rfl

/-- The packet is not from the flow's destination. -/
def NotFrom (f : Flow) (p : NetPacket) : Prop :=
  f.dstIp ≠ srcAddr p.data 14 ∨ f.dstPort ≠ srcPort p.data 34 ∨ f.protocol ≠ nextProtoId p.data 14

instance (f : Flow) (p : NetPacket) : Decidable (NotFrom f p) := inferInstanceAs (Decidable (_ ∨ _))

/-- The specification's test for it. -/
theorem specInbound_test (f : Flow) (p : NetPacket) :
    ((SpecNum.u32 f.dstIp).ne (SpecNum.u32 (srcAddr p.data 14)) ||
      (SpecNum.u16 f.dstPort).ne (SpecNum.u16 (srcPort p.data 34)) ||
      (SpecNum.u8 f.protocol).ne (SpecNum.u8 (nextProtoId p.data 14))) = decide (NotFrom f p) := by
  have h32 : (SpecNum.u32 f.dstIp).ne (SpecNum.u32 (srcAddr p.data 14)) = !decide (f.dstIp = srcAddr p.data 14) :=
    congrArg not (eq_u32 _ _)
  have h16 : (SpecNum.u16 f.dstPort).ne (SpecNum.u16 (srcPort p.data 34)) = !decide (f.dstPort = srcPort p.data 34) :=
    congrArg not (eq_u16 _ _)
  have h8 : (SpecNum.u8 f.protocol).ne (SpecNum.u8 (nextProtoId p.data 14)) =
      !decide (f.protocol = nextProtoId p.data 14) :=
    congrArg not (eq_u8 _ _)
  rw [h32, h16, h8, ← decide_not, ← decide_not, ← decide_not, ← Bool.decide_or, ← Bool.decide_or, decide_eq_decide,
    or_assoc]
  rfl

/-- A spoofing attempt is not answered. -/
theorem specInbound_spoofed (h : NotFrom f p) :
    specInbound flows (receivedPacket p) (receivedPacket p).ipv4Header (receivedPacket p).tcpudpHeader none
      (some (flowLayout.item f)) = .ok () := by
  simp only [specInbound, field_dstIp, field_dstPort, field_protocol, received_src, received_srcPort,
    received_protocol, bind, Except.bind, specInbound_test, decide_eq_true h, ↓reduceIte]
  rfl

/-- An answer goes to its flow's source. -/
theorem specInbound_answer (config : SpecConfig) (hh : flowHeaders p = some (14, 34)) (h : ¬ NotFrom f p)
    (hrefresh : flows.didRefresh (flowLayout.item f) = .ok true) :
    specInbound flows (receivedPacket p) (receivedPacket p).ipv4Header (receivedPacket p).tcpudpHeader
      (some (transmittedPacket config (.ofCall (transmit p (rewriteInbound p.data 14 34 f)))))
      (some (flowLayout.item f)) = .ok () := by
  obtain ⟨hframe, -, -⟩ := rewriteInbound_spec (protocol_of_flow hh) f
  have hptr := l4ChecksumPtr_cases p.data 14
  have hkept : ∀ q, q < 26 → rewriteInbound p.data 14 34 f q = p.data q := fun q hq =>
    hframe q (by omega) (by omega) (by omega) (by omega) (by omega) (by omega)
  have hdevice := specOtherDevice_transmit config p (rewriteInbound p.data 14 34 f)
  have hdata : (Transmission.ofCall (transmit p (rewriteInbound p.data 14 34 f))).data =
    rewriteInbound p.data 14 34 f := rfl
  generalize Transmission.ofCall (transmit p (rewriteInbound p.data 14 34 f)) = t at hdevice hdata ⊢
  obtain ⟨hipv4, htcpudp⟩ := @transmitted_flow p config t hh
    (by rw [hdata]; exact load16_congr (hkept 12 (by omega)) (hkept 13 (by omega)))
    (by rw [hdata]; exact hkept 23 (by omega))
  have hdst : (SpecNum.u32 (dstAddr t.data 14)).eq (SpecNum.u32 f.srcIp) = true := by
    rw [eq_u32, hdata]
    exact decide_eq_true (dstAddr_rewriteInbound p.data 14 f)
  have hport : (SpecNum.u16 (dstPort t.data 34)).eq (SpecNum.u16 f.srcPort) = true := by
    rw [eq_u16, hdata]
    exact decide_eq_true (dstPort_rewriteInbound p.data 14 34 f)
  simp only [specInbound, field_dstIp, field_dstPort, field_protocol, received_src, received_srcPort,
    received_protocol, bind, Except.bind, specInbound_test, decide_eq_false h, Bool.false_eq_true, ↓reduceIte, hrefresh,
    specAssert, notNone, hipv4, htcpudp, transmitted_dst, transmitted_dstPort, field_srcIp, field_srcPort, hdst, hport]
  exact hdevice

/-- A packet of a flow in the set leaves with the flow's port. -/
theorem specOutbound_known (hc : Configured items E n s) (hh : flowHeaders p = some (14, 34)) {i : ℕ}
    (hin : flows.contains (flowLayout.item f) = .ok true)
    (hindex : flows.getIndex (flowLayout.item f) = .ok (some (SpecNum.nat64 i))) :
    specOutbound flows (receivedPacket p) ⟨items, 2⟩
      (some (transmittedPacket ⟨items, 2⟩
        (.ofCall (transmit p (rewriteOutbound p.data 14 34 s.externalAddr (s.table.port i))))))
      (flowLayout.item f) = .ok () := by
  obtain ⟨d, hd, haddr⟩ := hc.addr
  obtain ⟨sp, hsp, hport⟩ := hc.port
  obtain ⟨hframe, -, hsrc⟩ := rewriteOutbound_spec (protocol_of_flow hh) s.externalAddr (s.table.port i)
  have hptr := l4ChecksumPtr_cases p.data 14
  have hdevice := specOtherDevice_transmit ⟨items, 2⟩ p
    (rewriteOutbound p.data 14 34 s.externalAddr (s.table.port i))
  have hdata : (Transmission.ofCall
    (transmit p (rewriteOutbound p.data 14 34 s.externalAddr (s.table.port i)))).data =
      rewriteOutbound p.data 14 34 s.externalAddr (s.table.port i) := rfl
  generalize Transmission.ofCall (transmit p (rewriteOutbound p.data 14 34 s.externalAddr (s.table.port i))) = t
    at hdevice hdata ⊢
  rw [← hdata] at hframe hsrc
  have hkept : ∀ q, q < 26 → t.data q = p.data q := fun q hq => hframe q (by omega) (by omega) (by omega) (by omega)
  obtain ⟨hipv4, htcpudp⟩ := @transmitted_flow p ⟨items, 2⟩ t hh
    (load16_congr (hkept 12 (by omega)) (hkept 13 (by omega))) (hkept 23 (by omega))
  have hsrc' : (SpecNum.u32 (srcAddr t.data 14)).eq (SpecNum.nat64 d) = true := by
    rw [eq_u32_nat64, ← haddr]
    exact decide_eq_true hsrc
  have hport' : (SpecNum.u16 (srcPort t.data 34)).eq ((SpecNum.nat64 sp).add (SpecNum.nat64 i)) = true := by
    rw [add_nat64, eq_u16_nat64, hdata, srcPort_rewriteOutbound, UInt16.ofNat_add, ← hport]
    exact decide_eq_true rfl
  simp only [specOutbound, hin, bind, Except.bind, Bool.not_true, Bool.false_eq_true, ↓reduceIte, notNone, hipv4,
    htcpudp, transmitted_src, transmitted_srcPort, hd, hsp, hindex, specAssert, hsrc', hport']
  exact hdevice

end

/-- A packet from the WAN. -/
theorem inbound_spec (hs : Seen hash E n p.time s.table.toKeyedPool) (hc : Configured items E n s)
    (hp : Params64 E n p.time) (ht : p.time ≠ timeMax) (hh : flowHeaders p = some (14, 34))
    (hd : p.device = s.wanDevice) :
    checkSpec hash items s p = .ok () ∧ Seen hash E n p.time (nfHandle hash s p).1.table.toKeyedPool := by
  have hlt : (dstPort p.data 34 - s.table.startPort).toNat < 2 ^ 64 :=
    (UInt16.toNat_lt _).trans (by decide)
  have hget := getByIndex_table s.table.toKeyedPool (L := flowLayout) hs hp hlt
  unfold checkSpec nfHandle flowTableGetExternal
  generalize hi : (dstPort p.data 34 - s.table.startPort).toNat = i at hget
  simp only [hh, if_pos hd, hi]
  by_cases hu : indexPoolUsed s.table.pool p.time i = true
  · rw [if_pos hu] at hget
    obtain ⟨ts, hts, -⟩ := (IndexPool.used_iff _ _ _).mp hu
    obtain ⟨hs', hf', hnow⟩ := hs.refresh ht (hs.inv.find_iff.mpr ⟨⟨ts, hts⟩, rfl⟩)
    have hrefresh := didRefresh_table s.table.toKeyedPool (L := flowLayout) hs'.inv hp hf' hnow
    simp only [if_pos hu]
    by_cases hspoof : NotFrom (s.table.key i) p
    · have hspoof' := hspoof
      unfold NotFrom at hspoof'
      simp only [if_pos hspoof']
      refine ⟨?_, hs'⟩
      simp only [Option.toList_none, List.map_nil, specWrapper, spec_flow hc hh, if_pos hd, hi, tableSet_old, hget,
        Except.bind]
      exact specInbound_spoofed hspoof
    · have hspoof' := hspoof
      unfold NotFrom at hspoof'
      simp only [if_neg hspoof']
      refine ⟨?_, hs'⟩
      simp only [Option.toList_some, List.map_cons, List.map_nil, specWrapper, spec_flow hc hh, if_pos hd, hi,
        tableSet_old, hget, Except.bind]
      exact specInbound_answer _ hh hspoof hrefresh
  · rw [if_neg hu] at hget
    simp only [if_neg hu]
    refine ⟨?_, hs⟩
    simp only [Option.toList_none, List.map_nil, specWrapper, spec_flow hc hh, if_pos hd, hi, tableSet_old, hget,
      Except.bind]
    rfl

/-- A packet from inside. -/
theorem outbound_spec (hs : Seen hash E n p.time s.table.toKeyedPool) (hc : Configured items E n s)
    (hp : Params64 E n p.time) (ht : p.time ≠ timeMax) (hh : flowHeaders p = some (14, 34))
    (hd : p.device ≠ s.wanDevice) :
    checkSpec hash items s p = .ok () ∧ Seen hash E n p.time (nfHandle hash s p).1.table.toKeyedPool := by
  unfold checkSpec nfHandle flowTableGetInternal
  simp only [hh, if_neg hd]
  -- a flow that is found again with the time of the packet
  have hknown : ∀ {t : KeyedPool Flow} {i : ℕ}, Seen hash E n p.time t → t.find hash (flowOf p.data 14 34) = some i →
      t.pool.items i = some p.time → specWrapper (spec (tableMaps flowLayout s.table.toKeyedPool t)) ⟨items, 2⟩ p
        ((some (transmit p (rewriteOutbound p.data 14 34 s.externalAddr (s.table.port i)))).toList.map
          Transmission.ofCall) = .ok () := by
    intro t i hs' hf' hnow
    have hcontains := contains_table s.table.toKeyedPool (L := flowLayout) hs' hp (flowOf p.data 14 34)
    have hindex := @getIndex_table _ _ _ _ E n p.time flowLayout s.table.toKeyedPool t hs'.inv (flowOf p.data 14 34)
    have hu : indexPoolUsed t.pool p.time i = true :=
      (IndexPool.used_iff _ _ _).mpr ⟨p.time, hnow, poolYoung_self _ _⟩
    simp only [hf', hu] at hcontains
    rw [hf'] at hindex
    simp only [Option.toList_some, List.map_cons, List.map_nil, specWrapper, spec_flow hc hh, if_neg hd]
    exact specOutbound_known hc hh hcontains hindex
  cases hf : s.table.find hash (flowOf p.data 14 34) with
  | some i =>
    obtain ⟨hs', hf', hnow⟩ := hs.refresh ht hf
    exact ⟨hknown hs' hf' hnow, hs'⟩
  | none =>
    rcases hs.insert ht hf with ⟨i, t', he, -, -, hs', hf', hnow⟩ | ⟨he, hall⟩
    · simp only [he]
      exact ⟨hknown hs' hf' hnow, hs'⟩
    · simp only [he]
      refine ⟨?_, hs⟩
      have hcontains := contains_table s.table.toKeyedPool (L := flowLayout) hs hp (flowOf p.data 14 34)
      have hfull := full_table s.table.toKeyedPool (L := flowLayout) hs hp
      rw [hf] at hcontains
      rw [decide_eq_true hall] at hfull
      simp only [Option.toList_none, List.map_nil, specWrapper, spec_flow hc hh, if_neg hd, specOutbound, tableSet_old,
        hcontains, hfull, bind, Except.bind]
      rfl

theorem handle_spec (hs : Seen hash E n now s.table.toKeyedPool) (hc : Configured items E n s)
    (hp : Params64 E n p.time) (hle : now ≤ p.time) (ht : p.time ≠ timeMax) :
    checkSpec hash items s p = .ok () ∧ Seen hash E n p.time (nfHandle hash s p).1.table.toKeyedPool := by
  have hl := hs.later hle
  cases hh : flowHeaders p with
  | none =>
    obtain ⟨header, hheader⟩ := received_ipv4 p
    unfold checkSpec nfHandle
    simp only [hh]
    refine ⟨?_, hl⟩
    simp only [Option.toList_none, List.map_nil, specWrapper, spec, hheader, received_tcpudp hh, bind, Except.bind]
    rfl
  | some hdr =>
    obtain ⟨ipv4, tcpudp⟩ := hdr
    obtain ⟨rfl, rfl⟩ := flowHeaders_some hh
    by_cases hd : p.device = s.wanDevice
    · exact inbound_spec hl hc hp ht hh hd
    · exact outbound_spec hl hc hp ht hh hd

/-- No packet changes the parameters. -/
theorem handle_params (s : State) (p : NetPacket) :
    (nfHandle hash s p).1.wanDevice = s.wanDevice ∧ (nfHandle hash s p).1.externalAddr = s.externalAddr ∧
      (nfHandle hash s p).1.table.startPort = s.table.startPort := by
  unfold nfHandle flowTableGetExternal flowTableGetInternal
  cases flowHeaders p with
  | none => exact ⟨rfl, rfl, rfl⟩
  | some hdr =>
    dsimp only
    by_cases hd : p.device = s.wanDevice
    · simp only [if_pos hd]
      by_cases hu : indexPoolUsed s.table.pool p.time (dstPort p.data hdr.2 - s.table.startPort).toNat = true
      · simp only [if_pos hu]
        split_ifs <;> exact ⟨rfl, rfl, rfl⟩
      · simp only [if_neg hu]
        exact ⟨trivial, trivial, trivial⟩
    · simp only [if_neg hd]
      cases s.table.find hash (flowOf p.data hdr.1 hdr.2) with
      | some i => exact ⟨rfl, rfl, rfl⟩
      | none => rcases s.table.insert hash p.time (flowOf p.data hdr.1 hdr.2) with ⟨_ | i, t⟩ <;> exact ⟨rfl, rfl, rfl⟩

theorem handle_configured (hc : Configured items E n s) : Configured items E n (nfHandle hash s p).1 := by
  obtain ⟨hw, ha, hp⟩ := @handle_params hash s p
  exact ⟨hc.expiration, hc.capacity, hw.symm ▸ hc.wan, ha.symm ▸ hc.addr, hp.symm ▸ hc.port⟩

/-! ### Every run -/

theorem nfInit_spec (hash : Flow → UInt32) {devicesCount : UInt16} (h : nfInit items devicesCount = some s) :
    ∃ E n, Configured items E n s ∧ E < 2 ^ 64 ∧ n * 64 ≤ sizeMax ∧ Seen hash E n 0 s.table.toKeyedPool := by
  unfold nfInit at h
  split_ifs at h
  simp only [Option.pure_def, Option.bind_eq_bind, Option.bind_eq_some_iff, Option.some.injEq] at h
  obtain ⟨a, ha, w, hw, n, hn, E, hE, sp, hsp, t, ht, rfl⟩ := h
  obtain ⟨t', ht', hinv, hitems, hx⟩ := KeyedPool.keyedPoolAlloc_inv (K := Flow) flowSize E (osConfigGetSize_le hn)
  rw [flowTableAlloc, ht', Option.map_some, Option.some.injEq] at ht
  subst ht
  obtain ⟨hlt, htime⟩ := SpecConfig.get_time hE
  refine ⟨E, n, ⟨htime, SpecConfig.get_size hn, SpecConfig.get_device hw, SpecConfig.get_u32 ha,
    SpecConfig.get_u16 hsp⟩, hlt, osConfigGetSize_le hn, hinv hash, hx, fun i ts hts => ?_⟩
  rw [hitems] at hts
  cases hts

/-- **The NAT meets its specification.** On every run from `nf_init`, for any hash, no packet makes an assertion
of `spec.py` fail, where `flows` is made of the NAT's own map, array and pool. -/
theorem nat_meets_spec (hash : Flow → UInt32) (items : ConfigItems) (devicesCount : UInt16)
    (hinit : nfInit items devicesCount = some s) (ps : List NetPacket)
    (hmono : ps.Pairwise fun p q => p.time ≤ q.time) (hmax : ∀ p ∈ ps, p.time < timeMax) :
    Monitor.checkAll (fun s p => (nfHandle hash s p).1) (checkSpec hash items) s ps = .ok () := by
  obtain ⟨E, n, hc, hE, hn, hs⟩ := nfInit_spec hash hinit
  refine Monitor.checkAll_ok NetPacket.time
    (fun s now => Configured items E n s ∧ Seen hash E n now s.table.toKeyedPool)
    (fun p => p.time < timeMax) ?_ ⟨hc, hs⟩ (fun p hp => ⟨Nat.zero_le _, hmax p hp⟩) hmono
  rintro s now p ⟨hc, hs⟩ hle ht
  have hp : Params64 E n p.time := ⟨hE, hn, ht.trans (by decide)⟩
  obtain ⟨hcheck, hs'⟩ := handle_spec hs hc hp hle ht.ne
  exact ⟨hcheck, handle_configured hc, hs'⟩

/-- The theorem at a request and its reply. -/
theorem nat_meets_spec_one : ∃ s, nfInit demoItems 2 = some s ∧
    Monitor.checkAll (fun s p => (nfHandle (fun _ => 0) s p).1) (checkSpec (fun _ => 0) demoItems) s
      [request true, reply] = .ok () :=
  ⟨_, rfl, nat_meets_spec (fun _ => 0) demoItems 2 rfl _ (by simp [request, reply]) (by simp [request, reply, timeMax])⟩

end NatNf
end Klint
