/-
# The firewall meets its specification

`nf/firewall/spec.py`, and that it holds of every packet of every run: after `nf_init`, the
firewall's flows, its map and its pool are maps for which no assertion of the specification
fails, whatever the packets are.
-/
import Klint.Lib.Monitor
import Klint.Nf.Firewall
import Klint.Tool.SpecTables

namespace Klint
namespace Firewall

open Tool

/-! ### The specification -/

/-- The end of `spec`: "`transmitted_packet is not None`", the same data, the other device. -/
def specForwarded (packet : SpecPacket) (transmittedPacket : Option SpecPacket) : Except String Unit := do
  specAssert transmittedPacket.isSome ""
  let transmitted ← notNone transmittedPacket
  specAssert (transmitted.map.eq packet.map) ""
  let device ← packet.device
  specAssert ((← transmitted.device).eq (device.rsub (device.int 1))) ""

/-- `spec`, with the maps chosen for `flows`. -/
def spec (maps : ChosenSet) (packet : SpecPacket) (config : SpecConfig) (transmittedPacket : Option SpecPacket) :
    Except String Unit := do
  match ← packet.ipv4, ← packet.tcpudp with
  | some ipv4, some tcpudp =>
    let flows := SpecExpiringSet.new (some flowType) (← config.get "expiration time") (← config.get "max flows")
      (← packet.receivedTime) maps
    if (← packet.device).eq (← config.get "external device") then
      let flow := flowItem (← ipv4.getAttr "dst") (← ipv4.getAttr "src") (← tcpudp.getAttr "dst")
        (← tcpudp.getAttr "src") (← ipv4.getAttr "protocol")
      if !(← flows.old.contains flow) then specAssert transmittedPacket.isNone ""
      else
        specAssert (← flows.didRefresh flow) ""
        specForwarded packet transmittedPacket
    else
      let flow := flowItem (← ipv4.getAttr "src") (← ipv4.getAttr "dst") (← tcpudp.getAttr "src")
        (← tcpudp.getAttr "dst") (← ipv4.getAttr "protocol")
      if !(← flows.contains flow) then
        specAssert (← flows.old.full) ""
        specForwarded packet transmittedPacket
      else specForwarded packet transmittedPacket
  | _, _ => specAssert transmittedPacket.isNone ""

variable (hash : Flow → UInt32)

/-- The specification of the firewall's answer to a packet, on its own table before and after. -/
def checkSpec (items : ConfigItems) (s : State) (packet : NetPacket) : Except String Unit :=
  specWrapper (spec (tableMaps flowLayout s.table (nfHandle hash s packet).1.table)) ⟨items, 2⟩ packet
    ((nfHandle hash s packet).2.toList.map Transmission.ofCall)

/-! ### One packet -/

variable {hash} {E n now : ℕ} {s : State} {p : NetPacket} {items : ConfigItems}

/-- What `nf_init` read. -/
structure Configured (items : ConfigItems) (E n : ℕ) (s : State) : Prop where
  expiration : (SpecConfig.mk items 2).get "expiration time" = .ok (SpecNum.nat64 E)
  capacity : (SpecConfig.mk items 2).get "max flows" = .ok (SpecNum.nat64 n)
  external : ∃ d, (SpecConfig.mk items 2).get "external device" = .ok (SpecNum.nat64 d) ∧
    s.externalDevice = UInt16.ofNat d

theorem specForwarded_forward (config : SpecConfig) (p : NetPacket) :
    specForwarded (receivedPacket p) (some (transmittedPacket config (.ofCall (forward p)))) = .ok () := by
  have hdata : (transmittedPacket config (.ofCall (forward p))).map.eq (receivedPacket p).map = true :=
    (PacketMap.eq_iff rfl).mpr fun _ _ => rfl
  have hdevice :
      (SpecNum.u16 (1 - p.device)).eq ((SpecNum.u16 p.device).rsub ((SpecNum.u16 p.device).int 1)) = true := by
    exact (eq_u16 (1 - p.device) (1 - p.device)).trans (decide_eq_true rfl)
  simp only [specForwarded, Option.isSome_some, notNone, bind, Except.bind, hdata, specAssert, ↓reduceIte]
  exact if_pos hdevice

/-- The specification of a TCP or UDP packet, with what it reads. -/
theorem spec_flow (hc : Configured items E n s) (hh : flowHeaders p = some (14, 34)) (before after : FlowTable)
    (transmitted : Option SpecPacket) :
    spec (tableMaps flowLayout before after) (receivedPacket p) ⟨items, 2⟩ transmitted =
      let flows := tableSet flowLayout E n p.time before after
      let flow := flowOf p.data 14 34
      if p.device = s.externalDevice then
        (flows.old.contains (flowLayout.item flow.inverted)).bind fun b =>
          if !b then specAssert transmitted.isNone ""
          else (flows.didRefresh (flowLayout.item flow.inverted)).bind fun b =>
            (specAssert b "").bind fun _ => specForwarded (receivedPacket p) transmitted
      else
        (flows.contains (flowLayout.item flow)).bind fun b =>
          if !b then flows.old.full.bind fun b =>
            (specAssert b "").bind fun _ => specForwarded (receivedPacket p) transmitted
          else specForwarded (receivedPacket p) transmitted := by
  obtain ⟨-, -, hipv4, htcpudp⟩ := received_flow hh
  obtain ⟨d, hd, hext⟩ := hc.external
  have hlong := received_long p
  have hdev : (SpecNum.u16 p.device).eq (SpecNum.nat64 d) = decide (p.device = s.externalDevice) := by
    rw [eq_u16_nat64, hext]
  simp only [spec, hipv4, htcpudp, hc.expiration, hc.capacity, hd, received_time, received_device, bind, Except.bind,
    hdev, SpecPacket.ipv4_src hlong, SpecPacket.ipv4_dst hlong, SpecPacket.ipv4_protocol hlong,
    SpecPacket.tcpudp_src hlong, SpecPacket.tcpudp_dst hlong, decide_eq_true_iff]
  rfl

/-- A packet from outside. -/
theorem external_spec (hs : Seen hash E n p.time s.table) (hc : Configured items E n s) (hp : Params64 E n p.time)
    (ht : p.time ≠ timeMax) (hh : flowHeaders p = some (14, 34)) (hd : p.device = s.externalDevice) :
    checkSpec hash items s p = .ok () ∧ Seen hash E n p.time (nfHandle hash s p).1.table := by
  have hold := contains_table s.table (L := flowLayout) hs hp (flowOf p.data 14 34).inverted
  unfold checkSpec nfHandle flowTableHasExternal
  simp only [hh, if_pos hd]
  cases hf : s.table.find hash (flowOf p.data 14 34).inverted with
  | none =>
    refine ⟨?_, hs⟩
    rw [hf] at hold
    simp only [Option.toList_none, List.map_nil, specWrapper, spec_flow hc hh, if_pos hd, tableSet_old, hold]
    rfl
  | some i =>
    rw [hf] at hold
    by_cases hu : indexPoolUsed s.table.pool p.time i = true
    · obtain ⟨hs', hf', hnow⟩ := hs.refresh ht hf
      simp only [hu, ↓reduceIte] at hold ⊢
      refine ⟨?_, hs'⟩
      have hrefresh := didRefresh_table s.table (L := flowLayout) hs'.inv hp hf' hnow
      simp only [Option.toList_some, List.map_cons, List.map_nil, specWrapper, spec_flow hc hh, if_pos hd, tableSet_old,
        hold, hrefresh, specForwarded_forward]
      rfl
    · have hu' : indexPoolUsed s.table.pool p.time i = false := by simpa using hu
      simp only [hu', Bool.false_eq_true, ↓reduceIte] at hold ⊢
      refine ⟨?_, hs⟩
      simp only [Option.toList_none, List.map_nil, specWrapper, spec_flow hc hh, if_pos hd, tableSet_old, hold]
      rfl

/-- A packet from inside. -/
theorem internal_spec (hs : Seen hash E n p.time s.table) (hc : Configured items E n s) (hp : Params64 E n p.time)
    (ht : p.time ≠ timeMax) (hh : flowHeaders p = some (14, 34)) (hd : p.device ≠ s.externalDevice) :
    checkSpec hash items s p = .ok () ∧ Seen hash E n p.time (nfHandle hash s p).1.table := by
  have hfull := full_table s.table (L := flowLayout) hs hp
  unfold checkSpec nfHandle flowTableLearnInternal
  simp only [hh, if_neg hd]
  -- a flow that is found again with the time of the packet
  have hlearned : ∀ {t : FlowTable} {i : ℕ}, Seen hash E n p.time t → t.find hash (flowOf p.data 14 34) = some i →
      t.pool.items i = some p.time → specWrapper (spec (tableMaps flowLayout s.table t)) ⟨items, 2⟩ p
        ((some (forward p)).toList.map Transmission.ofCall) = .ok () := by
    intro t i hs' hf' hnow
    have hcontains := contains_table s.table (L := flowLayout) hs' hp (flowOf p.data 14 34)
    have hu : indexPoolUsed t.pool p.time i = true :=
      (IndexPool.used_iff _ _ _).mpr ⟨p.time, hnow, poolYoung_self _ _⟩
    simp only [hf', hu] at hcontains
    simp only [Option.toList_some, List.map_cons, List.map_nil, specWrapper, spec_flow hc hh, if_neg hd, hcontains,
      specForwarded_forward]
    rfl
  cases hf : s.table.find hash (flowOf p.data 14 34) with
  | some i =>
    obtain ⟨hs', hf', hnow⟩ := hs.refresh ht hf
    exact ⟨hlearned hs' hf' hnow, hs'⟩
  | none =>
    rcases hs.insert ht hf with ⟨i, t', he, -, -, hs', hf', hnow⟩ | ⟨he, hall⟩
    · simp only [he]
      exact ⟨hlearned hs' hf' hnow, hs'⟩
    · simp only [he]
      refine ⟨?_, hs⟩
      have hcontains := contains_table s.table (L := flowLayout) hs hp (flowOf p.data 14 34)
      rw [hf] at hcontains
      rw [decide_eq_true hall] at hfull
      simp only [Option.toList_some, List.map_cons, List.map_nil, specWrapper, spec_flow hc hh, if_neg hd, tableSet_old,
        hcontains, hfull, specForwarded_forward]
      rfl

theorem handle_spec (hs : Seen hash E n now s.table) (hc : Configured items E n s) (hp : Params64 E n p.time)
    (hle : now ≤ p.time) (ht : p.time ≠ timeMax) :
    checkSpec hash items s p = .ok () ∧ Seen hash E n p.time (nfHandle hash s p).1.table := by
  have hl := hs.later hle
  cases hh : flowHeaders p with
  | none =>
    obtain ⟨header, hheader⟩ := received_ipv4 p
    unfold checkSpec nfHandle
    simp only [hh]
    refine ⟨?_, hl⟩
    simp only [Option.toList_none, List.map_nil, specWrapper, spec, hheader, received_tcpudp hh, bind, Except.bind]
    rfl
  | some hdr =>
    obtain ⟨ipv4, tcpudp⟩ := hdr
    obtain ⟨rfl, rfl, -, -⟩ := received_flow hh
    by_cases hd : p.device = s.externalDevice
    · exact external_spec hl hc hp ht hh hd
    · exact internal_spec hl hc hp ht hh hd

theorem handle_configured (hc : Configured items E n s) : Configured items E n (nfHandle hash s p).1 := by
  have hdev : (nfHandle hash s p).1.externalDevice = s.externalDevice := by
    unfold nfHandle
    cases flowHeaders p with
    | none => rfl
    | some hdr =>
      dsimp only
      split_ifs
      · split <;> rfl
      · rfl
  exact ⟨hc.expiration, hc.capacity, hdev.symm ▸ hc.external⟩

/-! ### Every run -/

theorem nfInit_spec (hash : Flow → UInt32) {devicesCount : UInt16} (h : nfInit items devicesCount = some s) :
    ∃ E n, Configured items E n s ∧ E < 2 ^ 64 ∧ n * 64 ≤ sizeMax ∧ Seen hash E n 0 s.table := by
  unfold nfInit at h
  split_ifs at h
  simp only [Option.pure_def, Option.bind_eq_bind, Option.bind_eq_some_iff, Option.some.injEq] at h
  obtain ⟨d, hd, E, hE, n, hn, t, ht, rfl⟩ := h
  obtain ⟨t', ht', hinv, hitems, hx⟩ := KeyedPool.keyedPoolAlloc_inv (K := Flow) flowSize E (osConfigGetSize_le hn)
  rw [flowTableAlloc, ht', Option.some.injEq] at ht
  subst ht
  obtain ⟨hlt, htime⟩ := SpecConfig.get_time hE
  refine ⟨E, n, ⟨htime, SpecConfig.get_size hn, SpecConfig.get_device hd⟩, hlt, osConfigGetSize_le hn,
    hinv hash, hx, fun i ts hts => ?_⟩
  rw [hitems] at hts
  cases hts

/-- **The firewall meets its specification.** On every run from `nf_init`, for any hash, no packet makes an
assertion of `spec.py` fail, where `flows` is made of the firewall's own map, array and pool. -/
theorem firewall_meets_spec (hash : Flow → UInt32) (items : ConfigItems) (devicesCount : UInt16)
    (hinit : nfInit items devicesCount = some s) (ps : List NetPacket)
    (hmono : ps.Pairwise fun p q => p.time ≤ q.time) (hmax : ∀ p ∈ ps, p.time < timeMax) :
    Monitor.checkAll (fun s p => (nfHandle hash s p).1) (checkSpec hash items) s ps = .ok () := by
  obtain ⟨E, n, hc, hE, hn, hs⟩ := nfInit_spec hash hinit
  refine Monitor.checkAll_ok NetPacket.time (fun s now => Configured items E n s ∧ Seen hash E n now s.table)
    (fun p => p.time < timeMax) ?_ ⟨hc, hs⟩ (fun p hp => ⟨Nat.zero_le _, hmax p hp⟩) hmono
  rintro s now p ⟨hc, hs⟩ hle ht
  have hp : Params64 E n p.time := ⟨hE, hn, ht.trans (by decide)⟩
  obtain ⟨hcheck, hs'⟩ := handle_spec hs hc hp hle ht.ne
  exact ⟨hcheck, handle_configured hc, hs'⟩

/-- The theorem at a table of one flow: a packet from inside, the answer to it and a second flow. -/
theorem firewall_meets_spec_one :
    let f : Flow := ⟨0x0100000a, 0x08080808, 5000, 53, 17⟩
    let items : ConfigItems := [("external device", 1), ("expiration time", 5), ("max flows", 1)]
    ∃ s, nfInit items 2 = some s ∧
      Monitor.checkAll (fun s p => (nfHandle (fun _ => 0) s p).1) (checkSpec (fun _ => 0) items) s
        [⟨flowFrame f, 60, 0, 0⟩, ⟨flowFrame f.inverted, 60, 5, 1⟩, ⟨flowFrame f.inverted, 60, 5, 0⟩] = .ok () :=
  ⟨_, rfl, firewall_meets_spec (fun _ => 0) _ 2 rfl _ (by simp) (by simp [timeMax])⟩

end Firewall
end Klint
