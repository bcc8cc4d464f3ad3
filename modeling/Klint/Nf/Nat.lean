/-
# Network address translation

The flow table and the packet handler of `nf/nat`. A flow from inside gets
the external port `start_port` plus its index, in 16 bits; a packet from
outside is decoded by its destination port, with a 16-bit subtraction.

A flow is live while the last packet that was taken for it is within the
expiration time, whatever became of it in the table. `nat_invertible_iff`: the
translation is invertible on every run exactly when the table has at most 65536
flows. `nf_init` accepts more: then two flows live at the same moment get the same
port (`nat_not_invertible`).
-/
import Klint.Net.Checksum
import Klint.Os.Config
import Klint.Structs.KeyedPoolRefine

namespace Klint
namespace NatNf

open ExpiringSet

/-- `struct flow_table`: the flows, their map and pool, and two parameters. -/
structure FlowTable extends KeyedPool Flow where
  maxFlows : ℕ
  startPort : UInt16

def flowTableAlloc (startPort : UInt16) (expirationTime maxFlows : ℕ) : Option FlowTable :=
  (keyedPoolAlloc Flow flowSize maxFlows expirationTime).map fun t =>
    { toKeyedPool := t, maxFlows := maxFlows, startPort := startPort }

variable (hash : Flow → UInt32)

/-- `start_port + (uint16_t) index`. -/
def FlowTable.port (table : FlowTable) (index : ℕ) : UInt16 := table.startPort + UInt16.ofNat index

def flowTableGetInternal (table : FlowTable) (time : ℕ) (flow : Flow) : Option UInt16 × FlowTable :=
  match table.find hash flow with
  | some index => (some (table.port index), { table with toKeyedPool := table.refresh time index })
  | none =>
    match table.insert hash time flow with
    | (none, t) => (none, { table with toKeyedPool := t })
    | (some index, t) => (some (table.port index), { table with toKeyedPool := t })

def flowTableGetExternal (table : FlowTable) (time : ℕ) (port : UInt16) : Option Flow × FlowTable :=
  let index := (port - table.startPort).toNat
  if indexPoolUsed table.pool time index then
    (some (table.key index), { table with toKeyedPool := table.refresh time index })
  else (none, table)

structure State where
  externalAddr : UInt32
  wanDevice : UInt16
  table : FlowTable

def nfInit (items : ConfigItems) (devicesCount : UInt16) : Option State :=
  if devicesCount ≠ 2 then none else do
    let externalAddr ← osConfigGetU32 items "external addr"
    let wanDevice ← osConfigGetDevice items "wan device" devicesCount
    let maxFlows ← osConfigGetSize items "max flows"
    let expirationTime ← osConfigGetTime items "expiration time"
    let startPort ← osConfigGetU16 items "start port"
    let table ← flowTableAlloc startPort expirationTime maxFlows
    return { externalAddr := externalAddr, wanDevice := wanDevice, table := table }

/-- What `nf_handle` writes to a packet from outside for an internal flow. -/
def rewriteInbound (data : ℕ → UInt8) (ipv4 tcpudp : ℕ) (flow : Flow) : ℕ → UInt8 :=
  let data := netPacketChecksumUpdate32 data ipv4 (dstAddr data ipv4) flow.srcIp true
  let data := netPacketChecksumUpdate data ipv4 (dstPort data tcpudp) flow.srcPort false
  let data := store32 data (ipv4 + 16) flow.srcIp
  store16 data (tcpudp + 2) flow.srcPort

/-- What `nf_handle` writes to a packet from inside. -/
def rewriteOutbound (data : ℕ → UInt8) (ipv4 tcpudp : ℕ) (addr : UInt32) (port : UInt16) : ℕ → UInt8 :=
  let data := netPacketChecksumUpdate32 data ipv4 (srcAddr data ipv4) addr true
  let data := netPacketChecksumUpdate data ipv4 (srcPort data tcpudp) port false
  let data := store32 data (ipv4 + 12) addr
  store16 data tcpudp port

/-- `net_transmit(packet, 1 - packet->device, UPDATE_ETHER_ADDRS)`. -/
def transmit (packet : NetPacket) (data : ℕ → UInt8) : NetTransmit where
  data := data
  length := packet.length
  device := 1 - packet.device
  flags := .updateEtherAddrs

def nfHandle (s : State) (packet : NetPacket) : State × Option NetTransmit :=
  match flowHeaders packet with
  | none => (s, none)
  | some (ipv4, tcpudp) =>
    if packet.device = s.wanDevice then
      match flowTableGetExternal s.table packet.time (dstPort packet.data tcpudp) with
      | (none, table) => ({ s with table := table }, none)
      | (some flow, table) =>
        if flow.dstIp ≠ srcAddr packet.data ipv4 ∨ flow.dstPort ≠ srcPort packet.data tcpudp ∨
            flow.protocol ≠ nextProtoId packet.data ipv4 then
          ({ s with table := table }, none)  -- spoofing attempt
        else ({ s with table := table }, some (transmit packet (rewriteInbound packet.data ipv4 tcpudp flow)))
    else
      match flowTableGetInternal hash s.table packet.time (flowOf packet.data ipv4 tcpudp) with
      | (none, table) => ({ s with table := table }, none)
      | (some port, table) =>
        ({ s with table := table },
          some (transmit packet (rewriteOutbound packet.data ipv4 tcpudp s.externalAddr port)))

/-! ### Runs -/

/-- The flow a packet is taken for: its own if it is from inside and sent, the
one the table has at its port if it is from outside, be it a spoofing attempt. -/
def takenFor (s : State) (packet : NetPacket) : Option Flow :=
  match flowHeaders packet with
  | none => none
  | some (ipv4, tcpudp) =>
    if packet.device = s.wanDevice then (flowTableGetExternal s.table packet.time (dstPort packet.data tcpudp)).1
    else (nfHandle hash s packet).2.map fun _ => flowOf packet.data ipv4 tcpudp

/-- The NAT in a run, with the source port each flow from inside was last
sent out with, and the time of the last packet that was taken for the flow. -/
structure Run where
  s : State
  given : Flow → Option UInt16
  last : Flow → Option ℕ

def Run.start (s : State) : Run := ⟨s, fun _ => none, fun _ => none⟩

def Run.handle (r : Run) (packet : NetPacket) : Run where
  s := (nfHandle hash r.s packet).1
  given := match flowHeaders packet, (nfHandle hash r.s packet).2 with
    | some (ipv4, tcpudp), some sent =>
      if packet.device = r.s.wanDevice then r.given
      else Function.update r.given (flowOf packet.data ipv4 tcpudp) (some (srcPort sent.data tcpudp))
    | _, _ => r.given
  last := match takenFor hash r.s packet with
    | some flow => Function.update r.last flow (some packet.time)
    | none => r.last

/-- The run of the packets from the state after `nf_init`. -/
def Run.handleAll (r : Run) : List NetPacket → Run
  | [] => r
  | p :: ps => (r.handle hash p).handleAll ps

/-- Flows live at the same moment have been given distinct ports. -/
def Run.PortsDistinct (r : Run) (expirationTime time : ℕ) : Prop :=
  ∀ f g, Live (young expirationTime) r.last time f → Live (young expirationTime) r.last time g → f ≠ g →
    r.given f ≠ r.given g

/-- An answer to the port a live flow was last given goes to the flow's
source. -/
def Run.Answered (r : Run) (expirationTime : ℕ) (packet : NetPacket) : Prop :=
  ∀ f ipv4 tcpudp, flowHeaders packet = some (ipv4, tcpudp) → packet.device = r.s.wanDevice →
    Live (young expirationTime) r.last packet.time f → r.given f = some (dstPort packet.data tcpudp) →
    srcAddr packet.data ipv4 = f.dstIp → srcPort packet.data tcpudp = f.dstPort →
    nextProtoId packet.data ipv4 = f.protocol →
    ∃ sent, (nfHandle hash r.s packet).2 = some sent ∧ dstAddr sent.data ipv4 = f.srcIp ∧
      dstPort sent.data tcpudp = f.srcPort

/-! ### The rewritten headers -/

theorem dstAddr_rewriteInbound (data : ℕ → UInt8) (ipv4 : ℕ) (flow : Flow) :
    dstAddr (rewriteInbound data ipv4 (ipv4 + 20) flow) ipv4 = flow.srcIp := by
  rw [dstAddr, rewriteInbound]
  exact (load32_congr fun i hi => store16_of_ne _ (by omega) (by omega)).trans (load32_store32 _ _ _)

theorem dstPort_rewriteInbound (data : ℕ → UInt8) (ipv4 tcpudp : ℕ) (flow : Flow) :
    dstPort (rewriteInbound data ipv4 tcpudp flow) tcpudp = flow.srcPort :=
  load16_store16 _ _ _

theorem srcPort_rewriteOutbound (data : ℕ → UInt8) (ipv4 tcpudp : ℕ) (addr : UInt32) (port : UInt16) :
    srcPort (rewriteOutbound data ipv4 tcpudp addr port) tcpudp = port :=
  load16_store16 _ _ _

/-! ### The table of a run -/

/-- What the translation needs of a run: the table is the expiring set of the
times of the packets, and the flow at an index in use was last given the port
of its index. -/
structure Run.Good (hash : Flow → UInt32) (E n now : ℕ) (r : Run) : Prop where
  refines : r.s.table.toKeyedPool.Refines hash E n now r.last
  given : ∀ i ts, r.s.table.pool.items i = some ts →
    r.given (r.s.table.key i) = some (r.s.table.port i)

variable {hash} {E n now : ℕ} {table : FlowTable}

theorem Run.Good.later {r : Run} (h : r.Good hash E n now) {time : ℕ} (hle : now ≤ time) :
    r.Good hash E n time where
  refines := h.refines.later hle
  given := h.given

/-- Binding an index to a flow that is then given the port of the index. -/
theorem Run.Good.bind {r : Run} (h : r.Good hash E n now) {flow : Flow} {t : KeyedPool Flow} {i : ℕ}
    (href : t.Refines hash E n now (touch (young E) n r.last now flow)) (hnf : ¬ Full (young E) n r.last now flow)
    (hitems : t.pool.items = Function.update r.s.table.pool.items i (some now))
    (hkey : t.key = Function.update r.s.table.key i flow) :
    Run.Good hash E n now
      { s := { r.s with table := { r.s.table with toKeyedPool := t } },
        given := Function.update r.given flow (some (r.s.table.port i)),
        last := Function.update r.last flow (some now) } where
  refines := touch_of_not_full hnf ▸ href
  given := fun j ts hj => by
    have hji : t.key i = flow := by rw [hkey, Function.update_self]
    by_cases hf : t.key j = flow
    · have hi : t.pool.items i = some now := by rw [hitems, Function.update_self]
      obtain rfl := href.represents.inj j i ts now hj hi (hf.trans hji.symm)
      simp only [hf, Function.update_self]
      rfl
    · have hne : j ≠ i := fun hc => hf (hc ▸ hji)
      simp only [Function.update_of_ne hf]
      rw [hkey, Function.update_of_ne hne]
      rw [hitems, Function.update_of_ne hne] at hj
      exact h.given j ts hj

/-- A packet from inside: its flow is given a port, or the others fill the table. -/
theorem getInternal_good {r : Run} (h : r.Good hash E n now) (ht : now ≠ timeMax) (flow : Flow) :
    (∃ port t, flowTableGetInternal hash r.s.table now flow = (some port, t) ∧
        Run.Good hash E n now
          { s := { r.s with table := t }, given := Function.update r.given flow (some port),
            last := Function.update r.last flow (some now) }) ∨
      (∃ t, flowTableGetInternal hash r.s.table now flow = (none, t) ∧ Full (young E) n r.last now flow ∧
        Run.Good hash E n now { r with s := { r.s with table := t } }) := by
  unfold flowTableGetInternal
  cases hf : r.s.table.find hash flow with
  | some index =>
    obtain ⟨⟨ts, hts⟩, hkey⟩ := h.refines.inv.find_iff.mp hf
    obtain ⟨-, hnf, href⟩ := h.refines.refresh_found ht hf
    obtain ⟨-, hitems⟩ := h.refines.inv.refresh ht (by rw [hts]; rfl : (r.s.table.pool.items index).isSome)
    exact .inl ⟨_, _, rfl, h.bind href hnf hitems (by rw [← hkey, Function.update_eq_self]; rfl)⟩
  | none =>
    obtain ⟨-, href, hcases⟩ := h.refines.insert_absent ht hf
    rcases hins : r.s.table.insert hash now flow with ⟨out, t⟩
    rw [hins] at href hcases
    rcases hcases with ⟨i, hi, -, -, hitems, hkey, hnf⟩ | ⟨he, hfull⟩
    · simp only at hi
      subst hi
      exact .inl ⟨_, _, rfl, h.bind href hnf hitems hkey⟩
    · simp only [Prod.mk.injEq] at he
      obtain ⟨rfl, rfl⟩ := he
      exact .inr ⟨_, rfl, hfull, h.refines, h.given⟩

/-- A packet from outside: the flow at its port is refreshed, or there is none. -/
theorem getExternal_good {r : Run} (h : r.Good hash E n now) (ht : now ≠ timeMax) (port : UInt16) :
    (∃ flow t, flowTableGetExternal r.s.table now port = (some flow, t) ∧
        Run.Good hash E n now { r with s := { r.s with table := t }, last := Function.update r.last flow (some now) }) ∨
      flowTableGetExternal r.s.table now port = (none, r.s.table) := by
  unfold flowTableGetExternal
  simp only
  split_ifs with hu
  · obtain ⟨ts, hts, -⟩ := (IndexPool.used_iff _ _ _).mp hu
    obtain ⟨-, hnf, href⟩ := h.refines.refresh_index ht hts
    obtain ⟨-, hitems⟩ := h.refines.inv.refresh ht (by rw [hts]; rfl : (r.s.table.pool.items _).isSome)
    rw [touch_of_not_full hnf] at href
    refine .inl ⟨_, _, rfl, href, fun j ts' hj => ?_⟩
    change (r.s.table.refresh now _).pool.items j = some ts' at hj
    rw [hitems] at hj
    by_cases hji : j = (port - r.s.table.startPort).toNat
    · subst hji; exact h.given _ ts hts
    · rw [Function.update_of_ne hji] at hj; exact h.given j ts' hj
  · exact .inr rfl

/-- One packet; a packet from inside touches its flow. -/
theorem handle_good {r : Run} (h : r.Good hash E n now) {p : NetPacket} (hle : now ≤ p.time)
    (ht : p.time ≠ timeMax) :
    (r.handle hash p).Good hash E n p.time ∧ (r.handle hash p).s.wanDevice = r.s.wanDevice ∧
      ∀ ipv4 tcpudp, flowHeaders p = some (ipv4, tcpudp) → p.device ≠ r.s.wanDevice →
        ¬ Full (young E) n r.last p.time (flowOf p.data ipv4 tcpudp) →
        (r.handle hash p).last = Function.update r.last (flowOf p.data ipv4 tcpudp) (some p.time) := by
  have hl := h.later hle
  unfold Run.handle takenFor nfHandle
  cases hh : flowHeaders p with
  | none => exact ⟨hl, rfl, fun _ _ hc => by cases hc⟩
  | some hdr =>
    obtain ⟨ipv4, tcpudp⟩ := hdr
    by_cases hd : p.device = r.s.wanDevice
    · simp only [hd, ↓reduceIte]
      rcases getExternal_good hl ht (dstPort p.data tcpudp) with ⟨flow, t, he, hg⟩ | he
      · rw [he]
        simp only
        split_ifs <;> exact ⟨hg, rfl, fun _ _ _ hc => absurd rfl hc⟩
      · rw [he]
        exact ⟨hl, rfl, fun _ _ _ hc => absurd rfl hc⟩
    · simp only [hd, ↓reduceIte]
      rcases getInternal_good hl ht (flowOf p.data ipv4 tcpudp) with ⟨port, t, he, hg⟩ | ⟨t, he, hfull, hg⟩
      · rw [he]
        refine ⟨?_, rfl, fun _ _ hc _ _ => by cases hc; rfl⟩
        simp only [transmit, srcPort_rewriteOutbound, Option.map_some]
        exact hg
      · rw [he]
        refine ⟨hg, rfl, fun _ _ hc _ hnf => ?_⟩
        cases hc
        exact absurd hfull hnf

/-- A run of packets at times that do not decrease. -/
structure Timed (now : ℕ) (ps : List NetPacket) : Prop where
  bounds : ∀ p ∈ ps, now ≤ p.time ∧ p.time ≠ timeMax
  mono : ps.Pairwise fun p q => p.time ≤ q.time

/-- A state of a run. -/
def Reachable (hash : Flow → UInt32) (items : ConfigItems) (devicesCount : UInt16) (s : State) : Prop :=
  ∃ s0 ps, nfInit items devicesCount = some s0 ∧ Timed 0 ps ∧
    s = ((Run.start s0).handleAll hash ps).s

theorem handleAll_good : ∀ {ps : List NetPacket} {r : Run} {now : ℕ}, r.Good hash E n now → Timed now ps →
    ∃ now', (r.handleAll hash ps).Good hash E n now' ∧ ∀ t, now ≤ t → (∀ p ∈ ps, p.time ≤ t) → now' ≤ t
  | [], _, now, h, _ => ⟨now, h, fun _ ht _ => ht⟩
  | p :: ps, r, now, h, hps => by
    obtain ⟨hb, hm⟩ := hps
    rw [List.pairwise_cons] at hm
    obtain ⟨h1, h2⟩ := hb p List.mem_cons_self
    obtain ⟨hg, -⟩ := handle_good h h1 h2
    obtain ⟨now', hg', hle⟩ := handleAll_good hg
      ⟨fun q hq => ⟨hm.1 q hq, (hb q (List.mem_cons_of_mem _ hq)).2⟩, hm.2⟩
    exact ⟨now', hg', fun t _ ht => hle t (ht p List.mem_cons_self)
      fun q hq => ht q (List.mem_cons_of_mem _ hq)⟩

theorem nfInit_good (hash : Flow → UInt32) (items : ConfigItems) (devicesCount : UInt16) {s : State}
    (h : nfInit items devicesCount = some s) :
    ∃ expirationTime maxFlows, osConfigGetTime items "expiration time" = some expirationTime ∧
      osConfigGetSize items "max flows" = some maxFlows ∧ devicesCount = 2 ∧
      osConfigGetDevice items "wan device" devicesCount = some s.wanDevice ∧
      (Run.start s).Good hash expirationTime maxFlows 0 := by
  unfold nfInit at h
  split_ifs at h with hd
  simp only [Option.pure_def, Option.bind_eq_bind, Option.bind_eq_some_iff, Option.some.injEq] at h
  obtain ⟨_, -, w, hw, m, hm, e, he, _, -, t, ht, rfl⟩ := h
  obtain ⟨t', ht', href⟩ := KeyedPool.alloc_refines hash flowSize e (osConfigGetSize_le hm)
  rw [flowTableAlloc, ht', Option.map_some, Option.some.injEq] at ht
  subst ht
  refine ⟨e, m, he, hm, not_not.mp hd, hw, href, fun i ts hi => ?_⟩
  have := href.represents.stored i ts hi
  simp at this

/-! ### At most 65536 flows -/

/-- A live flow is in the table, at an index in use, and was last given the port of the index. -/
theorem Run.Good.given_live {r : Run} (h : r.Good hash E n now) {time : ℕ} (hle : now ≤ time) {f : Flow}
    (hf : Live (young E) r.last time f) :
    ∃ i, i < n ∧ r.s.table.key i = f ∧ indexPoolUsed r.s.table.pool time i = true ∧
      r.given f = some (r.s.table.port i) := by
  obtain ⟨i, hi, hu⟩ := ((h.refines.later hle).live_iff f).mp hf
  obtain ⟨⟨ts, hts⟩, hk⟩ := h.refines.inv.find_iff.mp hi
  exact ⟨i, h.refines.represents.lt i ts hts, hk, hu, hk ▸ h.given i ts hts⟩

theorem port_inj (table : FlowTable) {i j : ℕ} (hi : i < 65536) (hj : j < 65536)
    (h : table.port i = table.port j) : i = j := by
  have h' := congrArg UInt16.toNat (UInt16.add_right_inj table.startPort |>.mp h)
  rw [UInt16.toNat_ofNat', UInt16.toNat_ofNat'] at h'
  omega

/-- The 16-bit subtraction decodes a port to its index. -/
theorem port_sub (table : FlowTable) {i : ℕ} (hi : i < 65536) :
    (table.port i - table.startPort).toNat = i := by
  rw [FlowTable.port, UInt16.add_comm, UInt16.add_sub_cancel, UInt16.toNat_ofNat']
  omega

theorem Run.Good.portsDistinct {r : Run} (h : r.Good hash E n now) (hn : n ≤ 65536) {time : ℕ} (hle : now ≤ time) :
    r.PortsDistinct E time := by
  intro f g hf hg hne he
  obtain ⟨i, hi, hki, -, hgf⟩ := h.given_live hle hf
  obtain ⟨j, hj, hkj, -, hgg⟩ := h.given_live hle hg
  rw [hgf, hgg, Option.some.injEq] at he
  exact hne (by rw [← hki, ← hkj, port_inj _ (by omega) (by omega) he])

theorem flowHeaders_some {p : NetPacket} {ipv4 tcpudp : ℕ} (h : flowHeaders p = some (ipv4, tcpudp)) :
    ipv4 = 14 ∧ tcpudp = 34 := by
  rw [flowHeaders_eq] at h
  split_ifs at h
  simp only [Option.some.injEq, Prod.mk.injEq] at h
  exact ⟨h.1.symm, h.2.symm⟩

theorem Run.Good.answered {r : Run} (h : r.Good hash E n now) (hn : n ≤ 65536) {p : NetPacket}
    (hle : now ≤ p.time) : r.Answered hash E p := by
  intro f ipv4 tcpudp hh hd hf hport h1 h2 h3
  obtain ⟨rfl, rfl⟩ := flowHeaders_some hh
  obtain ⟨i, hi, hki, hu, hgf⟩ := h.given_live hle hf
  rw [hgf, Option.some.injEq] at hport
  have hext : flowTableGetExternal r.s.table p.time (dstPort p.data 34) =
      (some f, { r.s.table with toKeyedPool := r.s.table.refresh p.time i }) := by
    unfold flowTableGetExternal
    simp only [← hport, port_sub r.s.table (by omega : i < 65536), hu, ↓reduceIte, hki]
  refine ⟨transmit p (rewriteInbound p.data 14 34 f), ?_, dstAddr_rewriteInbound _ 14 f,
    dstPort_rewriteInbound _ _ _ f⟩
  unfold nfHandle
  simp only [hh, hd, ↓reduceIte, hext, h1, h2, h3, ne_eq, not_true_eq_false, or_self]

/-! ### More than 65536 flows -/

/-- The `j`th of many flows. -/
def manyFlow (j : ℕ) : Flow := ⟨UInt32.ofNat j, 0, 0, 0, ipProtocolUdp⟩

/-- A packet of the `j`th flow, at time 0. -/
def manyPacket (device : UInt16) (j : ℕ) : NetPacket := ⟨flowFrame (manyFlow j), 60, 0, device⟩

theorem manyFlow_inj {i j : ℕ} (hi : i < 2 ^ 32) (hj : j < 2 ^ 32) (h : manyFlow i = manyFlow j) : i = j := by
  have h' := congrArg (fun f => f.srcIp.toNat) h
  simp only [manyFlow, UInt32.toNat_ofNat'] at h'
  omega

theorem Run.handleAll_append (r : Run) : ∀ (ps qs : List NetPacket),
    r.handleAll hash (ps ++ qs) = (r.handleAll hash ps).handleAll hash qs
  | [], _ => rfl
  | p :: ps, qs => by
    rw [List.cons_append, Run.handleAll, Run.handleAll, Run.handleAll_append _ ps qs]

/-- As many flows as the table has room for are all live. -/
theorem manyPackets_good {s : State} (h : (Run.start s).Good hash E n 0) {device : UInt16}
    (hd : device ≠ s.wanDevice) : ∀ k, k ≤ n →
    let r := (Run.start s).handleAll hash ((List.range k).map (manyPacket device))
    r.Good hash E n 0 ∧ r.s.wanDevice = s.wanDevice ∧ (∀ j, j < k → r.last (manyFlow j) = some 0) ∧
      ∀ f, r.last f ≠ none → ∃ j, j < k ∧ f = manyFlow j
  | 0, _ => ⟨h, rfl, fun j hj => absurd hj (Nat.not_lt_zero j), fun f hf => absurd rfl hf⟩
  | k + 1, hk => by
    obtain ⟨hg, hw, hall, honly⟩ := manyPackets_good h hd k (by omega)
    rw [List.range_succ, List.map_append, Run.handleAll_append]
    set r := (Run.start s).handleAll hash ((List.range k).map (manyPacket device))
    obtain ⟨hg', hw', hlast⟩ := handle_good hg (p := manyPacket device k) (le_refl 0)
      (by simp [manyPacket, timeMax])
    -- the flows so far are too few to fill the table
    have hnf : ¬ Full (young E) n r.last 0 (manyFlow k) := by
      rintro ⟨S, hcard, -, hlive⟩
      have hsub : S ⊆ (Finset.range k).image manyFlow := fun f hf => by
        obtain ⟨t, ht, -⟩ := hlive f hf
        obtain ⟨j, hj, rfl⟩ := honly f (by rw [ht]; simp)
        exact Finset.mem_image_of_mem _ (Finset.mem_range.mpr hj)
      have := (Finset.card_le_card hsub).trans Finset.card_image_le
      rw [Finset.card_range] at this
      omega
    have hl : (r.handle hash (manyPacket device k)).last = Function.update r.last (manyFlow k) (some 0) := by
      have hflow : flowOf (manyPacket device k).data 14 34 = manyFlow k := flowOf_flowFrame _
      rw [← hflow] at hnf ⊢
      exact hlast 14 34 (flowHeaders_flowFrame (.inr rfl) _ _ _) (by rw [hw]; exact hd) hnf
    refine ⟨hg', hw'.trans hw, fun j hj => ?_, fun f hf => ?_⟩
    · change (r.handle hash (manyPacket device k)).last (manyFlow j) = some 0
      rw [hl]
      by_cases hjk : manyFlow j = manyFlow k
      · rw [hjk, Function.update_self]
      · rw [Function.update_of_ne hjk]
        exact hall j (by have : j ≠ k := fun hc => hjk (hc ▸ rfl); omega)
    · change (r.handle hash (manyPacket device k)).last f ≠ none at hf
      by_cases hfk : f = manyFlow k
      · exact ⟨k, by omega, hfk⟩
      · rw [hl, Function.update_of_ne hfk] at hf
        obtain ⟨j, hj, rfl⟩ := honly f hf
        exact ⟨j, by omega, rfl⟩

/-- A run in which 65537 flows are live gives two of them one port. -/
theorem many_not_portsDistinct {s : State} (h : (Run.start s).Good hash E n 0) {device : UInt16}
    (hd : device ≠ s.wanDevice) (hn : 65536 < n) :
    ¬ ((Run.start s).handleAll hash ((List.range 65537).map (manyPacket device))).PortsDistinct E 0 := by
  intro hp
  obtain ⟨hg, -, hall, -⟩ := manyPackets_good h hd 65537 (by omega)
  set r' := (Run.start s).handleAll hash ((List.range 65537).map (manyPacket device))
  have hlive : ∀ j, j < 65537 → Live (young E) r'.last 0 (manyFlow j) := fun j hj =>
    ⟨0, hall j hj, poolYoung_self 0 E⟩
  have hgiven : ∀ j, j < 65537 → ∃ port, r'.given (manyFlow j) = some port := fun j hj => by
    obtain ⟨i, -, -, -, hi⟩ := hg.given_live (le_refl 0) (hlive j hj)
    exact ⟨_, hi⟩
  have hle : (Finset.range 65537).card ≤ (Finset.range 65536).card := by
    refine Finset.card_le_card_of_injOn (fun j => ((r'.given (manyFlow j)).getD 0).toNat) (fun j _ => ?_) ?_
    · rw [Finset.mem_coe, Finset.mem_range]
      exact UInt16.toNat_lt _
    · intro i hi j hj he
      rw [Finset.mem_coe, Finset.mem_range] at hi hj
      by_contra hne
      obtain ⟨a, ha⟩ := hgiven i hi
      obtain ⟨b, hb⟩ := hgiven j hj
      simp only [ha, hb, Option.getD_some, UInt16.toNat_inj] at he
      exact hp _ _ (hlive i hi) (hlive j hj)
        (fun hf => hne (manyFlow_inj (by omega) (by omega) hf)) (by rw [ha, hb, he])
  rw [Finset.card_range, Finset.card_range] at hle
  omega

/-- The two devices of the NAT. -/
theorem wanDevice_ne {items : ConfigItems} {w : UInt16} (h : osConfigGetDevice items "wan device" 2 = some w) :
    1 - w ≠ w := by
  simp only [osConfigGetDevice, Option.map_eq_some_iff] at h
  obtain ⟨v, hv, rfl⟩ := h
  have hle : v ≤ 1 := osConfigGet_le hv
  have hcases : v = 0 ∨ v = 1 := by
    have := UInt64.le_iff_toNat_le.mp hle
    rw [← UInt64.toNat_inj, ← UInt64.toNat_inj]
    change v.toNat ≤ 1 at this
    change v.toNat = 0 ∨ v.toNat = 1
    omega
  rcases hcases with rfl | rfl <;> decide

/-- What the NAT is for: on every run from the state after `nf_init`, flows
live at the same moment have distinct ports, and the answers to the port of
a live flow are forwarded to its source. -/
def Invertible (hash : Flow → UInt32) (expirationTime : ℕ) (s : State) : Prop :=
  ∀ ps, Timed 0 ps → ∀ time, (∀ p ∈ ps, p.time ≤ time) →
    ((Run.start s).handleAll hash ps).PortsDistinct expirationTime time ∧
    ∀ p : NetPacket, p.time = time → time ≠ timeMax →
      ((Run.start s).handleAll hash ps).Answered hash expirationTime p

/-- **The translation is invertible exactly when the ports are enough.** For
every configuration that `nf_init` accepts, and any hash. -/
theorem nat_invertible_iff (hash : Flow → UInt32) (items : ConfigItems) (devicesCount : UInt16)
    {s : State} {maxFlows expirationTime : ℕ} (hinit : nfInit items devicesCount = some s)
    (hM : osConfigGetSize items "max flows" = some maxFlows)
    (hE : osConfigGetTime items "expiration time" = some expirationTime) :
    Invertible hash expirationTime s ↔ maxFlows ≤ 65536 := by
  obtain ⟨e, m, he, hm, rfl, hw, hg⟩ := nfInit_good hash items devicesCount hinit
  rw [hM, Option.some.injEq] at hm
  rw [hE, Option.some.injEq] at he
  subst hm he
  constructor
  · intro hinv
    by_contra hn
    refine many_not_portsDistinct hg (wanDevice_ne hw) (by omega) (hinv _ ⟨fun p hp => ?_, ?_⟩ 0 fun p hp => ?_).1
    · obtain ⟨j, -, rfl⟩ := List.mem_map.mp hp
      exact ⟨le_refl 0, by simp [manyPacket, timeMax]⟩
    · rw [List.pairwise_map]
      exact List.pairwise_of_forall fun _ _ => le_refl 0
    · obtain ⟨j, -, rfl⟩ := List.mem_map.mp hp
      exact le_refl 0
  · intro hn ps hps time hle
    obtain ⟨now', hg', hnow⟩ := handleAll_good hg hps
    have htime := hnow time (Nat.zero_le time) hle
    exact ⟨hg'.portsDistinct hn htime, fun p hp _ => hg'.answered hn (hp ▸ htime)⟩

/-- The theorem at a table of 2 flows. -/
theorem nat_invertible_iff_two :
    ∃ s, nfInit [("external addr", 0), ("wan device", 1), ("max flows", 2), ("expiration time", 5),
        ("start port", 1024)] 2 = some s ∧ Invertible (fun _ => 0) 5 s :=
  ⟨_, rfl, (nat_invertible_iff (fun _ => 0) [("external addr", 0), ("wan device", 1), ("max flows", 2),
    ("expiration time", 5), ("start port", 1024)] 2 rfl rfl rfl).mpr (by decide)⟩

/-- A table of 65537 flows that 65537 flows fill at time 0: two of them have
the same port. -/
theorem nat_not_invertible :
    ∃ s, nfInit [("external addr", 0), ("wan device", 1), ("max flows", 65537), ("expiration time", 5),
        ("start port", 1024)] 2 = some s ∧
      ¬ ((Run.start s).handleAll (fun _ => 0) ((List.range 65537).map (manyPacket 0))).PortsDistinct 5 0 := by
  refine ⟨_, rfl, ?_⟩
  obtain ⟨e, m, he, hm, -, -, hg⟩ := nfInit_good (fun _ => 0) [("external addr", 0), ("wan device", 1),
    ("max flows", 65537), ("expiration time", 5), ("start port", 1024)] 2 rfl
  rw [show osConfigGetSize _ "max flows" = some 65537 from rfl, Option.some.injEq] at hm
  rw [show osConfigGetTime _ "expiration time" = some 5 from rfl, Option.some.injEq] at he
  subst hm he
  exact many_not_portsDistinct hg (by decide) (by omega)

/-! ### Dropped packets -/

/-- The map, the flows and the timestamps are the same; so the same indexes
are in use at any time. -/
structure Untouched (s s' : State) : Prop where
  map : s'.table.map = s.table.map
  flows : s'.table.keys = s.table.keys
  timestamps : s'.table.pool.timestamps = s.table.pool.timestamps
  used : ∀ time i, indexPoolUsed s'.table.pool time i = indexPoolUsed s.table.pool time i

theorem Untouched.refl (s : State) : Untouched s s := ⟨rfl, rfl, rfl, fun _ _ => rfl⟩

/-- The flow is not the one the packet from outside claims to answer. -/
def Spoofed (packet : NetPacket) (ipv4 tcpudp : ℕ) (flow : Flow) : Prop :=
  flow.dstIp ≠ srcAddr packet.data ipv4 ∨ flow.dstPort ≠ srcPort packet.data tcpudp ∨
    flow.protocol ≠ nextProtoId packet.data ipv4

/-- A spoofed packet from outside to the port of an index in use that was
last refreshed at another time. -/
def SpoofedRefresh (s : State) (packet : NetPacket) : Prop :=
  ∃ ipv4 tcpudp, flowHeaders packet = some (ipv4, tcpudp) ∧ packet.device = s.wanDevice ∧
    indexPoolUsed s.table.pool packet.time (dstPort packet.data tcpudp - s.table.startPort).toNat = true ∧
    Spoofed packet ipv4 tcpudp (s.table.key (dstPort packet.data tcpudp - s.table.startPort).toNat) ∧
    s.table.pool.timestamp (dstPort packet.data tcpudp - s.table.startPort).toNat ≠ packet.time

theorem reachable_good {items : ConfigItems} {devicesCount : UInt16} {s : State}
    (h : Reachable hash items devicesCount s) :
    ∃ E n now given last, Run.Good hash E n now ⟨s, given, last⟩ := by
  obtain ⟨s0, ps, hinit, hps, rfl⟩ := h
  obtain ⟨e, m, -, -, -, -, hg⟩ := nfInit_good hash items devicesCount hinit
  obtain ⟨now, hg', -⟩ := handleAll_good hg hps
  exact ⟨e, m, now, _, _, hg'⟩

/-- From inside, only a packet for which there is no index is dropped. -/
theorem getInternal_none {t : FlowTable} {time : ℕ} {flow : Flow}
    (h : flowTableGetInternal hash table time flow = (none, t)) : t = table := by
  unfold flowTableGetInternal at h
  cases hf : table.find hash flow with
  | some index => rw [hf] at h; cases h
  | none =>
    rw [hf] at h
    rcases hins : table.insert hash time flow with ⟨_ | index, t'⟩
    · rw [hins] at h
      cases h
      rw [KeyedPool.Inv.insert_none hins]
    · rw [hins] at h; cases h

/-- A refresh at the time stored already, and no other, changes nothing. -/
theorem untouched_refresh_iff {s : State} (hwf : s.table.pool.Wf) {index : ℕ} (hi : index < s.table.pool.size)
    (time : ℕ) :
    Untouched s { s with table := { s.table with toKeyedPool := s.table.refresh time index } } ↔
      s.table.pool.timestamp index = time := by
  have hiff := IndexPool.timestamps_setTimestamp_iff hwf hi time
  refine ⟨fun h => hiff.mp h.timestamps, fun h => ⟨rfl, rfl, hiff.mpr h, fun t i => ?_⟩⟩
  have hpool : indexPoolRefresh s.table.pool time index = s.table.pool := by
    have hts := hiff.mpr h
    unfold indexPoolRefresh
    cases hp : s.table.pool
    simp only [IndexPool.setTimestamp, hp] at hts ⊢
    rw [hts]
  exact congrArg (indexPoolUsed · t i) hpool

/-- **A dropped packet leaves the table untouched** exactly when it is not a
spoofed one that refreshes an index: the check comes after the refresh. -/
theorem dropped_untouched_iff (hash : Flow → UInt32) (items : ConfigItems) (devicesCount : UInt16) (s : State)
    (hs : Reachable hash items devicesCount s) (packet : NetPacket) (hdrop : (nfHandle hash s packet).2 = none) :
    Untouched s (nfHandle hash s packet).1 ↔ ¬ SpoofedRefresh s packet := by
  obtain ⟨E, n, now, given, last, hg⟩ := reachable_good hs
  unfold nfHandle at hdrop ⊢
  cases hh : flowHeaders packet with
  | none =>
    refine iff_of_true (.refl s) ?_
    rintro ⟨_, _, hc, -⟩
    rw [hh] at hc; cases hc
  | some hdr =>
    obtain ⟨ipv4, tcpudp⟩ := hdr
    simp only [hh] at hdrop ⊢
    by_cases hd : packet.device = s.wanDevice
    · simp only [if_pos hd, flowTableGetExternal] at hdrop ⊢
      set index := (dstPort packet.data tcpudp - s.table.startPort).toNat with hindex
      by_cases hu : indexPoolUsed s.table.pool packet.time index = true
      · simp only [if_pos hu] at hdrop ⊢
        by_cases hsp : Spoofed packet ipv4 tcpudp (s.table.key index)
        · have hlt : index < s.table.pool.size := by
            obtain ⟨ts, hts, -⟩ := (IndexPool.used_iff _ _ _).mp hu
            exact IndexPool.items_lt hts
          have hcheck := hsp
          unfold Spoofed at hcheck
          rw [if_pos hcheck, untouched_refresh_iff hg.refines.inv.pool_wf hlt, ← not_ne_iff, not_iff_not]
          refine ⟨fun hne => ⟨ipv4, tcpudp, hh, hd, hu, hsp, hne⟩, ?_⟩
          rintro ⟨_, _, hh', -, -, -, hne⟩
          rw [hh] at hh'; cases hh'
          exact hne
        · have hcheck := hsp
          unfold Spoofed at hcheck
          rw [if_neg hcheck] at hdrop; cases hdrop
      · simp only [if_neg hu]
        refine iff_of_true (.refl s) ?_
        rintro ⟨_, _, hh', -, hu', -⟩
        rw [hh] at hh'; cases hh'
        exact hu hu'
    · simp only [if_neg hd] at hdrop ⊢
      rcases hint : flowTableGetInternal hash s.table packet.time (flowOf packet.data ipv4 tcpudp) with ⟨_ | port, t⟩
      · rw [getInternal_none hint]
        refine iff_of_true (.refl s) ?_
        rintro ⟨_, _, -, hd', -⟩
        exact hd hd'
      · rw [hint] at hdrop; cases hdrop

/-- A configuration of two flows that expire after 5. -/
def twoItems : ConfigItems :=
  [("external addr", 0), ("wan device", 1), ("max flows", 2), ("expiration time", 5), ("start port", 1024)]

/-- A packet from outside, to the port and from a source of its own. -/
def spoofPacket (time : ℕ) (port : UInt16) : NetPacket := ⟨flowFrame ⟨7, 0, 0, port, ipProtocolUdp⟩, 60, time, 1⟩

theorem reachable_firstFlow {s : State} (h : nfInit twoItems 2 = some s) :
    Reachable (fun _ => 0) twoItems 2 (nfHandle (fun _ => 0) s (manyPacket 0 0)).1 :=
  ⟨s, [manyPacket 0 0], h, ⟨by simp [manyPacket, timeMax], by simp⟩, rfl⟩

/-- After a flow from inside, a packet to another port. -/
theorem dropped_untouched_unknown :
    ∃ s, nfInit twoItems 2 = some s ∧
      Untouched (nfHandle (fun _ => 0) s (manyPacket 0 0)).1
        (nfHandle (fun _ => 0) (nfHandle (fun _ => 0) s (manyPacket 0 0)).1 (spoofPacket 4 1025)).1 := by
  refine ⟨_, rfl, (dropped_untouched_iff (fun _ => 0) twoItems 2 _ (reachable_firstFlow rfl)
    (spoofPacket 4 1025) (by decide)).mpr ?_⟩
  rintro ⟨_, _, hh, -, hu, -⟩
  obtain ⟨-, rfl⟩ := flowHeaders_some hh
  revert hu
  decide

/-- A flow of time 0, and a spoofed packet to its port at time 4: the flow
would not be in use at time 6 any more, and is. -/
theorem dropped_not_untouched :
    ∃ s, Reachable (fun _ => 0) twoItems 2 s ∧ (nfHandle (fun _ => 0) s (spoofPacket 4 1024)).2 = none ∧
      ¬ Untouched s (nfHandle (fun _ => 0) s (spoofPacket 4 1024)).1 ∧
      indexPoolUsed s.table.pool 6 0 = false ∧
      indexPoolUsed (nfHandle (fun _ => 0) s (spoofPacket 4 1024)).1.table.pool 6 0 = true := by
  obtain ⟨s, hs⟩ : ∃ s, nfInit twoItems 2 = some s := ⟨_, rfl⟩
  cases hs
  refine ⟨_, reachable_firstFlow rfl, by decide, fun h => ?_, by decide, by decide⟩
  have hused := h.used 6 0
  revert hused
  decide

end NatNf
end Klint
