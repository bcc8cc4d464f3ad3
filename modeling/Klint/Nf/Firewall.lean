/-
# The firewall

The flow table and the packet handler of `nf/firewall`. The abstract
firewall (`specHandle`) is an expiring set of flows: the time each flow was
last refreshed. `firewall_refines`: over every run the handler answers as
the abstract firewall does, the pool and the map agree on every index, and
the calls of the next packet meet their contracts.

Expired flows linger in the table until their index is borrowed again. They
are not live for the abstract firewall, which is what `flow_table_has_external`
checks with `index_pool_used`.
-/
import Klint.Net.Packet
import Klint.Os.Config
import Klint.Structs.KeyedPoolRefine

namespace Klint
namespace Firewall

open ExpiringSet

/-- `struct flow_table`: the flows, the map of their indexes and the pool
`port_allocator`. -/
abbrev FlowTable := KeyedPool Flow

def flowTableAlloc (expirationTime maxFlows : ℕ) : Option FlowTable :=
  keyedPoolAlloc Flow flowSize maxFlows expirationTime

variable (hash : Flow → UInt32)

def flowTableLearnInternal (table : FlowTable) (time : ℕ) (flow : Flow) : FlowTable :=
  match table.find hash flow with
  | some index => table.refresh time index
  | none => (table.insert hash time flow).2

def flowTableHasExternal (table : FlowTable) (time : ℕ) (flow : Flow) : Bool × FlowTable :=
  match table.find hash flow with
  | none => (false, table)
  | some index =>
    if indexPoolUsed table.pool time index then (true, table.refresh time index) else (false, table)

structure State where
  externalDevice : UInt16
  table : FlowTable

def nfInit (items : ConfigItems) (devicesCount : UInt16) : Option State :=
  if devicesCount ≠ 2 then none else do
    let externalDevice ← osConfigGetDevice items "external device" devicesCount
    let expirationTime ← osConfigGetTime items "expiration time"
    let maxFlows ← osConfigGetSize items "max flows"
    let table ← flowTableAlloc expirationTime maxFlows
    return { externalDevice := externalDevice, table := table }

/-- `net_transmit(packet, 1 - packet->device, 0)`. -/
def forward (packet : NetPacket) : NetTransmit where
  data := packet.data
  length := packet.length
  device := 1 - packet.device
  flags := .none

def nfHandle (s : State) (packet : NetPacket) : State × Option NetTransmit :=
  match flowHeaders packet with
  | none => (s, none)
  | some (ipv4, tcpudp) =>
    let flow := flowOf packet.data ipv4 tcpudp
    if packet.device = s.externalDevice then
      match flowTableHasExternal hash s.table packet.time flow.inverted with
      | (false, table) => ({ s with table := table }, none)
      | (true, table) => ({ s with table := table }, some (forward packet))
    else ({ s with table := flowTableLearnInternal hash s.table packet.time flow }, some (forward packet))

/-- The state after a run of packets, with what each one made the firewall
transmit. -/
def handleAll (s : State) : List NetPacket → State × List (Option NetTransmit)
  | [] => (s, [])
  | p :: ps => ((handleAll (nfHandle hash s p).1 ps).1, (nfHandle hash s p).2 :: (handleAll (nfHandle hash s p).1 ps).2)

/-! ### The contracts of the calls -/

/-- The calls of `flow_table_learn_internal` meet their preconditions. -/
def LearnInternalPre (maxFlows : ℕ) (table : FlowTable) (time : ℕ) (flow : Flow) : Prop :=
  match table.find hash flow with
  | some index => KeyedPool.RefreshPre table.pool time index
  | none => KeyedPool.InsertPre hash maxFlows table time flow

/-- The calls of `flow_table_has_external` meet their preconditions. -/
def HasExternalPre (table : FlowTable) (time : ℕ) (flow : Flow) : Prop :=
  ∀ index, table.find hash flow = some index → KeyedPool.RefreshPre table.pool time index

/-- The calls `nf_handle` makes for a packet meet their preconditions. -/
def HandlePre (maxFlows : ℕ) (s : State) (packet : NetPacket) : Prop :=
  match flowHeaders packet with
  | none => True
  | some (ipv4, tcpudp) =>
    if packet.device = s.externalDevice then
      HasExternalPre hash s.table packet.time (flowOf packet.data ipv4 tcpudp).inverted
    else LearnInternalPre hash maxFlows s.table packet.time (flowOf packet.data ipv4 tcpudp)

/-! ### The abstract firewall -/

open Classical in
/-- The specification, on the set of flows as the times of their last
refreshes. -/
noncomputable def specHandle (externalDevice : UInt16) (expirationTime maxFlows : ℕ) (last : Flow → Option ℕ)
    (packet : NetPacket) : (Flow → Option ℕ) × Option NetTransmit :=
  match flowHeaders packet with
  | none => (last, none)
  | some (ipv4, tcpudp) =>
    let flow := flowOf packet.data ipv4 tcpudp
    if packet.device = externalDevice then
      if Live (young expirationTime) last packet.time flow.inverted then
        (Function.update last flow.inverted (some packet.time), some (forward packet))
      else (last, none)
    else (touch (young expirationTime) maxFlows last packet.time flow, some (forward packet))

noncomputable def specAll (externalDevice : UInt16) (expirationTime maxFlows : ℕ) (last : Flow → Option ℕ) :
    List NetPacket → (Flow → Option ℕ) × List (Option NetTransmit)
  | [] => (last, [])
  | p :: ps =>
    let r := specHandle externalDevice expirationTime maxFlows last p
    ((specAll externalDevice expirationTime maxFlows r.1 ps).1,
      r.2 :: (specAll externalDevice expirationTime maxFlows r.1 ps).2)

/-! ### The refinement -/

variable {hash} {E n now : ℕ} {last : Flow → Option ℕ} {table : FlowTable}

theorem learnInternal_refines (h : table.Refines hash E n now last) (ht : now ≠ timeMax) (flow : Flow) :
    LearnInternalPre hash n table now flow ∧
      (flowTableLearnInternal hash table now flow).Refines hash E n now
        (touch (young E) n last now flow) := by
  unfold LearnInternalPre flowTableLearnInternal
  cases hf : table.find hash flow with
  | some index =>
    obtain ⟨hpre, -, href⟩ := h.refresh_found ht hf
    exact ⟨hpre, href⟩
  | none =>
    obtain ⟨hpre, href, -⟩ := h.insert_absent ht hf
    exact ⟨hpre, href⟩

theorem hasExternal_refines (h : table.Refines hash E n now last) (ht : now ≠ timeMax) (flow : Flow) :
    HasExternalPre hash table now flow ∧
      ((flowTableHasExternal hash table now flow).1 = true ↔ Live (young E) last now flow) ∧
      (flowTableHasExternal hash table now flow).2.Refines hash E n now
        (if (flowTableHasExternal hash table now flow).1 then Function.update last flow (some now) else last) := by
  have hlive := h.live_iff flow
  unfold HasExternalPre flowTableHasExternal
  cases hf : table.find hash flow with
  | none =>
    rw [hf] at hlive
    exact ⟨fun i hi => by simp at hi, by simp [hlive], by simpa using h⟩
  | some index =>
    obtain ⟨hpre, hnf, href⟩ := h.refresh_found ht hf
    rw [touch_of_not_full hnf] at href
    simp only [hf, Option.some.injEq, exists_eq_left'] at hlive
    refine ⟨fun i hi => by cases hi; exact hpre, ?_⟩
    by_cases hu : indexPoolUsed table.pool now index = true
    · simp only [hu, ↓reduceIte, true_iff]
      exact ⟨hlive.mpr hu, href⟩
    · simp only [hu, Bool.false_eq_true, ↓reduceIte, false_iff]
      exact ⟨fun hl => hu (hlive.mp hl), h⟩

/-- One packet. -/
theorem handle_refines {s : State} (h : s.table.Refines hash E n now last) {p : NetPacket}
    (hle : now ≤ p.time) (ht : p.time ≠ timeMax) :
    HandlePre hash n s p ∧ (nfHandle hash s p).2 = (specHandle s.externalDevice E n last p).2 ∧
      (nfHandle hash s p).1.externalDevice = s.externalDevice ∧
      (nfHandle hash s p).1.table.Refines hash E n p.time (specHandle s.externalDevice E n last p).1 := by
  have hl := h.later hle
  unfold HandlePre nfHandle specHandle
  cases flowHeaders p with
  | none => exact ⟨trivial, rfl, rfl, hl⟩
  | some hdr =>
    obtain ⟨ipv4, tcpudp⟩ := hdr
    by_cases hd : p.device = s.externalDevice
    · obtain ⟨hpre, hlive, href⟩ := hasExternal_refines hl ht (flowOf p.data ipv4 tcpudp).inverted
      simp only [hd, ↓reduceIte]
      refine ⟨hpre, ?_⟩
      rcases hr : flowTableHasExternal hash s.table p.time (flowOf p.data ipv4 tcpudp).inverted with ⟨b, t⟩
      rw [hr] at hlive href
      cases b with
      | false =>
        have hn : ¬ Live (young E) last p.time (flowOf p.data ipv4 tcpudp).inverted := by simpa using hlive
        simp only [if_neg hn]
        exact ⟨trivial, trivial, by simpa using href⟩
      | true =>
        simp only [if_pos (hlive.mp rfl)]
        exact ⟨trivial, trivial, by simpa using href⟩
    · obtain ⟨hpre, href⟩ := learnInternal_refines hl ht (flowOf p.data ipv4 tcpudp)
      simp only [hd, ↓reduceIte]
      exact ⟨hpre, trivial, trivial, href⟩

theorem handleAll_refines : ∀ {ps : List NetPacket} {s : State} {now : ℕ} {last : Flow → Option ℕ},
    s.table.Refines hash E n now last → (∀ p ∈ ps, now ≤ p.time ∧ p.time ≠ timeMax) →
    ps.Pairwise (fun p q => p.time ≤ q.time) →
    (handleAll hash s ps).2 = (specAll s.externalDevice E n last ps).2 ∧
      (handleAll hash s ps).1.externalDevice = s.externalDevice ∧
      ∃ now', (∀ t, now ≤ t → (∀ p ∈ ps, p.time ≤ t) → now' ≤ t) ∧
        (handleAll hash s ps).1.table.Refines hash E n now' (specAll s.externalDevice E n last ps).1
  | [], s, now, last, h, _, _ => ⟨rfl, rfl, now, fun _ ht _ => ht, h⟩
  | p :: ps, s, now, last, h, hps, hmono => by
    rw [List.pairwise_cons] at hmono
    obtain ⟨hp1, hp2⟩ := hps p List.mem_cons_self
    obtain ⟨-, hout, hdev, href⟩ := handle_refines h hp1 hp2
    obtain ⟨ih1, ih2, now', ih3, ih4⟩ := handleAll_refines href
      (fun q hq => ⟨hmono.1 q hq, (hps q (List.mem_cons_of_mem _ hq)).2⟩) hmono.2
    rw [hdev] at ih1 ih2 ih4
    refine ⟨?_, ih2, now', fun t _ h2 => ih3 t (h2 p List.mem_cons_self) fun q hq =>
      h2 q (List.mem_cons_of_mem _ hq), ih4⟩
    simp only [handleAll, specAll, hout, ih1]

theorem nfInit_refines (hash : Flow → UInt32) {items : ConfigItems} {devicesCount : UInt16} {s : State}
    (h : nfInit items devicesCount = some s) :
    ∃ expirationTime maxFlows, osConfigGetTime items "expiration time" = some expirationTime ∧
      osConfigGetSize items "max flows" = some maxFlows ∧
      s.table.Refines hash expirationTime maxFlows 0 fun _ => none := by
  unfold nfInit at h
  split_ifs at h
  simp only [Option.pure_def, Option.bind_eq_bind, Option.bind_eq_some_iff, Option.some.injEq] at h
  obtain ⟨d, -, e, he, m, hm, t, ht, rfl⟩ := h
  obtain ⟨t', ht', href⟩ := KeyedPool.alloc_refines hash flowSize e (osConfigGetSize_le hm)
  rw [flowTableAlloc, ht', Option.some.injEq] at ht
  subst ht
  exact ⟨e, m, he, hm, href⟩

/-- **The firewall refines an expiring set of flows of bounded capacity.** On
every run from `nf_init`, for any hash, the packets get the answers of the
abstract firewall; after it the pool has a timestamp at index `i` exactly
when the map binds `flows[i]` to `i`, a flow is live in the abstract set at a
later time exactly when its index is used, and every call made for a later
packet meets its precondition. -/
theorem firewall_refines (hash : Flow → UInt32) (items : ConfigItems) (devicesCount : UInt16)
    {expirationTime maxFlows : ℕ} {s : State} (hinit : nfInit items devicesCount = some s)
    (hE : osConfigGetTime items "expiration time" = some expirationTime)
    (hM : osConfigGetSize items "max flows" = some maxFlows) (ps : List NetPacket)
    (hmono : ps.Pairwise fun p q => p.time ≤ q.time) (hmax : ∀ p ∈ ps, p.time ≠ timeMax) :
    let s' := (handleAll hash s ps).1
    let last := (specAll s.externalDevice expirationTime maxFlows (fun _ => none) ps).1
    (handleAll hash s ps).2 = (specAll s.externalDevice expirationTime maxFlows (fun _ => none) ps).2 ∧
      (∀ i, (s'.table.pool.items i).isSome ↔
        mapGet hash (keyMem s'.table.keys) s'.table.map (.elem i) = some i) ∧
      ∀ time, (∀ p ∈ ps, p.time ≤ time) →
        (∀ flow, Live (young expirationTime) last time flow ↔
          ∃ i, s'.table.find hash flow = some i ∧ indexPoolUsed s'.table.pool time i = true) ∧
        ∀ p : NetPacket, p.time = time → time ≠ timeMax → HandlePre hash maxFlows s' p := by
  obtain ⟨e, m, he, hm, href⟩ := nfInit_refines hash hinit
  rw [hE, Option.some.injEq] at he
  rw [hM, Option.some.injEq] at hm
  subst he hm
  obtain ⟨h1, -, now', h3, h4⟩ := handleAll_refines href (fun p hp => ⟨Nat.zero_le _, hmax p hp⟩) hmono
  refine ⟨h1, fun i => h4.inv.bound_iff i, fun time htime => ⟨fun flow => ?_, fun p hp ht => ?_⟩⟩
  · exact (h4.later (h3 time (Nat.zero_le _) htime)).live_iff flow
  · exact (handle_refines h4 (h3 p.time (Nat.zero_le _) (hp ▸ htime)) (hp ▸ ht)).1

/-- The theorem at a table of one flow: a packet from inside, the answer to it
and the same answer once the flow has expired. -/
theorem firewall_refines_one :
    let f : Flow := ⟨0x0100000a, 0x08080808, 5000, 53, 17⟩
    let ps : List NetPacket := [⟨flowFrame f, 60, 0, 0⟩, ⟨flowFrame f.inverted, 60, 5, 1⟩,
      ⟨flowFrame f.inverted, 60, 11, 1⟩]
    ∃ s, nfInit [("external device", 1), ("expiration time", 5), ("max flows", 1)] 2 = some s ∧
      (handleAll (fun _ => 0) s ps).2 = (specAll 1 5 1 (fun _ => none) ps).2 :=
  ⟨_, rfl, (firewall_refines (fun _ => 0) [("external device", 1), ("expiration time", 5), ("max flows", 1)] 2
    rfl rfl rfl _ (by simp) (by simp [timeMax])).1⟩

end Firewall
end Klint
