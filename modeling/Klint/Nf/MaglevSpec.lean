/-
# When the load balancer meets its specification

`nf/maglev/spec.py`. A packet that is not forwarded is to find no backend in the map of the
backends, and that map is the pool's, where a backend that has expired stays until it is
heard of again. So the specification fails for a packet that is dropped because all backends
have expired (`maglev_meets_spec_iff`), and for no other.
-/
import Klint.Lib.Monitor
import Klint.Nf.MaglevState
import Klint.Tool.SpecTables

namespace Klint
namespace Maglev

open Tool

/-! ### The specification -/

/-- A packet for the backends. -/
def specFlow (flows : SpecExpiringSet) (backends : SpecMap) (last : SpecNum) (packet : SpecPacket) (flow : SpecItem) :
    Option SpecPacket → Except String Unit
  | none => do
    specAssert (← backends.all fun k _ => do
      let k ← k.toNum
      return k.lt (k.int 0) || k.ge last) ""
  | some transmitted => do
    if !(← flows.contains flow) then
      specAssert (← flows.old.full) ""
      specAssert (transmitted.map.eq packet.map) ""
    else specAssert (transmitted.map.eq packet.map) ""

/-- A heartbeat. -/
def specHeartbeat (backends : SpecMap) (packet : SpecPacket) : Except String Unit := do
  let device ← packet.device
  specAssert (← backends.contains (.num device)) ""
  specAssert ((← (← backends.getItem (.num device)).toNum).eq (← packet.receivedTime)) ""

/-- `spec`, with the maps chosen for `flows` and `backends`. -/
def spec (maps : ChosenSet) (backendsMap : ChosenMap) (packet : SpecPacket) (config : SpecConfig)
    (transmittedPacket : Option SpecPacket) : Except String Unit := do
  match ← packet.ipv4, ← packet.tcpudp with
  | some ipv4, some tcpudp =>
    let flows := SpecExpiringSet.new (some flowType) (← config.get "flow expiration time")
      (← config.get "flow capacity") (← packet.receivedTime) maps
    let backends : SpecMap := ⟨none, none, backendsMap⟩
    let last := config.devices.sub (config.devices.int 1)
    if (← packet.device).eq last then
      let flow := flowItem (← ipv4.getAttr "src") (← ipv4.getAttr "dst") (← tcpudp.getAttr "src")
        (← tcpudp.getAttr "dst") (← ipv4.getAttr "protocol")
      specFlow flows backends last packet flow transmittedPacket
    else specHeartbeat backends packet
  | _, _ => specAssert transmittedPacket.isNone ""

variable (hash : Flow → UInt32)

/-- The specification of the answer to a packet, on the balancer's own table and pool before and after. -/
def checkSpec (items : ConfigItems) (s : State) (packet : NetPacket) : Except String Unit :=
  let s' := (nfHandle hash s packet).1
  specWrapper (spec (tableMaps flowLayout s.balancer.flows s'.balancer.flows)
      ⟨64, poolItems s'.balancer.backendPool, poolItems s.balancer.backendPool⟩) ⟨items, s.devicesCount⟩ packet
    ((nfHandle hash s packet).2.toList.map Transmission.ofCall)

/-- If the packet is for the backends and there is none to choose, no backend is in the pool. -/
def SpecOk (s : State) (packet : NetPacket) : Prop :=
  ∀ flow, flowPacket s packet = some flow → (balancerGetBackend hash s.balancer flow packet.time).1 = none →
    ∀ i, s.balancer.backendPool.items i = none

variable {hash} {E n now : ℕ} {s : State} {p : NetPacket} {items : ConfigItems}

/-! ### One packet -/

/-- What `nf_init` read, and the number of devices. -/
structure Configured (items : ConfigItems) (E n : ℕ) (s : State) : Prop where
  expiration : (SpecConfig.mk items s.devicesCount).get "flow expiration time" = .ok (SpecNum.nat64 E)
  capacity : (SpecConfig.mk items s.devicesCount).get "flow capacity" = .ok (SpecNum.nat64 n)
  devices : 2 ≤ s.devicesCount

/-- The flows are seen by a specification, and the pool has an index for each backend. -/
structure State.Seen (hash : Flow → UInt32) (E n now : ℕ) (s : State) : Prop where
  flows : Tool.Seen hash E n now s.balancer.flows
  backend_wf : s.balancer.backendPool.Wf
  backend_size : s.balancer.backendPool.size = (s.devicesCount - 1).toNat

theorem sub_one_devices (count : UInt16) :
    (SpecNum.u16 count).sub ((SpecNum.u16 count).int 1) = SpecNum.u16 (count - 1) := rfl

/-- The specification of a TCP or UDP packet, with what it reads. -/
theorem spec_flow (hc : Configured items E n s) (hh : flowHeaders p = some (14, 34)) (before after : KeyedPool Flow)
    (backendsMap : ChosenMap) (transmitted : Option SpecPacket) :
    spec (tableMaps flowLayout before after) backendsMap (receivedPacket p) ⟨items, s.devicesCount⟩ transmitted =
      if p.device = s.devicesCount - 1 then
        specFlow (tableSet flowLayout E n p.time before after) ⟨none, none, backendsMap⟩
          (SpecNum.u16 (s.devicesCount - 1)) (receivedPacket p) (flowLayout.item (flowOf p.data 14 34)) transmitted
      else specHeartbeat ⟨none, none, backendsMap⟩ (receivedPacket p) := by
  obtain ⟨-, -, hipv4, htcpudp⟩ := received_flow hh
  have hdev : (SpecNum.u16 p.device).eq (SpecNum.u16 (s.devicesCount - 1)) = decide (p.device = s.devicesCount - 1) :=
    eq_u16 _ _
  simp only [spec, hipv4, htcpudp, hc.expiration, hc.capacity, received_time, received_device, bind, Except.bind,
    SpecConfig.devices, sub_one_devices, hdev, received_src, received_dst, received_protocol, received_srcPort,
    received_dstPort, decide_eq_true_iff]
  rfl

/-- A heartbeat is recorded. -/
theorem heartbeat_spec {pool : IndexPool} {before : List (SpecNum × SpecNum)} (hsize : pool.size < 2 ^ 64)
    (hnow : pool.items p.device.toNat = some p.time) (ht : p.time < 2 ^ 64) :
    specHeartbeat ⟨none, none, 64, poolItems pool, before⟩ (receivedPacket p) = .ok () := by
  have hlookup := @lookup_poolItems pool hsize p.device.toNat (p.device.toNat_lt.trans (by decide))
  rw [hnow] at hlookup
  have heq : (SpecNum.nat64 p.time).eq (SpecNum.nat64 p.time) = true := by rw [eq_nat64 ht ht, decide_eq_true rfl]
  simp only [specHeartbeat, received_device, received_time, SpecMap.contains, SpecMap.getItem, unwrap_u16, bind,
    Except.bind, Except.map, hlookup, Option.map_some, Option.isSome_some, specAssert, ↓reduceIte, SpecItem.wrap,
    SpecItem.toNum, heq]

/-- A dropped packet meets the specification when the pool has no backend. -/
theorem dropped_spec {flows : SpecExpiringSet} {flow : SpecItem} {pool : IndexPool} {before : List (SpecNum × SpecNum)}
    {last : UInt16} (hsize : pool.size = last.toNat) (packet : SpecPacket) :
    specFlow flows ⟨none, none, 64, poolItems pool, before⟩ (SpecNum.u16 last) packet flow none = .ok () ↔
      ∀ i, pool.items i = none := by
  have hlast := last.toNat_lt
  have hall := @allOf_num ⟨none, none, 64, poolItems pool, before⟩ rfl rfl
    (fun k _ => do
      let k ← k.toNum
      return k.lt (k.int 0) || k.ge (SpecNum.u16 last))
    (fun k _ => k.lt (k.int 0) || k.ge (SpecNum.u16 last)) (fun _ _ => rfl) (poolItems pool)
  have hnone : ∀ i ts, pool.items i = some ts →
      ((SpecNum.nat64 i).lt ((SpecNum.nat64 i).int 0) || (SpecNum.nat64 i).ge (SpecNum.u16 last)) = false := by
    intro i ts hts
    have hi : i < last.toNat := hsize ▸ IndexPool.items_lt hts
    have hlt : (SpecNum.nat64 i).lt ((SpecNum.nat64 i).int 0) = false := by
      rw [show (SpecNum.nat64 i).int 0 = SpecNum.nat64 0 from rfl, lt_nat64 (by omega) (by decide)]
      exact decide_eq_false (Nat.not_lt_zero i)
    rw [hlt, ge_nat64_u16 (by omega), Bool.false_or]
    exact decide_eq_false (by omega)
  simp only [specFlow, SpecMap.all, bind, Except.bind] at hall ⊢
  rw [hall]
  simp only [specAssert]
  constructor
  · intro h i
    cases hts : pool.items i with
    | none => rfl
    | some ts =>
      split_ifs at h with htrue
      have := List.all_eq_true.mp htrue _ (mem_poolItems.mpr ⟨i, ts, hts, rfl, rfl⟩)
      rw [hnone i ts hts] at this
      cases this
  · intro h
    rw [if_pos]
    rw [List.all_eq_true]
    rintro ⟨a, b⟩ hmem
    obtain ⟨i, ts, hts, -, -⟩ := mem_poolItems.mp hmem
    rw [h i] at hts
    cases hts

/-- What a call does to the flows, as the specification sees them. -/
structure Served (hash : Flow → UInt32) (E n now : ℕ) (before after : KeyedPool Flow) (flow : Flow)
    (backend : Option UInt16) : Prop where
  seen : Tool.Seen hash E n now after
  /-- A flow that gets a backend is in the table with the time of the packet, or every index was used. -/
  stored : ∀ b, backend = some b → (∃ i, after.find hash flow = some i ∧ after.pool.items i = some now) ∨
    (after = before ∧ before.find hash flow = none ∧ ∀ i, i < n → indexPoolUsed before.pool now i = true)

/-- A discarded index can be borrowed. -/
theorem discard_seen {t : KeyedPool Flow} (h : Tool.Seen hash E n now t) {flow : Flow} {i : ℕ}
    (hf : t.find hash flow = some i) :
    Tool.Seen hash E n now (t.discard hash i) ∧ (t.discard hash i).find hash flow = none ∧
      ¬ indexPoolUsed (t.discard hash i).pool now i = true ∧ i < n := by
  obtain ⟨⟨ts, hts⟩, hkey⟩ := h.inv.find_iff.mp hf
  obtain ⟨-, hinv, hitems⟩ := h.inv.discard (by rw [hts]; rfl : (t.pool.items i).isSome)
  have hgone : (t.discard hash i).pool.items i = none := by rw [hitems, Function.update_self]
  refine ⟨⟨hinv, h.expiration, fun j ts' hj => ?_⟩, hinv.find_none.mpr fun j ts' hj hk => ?_, fun hu => ?_,
    h.inv.lt_of_items hts⟩
  · rw [hitems] at hj
    by_cases hji : j = i
    · rw [hji, Function.update_self] at hj
      cases hj
    · rw [Function.update_of_ne hji] at hj
      exact h.times j ts' hj
  · by_cases hji : j = i
    · rw [hji, hgone] at hj
      cases hj
    · rw [hitems, Function.update_of_ne hji] at hj
      exact hji (h.inv.key_inj hj hts (hk.trans hkey.symm))
  · obtain ⟨ts', hts', -⟩ := (IndexPool.used_iff _ _ _).mp hu
    rw [hgone] at hts'
    cases hts'

theorem choose_served {balancer : Balancer} {flow : Flow} (h : Tool.Seen hash E n now balancer.flows)
    (ht : now ≠ timeMax) (hf : balancer.flows.find hash flow = none) :
    Served hash E n now balancer.flows (balancerChoose hash balancer flow now).2.flows flow
      (balancerChoose hash balancer flow now).1 := by
  unfold balancerChoose
  cases chtFindPreferredAvailableBackend balancer.cht (hash flow) balancer.backendPool now with
  | none => exact ⟨h, fun b hb => by cases hb⟩
  | some backend =>
    rcases h.insert ht hf with ⟨i, t', he, -, -, hs', hf', hnow⟩ | ⟨he, hall⟩
    · simp only [he]
      exact ⟨hs', fun _ _ => .inl ⟨i, hf', hnow⟩⟩
    · simp only [he]
      exact ⟨h, fun _ _ => .inr ⟨rfl, hf, hall⟩⟩

theorem getBackend_served {balancer : Balancer} (h : Tool.Seen hash E n now balancer.flows) (ht : now ≠ timeMax)
    (flow : Flow) :
    Served hash E n now balancer.flows (balancerGetBackend hash balancer flow now).2.flows flow
      (balancerGetBackend hash balancer flow now).1 := by
  unfold balancerGetBackend
  cases hf : balancer.flows.find hash flow with
  | none => exact choose_served h ht hf
  | some i =>
    by_cases hu : indexPoolUsed balancer.backendPool now (balancer.backendAt i).toNat = true
    · obtain ⟨hs', hf', hnow⟩ := h.refresh ht hf
      simp only [hu, ↓reduceIte]
      exact ⟨hs', fun _ _ => .inl ⟨i, hf', hnow⟩⟩
    · obtain ⟨hs', hf', hfree, hin⟩ := discard_seen h hf
      have hserved :=
        @choose_served hash E n now { balancer with flows := balancer.flows.discard hash i } flow hs' ht hf'
      simp only [hu, Bool.false_eq_true, ↓reduceIte]
      refine ⟨hserved.seen, fun b hb => (hserved.stored b hb).imp_right fun hc => ?_⟩
      -- the index that was discarded is free
      exact absurd (hc.2.2 i hin) hfree

/-- A packet that is forwarded meets the specification. -/
theorem forwarded_spec {before after : KeyedPool Flow} {flow : Flow} {b : UInt16} {packet transmitted : SpecPacket}
    {backends : SpecMap} {last : SpecNum} (hs : Tool.Seen hash E n now before) (hp : Params64 E n now)
    (h : Served hash E n now before after flow (some b)) (hdata : transmitted.map.eq packet.map = true) :
    specFlow (tableSet flowLayout E n now before after) backends last packet (flowLayout.item flow)
      (some transmitted) = .ok () := by
  have hcontains := contains_table before (L := flowLayout) h.seen hp flow
  rcases h.stored b rfl with ⟨i, hf, hnow⟩ | ⟨rfl, hf, hall⟩
  · have hu : indexPoolUsed after.pool now i = true :=
      (IndexPool.used_iff _ _ _).mpr ⟨now, hnow, poolYoung_self _ _⟩
    simp only [hf, hu] at hcontains
    simp only [specFlow, hcontains, bind, Except.bind, Bool.not_true, Bool.false_eq_true, ↓reduceIte, specAssert, hdata]
  · have hfull := full_table after (L := flowLayout) hs hp
    rw [decide_eq_true hall] at hfull
    rw [hf] at hcontains
    simp only [specFlow, hcontains, tableSet_old, hfull, bind, Except.bind, Bool.not_false, ↓reduceIte, specAssert,
      hdata]

theorem handle_spec (hs : s.Seen hash E n now) (hc : Configured items E n s) (hp : Params64 E n p.time)
    (hle : now ≤ p.time) (ht : p.time ≠ timeMax) (hd : p.device < s.devicesCount) :
    (checkSpec hash items s p = .ok () ↔ SpecOk hash s p) ∧ (nfHandle hash s p).1.Seen hash E n p.time ∧
      (nfHandle hash s p).1.devicesCount = s.devicesCount := by
  have hl := hs.flows.later hle
  unfold checkSpec SpecOk flowPacket nfHandle
  cases hh : flowHeaders p with
  | none =>
    obtain ⟨header, hheader⟩ := received_ipv4 p
    refine ⟨iff_of_true ?_ (fun _ hc => by cases hc), ⟨hl, hs.backend_wf, hs.backend_size⟩, rfl⟩
    simp only [Option.toList_none, List.map_nil, specWrapper, spec, hheader, received_tcpudp hh, bind, Except.bind]
    rfl
  | some hdr =>
    obtain ⟨ipv4, tcpudp⟩ := hdr
    obtain ⟨rfl, rfl, -, -⟩ := received_flow hh
    have hsize : s.balancer.backendPool.size < 2 ^ 64 :=
      hs.backend_size ▸ (UInt16.toNat_lt _).trans (by decide)
    by_cases hbackend : p.device < s.devicesCount - 1
    · have hne : p.device ≠ s.devicesCount - 1 := fun hc => by
        rw [hc] at hbackend
        exact absurd (UInt16.lt_iff_toNat_lt.mp hbackend) (lt_irrefl _)
      have hlt : p.device.toNat < s.balancer.backendPool.size := hs.backend_size ▸ UInt16.lt_iff_toNat_lt.mp hbackend
      simp only [if_pos hbackend]
      refine ⟨iff_of_true ?_ (fun _ hc => by cases hc),
        ⟨hl, IndexPool.setTimestamp_wf hs.backend_wf _ _, hs.backend_size⟩, trivial⟩
      simp only [Option.toList_none, List.map_nil, specWrapper, spec_flow hc hh, if_neg hne, balancerProcessHeartbeat]
      refine heartbeat_spec hsize ?_ hp.time
      rw [IndexPool.refresh_items hs.backend_wf ht hlt, Function.update_self]
    · have heq : p.device = s.devicesCount - 1 := by
        have h2 := UInt16.le_iff_toNat_le.mp hc.devices
        have h1 := UInt16.lt_iff_toNat_lt.mp hd
        rw [UInt16.lt_iff_toNat_lt, UInt16.toNat_sub_of_le _ _ (UInt16.le_trans (by decide) hc.devices)] at hbackend
        rw [← UInt16.toNat_inj, UInt16.toNat_sub_of_le _ _ (UInt16.le_trans (by decide) hc.devices)]
        change ¬ p.device.toNat < s.devicesCount.toNat - 1 at hbackend
        change p.device.toNat = s.devicesCount.toNat - 1
        omega
      have hserved := getBackend_served hl ht (flowOf p.data 14 34)
      obtain ⟨-, -, hpool, -⟩ := getBackend_spec hl.inv ht (flowOf p.data 14 34)
      simp only [if_neg hbackend]
      rcases hres : balancerGetBackend hash s.balancer (flowOf p.data 14 34) p.time with ⟨_ | b, balancer⟩
      · rw [hres] at hserved hpool
        simp only at hserved hpool
        refine ⟨?_, ⟨hserved.seen, hpool ▸ hs.backend_wf, by rw [hpool]; exact hs.backend_size⟩, rfl⟩
        simp only [Option.toList_none, List.map_nil, specWrapper, spec_flow hc hh, if_pos heq, hpool]
        rw [dropped_spec hs.backend_size]
        simp [hres]
      · rw [hres] at hserved hpool
        simp only at hserved hpool
        refine ⟨?_, ⟨hserved.seen, hpool ▸ hs.backend_wf, by rw [hpool]; exact hs.backend_size⟩, rfl⟩
        simp only [Option.toList_some, List.map_cons, List.map_nil, specWrapper, spec_flow hc hh, if_pos heq]
        refine iff_of_true (forwarded_spec hl hp hserved ((PacketMap.eq_iff rfl).mpr fun _ _ => rfl)) ?_
        intro flow hflow hnone
        rw [Option.some.injEq] at hflow
        rw [← hflow, hres] at hnone
        cases hnone

/-! ### Every run -/

theorem nfInit_spec (hash : Flow → UInt32) {devicesCount : UInt16} (h : nfInit items devicesCount = some s) :
    s.devicesCount = devicesCount ∧
      ∃ E n, Configured items E n s ∧ E < 2 ^ 64 ∧ n * 64 ≤ sizeMax ∧ s.Seen hash E n 0 := by
  unfold nfInit at h
  split_ifs at h with hd
  simp only [Option.pure_def, Option.bind_eq_bind, Option.bind_eq_some_iff] at h
  obtain ⟨n, hn, ch, -, be, -, E, hE, h⟩ := h
  split_ifs at h
  simp only [balancerAlloc, Option.bind_eq_some_iff, Option.map_eq_some_iff, Option.some.injEq] at h
  obtain ⟨_, ⟨t, ht, rfl⟩, rfl⟩ := h
  obtain ⟨t', ht', hinv, hitems, hx⟩ := KeyedPool.keyedPoolAlloc_inv (K := Flow) flowSize E (osConfigGetSize_le hn)
  rw [ht] at ht'
  cases ht'
  obtain ⟨hlt, htime⟩ := SpecConfig.get_time hE
  refine ⟨rfl, E, n, ⟨htime, SpecConfig.get_size hn, UInt16.not_lt.mp hd⟩, hlt, osConfigGetSize_le hn,
    ⟨hinv hash, hx, fun i ts hts => ?_⟩, IndexPool.alloc_wf _ _, rfl⟩
  rw [hitems] at hts
  cases hts

/-- **When the load balancer meets its specification.** On every run from `nf_init`, for any hash, no assertion of
`spec.py` fails exactly when no packet is dropped while an expired backend is still in the pool: `flows` is made of
the balancer's map, array and pool, and `backends` is the backends' pool. -/
theorem maglev_meets_spec_iff (hash : Flow → UInt32) (items : ConfigItems) (devicesCount : UInt16)
    (hinit : nfInit items devicesCount = some s) (ps : List NetPacket)
    (hmono : ps.Pairwise fun p q => p.time ≤ q.time) (hps : ∀ p ∈ ps, p.time < timeMax ∧ p.device < devicesCount) :
    Monitor.checkAll (fun s p => (nfHandle hash s p).1) (checkSpec hash items) s ps = .ok () ↔
      Monitor.Always (fun s p => (nfHandle hash s p).1) (SpecOk hash) s ps := by
  obtain ⟨hcount, E, n, hc, hE, hn, hs⟩ := nfInit_spec hash hinit
  refine Monitor.checkAll_iff NetPacket.time
    (fun s now => s.devicesCount = devicesCount ∧ Configured items E n s ∧ s.Seen hash E n now)
    (fun p => p.time < timeMax ∧ p.device < devicesCount) ?_ ⟨hcount, hc, hs⟩
    (fun p hp => ⟨Nat.zero_le _, hps p hp⟩) hmono
  rintro s now p ⟨hcount, hc, hs⟩ hle ⟨ht, hd⟩
  have hp : Params64 E n p.time := ⟨hE, hn, ht.trans (by decide)⟩
  obtain ⟨hcheck, hs', hsame⟩ := handle_spec hs hc hp hle ht.ne (hcount ▸ hd)
  exact ⟨hcheck, hsame.trans hcount, ⟨hsame ▸ hc.expiration, hsame ▸ hc.capacity, hsame ▸ hc.devices⟩, hs'⟩

/-- The theorem at a run that does not meet it: the only backend expires, and a packet is dropped. -/
theorem maglev_meets_spec_iff_expired : ∃ s, nfInit demoItems 3 = some s ∧
    ¬ Monitor.checkAll (fun s p => (nfHandle (fun _ => 0) s p).1) (checkSpec (fun _ => 0) demoItems) s
      [demoPacket 0 0, demoPacket 200 2] = .ok () := by
  refine ⟨_, rfl, fun h => ?_⟩
  have hok := (maglev_meets_spec_iff (fun _ => 0) demoItems 3 rfl _ (by simp [demoPacket])
    (by simp [demoPacket, timeMax])).mp h
  have hdropped := hok.2.1 demoFlow rfl rfl 0
  cases hdropped

end Maglev
end Klint
