/-
# The state of the load balancer

A call either uses a flow's mapping, or discards it if its backend is dead and
goes on to insert a new one. The table of flows stays within its invariant on
every path (`getBackend_spec`): after the discard, whether or not a backend is
found, whether the discarded index is borrowed again or another flow is evicted.

`balancer_state`: over every run the flow pool, the flows and the map agree, the
backend pool has the times of the last heartbeats, every call meets its
precondition, and a backend that is returned is alive.
-/
import Klint.Nf.Maglev

namespace Klint
namespace Maglev

variable (hash : Flow → UInt32)

/-! ### The preconditions of the calls -/

/-- The calls from "Get a backend from the CHT" on meet their preconditions. -/
def ChoosePre (flowCapacity : ℕ) (balancer : Balancer) (flow : Flow) (time : ℕ) : Prop :=
  ∀ backend, chtFindPreferredAvailableBackend balancer.cht (hash flow) balancer.backendPool time = some backend →
    KeyedPool.InsertPre hash flowCapacity balancer.flows time flow

/-- The calls of `balancer_get_backend` meet their preconditions. -/
def GetBackendPre (flowCapacity : ℕ) (balancer : Balancer) (flow : Flow) (time : ℕ) : Prop :=
  match balancer.flows.find hash flow with
  | some flowIndex =>
    if indexPoolUsed balancer.backendPool time (balancer.backendAt flowIndex).toNat then
      KeyedPool.RefreshPre balancer.flows.pool time flowIndex
    else
      KeyedPool.DiscardPre balancer.flows flowIndex ∧
        ChoosePre hash flowCapacity { balancer with flows := balancer.flows.discard hash flowIndex } flow time
  | none => ChoosePre hash flowCapacity balancer flow time

/-- The calls `nf_handle` makes for a packet meet their preconditions. -/
def HandlePre (flowCapacity : ℕ) (s : State) (packet : NetPacket) : Prop :=
  match flowHeaders packet with
  | none => True
  | some (ipv4, tcpudp) =>
    if packet.device < s.devicesCount - 1 then
      KeyedPool.RefreshPre s.balancer.backendPool packet.time packet.device.toNat
    else GetBackendPre hash flowCapacity s.balancer (flowOf packet.data ipv4 tcpudp) packet.time

/-- The state after a run of packets. -/
def handleAll (s : State) (ps : List NetPacket) : State := ps.foldl (fun s p => (nfHandle hash s p).1) s

/-- The times of the last heartbeats, after a packet. -/
def heartbeats (s : State) (last : ℕ → Option ℕ) (packet : NetPacket) : ℕ → Option ℕ :=
  if (flowHeaders packet).isSome ∧ packet.device < s.devicesCount - 1 then
    Function.update last packet.device.toNat (some packet.time)
  else last

variable {hash} {n : ℕ} {balancer : Balancer} {flow : Flow} {time : ℕ} {s : State} {p : NetPacket}

/-! ### One call -/

theorem choose_spec (h : balancer.flows.Inv hash n) (ht : time ≠ timeMax)
    (hf : balancer.flows.find hash flow = none) :
    ChoosePre hash n balancer flow time ∧ (balancerChoose hash balancer flow time).2.flows.Inv hash n ∧
      (balancerChoose hash balancer flow time).2.backendPool = balancer.backendPool ∧
      ∀ backend, (balancerChoose hash balancer flow time).1 = some backend →
        indexPoolUsed balancer.backendPool time backend.toNat = true := by
  refine ⟨fun _ _ => h.insertPre ht hf, ?_⟩
  unfold balancerChoose
  cases hc : chtFindPreferredAvailableBackend balancer.cht (hash flow) balancer.backendPool time with
  | none => exact ⟨h, rfl, fun b hb => by cases hb⟩
  | some backend =>
    refine ⟨?_, rfl, fun b hb => ?_⟩
    · rcases h.insert_cases ht hf with ⟨i, t', he, -, -, hinv, -⟩ | ⟨he, -⟩
      · simp only [he]
        exact hinv
      · simp only [he]
        exact h
    · cases hb
      exact (chtFind_iff.mp hc).1

/-- What a call does. -/
theorem getBackend_spec (h : balancer.flows.Inv hash n) (ht : time ≠ timeMax) (flow : Flow) :
    GetBackendPre hash n balancer flow time ∧ (balancerGetBackend hash balancer flow time).2.flows.Inv hash n ∧
      (balancerGetBackend hash balancer flow time).2.backendPool = balancer.backendPool ∧
      ∀ backend, (balancerGetBackend hash balancer flow time).1 = some backend →
        indexPoolUsed balancer.backendPool time backend.toNat = true := by
  unfold GetBackendPre balancerGetBackend
  cases hf : balancer.flows.find hash flow with
  | none => exact choose_spec h ht hf
  | some flowIndex =>
    obtain ⟨⟨ts, hts⟩, hkey⟩ := h.find_iff.mp hf
    have hsome : (balancer.flows.pool.items flowIndex).isSome := by rw [hts]; rfl
    by_cases hu : indexPoolUsed balancer.backendPool time (balancer.backendAt flowIndex).toNat = true
    · simp only [hu, ↓reduceIte]
      refine ⟨⟨ht, IndexPool.items_lt hts⟩, (h.refresh ht hsome).1, trivial, fun b hb => ?_⟩
      cases hb
      exact hu
    · simp only [hu, Bool.false_eq_true, ↓reduceIte]
      obtain ⟨hpre, hinv, hitems⟩ := h.discard hsome
      -- the flow has no mapping any more
      have hgone : (balancer.flows.discard hash flowIndex).find hash flow = none := by
        refine hinv.find_none.mpr fun i ts' hi hk => ?_
        rw [hitems] at hi
        by_cases hii : i = flowIndex
        · rw [hii, Function.update_self] at hi
          cases hi
        · rw [Function.update_of_ne hii] at hi
          exact hii (h.key_inj hi hts (hk.trans hkey.symm))
      obtain ⟨h1, h2, h3, h4⟩ := @choose_spec hash n { balancer with flows := balancer.flows.discard hash flowIndex }
        flow time hinv ht hgone
      exact ⟨⟨hpre, h1⟩, h2, h3, h4⟩

/-! ### Runs -/

/-- The invariant of a run, with the times of the last heartbeats. -/
structure State.Inv (hash : Flow → UInt32) (n : ℕ) (s : State) (last : ℕ → Option ℕ) : Prop where
  flows : s.balancer.flows.Inv hash n
  backend_wf : s.balancer.backendPool.Wf
  backend_size : s.balancer.backendPool.size = (s.devicesCount - 1).toNat
  beats : s.balancer.backendPool.items = last

/-- A packet keeps the invariant, with the calls it makes in their preconditions. -/
theorem handle_inv {last : ℕ → Option ℕ} (h : s.Inv hash n last) (ht : p.time ≠ timeMax) :
    HandlePre hash n s p ∧ (nfHandle hash s p).1.Inv hash n (heartbeats s last p) ∧
      (nfHandle hash s p).1.devicesCount = s.devicesCount := by
  unfold HandlePre nfHandle heartbeats
  cases flowHeaders p with
  | none => exact ⟨trivial, by simpa using h, rfl⟩
  | some hdr =>
    obtain ⟨ipv4, tcpudp⟩ := hdr
    by_cases hd : p.device < s.devicesCount - 1
    · have hlt : p.device.toNat < s.balancer.backendPool.size := by
        rw [h.backend_size]
        exact UInt16.lt_iff_toNat_lt.mp hd
      simp only [hd, ↓reduceIte, Option.isSome_some, and_self]
      refine ⟨⟨ht, hlt⟩, ⟨h.flows, IndexPool.setTimestamp_wf h.backend_wf _ _, h.backend_size, ?_⟩, trivial⟩
      rw [← h.beats]
      exact IndexPool.refresh_items h.backend_wf ht hlt
    · simp only [hd, ↓reduceIte, and_false]
      obtain ⟨hpre, hinv, hpool, -⟩ := getBackend_spec h.flows ht (flowOf p.data ipv4 tcpudp)
      refine ⟨hpre, ?_⟩
      rcases hres : balancerGetBackend hash s.balancer (flowOf p.data ipv4 tcpudp) p.time with ⟨_ | b, balancer⟩
      all_goals
        rw [hres] at hinv hpool
        simp only at hinv hpool
        exact ⟨⟨hinv, hpool ▸ h.backend_wf, by rw [hpool]; exact h.backend_size, by rw [hpool]; exact h.beats⟩, rfl⟩

/-- The times of the last heartbeats of a run. -/
def heartbeatsAll (s : State) (last : ℕ → Option ℕ) (ps : List NetPacket) : ℕ → Option ℕ :=
  ps.foldl (heartbeats s) last

theorem handleAll_inv : ∀ {ps : List NetPacket} {s : State} {last : ℕ → Option ℕ}, s.Inv hash n last →
    (∀ p ∈ ps, p.time ≠ timeMax) → (handleAll hash s ps).Inv hash n (heartbeatsAll s last ps)
  | [], _, _, h, _ => h
  | p :: ps, s, last, h, hps => by
    obtain ⟨-, hinv, hdev⟩ := handle_inv h (hps p List.mem_cons_self)
    have htail : ∀ q ∈ ps, q.time ≠ timeMax := fun q hq => hps q (List.mem_cons_of_mem _ hq)
    have ih := handleAll_inv hinv htail
    have hcongr : heartbeats (nfHandle hash s p).1 = heartbeats s := by
      funext last q
      unfold heartbeats
      rw [hdev]
    rw [heartbeatsAll, hcongr] at ih
    exact ih

theorem nfInit_inv (hash : Flow → UInt32) {items : ConfigItems} {devicesCount : UInt16}
    (h : nfInit items devicesCount = some s) :
    ∃ flowCapacity, osConfigGetSize items "flow capacity" = some flowCapacity ∧
      s.Inv hash flowCapacity fun _ => none := by
  unfold nfInit at h
  split_ifs at h
  simp only [Option.pure_def, Option.bind_eq_bind, Option.bind_eq_some_iff] at h
  obtain ⟨fc, hfc, ch, -, be, -, fe, -, h⟩ := h
  split_ifs at h
  simp only [balancerAlloc, Option.bind_eq_some_iff, Option.map_eq_some_iff, Option.some.injEq] at h
  obtain ⟨_, ⟨t, ht, rfl⟩, rfl⟩ := h
  obtain ⟨t', ht', hinv, -, -⟩ := KeyedPool.keyedPoolAlloc_inv (K := Flow) flowSize fe (osConfigGetSize_le hfc)
  rw [ht] at ht'
  cases ht'
  exact ⟨fc, hfc, ⟨hinv hash, IndexPool.alloc_wf _ _, rfl, IndexPool.alloc_items _ _⟩⟩

/-- **The state of the load balancer.** On every run from `nf_init`, for any hash: the flow pool has a timestamp at
index `i` exactly when the map binds `flow_heap[i]` to `i`, these flows are distinct, and the backend pool has the
times of the last heartbeats; and for a later packet every call meets its precondition, and a backend that the
flow of the packet gets has a heartbeat that has not expired. -/
theorem balancer_state (hash : Flow → UInt32) (items : ConfigItems) (devicesCount : UInt16) {flowCapacity : ℕ}
    {s : State} (hinit : nfInit items devicesCount = some s)
    (hcap : osConfigGetSize items "flow capacity" = some flowCapacity) (ps : List NetPacket)
    (hmax : ∀ p ∈ ps, p.time ≠ timeMax) :
    let s' := handleAll hash s ps
    (∀ i, (s'.balancer.flows.pool.items i).isSome ↔
      mapGet hash (keyMem s'.balancer.flows.keys) s'.balancer.flows.map (.elem i) = some i) ∧
    (∀ i j, (s'.balancer.flows.pool.items i).isSome → (s'.balancer.flows.pool.items j).isSome →
      s'.balancer.flows.key i = s'.balancer.flows.key j → i = j) ∧
    s'.balancer.backendPool.items = heartbeatsAll s (fun _ => none) ps ∧
    ∀ p : NetPacket, p.time ≠ timeMax → HandlePre hash flowCapacity s' p ∧
      ∀ flow backend, flowPacket s' p = some flow →
        (balancerGetBackend hash s'.balancer flow p.time).1 = some backend →
        indexPoolUsed s'.balancer.backendPool p.time backend.toNat = true ∧
        ∃ t, heartbeatsAll s (fun _ => none) ps backend.toNat = some t ∧
          poolYoung p.time s'.balancer.backendPool.expirationTime t := by
  obtain ⟨c, hc, hinv⟩ := nfInit_inv hash hinit
  rw [hcap, Option.some.injEq] at hc
  subst hc
  have hrun := handleAll_inv hinv hmax
  refine ⟨fun i => hrun.flows.bound_iff i, fun i j hi hj he => ?_, hrun.beats, fun p ht =>
    ⟨(handle_inv hrun ht).1, fun flow backend _ hb => ?_⟩⟩
  · obtain ⟨ts, hts⟩ := Option.isSome_iff_exists.mp hi
    obtain ⟨ts', hts'⟩ := Option.isSome_iff_exists.mp hj
    exact hrun.flows.key_inj hts hts' he
  · have hused := (getBackend_spec hrun.flows ht flow).2.2.2 backend hb
    obtain ⟨t, hti, hy⟩ := (IndexPool.used_iff _ _ _).mp hused
    exact ⟨hused, t, hrun.beats ▸ hti, hy⟩

/-- The theorem at a run that finds the backend of a mapping dead: backend 0 expires, and the flow goes on to
backend 1. -/
theorem balancer_state_stale : ∃ s, nfInit demoItems 3 = some s ∧
    (handleAll (fun _ => 0) s [demoPacket 0 0, demoPacket 1 2, demoPacket 200 1,
      demoPacket 201 2]).balancer.backendPool.items =
      heartbeatsAll s (fun _ => none) [demoPacket 0 0, demoPacket 1 2, demoPacket 200 1, demoPacket 201 2] :=
  ⟨_, rfl, (balancer_state (fun _ => 0) demoItems 3 rfl rfl _ (by decide)).2.2.1⟩

end Maglev
end Klint
