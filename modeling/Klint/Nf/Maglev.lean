/-
# The Maglev load balancer

`nf/maglev`: a flow has a backend of the consistent hash table, and a mapping
that should keep it there. The mapping's backend is read from
`flow_backends`, which nothing ever writes: `nf_init` zeroes it, and it stays
zero (`handle_backends`). So a flow that has a mapping goes to backend 0 if
that is alive, and to the table's choice of the moment if not.

`affinity_iff`: a run keeps every flow on the backend its mapping was stored
for, as long as that is alive, exactly when each call with such a mapping is
for backend 0, or has backend 0 dead and no backend alive that the table
prefers (`AffinityOk`).
-/
import Klint.Net.Packet
import Klint.Os.Config
import Klint.Structs.Cht
import Klint.Structs.KeyedPool

namespace Klint
namespace Maglev

/-- `struct balancer`: `flows` is `flow_indices`, `flow_pool` and
`flow_heap`. -/
structure Balancer where
  flows : KeyedPool Flow
  flowBackends : List UInt16
  backendPool : IndexPool
  cht : Cht

def balancerAlloc (flowCapacity flowExpirationTime backendCapacity backendExpirationTime chtHeight : ℕ) :
    Option Balancer :=
  (keyedPoolAlloc Flow flowSize flowCapacity flowExpirationTime).map fun t =>
    { flows := t
      flowBackends := List.replicate flowCapacity 0
      backendPool := indexPoolAlloc backendCapacity backendExpirationTime
      cht := chtAlloc chtHeight backendCapacity }

variable (hash : Flow → UInt32)

/-- From "Get a backend from the CHT" on. -/
def balancerChoose (balancer : Balancer) (flow : Flow) (time : ℕ) : Option UInt16 × Balancer :=
  match chtFindPreferredAvailableBackend balancer.cht (hash flow) balancer.backendPool time with
  | none => (none, balancer)
  | some backend => (some backend, { balancer with flows := (balancer.flows.insert hash time flow).2 })

/-- `flow_backends[flow_index]`. -/
def Balancer.backendAt (balancer : Balancer) (flowIndex : ℕ) : UInt16 := balancer.flowBackends.getD flowIndex 0

/-- The backend, and the balancer after the call. -/
def balancerGetBackend (balancer : Balancer) (flow : Flow) (time : ℕ) : Option UInt16 × Balancer :=
  match balancer.flows.find hash flow with
  | some flowIndex =>
    let backend := balancer.backendAt flowIndex
    if indexPoolUsed balancer.backendPool time backend.toNat then
      (some backend, { balancer with flows := balancer.flows.refresh time flowIndex })
    else balancerChoose hash { balancer with flows := balancer.flows.discard hash flowIndex } flow time
  | none => balancerChoose hash balancer flow time

def balancerProcessHeartbeat (balancer : Balancer) (backend : UInt16) (time : ℕ) : Balancer :=
  { balancer with backendPool := indexPoolRefresh balancer.backendPool time backend.toNat }

structure State where
  devicesCount : UInt16
  balancer : Balancer

def nfInit (items : ConfigItems) (devicesCount : UInt16) : Option State :=
  if devicesCount < 2 then none else do
    let backendCapacity := devicesCount - 1
    let flowCapacity ← osConfigGetSize items "flow capacity"
    let chtHeight ← osConfigGetU16 items "cht height"
    let backendExpirationTime ← osConfigGetTime items "backend expiration time"
    let flowExpirationTime ← osConfigGetTime items "flow expiration time"
    if chtHeight = 0 ∨ maxChtHeight ≤ chtHeight.toNat then none
    else if chtHeight ≤ backendCapacity then none
    else
      let balancer ← balancerAlloc flowCapacity flowExpirationTime backendCapacity.toNat backendExpirationTime
        chtHeight.toNat
      return { devicesCount := devicesCount, balancer := balancer }

def nfHandle (s : State) (packet : NetPacket) : State × Option NetTransmit :=
  match flowHeaders packet with
  | none => (s, none)
  | some (ipv4, tcpudp) =>
    if packet.device < s.devicesCount - 1 then
      ({ s with balancer := balancerProcessHeartbeat s.balancer packet.device packet.time }, none)
    else
      match balancerGetBackend hash s.balancer (flowOf packet.data ipv4 tcpudp) packet.time with
      | (none, balancer) => ({ s with balancer := balancer }, none)
      | (some backend, balancer) =>
        ({ s with balancer := balancer },
          some { data := packet.data, length := packet.length, device := backend, flags := .none })

/-! ### Runs -/

/-- The balancer in a run, with the backend that each flow's mapping was
stored for. -/
structure Run where
  s : State
  assigned : Flow → Option UInt16

/-- The call finds the flow's mapping and uses its backend. -/
def Balancer.keeps (balancer : Balancer) (flow : Flow) (time : ℕ) : Bool :=
  match balancer.flows.find hash flow with
  | some flowIndex => indexPoolUsed balancer.backendPool time (balancer.backendAt flowIndex).toNat
  | none => false

/-- The flow of a packet that is not a heartbeat. -/
def flowPacket (s : State) (packet : NetPacket) : Option Flow :=
  match flowHeaders packet with
  | none => none
  | some (ipv4, tcpudp) =>
    if packet.device < s.devicesCount - 1 then none else some (flowOf packet.data ipv4 tcpudp)

/-- A call that does not keep a mapping assigns the flow the backend it
answers, if the flow has a mapping after it. -/
def Run.handle (r : Run) (packet : NetPacket) : Run where
  s := (nfHandle hash r.s packet).1
  assigned := match flowPacket r.s packet with
    | none => r.assigned
    | some flow =>
      if r.s.balancer.keeps hash flow packet.time then r.assigned
      else if ((nfHandle hash r.s packet).1.balancer.flows.find hash flow).isSome then
        Function.update r.assigned flow (balancerGetBackend hash r.s.balancer flow packet.time).1
      else Function.update r.assigned flow none

/-- What is claimed of a packet: a flow that has a mapping, stored for a
backend that is alive, is sent to it. -/
def Run.Affine (r : Run) (packet : NetPacket) : Prop :=
  ∀ flow b, flowPacket r.s packet = some flow → (r.s.balancer.flows.find hash flow).isSome →
    r.assigned flow = some b → indexPoolUsed r.s.balancer.backendPool packet.time b.toNat = true →
    ∃ sent, (nfHandle hash r.s packet).2 = some sent ∧ sent.device = b

/-- The condition on a packet and the state before it: for such a flow and
backend, the backend is 0, or backend 0 is dead and no backend that the
table prefers for the flow is alive. -/
def Run.AffinityOk (r : Run) (packet : NetPacket) : Prop :=
  ∀ flow b, flowPacket r.s packet = some flow → (r.s.balancer.flows.find hash flow).isSome →
    r.assigned flow = some b → indexPoolUsed r.s.balancer.backendPool packet.time b.toNat = true →
    b = 0 ∨ indexPoolUsed r.s.balancer.backendPool packet.time 0 = false ∧
      r.s.balancer.cht.Preferred (hash flow) r.s.balancer.backendPool packet.time b

/-- A property of each packet of a run, in the state it meets. -/
def Run.Always (P : Run → NetPacket → Prop) (r : Run) : List NetPacket → Prop
  | [] => True
  | p :: ps => P r p ∧ (r.handle hash p).Always P ps

variable {hash}

/-! ### `flow_backends` stays zero -/

theorem balancerChoose_backends (balancer : Balancer) (flow : Flow) (time : ℕ) :
    (balancerChoose hash balancer flow time).2.flowBackends = balancer.flowBackends := by
  unfold balancerChoose
  split <;> rfl

theorem balancerGetBackend_backends (balancer : Balancer) (flow : Flow) (time : ℕ) :
    (balancerGetBackend hash balancer flow time).2.flowBackends = balancer.flowBackends := by
  unfold balancerGetBackend
  split
  · simp only
    split_ifs
    · rfl
    · exact balancerChoose_backends _ _ _
  · exact balancerChoose_backends _ _ _

theorem handle_backends (s : State) (packet : NetPacket) :
    (nfHandle hash s packet).1.balancer.flowBackends = s.balancer.flowBackends := by
  unfold nfHandle
  cases flowHeaders packet with
  | none => rfl
  | some hdr =>
    simp only
    split_ifs
    · rfl
    · have h := @balancerGetBackend_backends hash s.balancer (flowOf packet.data hdr.1 hdr.2) packet.time
      rcases hb : balancerGetBackend hash s.balancer (flowOf packet.data hdr.1 hdr.2) packet.time with ⟨_ | b, t⟩ <;>
        rw [hb] at h <;> exact h

/-- Every element is zero. -/
def Zeroed (balancer : Balancer) : Prop := ∀ i, balancer.backendAt i = 0

theorem nfInit_zeroed {items : ConfigItems} {devicesCount : UInt16} {s : State}
    (h : nfInit items devicesCount = some s) : Zeroed s.balancer := by
  unfold nfInit at h
  split_ifs at h
  simp only [Option.pure_def, Option.bind_eq_bind, Option.bind_eq_some_iff] at h
  obtain ⟨fc, -, ch, -, be, -, fe, -, h⟩ := h
  split_ifs at h
  simp only [balancerAlloc, Option.bind_eq_some_iff, Option.map_eq_some_iff, Option.some.injEq] at h
  obtain ⟨_, ⟨t, -, rfl⟩, rfl⟩ := h
  intro i
  simp only [Balancer.backendAt, List.getD_eq_getElem?_getD, List.getElem?_replicate]
  split_ifs <;> rfl

/-! ### One call -/

/-- A flow with a mapping goes to backend 0 if it is alive, and to the choice
of the table if not. -/
theorem getBackend_mapped {balancer : Balancer} (hz : Zeroed balancer) {flow : Flow} {time : ℕ}
    (hm : (balancer.flows.find hash flow).isSome) :
    (balancerGetBackend hash balancer flow time).1 =
      if indexPoolUsed balancer.backendPool time 0 then some 0
      else chtFindPreferredAvailableBackend balancer.cht (hash flow) balancer.backendPool time := by
  obtain ⟨i, hi⟩ := Option.isSome_iff_exists.mp hm
  unfold balancerGetBackend
  simp only [hi, hz i, show (0 : UInt16).toNat = 0 from rfl]
  split_ifs
  · rfl
  · unfold balancerChoose
    simp only
    cases chtFindPreferredAvailableBackend balancer.cht (hash flow) balancer.backendPool time <;> rfl

theorem nfHandle_flow {s : State} {packet : NetPacket} {flow : Flow} (h : flowPacket s packet = some flow) :
    (nfHandle hash s packet).2.map NetTransmit.device = (balancerGetBackend hash s.balancer flow packet.time).1 := by
  unfold flowPacket at h
  unfold nfHandle
  cases hh : flowHeaders packet with
  | none => rw [hh] at h; cases h
  | some hdr =>
    rw [hh] at h
    simp only at h ⊢
    split_ifs at h ⊢ with hd
    cases h
    rcases balancerGetBackend hash s.balancer (flowOf packet.data hdr.1 hdr.2) packet.time with ⟨_ | b, t⟩ <;> rfl

/-- The claim for one packet is its condition. -/
theorem affine_iff {r : Run} (hz : Zeroed r.s.balancer) (packet : NetPacket) :
    r.Affine hash packet ↔ r.AffinityOk hash packet := by
  refine forall_congr' fun flow => forall_congr' fun b => forall_congr' fun hf => forall_congr' fun hm =>
    forall_congr' fun _ => forall_congr' fun hb => ?_
  have hsent : (∃ sent, (nfHandle hash r.s packet).2 = some sent ∧ sent.device = b) ↔
      (nfHandle hash r.s packet).2.map NetTransmit.device = some b := Option.map_eq_some_iff.symm
  rw [hsent, nfHandle_flow hf, getBackend_mapped hz hm]
  by_cases h0 : indexPoolUsed r.s.balancer.backendPool packet.time 0 = true
  · simp [h0, eq_comm]
  · have hne : b ≠ 0 := fun hc => h0 (by rw [hc] at hb; exact hb)
    have h0' : indexPoolUsed r.s.balancer.backendPool packet.time 0 = false := by simpa using h0
    simp only [h0', Bool.false_eq_true, ↓reduceIte, chtFind_iff, hb, true_and, hne, false_or]

theorem always_congr {P Q : Run → NetPacket → Prop}
    (hPQ : ∀ r : Run, Zeroed r.s.balancer → ∀ p, P r p ↔ Q r p) : ∀ {ps : List NetPacket} {r : Run},
    Zeroed r.s.balancer → (r.Always hash P ps ↔ r.Always hash Q ps)
  | [], _, _ => Iff.rfl
  | p :: ps, r, hz => by
    have hz' : Zeroed (r.handle hash p).s.balancer := fun i => by
      rw [Balancer.backendAt, Run.handle, handle_backends]
      exact hz i
    exact and_congr (hPQ r hz p) (always_congr hPQ hz')

/-- **When a run keeps connections on their backends.** For every
configuration `nf_init` accepts, any hash and every run of packets: every
call of the run meets the claim exactly when every call meets the condition. -/
theorem affinity_iff (hash : Flow → UInt32) (items : ConfigItems) (devicesCount : UInt16) {s : State}
    (hinit : nfInit items devicesCount = some s) (ps : List NetPacket) :
    (Run.mk s fun _ => none).Always hash (Run.Affine hash) ps ↔
      (Run.mk s fun _ => none).Always hash (Run.AffinityOk hash) ps :=
  always_congr (fun _ hz p => affine_iff hz p) (nfInit_zeroed hinit)

/-- A configuration of two backends. -/
def demoItems : ConfigItems :=
  [("flow capacity", 4), ("cht height", 3), ("backend expiration time", 100), ("flow expiration time", 100)]

def demoFlow : Flow := ⟨0x0100000a, 0x08080808, 5000, 53, ipProtocolUdp⟩

/-- A packet of `demoFlow` at a time and a device; the last device is 2. -/
def demoPacket (time : ℕ) (device : UInt16) : NetPacket := ⟨flowFrame demoFlow, 60, time, device⟩

/-- The theorem at a run with backend 0 alone. -/
theorem affinity_iff_zero :
    ∃ s, nfInit demoItems 3 = some s ∧ (Run.mk s fun _ => none).Always (fun _ => 0) (Run.Affine fun _ => 0)
      [demoPacket 0 0, demoPacket 1 2, demoPacket 2 2] := by
  refine ⟨_, rfl, (affinity_iff (fun _ => 0) demoItems 3 rfl _).mpr ⟨?_, ?_, ?_, trivial⟩⟩ <;>
    intro flow b hf hm ha _
  · cases hf
  · cases hf; cases hm
  · cases hf; cases ha; exact .inl rfl

/-- Backend 1 alone gets the flow; then backend 0 comes back, and gets the
flow's next packet though backend 1 is alive. -/
theorem not_affine :
    ∃ s, nfInit demoItems 3 = some s ∧ ¬ (Run.mk s fun _ => none).Always (fun _ => 0) (Run.Affine fun _ => 0)
      [demoPacket 0 1, demoPacket 1 2, demoPacket 2 0, demoPacket 3 2] := by
  refine ⟨_, rfl, fun h => ?_⟩
  obtain ⟨sent, hs, hd⟩ := h.2.2.2.1 demoFlow 1 rfl rfl rfl rfl
  cases hs
  revert hd
  decide

end Maglev
end Klint
