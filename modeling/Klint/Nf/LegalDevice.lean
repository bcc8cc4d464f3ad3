/-
# The devices that packets are sent to

A call `net_transmit(packet, device, ..)` has to be for one of the devices, and
not for the packet's own: `index_from_device` of the driver has no output for
any other. Each network function gets the device from other state: the bridge from what it
has learned, the firewall, the NAT and the policer by complement, the load balancer from its
backends, the router from its routes. `legal_devices` is the theorem on their runs.
-/
import Klint.Nf.Bridge
import Klint.Nf.Firewall
import Klint.Nf.Maglev
import Klint.Nf.Nat
import Klint.Nf.Policer
import Klint.Nf.Router

namespace Klint

/-! ### Runs -/

/-- A device that a packet can be sent to. -/
def LegalDevice (n : UInt16) (packet : NetPacket) (device : UInt16) : Prop := device < n ∧ device ≠ packet.device

/-- Every call of `net_transmit` in a run is for a legal device; a step is a state and the
devices of the calls. -/
def LegalRun {σ : Type} (step : σ → NetPacket → σ × List UInt16) (n : UInt16) : σ → List NetPacket → Prop
  | _, [] => True
  | s, p :: ps => (∀ device ∈ (step s p).2, LegalDevice n p device) ∧ LegalRun step n (step s p).1 ps

/-- An invariant under which a step is legal. -/
theorem LegalRun.of_inv {σ : Type} {step : σ → NetPacket → σ × List UInt16} {n : UInt16} (I : σ → Prop)
    (hstep : ∀ s p, I s → p.device < n → I (step s p).1 ∧ ∀ device ∈ (step s p).2, LegalDevice n p device) :
    ∀ {ps : List NetPacket} {s : σ}, I s → (∀ p ∈ ps, p.device < n) → LegalRun step n s ps
  | [], _, _, _ => trivial
  | p :: _, s, hs, hp => by
    obtain ⟨hs', hlegal⟩ := hstep s p hs (hp p List.mem_cons_self)
    exact ⟨hlegal, LegalRun.of_inv I hstep hs' fun q hq => hp q (List.mem_cons_of_mem _ hq)⟩

/-- The steps of a network function that returns its call. -/
def sentTo {σ : Type} (nfHandle : σ → NetPacket → σ × Option NetTransmit) (s : σ) (packet : NetPacket) :
    σ × List UInt16 :=
  ((nfHandle s packet).1, ((nfHandle s packet).2.map (·.device)).toList)

theorem mem_sentTo {σ : Type} {nfHandle : σ → NetPacket → σ × Option NetTransmit} {s : σ} {packet : NetPacket}
    {device : UInt16} : device ∈ (sentTo nfHandle s packet).2 ↔
      ∃ sent, (nfHandle s packet).2 = some sent ∧ sent.device = device := by
  rw [sentTo, Option.mem_toList, Option.map_eq_some_iff]

/-! ### The other one of two devices -/

theorem complement_legal {packet : NetPacket} (h : packet.device < 2) : LegalDevice 2 packet (1 - packet.device) := by
  have hlt : packet.device.toNat < 2 := UInt16.lt_iff_toNat_lt.mp h
  have hle : packet.device ≤ 1 := UInt16.le_iff_toNat_le.mpr (by rw [UInt16.toNat_one]; omega)
  have hsub : (1 - packet.device).toNat = 1 - packet.device.toNat := by
    rw [UInt16.toNat_sub_of_le _ _ hle, UInt16.toNat_one]
  refine ⟨UInt16.lt_iff_toNat_lt.mpr ?_, fun he => ?_⟩
  · rw [hsub]
    exact Nat.lt_of_le_of_lt (Nat.sub_le _ _) Nat.one_lt_two
  · have hnat := congrArg UInt16.toNat he
    rw [hsub] at hnat
    omega

/-- A network function of two devices that sends to the other one only. -/
theorem complement_run {σ : Type} {nfHandle : σ → NetPacket → σ × Option NetTransmit}
    (hsent : ∀ s p sent, (nfHandle s p).2 = some sent → sent.device = 1 - p.device) {n : UInt16} (hn : n = 2)
    {ps : List NetPacket} {s : σ} (hp : ∀ p ∈ ps, p.device < n) : LegalRun (sentTo nfHandle) n s ps := by
  subst hn
  refine LegalRun.of_inv (fun _ => True) (fun s p _ hpd => ⟨trivial, fun device hd => ?_⟩) trivial hp
  obtain ⟨sent, hs, rfl⟩ := mem_sentTo.mp hd
  rw [hsent s p sent hs]
  exact complement_legal hpd

theorem Firewall.handle_sent {hash : Flow → UInt32} {s : Firewall.State} {packet : NetPacket} {sent : NetTransmit}
    (h : (Firewall.nfHandle hash s packet).2 = some sent) : sent.device = 1 - packet.device := by
  unfold Firewall.nfHandle at h
  cases hf : flowHeaders packet with
  | none => rw [hf] at h; cases h
  | some hdr =>
    rw [hf] at h
    simp only at h
    split_ifs at h
    · split at h
      · cases h
      · cases h; rfl
    · cases h; rfl

theorem NatNf.handle_sent {hash : Flow → UInt32} {s : NatNf.State} {packet : NetPacket} {sent : NetTransmit}
    (h : (NatNf.nfHandle hash s packet).2 = some sent) : sent.device = 1 - packet.device := by
  unfold NatNf.nfHandle at h
  cases hf : flowHeaders packet with
  | none => rw [hf] at h; cases h
  | some hdr =>
    rw [hf] at h
    simp only at h
    split_ifs at h
    · split at h
      · cases h
      · split_ifs at h
        cases h; rfl
    · split at h
      · cases h
      · cases h; rfl

theorem Policer.handle_sent {hash : UInt32 → UInt32} {s : Policer.State} {packet : NetPacket} {sent : NetTransmit}
    (h : (Policer.nfHandle hash s packet).2 = some sent) : sent.device = 1 - packet.device := by
  unfold Policer.nfHandle at h
  cases hf : Policer.ipv4Header packet with
  | none => rw [hf] at h; cases h
  | some ipv4 =>
    rw [hf] at h
    simp only at h
    split_ifs at h
    · split at h
      · cases h
      · cases h; rfl
    · cases h; rfl

/-! ### The bridge -/

namespace Bridge

variable (hash : EtherAddr → UInt32)

/-- The device of a call of `net_transmit`. -/
def NetCall.transmitDevice : NetCall → Option UInt16
  | transmit _ device _ => some device
  | flood _ _ => none
  | floodExcept _ _ _ => none

/-- `nf_handle`, with the devices of its calls of `net_transmit`. -/
def transmitDevices (drv : Tinynf) (s : State) (packet : NetPacket) : State × List UInt16 :=
  ((nfHandle hash drv s packet).1, (calls hash s packet).filterMap NetCall.transmitDevice)

variable {hash} {drv : Tinynf} {s : State} {p : NetPacket}

/-- The spanning tree protocol floods only. -/
theorem stpCalls_transmitDevice (stp : Stp) (packet : NetPacket) :
    (stpCalls stp packet).filterMap NetCall.transmitDevice = [] := by
  unfold stpCalls
  split_ifs
  · rfl
  · rfl
  · cases stp.state.update (bpduOf packet) packet.device <;> rfl

/-- A packet is sent to a device that the bridge has learned, and not to the packet's. -/
theorem forwardCalls_transmitDevice {device : UInt16}
    (h : device ∈ (forwardCalls hash s p).filterMap NetCall.transmitDevice) :
    device ≠ p.device ∧ ∃ i, s.deviceAt i = device := by
  unfold forwardCalls at h
  cases hf : s.table.find hash (etherDstAddr p.data 0) with
  | none =>
    rw [hf] at h
    cases h
  | some index =>
    rw [hf] at h
    dsimp only at h
    split_ifs at h with hne
    · obtain rfl : device = s.deviceAt index := List.mem_singleton.mp h
      exact ⟨hne, index, rfl⟩
    · cases h

/-- Every device that the bridge can look up is one of the devices. -/
def DevicesBelow (n : UInt16) (s : State) : Prop := ∀ i, s.deviceAt i < n

theorem devicesBelow_set {n : UInt16} (h : DevicesBelow n s) {device : UInt16} (hd : device < n) (index i : ℕ) :
    (s.devices.set index device).getD i 0 < n := by
  rw [List.getD_eq_getElem?_getD, List.getElem?_set]
  split_ifs
  · exact hd
  · exact Nat.lt_of_le_of_lt (Nat.zero_le _) hd
  · rw [← List.getD_eq_getElem?_getD]
    exact h i

theorem learn_devicesBelow {n : UInt16} (h : DevicesBelow n s) (hd : p.device < n) :
    DevicesBelow n (learn hash s p) := by
  intro i
  unfold learn
  simp only
  split_ifs
  · exact h i
  · split
    · exact devicesBelow_set h hd _ i
    · split
      · exact devicesBelow_set h hd _ i
      · exact h i

theorem nfInit_devicesBelow {items : ConfigItems} {n : UInt16} (h : nfInit items n = some s) : DevicesBelow n s := by
  unfold nfInit at h
  split_ifs at h with hn
  simp only [Option.pure_def, Option.bind_eq_bind, Option.bind_eq_some_iff, Option.some.injEq] at h
  obtain ⟨bid, -, e, -, capacity, -, up, -, t, -, rfl⟩ := h
  intro i
  have hzero : (List.replicate capacity (0 : UInt16)).getD i 0 = 0 := by
    rw [List.getD_eq_getElem?_getD, List.getElem?_replicate]
    split_ifs <;> rfl
  rw [State.deviceAt, hzero, UInt16.lt_iff_toNat_lt, UInt16.toNat_zero]
  rw [UInt16.lt_iff_toNat_lt, show (2 : UInt16).toNat = 2 by rfl] at hn
  omega

theorem nfHandle_devicesBelow {n : UInt16} (h : DevicesBelow n s) (hp : p.device < n) :
    DevicesBelow n (nfHandle hash drv s p).1 := by
  by_cases hd : Data s p
  · rw [nfHandle_data hd]
    exact learn_devicesBelow h hp
  · intro i
    rw [State.deviceAt, (@nfHandle_stp hash drv s p hd).2]
    exact h i

theorem transmitDevices_legal {n : UInt16} (h : DevicesBelow n s) (hp : p.device < n) {device : UInt16}
    (hd : device ∈ (transmitDevices hash drv s p).2) : LegalDevice n p device := by
  unfold transmitDevices calls at hd
  split_ifs at hd
  · obtain ⟨hne, i, rfl⟩ := forwardCalls_transmitDevice hd
    exact ⟨learn_devicesBelow h hp i, hne⟩
  · rw [stpCalls_transmitDevice] at hd
    cases hd

end Bridge

/-! ### The load balancer -/

namespace Maglev

variable {hash : Flow → UInt32}

theorem used_lt {pool : IndexPool} {time i : ℕ} (h : indexPoolUsed pool time i = true) : i < pool.size := by
  obtain ⟨t, ht, -⟩ := (IndexPool.used_iff pool time i).mp h
  exact IndexPool.items_lt ht

theorem balancerChoose_lt {balancer : Balancer} {flow : Flow} {time : ℕ} :
    (balancerChoose hash balancer flow time).2.backendPool = balancer.backendPool ∧
      ∀ backend, (balancerChoose hash balancer flow time).1 = some backend →
        backend.toNat < balancer.backendPool.size := by
  unfold balancerChoose
  cases hfind : chtFindPreferredAvailableBackend balancer.cht (hash flow) balancer.backendPool time with
  | none => exact ⟨rfl, fun _ hb => by cases hb⟩
  | some b =>
    refine ⟨rfl, fun backend hb => ?_⟩
    cases hb
    exact used_lt (chtFind_iff.mp hfind).1

/-- A backend is an index of the pool, which stays as it is. -/
theorem balancerGetBackend_lt {balancer : Balancer} {flow : Flow} {time : ℕ} :
    (balancerGetBackend hash balancer flow time).2.backendPool = balancer.backendPool ∧
      ∀ backend, (balancerGetBackend hash balancer flow time).1 = some backend →
        backend.toNat < balancer.backendPool.size := by
  unfold balancerGetBackend
  split
  · simp only
    split_ifs with hused
    · refine ⟨rfl, fun backend hb => ?_⟩
      cases hb
      exact used_lt hused
    · exact balancerChoose_lt
  · exact balancerChoose_lt

/-- There is a backend for each device but the last. -/
structure Backends (n : UInt16) (s : State) : Prop where
  devicesCount : s.devicesCount = n
  size : s.balancer.backendPool.size + 1 = n.toNat

theorem nfInit_backends {items : ConfigItems} {n : UInt16} {s : State} (h : nfInit items n = some s) :
    Backends n s := by
  unfold nfInit at h
  split_ifs at h with hn
  simp only [Option.pure_def, Option.bind_eq_bind, Option.bind_eq_some_iff] at h
  obtain ⟨flowCapacity, -, chtHeight, -, backendExpirationTime, -, flowExpirationTime, -, h⟩ := h
  split_ifs at h
  simp only [Option.bind_eq_some_iff, Option.some.injEq, balancerAlloc, Option.map_eq_some_iff] at h
  obtain ⟨balancer, ⟨t, -, rfl⟩, rfl⟩ := h
  rw [UInt16.lt_iff_toNat_lt, show (2 : UInt16).toNat = 2 by rfl] at hn
  have hle : (1 : UInt16) ≤ n := UInt16.le_iff_toNat_le.mpr (by rw [UInt16.toNat_one]; omega)
  refine ⟨rfl, ?_⟩
  show (n - 1).toNat + 1 = n.toNat
  rw [UInt16.toNat_sub_of_le _ _ hle, UInt16.toNat_one]
  omega

/-- A packet from the last device is sent to a backend, below it. -/
theorem handle_legal {n : UInt16} {s : State} {packet : NetPacket} (h : Backends n s) :
    Backends n (nfHandle hash s packet).1 ∧
      ∀ device ∈ (sentTo (nfHandle hash) s packet).2, LegalDevice n packet device := by
  unfold sentTo nfHandle
  cases hf : flowHeaders packet with
  | none => exact ⟨h, fun _ hd => by cases hd⟩
  | some hdr =>
    simp only
    split_ifs with hlast
    · exact ⟨⟨h.devicesCount, h.size⟩, fun _ hd => by cases hd⟩
    · obtain ⟨hpool, hlt⟩ := @balancerGetBackend_lt hash s.balancer (flowOf packet.data hdr.1 hdr.2) packet.time
      have hsize := h.size
      rcases hb : balancerGetBackend hash s.balancer (flowOf packet.data hdr.1 hdr.2) packet.time with ⟨_ | backend, t⟩
      · rw [hb] at hpool
        exact ⟨⟨h.devicesCount, (congrArg (·.size + 1) hpool).trans hsize⟩, fun _ hd => by cases hd⟩
      · rw [hb] at hpool hlt
        refine ⟨⟨h.devicesCount, (congrArg (·.size + 1) hpool).trans hsize⟩, fun device hd => ?_⟩
        obtain rfl : device = backend := List.mem_singleton.mp hd
        have hbackend := hlt device rfl
        rw [h.devicesCount, UInt16.lt_iff_toNat_lt, UInt16.toNat_sub_of_le _ _ (UInt16.le_iff_toNat_le.mpr (by
          rw [UInt16.toNat_one]; omega)), UInt16.toNat_one] at hlast
        refine ⟨UInt16.lt_iff_toNat_lt.mpr (by omega), fun he => ?_⟩
        rw [he] at hbackend
        omega

end Maglev

/-! ### The router -/

namespace Router

variable {lpm : Lpm}

/-- `RouteOk` for every packet of a run. -/
def RoutesOk (n : UInt16) : State lpm → List NetPacket → Prop
  | _, [] => True
  | s, p :: ps => RouteOk n s p ∧ RoutesOk n (nfHandle s p).1 ps

theorem run_legal (hl : lpm.OnlyGiven) {n : UInt16} : ∀ {ps : List NetPacket} {s : State lpm}, s.Inv n →
    RoutesOk n s ps → LegalRun (sentTo nfHandle) n s ps
  | [], _, _, _ => trivial
  | p :: _, s, h, hok => by
    obtain ⟨hinv, hsent⟩ := handle_legal hl h hok.1
    refine ⟨fun device hd => ?_, run_legal hl hinv hok.2⟩
    obtain ⟨sent, hs, rfl⟩ := mem_sentTo.mp hd
    exact hsent sent hs

end Router

/-! ### All of them -/

/-- **Legal devices.** For every number of devices, configuration and run of packets from these devices, the
bridge, the firewall, the NAT, the policer and the load balancer only send to a device that exists and is not the
packet's own, and so does the router if every command is for a device that exists and no packet's route is
to the device it came from. -/
theorem legal_devices (etherHash : EtherAddr → UInt32) (flowHash : Flow → UInt32) (addrHash : UInt32 → UInt32)
    (lpm : Router.Lpm) (hl : lpm.OnlyGiven) (drv : Tinynf) (items : ConfigItems) (ps : List NetPacket)
    (hp : ∀ p ∈ ps, p.device < drv.devicesCount) :
    (∀ s, Bridge.nfInit items drv.devicesCount = some s →
      LegalRun (Bridge.transmitDevices etherHash drv) drv.devicesCount s ps) ∧
    (∀ s, Firewall.nfInit items drv.devicesCount = some s →
      LegalRun (sentTo (Firewall.nfHandle flowHash)) drv.devicesCount s ps) ∧
    (∀ s, NatNf.nfInit items drv.devicesCount = some s →
      LegalRun (sentTo (NatNf.nfHandle flowHash)) drv.devicesCount s ps) ∧
    (∀ s, Policer.nfInit items drv.devicesCount = some s →
      LegalRun (sentTo (Policer.nfHandle addrHash)) drv.devicesCount s ps) ∧
    (∀ s, Maglev.nfInit items drv.devicesCount = some s →
      LegalRun (sentTo (Maglev.nfHandle flowHash)) drv.devicesCount s ps) ∧
    ∀ s, Router.nfInit lpm items drv.devicesCount = some s → Router.RoutesOk drv.devicesCount s ps →
      LegalRun (sentTo Router.nfHandle) drv.devicesCount s ps := by
  refine ⟨fun s hs => ?_, fun s hs => ?_, fun s hs => ?_, fun s hs => ?_, fun s hs => ?_, fun s hs hok => ?_⟩
  · refine LegalRun.of_inv (Bridge.DevicesBelow drv.devicesCount) (fun s p h hpd => ⟨?_, fun device hd => ?_⟩)
      (Bridge.nfInit_devicesBelow hs) hp
    · exact Bridge.nfHandle_devicesBelow h hpd
    · exact Bridge.transmitDevices_legal h hpd hd
  · have hn : drv.devicesCount = 2 := by
      by_contra hne
      rw [Firewall.nfInit, if_pos hne] at hs
      cases hs
    exact complement_run (fun _ _ _ => Firewall.handle_sent) hn hp
  · have hn : drv.devicesCount = 2 := by
      by_contra hne
      rw [NatNf.nfInit, if_pos hne] at hs
      cases hs
    exact complement_run (fun _ _ _ => NatNf.handle_sent) hn hp
  · have hn : drv.devicesCount = 2 := by
      by_contra hne
      rw [Policer.nfInit, if_pos hne] at hs
      cases hs
    exact complement_run (fun _ _ _ => Policer.handle_sent) hn hp
  · exact LegalRun.of_inv (Maglev.Backends drv.devicesCount) (fun s p h _ => Maglev.handle_legal h)
      (Maglev.nfInit_backends hs) hp
  · exact Router.run_legal hl (Router.nfInit_inv hs) hok

/-- The command, on the last of three devices, that the default route is to a device. -/
def defaultRoute (device : UInt8) : NetPacket where
  data := fun i => [0, 0, 0, 0, 0, 0, 0, 0, 0, 0, 0, 0, device, 0].getD i 0
  length := 60
  time := 0
  device := 2

/-- An IPv4 packet from the first device. -/
def routed : NetPacket where
  data := fun i =>
    [0, 0, 0, 0, 0, 0, 0, 0, 0, 0, 0, 0, 8, 0, 69, 0, 0, 20, 0, 0, 0, 0, 64, 17, 96, 193, 10, 0, 0, 1, 8, 8, 8,
      8].getD i 0
  length := 60
  time := 0
  device := 0

def routerItems : ConfigItems := [("capacity", 16)]

/-- With the default route to the second device. -/
theorem legal_devices_routed : ∃ s, Router.nfInit Router.listLpm routerItems 3 = some s ∧
    LegalRun (sentTo Router.nfHandle) 3 s [defaultRoute 1, routed] := by
  refine ⟨_, rfl, (legal_devices (fun _ => 0) (fun _ => 0) (fun _ => 0) Router.listLpm Router.listLpm_onlyGiven
    threeDevices
    routerItems [defaultRoute 1, routed] (by decide)).2.2.2.2.2 _ rfl ⟨?_, ?_, trivial⟩⟩
  · rintro r ⟨⟩
    decide
  · rintro ipv4 ⟨⟩
    decide

/-- With the default route to a device that there is not. -/
theorem legal_devices_not : ¬ ∀ (lpm : Router.Lpm), lpm.OnlyGiven → ∀ (n : UInt16) (items : ConfigItems)
    (ps : List NetPacket), (∀ p ∈ ps, p.device < n) → ∀ s, Router.nfInit lpm items n = some s →
    LegalRun (sentTo Router.nfHandle) n s ps := by
  intro h
  have hrun := h Router.listLpm Router.listLpm_onlyGiven 3 routerItems [defaultRoute 7, routed] (by decide) _ rfl
  have hlegal := hrun.2.1 7 (by decide)
  exact absurd hlegal.1 (by decide)

end Klint
