/-
# The bridge meets its specification

`nf/bridge/spec.py`. The specification sees the calls of the driver that `nf_handle` makes.
A flood counts as a transmission on every other device, the blocked ones too, so
`bridge_meets_spec` does not say that the frame leaves on as many.
-/
import Klint.Lib.Monitor
import Klint.Nf.Bridge
import Klint.Tool.SpecTables

namespace Klint
namespace Bridge

open Tool

/-! ### The calls -/

/-- What the executor records. -/
def NetCall.record : NetCall → Transmission
  | transmit packet device _ => ⟨packet.data, packet.length, false, device⟩
  | flood packet _ => ⟨packet.data, packet.length, true, packet.device⟩
  | floodExcept packet _ _ => ⟨packet.data, packet.length, true, packet.device⟩

variable {hash : EtherAddr → UInt32} {drv : Tinynf} {s : State} {p : NetPacket}

/-! ### The specification -/

/-- `SpanningTreeState` -/
def stpType : List (String × ℕ) :=
  [("update_time", 64), ("my_id", 64), ("root_id", 64), ("root_cost", 32), ("root_device", 16)]

def stpFields (state : StpState) : List (String × SpecNum) :=
  [("update_time", .nat64 state.lastUpdateTime), ("my_id", ⟨64, state.self.toBitVec⟩),
    ("root_id", ⟨64, state.root.toBitVec⟩), ("root_cost", .u32 state.rootCost), ("root_device", .u16 state.rootPort)]

/-- The bits of `struct stp_state`, its padding zero. -/
def stpNum (state : StpState) : SpecNum :=
  ⟨256, (state.rootPort.toBitVec ++ (state.rootCost.toBitVec ++ (state.root.toBitVec ++
    (state.self.toBitVec ++ BitVec.ofNat 64 state.lastUpdateTime)))).setWidth 256⟩

/-- `spec`, with the maps chosen for `stp_state` and `db`. -/
def spec (stpState : SpecNum × SpecNum) (dbMap : ChosenMap) (packet : SpecPacket) (config : SpecConfig)
    (transmittedPacket : Option SpecPacket) : Except String Unit := do
  let stp : SpecCell := ⟨stpType, stpState.1, stpState.2⟩
  let db : SpecMap := ⟨none, none, dbMap⟩
  let time ← packet.receivedTime
  let updateTime ← (← stp.oldValue).field "update_time"
  if time.gt (updateTime.add (← config.get "stp update time")) then
    specAssert ((← (← stp.value).field "update_time").eq time) ""
  else
    let dst ← packet.ether.getAttr "dst"
    if dst.eq (dst.int 0x00_00_00_C2_80_01) then return ()
    else
      match transmittedPacket with
      | none => pure ()
      | some transmitted => specAssert (!transmitted.devices.contains (← packet.device)) ""
      if !(← db.contains (.num dst)) then
        let transmitted ← notNone transmittedPacket
        specAssert (transmitted.devices.length.eq (config.devices.sub (config.devices.int 1))) ""
      else return ()

/-- Ethernet addresses in memory. -/
theorem etherAddr_inj {a b : EtherAddr} (h : SpecNum.etherAddr a = SpecNum.etherAddr b) : a = b := by
  obtain ⟨h, h0⟩ := SpecNum.concat_inj h rfl rfl
  obtain ⟨h, h1⟩ := SpecNum.concat_inj h rfl rfl
  obtain ⟨h, h2⟩ := SpecNum.concat_inj h rfl rfl
  obtain ⟨h, h3⟩ := SpecNum.concat_inj h rfl rfl
  obtain ⟨h5, h4⟩ := SpecNum.concat_inj h rfl rfl
  have hu8 : ∀ {v w : UInt8}, SpecNum.u8 v = SpecNum.u8 w → v = w := fun {v w} he => by
    rw [SpecNum.u8, SpecNum.u8, SpecNum.mk.injEq] at he
    exact UInt8.toBitVec_inj.mp (eq_of_heq he.2)
  cases a
  cases b
  rw [EtherAddr.mk.injEq]
  exact ⟨hu8 h0, hu8 h1, hu8 h2, hu8 h3, hu8 h4, hu8 h5⟩

def etherLayout : KeyLayout EtherAddr where
  size := 48
  type := none
  num := SpecNum.etherAddr
  item := fun a => .num (SpecNum.etherAddr a)
  unwrap_item := fun _ => rfl
  wrap_num := fun _ => rfl
  item_inj := fun _ _ h => etherAddr_inj (SpecItem.num.inj h)

variable (hash)

/-- The specification of what the bridge does with a packet, on its own state before and after. -/
def checkSpec (items : ConfigItems) (drv : Tinynf) (s : State) (packet : NetPacket) : Except String Unit :=
  let s' := (nfHandle hash drv s packet).1
  specWrapper (spec (stpNum s'.stp.state, stpNum s.stp.state)
      ⟨48, mapValues etherLayout (keyMem s'.table.keys) s'.table.map,
        mapValues etherLayout (keyMem s.table.keys) s.table.map⟩) ⟨items, drv.devicesCount⟩ packet
    ((calls hash s packet).map NetCall.record)

/-! ### One packet -/

variable {hash} {items : ConfigItems} {n : ℕ}

/-- What `nf_init` read. -/
def Configured (items : ConfigItems) (count : UInt16) (s : State) : Prop :=
  (SpecConfig.mk items count).get "stp update time" = .ok (SpecNum.nat64 s.stp.updateTime)

/-- The state of the protocol is cut to its fields. -/
theorem wrap_stpNum (state : StpState) : SpecItem.wrap (stpNum state) (some stpType) = .ok (.dict (stpFields state)) :=
  wrap_unwrap 256 (stpFields state) rfl (show ∀ n ∈ [64, 64, 64, 32, 16], 0 < n by decide)

theorem field_updateTime (state : StpState) :
    (SpecItem.dict (stpFields state)).field "update_time" = .ok (.nat64 state.lastUpdateTime) := rfl

/-- The specification's test for the time of the periodic message. -/
theorem gt_due (stp : Stp) (ht : p.time < 2 ^ 64) :
    (SpecNum.nat64 p.time).gt ((SpecNum.nat64 stp.state.lastUpdateTime).add (SpecNum.nat64 stp.updateTime)) =
      decide (stp.due p) := by
  have hmod : SpecNum.nat64 (stp.state.lastUpdateTime + stp.updateTime) =
      SpecNum.nat64 ((stp.state.lastUpdateTime + stp.updateTime) % 2 ^ 64) := by
    refine SpecNum.ext_toNat rfl ?_
    change (BitVec.ofNat 64 _).toNat = (BitVec.ofNat 64 _).toNat
    rw [BitVec.toNat_ofNat, BitVec.toNat_ofNat, Nat.mod_mod]
  rw [add_nat64, hmod, gt_nat64 ht (Nat.mod_lt _ (by decide))]
  rfl

/-- A due packet resets the timer. -/
theorem handle_due (hdue : s.stp.due p) : (nfHandle hash drv s p).1.stp.state.lastUpdateTime = p.time := by
  unfold nfHandle stpHandle
  simp only [netGetEtherHeader, show (drv.received p).packet = p from rfl, if_pos hdue]

theorem eq_bpduAddr (a : EtherAddr) :
    (SpecNum.etherAddr a).eq ((SpecNum.etherAddr a).int 0x00_00_00_C2_80_01) = decide (a = bpduAddr) := by
  have hint : (SpecNum.etherAddr a).int 0x00_00_00_C2_80_01 = SpecNum.etherAddr bpduAddr := by
    refine SpecNum.ext_toNat rfl ?_
    change (BitVec.ofInt 48 0x00_00_00_C2_80_01).toNat = (SpecNum.etherAddr bpduAddr).bits.toNat
    decide
  rw [hint, SpecNum.eq_of_size (a := .etherAddr a) (b := .etherAddr bpduAddr) rfl, decide_eq_decide]
  exact ⟨etherAddr_inj, congrArg SpecNum.etherAddr⟩

/-- A number of calls is one transmission at most. -/
theorem record_calls (config : SpecConfig) (sp : SpecPacket → SpecConfig → Option SpecPacket → Except String Unit)
    (cs : List NetCall) (hlen : cs.length ≤ 1) :
    specWrapper sp config p (cs.map NetCall.record) =
      sp (receivedPacket p) config (cs.head?.map fun c => transmittedPacket config c.record) := by
  match cs, hlen with
  | [], _ => rfl
  | [c], _ => rfl

theorem stpCalls_length (stp : Stp) (packet : NetPacket) : (stpCalls stp packet).length ≤ 1 := by
  unfold stpCalls
  split_ifs
  · exact le_refl _
  · exact Nat.zero_le _
  · cases stp.state.update (bpduOf packet) packet.device
    · exact Nat.zero_le _
    · exact le_refl _

theorem forwardCalls_length (s : State) (packet : NetPacket) : (forwardCalls hash s packet).length ≤ 1 := by
  unfold forwardCalls
  cases s.table.find hash (etherDstAddr packet.data 0) with
  | none => exact le_refl _
  | some i =>
    dsimp only
    split_ifs
    · exact le_refl _
    · exact Nat.zero_le _

theorem calls_length (s : State) (packet : NetPacket) : (calls hash s packet).length ≤ 1 := by
  unfold calls
  split_ifs
  · exact forwardCalls_length _ _
  · exact stpCalls_length _ _

/-- The destination is in the map when it is found. -/
theorem contains_db {t : KeyedPool EtherAddr} (hinv : t.Inv hash n) (oldest : List (SpecNum × SpecNum))
    (dst : EtherAddr) :
    (SpecMap.mk none none ⟨48, mapValues etherLayout (keyMem t.keys) t.map, oldest⟩).contains
      (.num (SpecNum.etherAddr dst)) = .ok (t.find hash dst).isSome := by
  have hlookup := @lookup_mapValues EtherAddr _ _ hash n etherLayout t hinv dst
  have hkey : (SpecItem.num (SpecNum.etherAddr dst)).unwrap 48 = .ok (etherLayout.num dst) := rfl
  simp only [SpecMap.contains, hkey, Except.map, hlookup, Option.isSome_map]

/-- The specification of a packet, with what it reads. -/
theorem spec_packet {count : UInt16} (hc : Configured items count s) (ht : p.time < 2 ^ 64) (state : StpState)
    (db : ChosenMap) (transmitted : Option SpecPacket) :
    spec (stpNum state, stpNum s.stp.state) db (receivedPacket p) ⟨items, count⟩ transmitted =
      if s.stp.due p then specAssert ((SpecNum.nat64 state.lastUpdateTime).eq (SpecNum.nat64 p.time)) ""
      else if etherDstAddr p.data 0 = bpduAddr then .ok ()
      else
        (match transmitted with
          | none => pure ()
          | some t => specAssert (!t.devices.contains (SpecNum.u16 p.device)) "").bind fun _ =>
          ((SpecMap.mk none none db).contains (.num (SpecNum.etherAddr (etherDstAddr p.data 0)))).bind fun b =>
            if !b then (notNone transmitted).bind fun t =>
              specAssert (t.devices.length.eq (SpecNum.u16 (count - 1))) ""
            else .ok () := by
  have hdst : (receivedPacket p).ether.getAttr "dst" = .ok (SpecNum.etherAddr (etherDstAddr p.data 0)) :=
    SpecPacket.ether_dst (received_long p)
  have hsub : (SpecNum.u16 count).sub ((SpecNum.u16 count).int 1) = SpecNum.u16 (count - 1) := rfl
  unfold Configured at hc
  simp only [spec, received_time, received_device, SpecCell.oldValue, SpecCell.value, wrap_stpNum, field_updateTime, hc,
    bind, Except.bind, gt_due s.stp ht, hdst, eq_bpduAddr, SpecConfig.devices, hsub, decide_eq_true_iff]
  split_ifs
  · rfl
  · rfl
  · cases transmitted <;> rfl

theorem ne_u16 (v w : UInt16) : (SpecNum.u16 v).ne (SpecNum.u16 w) = !decide (v = w) := congrArg not (eq_u16 v w)

/-- The calls for a data frame: none is on the frame's own device, and the frame is flooded if its destination is
not in the map. -/
theorem forwardCalls_spec {s : State} (config : SpecConfig) (db : SpecMap)
    (hdb : db.contains (.num (SpecNum.etherAddr (etherDstAddr p.data 0))) =
      .ok (s.table.find hash (etherDstAddr p.data 0)).isSome) :
    let transmitted := (forwardCalls hash s p).head?.map fun c => transmittedPacket config c.record
    ((match transmitted with
        | none => pure ()
        | some t => specAssert (!t.devices.contains (SpecNum.u16 p.device)) "" : Except String Unit).bind fun _ =>
      (db.contains (.num (SpecNum.etherAddr (etherDstAddr p.data 0)))).bind fun b =>
        if !b then (notNone transmitted).bind fun t =>
          specAssert (t.devices.length.eq (SpecNum.u16 (config.devicesCount - 1))) ""
        else .ok ()) = .ok () := by
  rw [hdb]
  unfold forwardCalls
  cases hfind : s.table.find hash (etherDstAddr p.data 0) with
  | none =>
    have hself :
        (SpecDevices.flooded (SpecNum.u16 p.device) config.devices).contains (SpecNum.u16 p.device) = false := by
      rw [SpecDevices.contains, ne_u16, decide_eq_true rfl, Bool.not_true]
    have hlength : (SpecDevices.flooded (SpecNum.u16 p.device) config.devices).length.eq
        (SpecNum.u16 (config.devicesCount - 1)) = true := (eq_u16 _ _).trans (decide_eq_true rfl)
    simp only [List.head?_cons, Option.map_some, NetCall.record, transmittedPacket, ↓reduceIte, hself, Bool.not_false,
      specAssert, Except.bind, Option.isSome_none, notNone, hlength]
  | some i =>
    dsimp only
    by_cases hdev : s.deviceAt i = p.device
    · rw [if_neg (not_not.mpr hdev)]
      rfl
    · have hother : (SpecDevices.single (SpecNum.u16 (s.deviceAt i))).contains (SpecNum.u16 p.device) = false := by
        rw [SpecDevices.contains, eq_u16, decide_eq_false (Ne.symm hdev)]
      rw [if_pos hdev]
      simp only [List.head?_cons, Option.map_some, NetCall.record, transmittedPacket, Bool.false_eq_true, ↓reduceIte,
        hother, Bool.not_false, specAssert, Except.bind, Option.isSome_some, Bool.not_true]

theorem handle_spec (hs : s.Inv hash drv.devicesCount n) (hc : Configured items drv.devicesCount s)
    (hp : Received drv p) (ht : p.time < 2 ^ 64) : checkSpec hash items drv s p = .ok () := by
  unfold checkSpec
  rw [record_calls _ _ _ (calls_length s p), spec_packet hc ht]
  by_cases hdue : s.stp.due p
  · rw [if_pos hdue, handle_due hdue, eq_nat64 ht ht, decide_eq_true rfl]
    rfl
  · rw [if_neg hdue]
    by_cases hdst : etherDstAddr p.data 0 = bpduAddr
    · exact if_pos hdst
    · have hdata : Data s p := ⟨hdue, hdst⟩
      rw [if_neg hdst, calls, if_pos hdata]
      have htable : (nfHandle hash drv s p).1.table = (learn hash s p).table := by rw [nfHandle_data hdata]
      rw [htable]
      exact forwardCalls_spec ⟨items, drv.devicesCount⟩ _ (contains_db (learn_inv hs hp).table _ _)

/-! ### Every run -/

/-- No packet changes the period of the messages. -/
theorem handle_updateTime (s : State) (p : NetPacket) :
    (nfHandle hash drv s p).1.stp.updateTime = s.stp.updateTime := by
  by_cases hd : Data s p
  · rw [nfHandle_data hd]
    exact congrArg Stp.updateTime (learn_stp s p)
  · unfold nfHandle stpHandle
    simp only [netGetEtherHeader, show (drv.received p).packet = p from rfl]
    by_cases hdue : s.stp.due p
    · simp only [if_pos hdue]
    · have hdst : ¬ etherDstAddr p.data 0 ≠ bpduAddr := fun hne => hd ⟨hdue, hne⟩
      simp only [if_neg hdue, if_neg hdst]
      split_ifs
      · rfl
      · cases s.stp.state.update (bpduOf p) p.device <;> rfl

/-- **The bridge meets its specification.** On every run from `nf_init`, for any hash and any driver, no packet makes
an assertion of `spec.py` fail, where `stp_state` is the state of the protocol, `db` the map of addresses and the
transmissions are the calls that make the driver's outputs. -/
theorem bridge_meets_spec (hash : EtherAddr → UInt32) (items : ConfigItems) (drv : Tinynf)
    (hinit : nfInit items drv.devicesCount = some s) (ps : List NetPacket)
    (hps : ∀ p ∈ ps, Received drv p ∧ p.time < timeMax) :
    Monitor.checkAll (fun s p => (nfHandle hash drv s p).1) (checkSpec hash items drv) s ps = .ok () ∧
      ∀ s p, (nfHandle hash drv s p).2 = (calls hash s p).foldl (NetCall.run drv) (drv.received p) := by
  refine ⟨?_, fun _ _ => handle_calls⟩
  obtain ⟨n, -, hs, -⟩ := nfInit_inv hash hinit
  have hc : Configured items drv.devicesCount s := by
    unfold nfInit at hinit
    split_ifs at hinit
    simp only [Option.pure_def, Option.bind_eq_bind, Option.bind_eq_some_iff, Option.some.injEq] at hinit
    obtain ⟨bid, -, e, -, capacity, -, up, hup, t, -, rfl⟩ := hinit
    exact (SpecConfig.get_time hup).2
  refine Monitor.checkAll_ok (fun _ => ())
    (fun s _ => Configured items drv.devicesCount s ∧ s.Inv hash drv.devicesCount n)
    (fun p => Received drv p ∧ p.time < timeMax) ?_ ⟨hc, hs⟩ (fun p hp => ⟨le_refl _, hps p hp⟩)
    (List.pairwise_of_forall fun _ _ => le_refl _)
  rintro s - p ⟨hc, hs⟩ - ⟨hp, ht⟩
  refine ⟨handle_spec hs hc hp (ht.trans (by decide)), ?_, nfHandle_inv hs hp⟩
  unfold Configured
  rw [handle_updateTime]
  exact hc

/-- The theorem at a frame to a new address, its answer and a due packet. -/
theorem bridge_meets_spec_three :
    let items : ConfigItems := [("bid", 2), ("expiration time", 100), ("capacity", 4), ("stp update time", 50)]
    ∃ s, nfInit items demoDriver.devicesCount = some s ∧
      Monitor.checkAll (fun s p => (nfHandle (fun _ => 0) demoDriver s p).1) (checkSpec (fun _ => 0) items demoDriver) s
        [⟨fun _ => 2, 60, 1, 0⟩, ⟨fun _ => 2, 60, 2, 1⟩, ⟨fun _ => 2, 60, 51, 1⟩] = .ok () :=
  ⟨_, rfl, (bridge_meets_spec (fun _ => 0) _ demoDriver rfl _ (by
    simp only [List.forall_mem_cons]
    exact ⟨⟨⟨by decide, by decide, by decide⟩, by decide⟩, ⟨⟨by decide, by decide, by decide⟩, by decide⟩,
      ⟨⟨by decide, by decide, by decide⟩, by decide⟩, fun _ h => absurd h List.not_mem_nil⟩)).1⟩

end Bridge
end Klint
