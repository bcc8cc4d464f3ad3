/-
# The bridge

`nf/bridge`: a frame that the spanning tree protocol does not take is learned,
its source address with the device it came from, and then forwarded to the
device its destination was learned on, or flooded.

`learning_inv`: over every run the addresses, the map, the devices and the pool
agree, no group address is learned, and every frame leaves on the devices that
the table says.

`blocked_iff`: the flood leaves out the disabled ports but the forwarding to a
learned device does not look at them. So a run sends no frame on a disabled port
exactly when no frame is for an address learned on one (`ToBlocked`).
-/
import Klint.Nf.SpanningTree
import Klint.Os.Config
import Klint.Structs.KeyedPool

namespace Klint
namespace Bridge

structure State where
  stp : Stp
  /-- `addresses`, `map` and `allocator`. -/
  table : KeyedPool EtherAddr
  devices : List UInt16

def nfInit (items : ConfigItems) (devicesCount : UInt16) : Option State :=
  if devicesCount < 2 then none else do
    let selfBid ← osConfigGetU64 items "bid"
    let expirationTime ← osConfigGetTime items "expiration time"
    let capacity ← osConfigGetSize items "capacity"
    let stpUpdateTime ← osConfigGetTime items "stp update time"
    let table ← keyedPoolAlloc EtherAddr etherAddrSize capacity expirationTime
    return { stp := stpInit devicesCount selfBid stpUpdateTime, table := table,
             devices := List.replicate capacity 0 }

variable (hash : EtherAddr → UInt32)

/-- `devices[index]`. -/
def State.deviceAt (s : State) (index : ℕ) : UInt16 := s.devices.getD index 0

/-- Learn the source address, unless it is a group address. -/
def learn (s : State) (packet : NetPacket) : State :=
  let src := etherSrcAddr packet.data 0
  if src.group then s
  else
    match s.table.find hash src with
    | some index =>
      { s with table := s.table.refresh packet.time index, devices := s.devices.set index packet.device }
    | none =>
      match s.table.insert hash packet.time src with
      | (some index, table) => { s with table := table, devices := s.devices.set index packet.device }
      | (none, table) => { s with table := table }

/-- A call of `net_transmit`, `net_flood` or `net_flood_except`, with the packet as it is then. -/
inductive NetCall
  | transmit (packet : NetPacket) (device : UInt16) (flags : NetTransmitFlags)
  | flood (packet : NetPacket) (flags : NetTransmitFlags)
  | floodExcept (packet : NetPacket) (disabledDevices : List Bool) (flags : NetTransmitFlags)

/-- What the driver does. -/
def NetCall.run (drv : Tinynf) (o : Outputs) : NetCall → Outputs
  | transmit packet device flags => netTransmit drv { o with packet := packet } device flags
  | flood packet flags => netFlood drv { o with packet := packet } flags
  | floodExcept packet disabledDevices flags => netFloodExcept drv { o with packet := packet } disabledDevices flags

/-- Send to the device of the destination address, or flood. -/
def forwardCalls (s : State) (packet : NetPacket) : List NetCall :=
  match s.table.find hash (etherDstAddr packet.data 0) with
  | some index => if s.deviceAt index ≠ packet.device then [.transmit packet (s.deviceAt index) .none] else []
  | none => [.floodExcept packet (stpBlockedDevices s.stp) .none]

def forward (drv : Tinynf) (s : State) (o : Outputs) : Outputs :=
  (forwardCalls hash s o.packet).foldl (NetCall.run drv) o

def nfHandle (drv : Tinynf) (s : State) (packet : NetPacket) : State × Outputs :=
  match netGetEtherHeader packet with
  | none => (s, drv.received packet)
  | some _ =>
    match stpHandle drv s.stp (drv.received packet) with
    | (true, stp, o) => ({ s with stp := stp }, o)
    | (false, stp, o) =>
      let s := learn hash { s with stp := stp } o.packet
      (s, forward hash drv s o)

/-- A data frame: the protocol does not take it. -/
def Data (s : State) (packet : NetPacket) : Prop := ¬ s.stp.due packet ∧ etherDstAddr packet.data 0 ≠ bpduAddr

instance (s : State) (packet : NetPacket) : Decidable (Data s packet) := inferInstanceAs (Decidable (_ ∧ _))

variable {hash} {drv : Tinynf} {s : State} {p : NetPacket}

/-- A data frame leaves the protocol alone. -/
theorem nfHandle_data (h : Data s p) :
    nfHandle hash drv s p = (learn hash s p, forward hash drv (learn hash s p) (drv.received p)) := by
  obtain ⟨hdue, hdst⟩ := h
  have hstp : stpHandle drv s.stp (drv.received p) = (false, s.stp, drv.received p) := by
    unfold stpHandle
    rw [if_neg (show ¬ s.stp.due (drv.received p).packet from hdue),
      if_pos (show etherDstAddr (drv.received p).packet.data 0 ≠ bpduAddr from hdst)]
  simp only [nfHandle, netGetEtherHeader, hstp]
  rfl

/-- Every other packet leaves the table alone. -/
theorem nfHandle_stp (h : ¬ Data s p) : (nfHandle hash drv s p).1.table = s.table ∧
    (nfHandle hash drv s p).1.devices = s.devices := by
  have hstp : (stpHandle drv s.stp (drv.received p)).1 = true := by
    unfold stpHandle
    by_cases hdue : s.stp.due p
    · rw [if_pos (show s.stp.due (drv.received p).packet from hdue)]
    · have hdst : etherDstAddr (drv.received p).packet.data 0 = bpduAddr := by
        by_contra hne
        exact h ⟨hdue, hne⟩
      rw [if_neg (show ¬ s.stp.due (drv.received p).packet from hdue), if_neg (not_not.mpr hdst)]
      split_ifs
      · rfl
      · cases s.stp.state.update (bpduOf (drv.received p).packet) (drv.received p).packet.device <;> rfl
  simp only [nfHandle, netGetEtherHeader]
  rcases hres : stpHandle drv s.stp (drv.received p) with ⟨_ | _, stp, o⟩
  · rw [hres] at hstp
    cases hstp
  · exact ⟨rfl, rfl⟩

/-! ### The calls -/

/-- The calls of `stp_handle`. -/
def stpCalls (stp : Stp) (packet : NetPacket) : List NetCall :=
  if stp.due packet then
    [.flood { ({ stp.state with lastUpdateTime := packet.time } : StpState).announce packet with
              length := etherHeaderSize + bpduSize } .updateEtherAddrs]
  else if stp.state.root < (bpduOf packet).root then []
  else
    match stp.state.update (bpduOf packet) packet.device with
    | none => []
    | some state => [.flood (state.announce packet) .updateEtherAddrs]

/-- The calls of `nf_handle`. -/
def calls (hash : EtherAddr → UInt32) (s : State) (packet : NetPacket) : List NetCall :=
  if Data s packet then forwardCalls hash (learn hash s packet) packet else stpCalls s.stp packet

/-- The driver's outputs are those of the calls. -/
theorem handle_calls :
    (nfHandle hash drv s p).2 = (calls hash s p).foldl (NetCall.run drv) (drv.received p) := by
  by_cases hd : Data s p
  · rw [nfHandle_data hd, calls, if_pos hd]
    rfl
  · rw [calls, if_neg hd]
    unfold nfHandle stpHandle stpCalls
    simp only [netGetEtherHeader, show (drv.received p).packet = p from rfl]
    by_cases hdue : s.stp.due p
    · simp only [if_pos hdue]
      rfl
    · have hdst : ¬ etherDstAddr p.data 0 ≠ bpduAddr := fun hne => hd ⟨hdue, hne⟩
      simp only [if_neg hdue, if_neg hdst]
      by_cases hroot : s.stp.state.root < (bpduOf p).root
      · simp only [if_pos hroot]
        rfl
      · simp only [if_neg hroot]
        cases s.stp.state.update (bpduOf p) p.device <;> rfl

/-! ### Learning -/

/-- The table and the devices fit each other, no group address is in use, and every device in use is one
of the driver's. -/
structure State.Inv (hash : EtherAddr → UInt32) (devicesCount : UInt16) (n : ℕ) (s : State) : Prop where
  table : s.table.Inv hash n
  devices_length : s.devices.length = n
  noGroup : ∀ i ts, s.table.pool.items i = some ts → (s.table.key i).group = false
  inRange : ∀ i ts, s.table.pool.items i = some ts → s.deviceAt i < devicesCount

/-- What the driver promises of a packet: it came from one of the devices, it is not empty and its time is
not the one that never is. -/
structure Received (drv : Tinynf) (p : NetPacket) : Prop where
  device : p.device < drv.devicesCount
  length : 0 < p.length
  time : p.time ≠ timeMax

instance (drv : Tinynf) (p : NetPacket) : Decidable (Received drv p) :=
  decidable_of_iff (p.device < drv.devicesCount ∧ 0 < p.length ∧ p.time ≠ timeMax)
    ⟨fun ⟨hdevice, hlength, htime⟩ => ⟨hdevice, hlength, htime⟩, fun h => ⟨h.device, h.length, h.time⟩⟩

/-- Index `i` is what the frame is learned at: the one of its source, or one that is borrowed for it. -/
def LearnsAt (hash : EtherAddr → UInt32) (s : State) (p : NetPacket) (i : ℕ) : Prop :=
  (etherSrcAddr p.data 0).group = false ∧
    (s.table.find hash (etherSrcAddr p.data 0) = some i ∨
      s.table.find hash (etherSrcAddr p.data 0) = none ∧
        (indexPoolBorrow s.table.pool p.time).1.map Prod.fst = some i)

instance (s : State) (p : NetPacket) (i : ℕ) : Decidable (LearnsAt hash s p i) :=
  inferInstanceAs (Decidable (_ ∧ (_ ∨ _ ∧ _)))

theorem LearnsAt.unique {i j : ℕ} (hi : LearnsAt hash s p i) (hj : LearnsAt hash s p j) : i = j := by
  rcases hi.2 with hi | ⟨hi, hbi⟩ <;> rcases hj.2 with hj | ⟨hj, hbj⟩
  · rw [hi] at hj; cases hj; rfl
  · rw [hi] at hj; cases hj
  · rw [hi] at hj; cases hj
  · rw [hbi] at hbj; cases hbj; rfl

/-- The index that an insertion takes is the one that was borrowed. -/
theorem insert_fst (t : KeyedPool EtherAddr) (time : ℕ) (k : EtherAddr) :
    (t.insert hash time k).1 = (indexPoolBorrow t.pool time).1.map Prod.fst := by
  unfold KeyedPool.insert
  rcases indexPoolBorrow t.pool time with ⟨_ | ⟨i, used⟩, pool⟩ <;> rfl

variable {n : ℕ}

/-- What learning does: it gives one index the source and the device, or nothing changes. -/
theorem learn_cases (h : s.Inv hash drv.devicesCount n) (hp : Received drv p) :
    (∃ i, LearnsAt hash s p i ∧ i < n ∧ (learn hash s p).table.Inv hash n ∧
      (learn hash s p).table.pool.items = Function.update s.table.pool.items i (some p.time) ∧
      (learn hash s p).table.key = Function.update s.table.key i (etherSrcAddr p.data 0) ∧
      (learn hash s p).devices = s.devices.set i p.device ∧ (learn hash s p).stp = s.stp ∧
      ∀ j ts, j ≠ i → s.table.pool.items j = some ts → s.table.key j ≠ etherSrcAddr p.data 0) ∨
    ((∀ i, ¬ LearnsAt hash s p i) ∧ learn hash s p = s) := by
  unfold LearnsAt
  cases hgroup : (etherSrcAddr p.data 0).group with
  | true =>
    exact .inr ⟨fun i hi => Bool.false_ne_true hi.1.symm, by simp only [learn, hgroup, ↓reduceIte]⟩
  | false =>
    cases hfind : s.table.find hash (etherSrcAddr p.data 0) with
    | some i =>
      left
      have hlearn : learn hash s p =
          { s with table := s.table.refresh p.time i, devices := s.devices.set i p.device } := by
        simp only [learn, hgroup, Bool.false_eq_true, ↓reduceIte, hfind]
      obtain ⟨⟨ts, hts⟩, hkey⟩ := h.table.find_iff.mp hfind
      obtain ⟨hinv, hitems⟩ := h.table.refresh hp.time (by rw [hts]; rfl)
      rw [hlearn]
      refine ⟨i, ⟨rfl, .inl rfl⟩, h.table.lt_of_items hts, hinv, hitems, ?_, rfl, rfl, fun j ts' hj hts' he => ?_⟩
      · rw [← hkey, Function.update_eq_self]
        rfl
      · exact hj (h.table.key_inj hts' hts (he.trans hkey.symm))
    | none =>
      have hfst := @insert_fst hash s.table p.time (etherSrcAddr p.data 0)
      rcases h.table.insert_cases hp.time hfind with ⟨i, t', he, hi, -, hinv, hitems, hkey, -⟩ | ⟨he, -⟩
      · left
        have hlearn : learn hash s p = { s with table := t', devices := s.devices.set i p.device } := by
          simp only [learn, hgroup, Bool.false_eq_true, ↓reduceIte, hfind, he]
        rw [he] at hfst
        rw [hlearn]
        exact ⟨i, ⟨rfl, .inr ⟨rfl, hfst.symm⟩⟩, hi, hinv, hitems, hkey, rfl, rfl,
          fun j ts _ hts => h.table.find_none.mp hfind j ts hts⟩
      · right
        rw [he] at hfst
        refine ⟨fun i hi => ?_, by simp only [learn, hgroup, Bool.false_eq_true, ↓reduceIte, hfind, he]⟩
        rcases hi.2 with hi | ⟨-, hi⟩
        · cases hi
        · rw [← hfst] at hi
          cases hi

theorem deviceAt_set {i : ℕ} (hi : i < s.devices.length) (d : UInt16) (j : ℕ) :
    (s.devices.set i d).getD j 0 = if j = i then d else s.deviceAt j := by
  simp only [State.deviceAt, List.getD_eq_getElem?_getD]
  by_cases hj : j = i
  · subst hj
    simp [List.getElem?_set_self hi]
  · simp [List.getElem?_set_ne (Ne.symm hj), hj]

theorem learn_inv (h : s.Inv hash drv.devicesCount n) (hp : Received drv p) :
    (learn hash s p).Inv hash drv.devicesCount n := by
  rcases learn_cases h hp with ⟨i, hat, hi, hinv, hitems, hkey, hdev, -, -⟩ | ⟨-, he⟩
  · refine ⟨hinv, by rw [hdev, List.length_set]; exact h.devices_length, fun j ts hj => ?_, fun j ts hj => ?_⟩
    · rw [hitems] at hj
      rw [hkey]
      by_cases hji : j = i
      · subst hji
        rw [Function.update_self]
        exact hat.1
      · rw [Function.update_of_ne hji] at hj ⊢
        exact h.noGroup j ts hj
    · rw [hitems] at hj
      rw [State.deviceAt, hdev, deviceAt_set (by rw [h.devices_length]; exact hi)]
      by_cases hji : j = i
      · rw [if_pos hji]
        exact hp.device
      · rw [if_neg hji]
        rw [Function.update_of_ne hji] at hj
        exact h.inRange j ts hj
  · rw [he]
    exact h

theorem nfHandle_inv (h : s.Inv hash drv.devicesCount n) (hp : Received drv p) :
    (nfHandle hash drv s p).1.Inv hash drv.devicesCount n := by
  by_cases hd : Data s p
  · rw [nfHandle_data hd]
    exact learn_inv h hp
  · obtain ⟨ht, hdev⟩ := @nfHandle_stp hash drv s p hd
    refine ⟨ht ▸ h.table, hdev ▸ h.devices_length, ht ▸ h.noGroup, fun i ts hi => ?_⟩
    rw [State.deviceAt, hdev]
    exact h.inRange i ts (ht ▸ hi)

theorem nfInit_inv {items : ConfigItems} {devicesCount : UInt16} (hash : EtherAddr → UInt32)
    (h : nfInit items devicesCount = some s) : ∃ capacity, osConfigGetSize items "capacity" = some capacity ∧
      s.Inv hash devicesCount capacity ∧ ∀ i, s.table.pool.items i = none := by
  unfold nfInit at h
  split_ifs at h
  simp only [Option.pure_def, Option.bind_eq_bind, Option.bind_eq_some_iff, Option.some.injEq] at h
  obtain ⟨bid, -, e, -, capacity, hcap, up, -, t, ht, rfl⟩ := h
  obtain ⟨t', ht', hinv, hitems, -⟩ := KeyedPool.keyedPoolAlloc_inv (K := EtherAddr) etherAddrSize e
    (osConfigGetSize_le hcap)
  rw [ht] at ht'
  cases ht'
  refine ⟨capacity, hcap, ⟨hinv hash, by simp, fun i ts hi => ?_, fun i ts hi => ?_⟩, fun i => by rw [hitems]⟩ <;>
  · simp only [hitems] at hi
    cases hi

/-! ### Forwarding -/

theorem forward_none {o : Outputs} (h : s.table.find hash (etherDstAddr o.packet.data 0) = none) :
    forward hash drv s o = netFloodExcept drv o (stpBlockedDevices s.stp) .none := by
  rw [forward, forwardCalls, h]
  rfl

theorem forward_some {o : Outputs} {i : ℕ} (h : s.table.find hash (etherDstAddr o.packet.data 0) = some i) :
    forward hash drv s o =
      if s.deviceAt i ≠ o.packet.device then netTransmit drv o (s.deviceAt i) .none else o := by
  rw [forward, forwardCalls, h]
  dsimp only
  split_ifs <;> rfl

/-- The frame leaves unchanged, on the device of its destination if that has one other than the frame's
own, and on every other device that is not blocked if it has none. -/
def Forwards (hash : EtherAddr → UInt32) (drv : Tinynf) (s : State) (p : NetPacket) (o : Outputs) : Prop :=
  o.packet = p ∧ ∀ d, d < drv.devicesCount → o.sent d =
    match s.table.find hash (etherDstAddr p.data 0) with
    | some i => if d = s.deviceAt i ∧ d ≠ p.device then p.length else 0
    | none => if d ≠ p.device ∧ (stpBlockedDevices s.stp).getD d.toNat false = false then p.length else 0

theorem forward_forwards (h : s.Inv hash drv.devicesCount n) (hp : Received drv p) :
    Forwards hash drv s p (forward hash drv s (drv.received p)) := by
  unfold Forwards
  cases hfind : s.table.find hash (etherDstAddr p.data 0) with
  | some i =>
    rw [forward_some (show s.table.find hash (etherDstAddr (drv.received p).packet.data 0) = some i from hfind),
      show (drv.received p).packet = p from rfl]
    dsimp only
    obtain ⟨⟨ts, hts⟩, -⟩ := h.table.find_iff.mp hfind
    by_cases hdev : s.deviceAt i = p.device
    · rw [if_neg (not_not.mpr hdev)]
      refine ⟨rfl, fun d _ => ?_⟩
      rw [received_sent, if_neg fun hd => hd.2 (hd.1.trans hdev)]
    · rw [if_pos hdev]
      refine ⟨rfl, fun d _ => ?_⟩
      rw [transmit_sent rfl hp.device (h.inRange i ts hts) hdev]
      by_cases hd : d = s.deviceAt i
      · rw [if_pos hd, if_pos ⟨hd, fun he => hdev (hd.symm.trans he)⟩]
        rfl
      · rw [if_neg hd, if_neg fun h => hd h.1]
  | none =>
    rw [forward_none (show s.table.find hash (etherDstAddr (drv.received p).packet.data 0) = none from hfind),
      netFloodExcept]
    dsimp only
    refine ⟨floodWith_none _, fun d hd => ?_⟩
    by_cases hne : d = p.device
    · rw [Outputs.sent, floodWith_device, if_pos (show d = (drv.received p).packet.device from hne),
        if_neg fun h => h.1 hne]
    · rw [floodWith_sent (by simp [Tinynf.received]) hp.device hd hne]
      cases (stpBlockedDevices s.stp).getD d.toNat false <;> simp [hne, Tinynf.received]

/-! ### Runs -/

/-- The bridge in a run, with the device of the most recent learned frame from each address. -/
structure Run where
  s : State
  learned : EtherAddr → Option UInt16

/-- A data frame is learned if there is an index for its source. -/
def Run.handle (hash : EtherAddr → UInt32) (drv : Tinynf) (r : Run) (p : NetPacket) : Run where
  s := (nfHandle hash drv r.s p).1
  learned :=
    if Data r.s p ∧ ((learn hash r.s p).table.find hash (etherSrcAddr p.data 0)).isSome then
      Function.update r.learned (etherSrcAddr p.data 0) (some p.device)
    else r.learned

def Run.handleAll (hash : EtherAddr → UInt32) (drv : Tinynf) (r : Run) (ps : List NetPacket) : Run :=
  ps.foldl (Run.handle hash drv) r

/-- The calls `nf_handle` makes for a packet meet their preconditions. -/
def HandlePre (hash : EtherAddr → UInt32) (capacity : ℕ) (s : State) (p : NetPacket) : Prop :=
  Data s p → (etherSrcAddr p.data 0).group = false →
    match s.table.find hash (etherSrcAddr p.data 0) with
    | some index => KeyedPool.RefreshPre s.table.pool p.time index
    | none => KeyedPool.InsertPre hash capacity s.table p.time (etherSrcAddr p.data 0)

theorem handlePre (h : s.Inv hash drv.devicesCount n) (hp : Received drv p) : HandlePre hash n s p := by
  intro _ _
  cases hfind : s.table.find hash (etherSrcAddr p.data 0) with
  | some i =>
    obtain ⟨⟨ts, hts⟩, -⟩ := h.table.find_iff.mp hfind
    exact ⟨hp.time, IndexPool.items_lt hts⟩
  | none => exact h.table.insertPre hp.time hfind

/-- The invariant of a run. -/
structure Run.Inv (hash : EtherAddr → UInt32) (drv : Tinynf) (n : ℕ) (r : Run) : Prop where
  state : r.s.Inv hash drv.devicesCount n
  learned : ∀ i ts, r.s.table.pool.items i = some ts → r.learned (r.s.table.key i) = some (r.s.deviceAt i)

theorem Run.Inv.handle {r : Run} (h : r.Inv hash drv n) (hp : Received drv p) :
    (r.handle hash drv p).Inv hash drv n := by
  refine ⟨nfHandle_inv h.state hp, ?_⟩
  by_cases hd : Data r.s p
  · simp only [Run.handle, nfHandle_data hd, hd, true_and]
    have hinv := learn_inv h.state hp
    rcases learn_cases h.state hp with ⟨i, hat, hi, -, hitems, hkey, hdev, -, hother⟩ | ⟨hnot, he⟩
    · have hfind : (learn hash r.s p).table.find hash (etherSrcAddr p.data 0) = some i := by
        rw [hinv.table.find_iff, hitems, hkey]
        exact ⟨⟨p.time, Function.update_self ..⟩, Function.update_self ..⟩
      intro j ts hj
      rw [hfind, Option.isSome_some, if_pos rfl, State.deviceAt, hdev,
        deviceAt_set (by rw [h.state.devices_length]; exact hi), hkey]
      rw [hitems] at hj
      by_cases hji : j = i
      · subst hji
        rw [Function.update_self, Function.update_self, if_pos rfl]
      · rw [Function.update_of_ne hji] at hj ⊢
        rw [Function.update_of_ne (hother j ts hji hj), if_neg hji]
        exact h.learned j ts hj
    · rw [he]
      have hnone : ¬ ((r.s.table.find hash (etherSrcAddr p.data 0)).isSome = true) := by
        intro hsome
        obtain ⟨i, hi⟩ := Option.isSome_iff_exists.mp hsome
        obtain ⟨⟨ts, hts⟩, hkey⟩ := h.state.table.find_iff.mp hi
        exact hnot i ⟨hkey ▸ h.state.noGroup i ts hts, .inl hi⟩
      rw [if_neg hnone]
      exact h.learned
  · obtain ⟨ht, hdev⟩ := @nfHandle_stp hash drv r.s p hd
    intro i ts hi
    simp only [Run.handle, hd, false_and, ↓reduceIte, State.deviceAt, ht, hdev] at hi ⊢
    exact h.learned i ts hi

theorem Run.Inv.handleAll : ∀ {ps : List NetPacket} {r : Run}, r.Inv hash drv n → (∀ p ∈ ps, Received drv p) →
    (r.handleAll hash drv ps).Inv hash drv n
  | [], _, h, _ => h
  | p :: ps, r, h, hps => by
    have htail : ∀ q ∈ ps, Received drv q := fun q hq => hps q (List.mem_cons_of_mem _ hq)
    have hrest : ((r.handle hash drv p).handleAll hash drv ps).Inv hash drv n :=
      Run.Inv.handleAll (h.handle (hps p List.mem_cons_self)) htail
    exact hrest

/-- The addresses, the map, the devices and the pool agree. -/
structure TableOk (hash : EtherAddr → UInt32) (r : Run) : Prop where
  bound : ∀ i, (r.s.table.pool.items i).isSome ↔
    mapGet hash (keyMem r.s.table.keys) r.s.table.map (.elem i) = some i
  distinct : ∀ i j, (r.s.table.pool.items i).isSome → (r.s.table.pool.items j).isSome →
    r.s.table.key i = r.s.table.key j → i = j
  noGroup : ∀ a i, r.s.table.find hash a = some i → a.group = false
  learned : ∀ i, (r.s.table.pool.items i).isSome → r.learned (r.s.table.key i) = some (r.s.deviceAt i)

theorem Run.Inv.tableOk {r : Run} (h : r.Inv hash drv n) : TableOk hash r where
  bound := fun i => h.state.table.bound_iff i
  distinct := fun i j hi hj he => by
    obtain ⟨ts, hts⟩ := Option.isSome_iff_exists.mp hi
    obtain ⟨ts', hts'⟩ := Option.isSome_iff_exists.mp hj
    exact h.state.table.key_inj hts hts' he
  noGroup := fun a i hi => by
    obtain ⟨⟨ts, hts⟩, rfl⟩ := h.state.table.find_iff.mp hi
    exact h.state.noGroup i ts hts
  learned := fun i hi => by
    obtain ⟨ts, hts⟩ := Option.isSome_iff_exists.mp hi
    exact h.learned i ts hts

/-- **The learning table of the bridge.** On every run from `nf_init`, for any hash: the pool has a timestamp
at index `i` exactly when the map binds `addresses[i]` to `i`, these addresses are distinct, no group address
is in the map, and `devices[i]` is the device of the most recent learned frame from `addresses[i]`; every call
made for a later packet meets its precondition; and a later data frame leaves on the devices that the table
says, once the frame has been learned. -/
theorem learning_inv (hash : EtherAddr → UInt32) (drv : Tinynf) (items : ConfigItems) {capacity : ℕ} {s : State}
    (hinit : nfInit items drv.devicesCount = some s) (hcap : osConfigGetSize items "capacity" = some capacity)
    (ps : List NetPacket) (hps : ∀ p ∈ ps, Received drv p) :
    let r := (Run.mk s fun _ => none).handleAll hash drv ps
    TableOk hash r ∧ ∀ p, Received drv p → HandlePre hash capacity r.s p ∧
      (Data r.s p → Forwards hash drv (nfHandle hash drv r.s p).1 p (nfHandle hash drv r.s p).2) := by
  obtain ⟨c, hc, hinv, hempty⟩ := nfInit_inv hash hinit
  rw [hcap, Option.some.injEq] at hc
  subst hc
  have hrun : ((Run.mk s fun _ => none).handleAll hash drv ps).Inv hash drv capacity :=
    Run.Inv.handleAll ⟨hinv, fun i ts hi => by rw [hempty] at hi; cases hi⟩ hps
  refine ⟨hrun.tableOk, fun p hp => ⟨handlePre hrun.state hp, fun hd => ?_⟩⟩
  rw [nfHandle_data hd]
  exact forward_forwards (learn_inv hrun.state hp) hp

def demoItems : ConfigItems := [("bid", 5), ("expiration time", 100), ("capacity", 2), ("stp update time", 1000)]

/-- A frame from an address to another. -/
def demoFrame (src dst : EtherAddr) : ℕ → UInt8 := storeEtherAddr (storeEtherAddr (fun _ => 0) 0 dst) 6 src

/-- An end station. -/
def demoAddr (n : UInt8) : EtherAddr := ⟨2, 0, 0, 0, 0, n⟩

/-- The theorem after a frame between two stations. -/
theorem learning_inv_one : ∃ s, nfInit demoItems demoDriver.devicesCount = some s ∧
    TableOk (fun _ => 0) ((Run.mk s fun _ => none).handleAll (fun _ => 0) demoDriver
      [⟨demoFrame (demoAddr 1) (demoAddr 2), 60, 7, 0⟩]) :=
  ⟨_, rfl, (learning_inv (fun _ => 0) demoDriver demoItems rfl rfl _ (by decide)).1⟩

/-! ### Blocked ports -/

/-- A run in which every packet has a property in the state it meets. -/
def Always (hash : EtherAddr → UInt32) (drv : Tinynf) (P : State → NetPacket → Prop) : State → List NetPacket → Prop
  | _, [] => True
  | s, p :: ps => P s p ∧ Always hash drv P (nfHandle hash drv s p).1 ps

theorem Always.mono {P Q : State → NetPacket → Prop} (hPQ : ∀ s p, P s p → Q s p) :
    ∀ {ps : List NetPacket} {s : State}, Always hash drv P s ps → Always hash drv Q s ps
  | [], _, _ => trivial
  | _ :: _, _, h => ⟨hPQ _ _ h.1, h.2.mono hPQ⟩

instance Always.decidable (hash : EtherAddr → UInt32) (drv : Tinynf) (P : State → NetPacket → Prop)
    [∀ s p, Decidable (P s p)] : ∀ (s : State) (ps : List NetPacket), Decidable (Always hash drv P s ps)
  | _, [] => inferInstanceAs (Decidable True)
  | s, p :: ps =>
    have := Always.decidable hash drv P (nfHandle hash drv s p).1 ps
    inferInstanceAs (Decidable (P s p ∧ Always hash drv P (nfHandle hash drv s p).1 ps))

/-- What is claimed of a packet: a data frame leaves on no disabled port. -/
def Unblocked (hash : EtherAddr → UInt32) (drv : Tinynf) (s : State) (p : NetPacket) : Prop :=
  Data s p → ∀ d, d < drv.devicesCount → s.stp.disabledPorts.getD d.toNat false = true →
    (nfHandle hash drv s p).2.sent d = 0

/-- The destination is another address than the source, learned on a disabled port other than the frame's,
and learning the frame does not evict it. -/
def ToBlocked (hash : EtherAddr → UInt32) (s : State) (p : NetPacket) : Prop :=
  ∃ i, s.table.find hash (etherDstAddr p.data 0) = some i ∧ s.deviceAt i ≠ p.device ∧
    s.stp.disabledPorts.getD (s.deviceAt i).toNat false = true ∧ ¬ LearnsAt hash s p i

instance (s : State) (p : NetPacket) : Decidable (ToBlocked hash s p) :=
  inferInstanceAs (Decidable (∃ i, i ∈ s.table.find hash (etherDstAddr p.data 0) ∧ _))

/-- After learning, the destination is found where it was, or at the index of the frame. -/
theorem find_learn (h : s.Inv hash drv.devicesCount n) (hp : Received drv p) (a : EtherAddr) (i : ℕ) :
    ((learn hash s p).table.find hash a = some i ∧ (learn hash s p).deviceAt i ≠ p.device) ↔
      s.table.find hash a = some i ∧ s.deviceAt i ≠ p.device ∧ ¬ LearnsAt hash s p i := by
  have hinv := learn_inv h hp
  rw [hinv.table.find_iff, h.table.find_iff]
  rcases learn_cases h hp with ⟨j, hat, hj, -, hitems, hkey, hdev, -, -⟩ | ⟨hnot, he⟩
  · rw [hitems, hkey, State.deviceAt, hdev, deviceAt_set (by rw [h.devices_length]; exact hj)]
    by_cases hij : i = j
    · subst hij
      simp [hat]
    · have hnat : ¬ LearnsAt hash s p i := fun hi => hij (hi.unique hat)
      simp only [Function.update_of_ne hij, if_neg hij, hnat, not_false_eq_true, and_true]
  · rw [he]
    simp only [hnot i, not_false_eq_true, and_true]

/-- The device of every other index stays. -/
theorem deviceAt_learn (h : s.Inv hash drv.devicesCount n) (hp : Received drv p) {i : ℕ}
    (hnat : ¬ LearnsAt hash s p i) : (learn hash s p).deviceAt i = s.deviceAt i := by
  rcases learn_cases h hp with ⟨j, hat, hj, -, -, -, hdev, -, -⟩ | ⟨-, he⟩
  · have hij : i ≠ j := fun he => hnat (he.symm ▸ hat)
    rw [State.deviceAt, hdev, deviceAt_set (by rw [h.devices_length]; exact hj), if_neg hij]
  · rw [he]

theorem learn_stp (s : State) (p : NetPacket) : (learn hash s p).stp = s.stp := by
  unfold learn
  simp only
  split_ifs
  · rfl
  · cases s.table.find hash (etherSrcAddr p.data 0) with
    | some i => rfl
    | none => rcases s.table.insert hash p.time (etherSrcAddr p.data 0) with ⟨_ | i, t⟩ <;> rfl

/-- The claim for one packet is its condition. -/
theorem unblocked_iff (h : s.Inv hash drv.devicesCount n) (hp : Received drv p) :
    Unblocked hash drv s p ↔ (Data s p → ¬ ToBlocked hash s p) := by
  refine forall_congr' fun hd => ?_
  have hinv := learn_inv h hp
  obtain ⟨-, hsent⟩ := forward_forwards hinv hp
  rw [nfHandle_data hd]
  simp only [stpBlockedDevices, learn_stp] at hsent ⊢
  have hlen : p.length ≠ 0 := Nat.ne_of_gt hp.length
  constructor
  · rintro hall ⟨i, hfind, hne, hdis, hnat⟩
    obtain ⟨hfind', hne'⟩ := (find_learn h hp _ i).mpr ⟨hfind, hne, hnat⟩
    have hdev := deviceAt_learn h hp hnat
    obtain ⟨⟨ts, hts⟩, -⟩ := h.table.find_iff.mp hfind
    have hzero := hall _ (h.inRange i ts hts) hdis
    rw [hsent _ (h.inRange i ts hts), hfind'] at hzero
    simp only [hdev, hne, ne_eq, not_false_eq_true, and_self, ↓reduceIte] at hzero
    exact hlen hzero
  · intro hnot d hd hdis
    rw [hsent d hd]
    cases hfind : (learn hash s p).table.find hash (etherDstAddr p.data 0) with
    | none => simp only [hdis, Bool.true_eq_false, and_false, ↓reduceIte]
    | some i =>
      refine if_neg ?_
      rintro ⟨rfl, hne⟩
      obtain ⟨hfind', hne', hnat⟩ := (find_learn h hp _ i).mp ⟨hfind, hne⟩
      exact hnot ⟨i, hfind', hne', deviceAt_learn h hp hnat ▸ hdis, hnat⟩

theorem always_congr {P Q : State → NetPacket → Prop}
    (hPQ : ∀ s, s.Inv hash drv.devicesCount n → ∀ p, Received drv p → (P s p ↔ Q s p)) :
    ∀ {ps : List NetPacket} {s : State}, s.Inv hash drv.devicesCount n → (∀ p ∈ ps, Received drv p) →
      (Always hash drv P s ps ↔ Always hash drv Q s ps)
  | [], _, _, _ => Iff.rfl
  | p :: _, s, h, hps =>
    and_congr (hPQ s h p (hps p List.mem_cons_self)) (always_congr hPQ (nfHandle_inv h (hps p List.mem_cons_self))
      fun q hq => hps q (List.mem_cons_of_mem _ hq))

/-- **When blocked ports carry no data frames.** On every run from `nf_init`, for any hash: every data frame of
the run leaves on no port that is disabled then exactly when none is for an address learned on such a port. -/
theorem blocked_iff (hash : EtherAddr → UInt32) (drv : Tinynf) (items : ConfigItems) {s : State}
    (hinit : nfInit items drv.devicesCount = some s) (ps : List NetPacket) (hps : ∀ p ∈ ps, Received drv p) :
    Always hash drv (Unblocked hash drv) s ps ↔
      Always hash drv (fun s p => Data s p → ¬ ToBlocked hash s p) s ps := by
  obtain ⟨c, -, hinv, -⟩ := nfInit_inv hash hinit
  exact always_congr (fun s h p hp => unblocked_iff h hp) hinv hps

/-- The theorem in a run with a disabled port: a station is learned on device 0 and a BPDU of a worse root disables
device 1; then a frame for the station is sent to device 0, and one for an unknown station is flooded. -/
theorem blocked_iff_disabled : ∃ s, nfInit demoItems threeDevices.devicesCount = some s ∧
    Always (fun _ => 0) threeDevices (Unblocked (fun _ => 0) threeDevices) s
      [⟨demoFrame (demoAddr 1) (demoAddr 2), 60, 7, 0⟩, ⟨bpduFrame ⟨9, 0, 9⟩, 60, 8, 1⟩,
        ⟨demoFrame (demoAddr 2) (demoAddr 1), 60, 9, 2⟩, ⟨demoFrame (demoAddr 1) (demoAddr 3), 60, 10, 0⟩] :=
  ⟨_, rfl, (blocked_iff (fun _ => 0) threeDevices demoItems rfl _ (by decide)).mpr (by decide)⟩

/-- A station is learned on device 1, a BPDU of a worse root disables device 1, and the next frame for the
station leaves on it. -/
theorem not_unblocked : ∃ s, nfInit demoItems demoDriver.devicesCount = some s ∧
    ¬ Always (fun _ => 0) demoDriver (Unblocked (fun _ => 0) demoDriver) s
      [⟨demoFrame (demoAddr 1) (demoAddr 2), 60, 7, 1⟩, ⟨bpduFrame ⟨9, 0, 9⟩, 60, 8, 1⟩,
        ⟨demoFrame (demoAddr 2) (demoAddr 1), 60, 9, 0⟩] := by
  refine ⟨_, rfl, fun h => ?_⟩
  have hsent := h.2.2.1 (by decide) 1 (by decide) (by decide)
  revert hsent
  decide

end Bridge
end Klint
