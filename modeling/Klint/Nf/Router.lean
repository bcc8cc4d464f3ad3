/-
# The router

`nf/router`: packets on the last device are commands that write routes, the
others are sent to the device of the route of their destination. The longest
prefix match is a parameter, `Lpm`, as the repository has its header only.

The device of a command is written as it is, so what the router is told is what
it sends to: `handle_legal` says which routes make it send to a device that exists
and is not the packet's own.

The total length is compared as it is loaded, while it is in network byte order on
the wire. `forwarded_valid_iff`: of the checks on the header only that one lets
invalid packets pass, those whose length is too short for the header and from 1 on,
and it lets pass every one of them that has a route and is valid otherwise.
-/
import Klint.Net.Checksum
import Klint.Os.Config

namespace Klint
namespace Router

/-- `structs/lpm.h`, for keys of 32 bits and devices as values. -/
structure Lpm where
  Table : Type
  alloc : ℕ → Table
  set : Table → UInt32 → ℕ → UInt16 → Table
  search : Table → UInt32 → Option UInt16

/-- A command: a key, its width and the device. -/
structure Route where
  key : UInt32
  width : ℕ
  value : UInt16

/-- The table after some routes have been set. -/
def Lpm.setAll (lpm : Lpm) (table : lpm.Table) (routes : List Route) : lpm.Table :=
  routes.foldl (fun table r => lpm.set table r.key r.width r.value) table

theorem Lpm.setAll_append (lpm : Lpm) (table : lpm.Table) (routes : List Route) (r : Route) :
    lpm.setAll table (routes ++ [r]) = lpm.set (lpm.setAll table routes) r.key r.width r.value := by
  rw [Lpm.setAll, List.foldl_append]
  rfl

/-- A search returns a value that was set. -/
def Lpm.OnlyGiven (lpm : Lpm) : Prop := ∀ capacity routes key value,
  lpm.search (lpm.setAll (lpm.alloc capacity) routes) key = some value → ∃ r ∈ routes, r.value = value

/-- The route's prefix is the key's. -/
def covers (key : UInt32) (r : Route) : Bool :=
  r.width ≤ 32 && key.toNat / 2 ^ (32 - r.width) = r.key.toNat / 2 ^ (32 - r.width)

/-- The longest route that covers the key, the first of several: the latest is first. -/
def longest (key : UInt32) : List Route → Option Route
  | [] => none
  | r :: rs =>
    match longest key rs with
    | none => if covers key r then some r else none
    | some best => if covers key r && best.width ≤ r.width then some r else some best

theorem longest_mem {key : UInt32} : ∀ {rs : List Route} {r : Route}, longest key rs = some r → r ∈ rs
  | [], _, h => by cases h
  | r' :: rs, r, h => by
    unfold longest at h
    split at h
    · split_ifs at h
      cases h
      exact List.mem_cons_self
    · rename_i best hbest
      split_ifs at h
      · cases h
        exact List.mem_cons_self
      · cases h
        exact List.mem_cons_of_mem _ (longest_mem hbest)

/-- The longest prefix match over such a list. -/
def listLpm : Lpm where
  Table := List Route
  alloc := fun _ => []
  set := fun table key width value => ⟨key, width, value⟩ :: table
  search := fun table key => (longest key table).map (·.value)

theorem listLpm_setAll : ∀ (routes : List Route) (table : List Route),
    listLpm.setAll table routes = routes.reverse ++ table
  | [], _ => rfl
  | r :: routes, table => by
    rw [List.reverse_cons, List.append_assoc]
    exact listLpm_setAll routes (r :: table)

theorem listLpm_onlyGiven : listLpm.OnlyGiven := by
  intro capacity routes key value h
  have hall : listLpm.setAll (listLpm.alloc capacity) routes = routes.reverse ++ [] := listLpm_setAll routes []
  rw [hall] at h
  obtain ⟨r, hr, hv⟩ := Option.map_eq_some_iff.mp h
  obtain hmem | hmem := List.mem_append.mp (longest_mem hr)
  · exact ⟨r, List.mem_reverse.mp hmem, hv⟩
  · exact absurd hmem List.not_mem_nil

variable (lpm : Lpm)

structure State where
  devicesCount : UInt16
  table : lpm.Table

def nfInit (items : ConfigItems) (devicesCount : UInt16) : Option (State lpm) := do
  let capacity ← osConfigGetSize items "capacity"
  return { devicesCount := devicesCount, table := lpm.alloc capacity }

/-- The command of a packet on the last device, unless its width is bad. -/
def command (packet : NetPacket) : Option Route :=
  let key := load32 packet.data 0
  let width := (load64 packet.data 4).toNat
  if 32 < width then none
  else some { key := key, width := width, value := load16 packet.data 12 }

/-- "TODO (for the router only so no big deal for now)". -/
def netIpv4ChecksumValid (_data : ℕ → UInt8) (_ipv4 : ℕ) : Bool := true

/-- The IPv4 header of a packet that passes the checks. -/
def checkedHeader (packet : NetPacket) : Option ℕ := do
  let ether ← netGetEtherHeader packet
  let ipv4 ← netGetIpv4Header packet.data ether
  let versionIhl := packet.data ipv4
  let totalLength := load16 packet.data (ipv4 + 2)
  let timeToLive := packet.data (ipv4 + 8)
  if versionIhl >>> 4 ≠ 4 then none
  else if versionIhl &&& 0xF < 5 then none
  else if totalLength.toNat < (versionIhl &&& 0xF).toNat * 4 then none
  else if netIpv4ChecksumValid packet.data ipv4 = false then none
  else if timeToLive = 0 then none
  else some ipv4

/-- `net_transmit(packet, dst_device, UPDATE_ETHER_ADDRS)`. -/
def transmit (packet : NetPacket) (dstDevice : UInt16) : NetTransmit where
  data := packet.data
  length := packet.length
  device := dstDevice
  flags := .updateEtherAddrs

variable {lpm}

def nfHandle (s : State lpm) (packet : NetPacket) : State lpm × Option NetTransmit :=
  if packet.device.toNat + 1 = s.devicesCount.toNat then
    match command packet with
    | none => (s, none)  -- bad command
    | some r => ({ s with table := lpm.set s.table r.key r.width r.value }, none)
  else
    match checkedHeader packet with
    | none => (s, none)
    | some ipv4 =>
      match lpm.search s.table (dstAddr packet.data ipv4) with
      | some dstDevice => (s, some (transmit packet dstDevice))
      | none => (s, none)

/-! ### Legal devices -/

/-- The table holds the routes of the commands so far, and each of them is to one
of the devices. -/
structure State.Inv (n : UInt16) (s : State lpm) : Prop where
  devicesCount : s.devicesCount = n
  routes : ∃ capacity routes, s.table = lpm.setAll (lpm.alloc capacity) routes ∧ ∀ r ∈ routes, r.value < n

/-- The condition on a packet: the device of a command is one of the devices, and the
route of any other packet is not to the device it came from. -/
def RouteOk (n : UInt16) (s : State lpm) (packet : NetPacket) : Prop :=
  if packet.device.toNat + 1 = n.toNat then ∀ r, command packet = some r → r.value < n
  else ∀ ipv4, checkedHeader packet = some ipv4 → lpm.search s.table (dstAddr packet.data ipv4) ≠ some packet.device

variable {n : UInt16} {s : State lpm} {packet : NetPacket}

theorem nfInit_inv {items : ConfigItems} (h : nfInit lpm items n = some s) : s.Inv n := by
  simp only [nfInit, Option.bind_eq_bind, Option.bind_eq_some_iff, Option.pure_def, Option.some.injEq] at h
  obtain ⟨capacity, -, rfl⟩ := h
  exact ⟨rfl, capacity, [], rfl, fun r hr => absurd hr List.not_mem_nil⟩

/-- A packet that meets the condition keeps the invariant, and is sent to another device. -/
theorem handle_legal (hl : lpm.OnlyGiven) (h : s.Inv n) (hok : RouteOk n s packet) :
    (nfHandle s packet).1.Inv n ∧
      ∀ sent, (nfHandle s packet).2 = some sent → sent.device < n ∧ sent.device ≠ packet.device := by
  obtain ⟨rfl, capacity, routes, htable, hroutes⟩ := h
  unfold nfHandle
  by_cases hlast : packet.device.toNat + 1 = s.devicesCount.toNat
  · rw [RouteOk, if_pos hlast] at hok
    rw [if_pos hlast]
    cases hc : command packet with
    | none => exact ⟨⟨rfl, capacity, routes, htable, hroutes⟩, fun sent hs => by cases hs⟩
    | some r =>
      refine ⟨⟨rfl, capacity, routes ++ [r], ?_, fun r' hr' => ?_⟩, fun sent hs => by cases hs⟩
      · rw [Lpm.setAll_append, ← htable]
      · obtain hr' | hr' := List.mem_append.mp hr'
        · exact hroutes r' hr'
        · exact List.mem_singleton.mp hr' ▸ hok r hc
  · rw [RouteOk, if_neg hlast] at hok
    rw [if_neg hlast]
    have hinv : s.Inv s.devicesCount := ⟨rfl, capacity, routes, htable, hroutes⟩
    cases hheader : checkedHeader packet with
    | none => exact ⟨hinv, fun sent hs => by cases hs⟩
    | some ipv4 =>
      simp only []
      cases hsearch : lpm.search s.table (dstAddr packet.data ipv4) with
      | none => exact ⟨hinv, fun sent hs => by cases hs⟩
      | some dstDevice =>
        refine ⟨hinv, fun sent hs => ?_⟩
        obtain rfl := Option.some.inj hs
        have hne := hok ipv4 hheader
        rw [hsearch] at hne
        obtain ⟨r, hr, rfl⟩ := hl capacity routes _ _ (htable ▸ hsearch)
        exact ⟨hroutes r hr, fun he => hne (congrArg some he)⟩

/-! ### Valid headers -/

/-- The header length, in words. -/
def ihl (data : ℕ → UInt8) : ℕ := (data 14 &&& 0xF).toNat

/-- A packet that may be forwarded, as it is on the wire: "RFC 1812 §5.2.2 IP Header Validation" and a lifetime
that is not over. -/
structure ValidHeader (data : ℕ → UInt8) : Prop where
  etherType : netWord data 12 = 0x0800
  version : data 14 >>> 4 = 4
  ihl : 5 ≤ ihl data
  totalLength : Router.ihl data * 4 ≤ netWord data 16
  timeToLive : data 22 ≠ 0

/-- Whether the packet is sent is up to its total length: it is no command, the rest of its header is valid, and its
destination has a route. -/
structure UpToLength (s : State lpm) (packet : NetPacket) : Prop where
  device : packet.device.toNat + 1 ≠ s.devicesCount.toNat
  etherType : netWord packet.data 12 = 0x0800
  version : packet.data 14 >>> 4 = 4
  ihl : 5 ≤ Router.ihl packet.data
  timeToLive : packet.data 22 ≠ 0
  route : (lpm.search s.table (dstAddr packet.data 14)).isSome

/-- The total length is too short in network byte order and long enough in the other one, as its first byte is zero
and its second is not. -/
def ShortIfSwapped (data : ℕ → UInt8) : Prop := data 16 = 0 ∧ 1 ≤ (data 17).toNat ∧ (data 17).toNat < ihl data * 4

theorem ihl_le (data : ℕ → UInt8) : ihl data ≤ 15 := by
  rw [ihl, UInt8.toNat_and]
  exact Nat.and_le_right

theorem etherType_iff (data : ℕ → UInt8) : etherType data 0 = 0x0008 ↔ netWord data 12 = 0x0800 := by
  have h12 := (data 12).toNat_lt
  have h13 := (data 13).toNat_lt
  rw [etherType, ← UInt16.toNat_inj, load16_toNat]
  change (data 12).toNat + 256 * (data 13).toNat = 8 ↔ 256 * (data 12).toNat + (data 13).toNat = 0x0800
  omega

/-- What the checks make sure of: the total length is compared as it is loaded. -/
theorem checkedHeader_iff {ipv4 : ℕ} : checkedHeader packet = some ipv4 ↔
    ipv4 = 14 ∧ netWord packet.data 12 = 0x0800 ∧ packet.data 14 >>> 4 = 4 ∧ 5 ≤ ihl packet.data ∧
      ihl packet.data * 4 ≤ (load16 packet.data 16).toNat ∧ packet.data 22 ≠ 0 := by
  simp only [checkedHeader, netGetEtherHeader, netGetIpv4Header, Option.bind_eq_bind, Option.bind_some,
    Option.bind_eq_some_iff, Option.ite_none_right_eq_some, Option.some.injEq, etherType_iff]
  constructor
  · rintro ⟨_, ⟨htype, rfl⟩, h⟩
    split_ifs at h with hversion hihl hlength _ httl
    refine ⟨(Option.some.inj h).symm, htype, not_not.mp hversion, ?_, Nat.not_lt.mp hlength, httl⟩
    exact Nat.not_lt.mp fun hlt => hihl (UInt8.lt_iff_toNat_lt.mpr hlt)
  · rintro ⟨rfl, htype, hversion, hihl, hlength, httl⟩
    refine ⟨14, ⟨htype, rfl⟩, ?_⟩
    have hwords : ¬ packet.data 14 &&& 0xF < 5 := fun hlt => Nat.not_lt.mpr hihl (UInt8.lt_iff_toNat_lt.mp hlt)
    have hlong : ¬ (load16 packet.data (14 + 2)).toNat < (packet.data 14 &&& 0xF).toNat * 4 := Nat.not_lt.mpr hlength
    have hchecksum : ¬ netIpv4ChecksumValid packet.data 14 = false := Bool.false_ne_true.symm
    rw [if_neg (not_not.mpr hversion), if_neg hwords, if_neg hlong, if_neg hchecksum, if_neg httl]

/-- The packets that are sent. -/
theorem sent_iff : (∃ sent, (nfHandle s packet).2 = some sent) ↔
    UpToLength s packet ∧ ihl packet.data * 4 ≤ (load16 packet.data 16).toNat := by
  unfold nfHandle
  by_cases hlast : packet.device.toNat + 1 = s.devicesCount.toNat
  · rw [if_pos hlast]
    refine iff_of_false ?_ fun h => h.1.device hlast
    rintro ⟨sent, hs⟩
    cases hc : command packet with
    | none => rw [hc] at hs; cases hs
    | some r => rw [hc] at hs; cases hs
  · rw [if_neg hlast]
    cases hheader : checkedHeader packet with
    | none =>
      refine iff_of_false (fun ⟨sent, hs⟩ => by cases hs) fun ⟨h, hlength⟩ => ?_
      have := checkedHeader_iff.mpr ⟨rfl, h.etherType, h.version, h.ihl, hlength, h.timeToLive⟩
      rw [hheader] at this
      cases this
    | some ipv4 =>
      obtain ⟨rfl, htype, hversion, hihl, hlength, httl⟩ := checkedHeader_iff.mp hheader
      simp only []
      cases hsearch : lpm.search s.table (dstAddr packet.data 14) with
      | none =>
        refine iff_of_false (fun ⟨sent, hs⟩ => by cases hs) fun ⟨h, _⟩ => ?_
        have := h.route
        rw [hsearch] at this
        cases this
      | some dstDevice =>
        refine iff_of_true ⟨_, rfl⟩ ⟨⟨hlast, htype, hversion, hihl, httl, ?_⟩, hlength⟩
        rw [hsearch]
        rfl

/-- The two orders of the bytes agree on whether the total length is too short, but for the short ones that are long
enough when they are swapped. -/
theorem length_iff {data : ℕ → UInt8} (hihl : 5 ≤ ihl data) (hlength : ihl data * 4 ≤ (load16 data 16).toNat) :
    ihl data * 4 ≤ netWord data 16 ↔ ¬ ShortIfSwapped data := by
  have hle := ihl_le data
  rw [load16_toNat] at hlength
  change _ ≤ (data 16).toNat + 256 * (data 17).toNat at hlength
  rw [ShortIfSwapped, ← UInt8.toNat_inj]
  change ihl data * 4 ≤ 256 * (data 16).toNat + (data 17).toNat ↔ ¬ ((data 16).toNat = 0 ∧ _)
  omega

/-- **When the router forwards valid packets only.** In any state, for any longest prefix match and any packet: if
the packet is sent then it is valid, exactly unless its total length, which all depends on, is short and looks long
with its bytes swapped. -/
theorem forwarded_valid_iff (lpm : Lpm) (s : State lpm) (packet : NetPacket) :
    (∀ sent, (nfHandle s packet).2 = some sent → ValidHeader packet.data) ↔
      ¬ (UpToLength s packet ∧ ShortIfSwapped packet.data) := by
  constructor
  · rintro hvalid ⟨hup, hshort⟩
    -- the length passes the check, so the packet is sent
    have hlength : ihl packet.data * 4 ≤ (load16 packet.data 16).toNat := by
      have hle := ihl_le packet.data
      rw [load16_toNat]
      change _ ≤ (packet.data 16).toNat + 256 * (packet.data 17).toNat
      have := hshort.2.1
      omega
    obtain ⟨sent, hs⟩ := sent_iff.mpr ⟨hup, hlength⟩
    exact (length_iff hup.ihl hlength).mp (hvalid sent hs).totalLength hshort
  · intro hnot sent hs
    obtain ⟨hup, hlength⟩ := sent_iff.mp ⟨sent, hs⟩
    have htotal := (length_iff hup.ihl hlength).mpr fun hshort => hnot ⟨hup, hshort⟩
    exact ⟨hup.etherType, hup.version, hup.ihl, htotal, hup.timeToLive⟩

/-- A packet on device 0 with this total length, as the two bytes on the wire. -/
def lengthPacket (high low : UInt8) : NetPacket where
  data := fun i => ([0, 0, 0, 0, 0, 0, 0, 0, 0, 0, 0, 0, 8, 0, 0x45, 0, high, low, 0, 0, 0, 0, 64] :
    List UInt8).getD i 0
  length := 60
  time := 0
  device := 0

/-- The router is told to send everything to device 1; a packet whose total length is 1 is forwarded. -/
theorem forwarded_not_valid : ∃ s, nfInit listLpm [("capacity", 1)] 3 = some s ∧
    let routed := (nfHandle s ⟨store16 (fun _ => 0) 12 1, 60, 0, 2⟩).1
    (nfHandle routed (lengthPacket 0 1)).2 = some (transmit (lengthPacket 0 1) 1) ∧
      ¬ ValidHeader (lengthPacket 0 1).data :=
  ⟨_, rfl, rfl, fun h => absurd h.totalLength (by decide)⟩

end Router
end Klint
