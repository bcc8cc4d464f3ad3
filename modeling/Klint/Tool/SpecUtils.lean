/-
# Maps and expiring sets in specifications

`Map`, `Cell` and the config of `tool/klint/verif/spec_prefix.py` and `ExpiringSet` of
`spec_utils.py`, on the values of a path. A map is its items, with those it had before the
packet; keys and values are numbers there, and records where the specification sees them.

`wrap_unwrap`: a record that was made a number is cut from it again.
-/
import Klint.Os.Config
import Klint.Tool.SpecPacket

namespace Klint
namespace Tool

/-! ### Values -/

/-- A value: a number, or a dictionary of numbers. -/
inductive SpecItem
  | num (a : SpecNum)
  | dict (fields : List (String × SpecNum))
  deriving DecidableEq, Repr

/-- `assert condition`, with the text of the error. -/
def specAssert (condition : Bool) (message : String) : Except String Unit :=
  if condition then .ok () else .error ("AssertionError: " ++ message)

/-- An attribute of `None` is an error. -/
def notNone {α : Type} : Option α → Except String α
  | none => .error "AttributeError"
  | some a => .ok a

/-- `value[size+offset-1:offset]`: claripy raises for an empty slice, or one that is out of bounds. -/
def SpecNum.slice (a : SpecNum) (size offset : ℕ) : Except String SpecNum :=
  if size + offset = 0 then .ok a
  else if size = 0 ∨ a.size < size + offset then .error "ClaripyOperationError"
  else .ok ⟨size, a.bits.extractLsb' offset size⟩

/-- `value.zero_extend(size - value.size())`, if the value is smaller. -/
def SpecNum.extendTo (a : SpecNum) (size : ℕ) : SpecNum := if a.size < size then ⟨size, a.bits.setWidth size⟩ else a

namespace SpecItem

/-- `type_unwrap`, to a number of bits. -/
def unwrap (size : ℕ) : SpecItem → Except String SpecNum
  | num a => .ok (a.extendTo size)
  | dict [] => .error "AssertionError: please don't use empty dicts"
  | dict (first :: fields) => .ok ((fields.foldl (fun result v => v.2.concat result) first.2).extendTo size)

/-- The loop of `type_wrap`. -/
def wrapFields (value : SpecNum) : List (String × ℕ) → ℕ → Except String (List (String × SpecNum))
  | [], _ => .ok []
  | (k, v) :: fields, offset => do
    let a ← value.slice v offset
    let rest ← wrapFields value fields (offset + v)
    return (k, a) :: rest

/-- `type_wrap`; the type of a number is `none`. -/
def wrap (value : SpecNum) : Option (List (String × ℕ)) → Except String SpecItem
  | none => .ok (num value)
  | some fields => (wrapFields value fields 0).map dict

/-- `item.name` -/
def field (name : String) : SpecItem → Except String SpecNum
  | num _ => .error "AttributeError"
  | dict fields =>
    match fields.lookup name with
    | none => .error "KeyError"
    | some a => .ok a

/-- The value as a number. -/
def toNum : SpecItem → Except String SpecNum
  | num a => .ok a
  | dict _ => .error "AttributeError"

end SpecItem

/-- The number of a dictionary's fields, the first one lowest. -/
def packed (first : SpecNum) (fields : List (String × SpecNum)) : SpecNum :=
  fields.foldl (fun result v => v.2.concat result) first

theorem size_packed : ∀ (fields : List (String × SpecNum)) (first : SpecNum),
    (packed first fields).size = first.size + (fields.map fun f => f.2.size).sum
  | [], _ => rfl
  | f :: fields, first => by
    have hsize : (f.2.concat first).size = f.2.size + first.size := rfl
    rw [packed, List.foldl_cons, ← packed, size_packed fields, hsize, List.map_cons, List.sum_cons]
    omega

/-- The fields after it leave a number where it is. -/
theorem getLsbD_packed : ∀ (fields : List (String × SpecNum)) (first : SpecNum) {i : ℕ}, i < first.size →
    (packed first fields).bits.getLsbD i = first.bits.getLsbD i
  | [], _, _, _ => rfl
  | f :: fields, first, i, hi => by
    have hlt : i < (f.2.concat first).size := Nat.lt_add_left _ hi
    rw [packed, List.foldl_cons, ← packed, getLsbD_packed fields _ hlt, SpecNum.concat, BitVec.getLsbD_append,
      if_pos hi]

theorem size_extendTo_num (a : SpecNum) (size : ℕ) : (a.extendTo size).size = max size a.size := by
  unfold SpecNum.extendTo
  split
  · next h => exact (Nat.max_eq_left h.le).symm
  · next h => exact (Nat.max_eq_right (Nat.le_of_not_lt h)).symm

theorem getLsbD_extendTo (a : SpecNum) (size : ℕ) {i : ℕ} (hi : i < a.size) :
    (a.extendTo size).bits.getLsbD i = a.bits.getLsbD i := by
  unfold SpecNum.extendTo
  by_cases h : a.size < size
  · rw [if_pos h, BitVec.getLsbD_setWidth, decide_eq_true (hi.trans h), Bool.true_and]
  · rw [if_neg h]

/-- A slice is the number that has its bits. -/
theorem slice_eq {a b : SpecNum} {offset : ℕ} (hpos : 0 < b.size) (hsize : b.size + offset ≤ a.size)
    (hbits : ∀ i, i < b.size → a.bits.getLsbD (offset + i) = b.bits.getLsbD i) : a.slice b.size offset = .ok b := by
  obtain ⟨n, x⟩ := b
  unfold SpecNum.slice
  rw [if_neg (by omega), if_neg (by omega)]
  refine congrArg (fun z => Except.ok (SpecNum.mk n z)) (BitVec.eq_of_getLsbD_eq fun i hi => ?_)
  rw [BitVec.getLsbD_extractLsb', decide_eq_true hi, Bool.true_and]
  exact hbits i hi

/-- The loop of `type_wrap` finds the fields again. -/
theorem wrapFields_packed {size : ℕ} : ∀ {fields : List (String × SpecNum)} {first : SpecNum},
    (∀ f ∈ fields, 0 < f.2.size) →
    SpecItem.wrapFields ((packed first fields).extendTo size) (fields.map fun f => (f.1, f.2.size)) first.size =
      .ok fields
  | [], _, _ => rfl
  | (name, a) :: fields, first, hpos => by
    have hrest := @wrapFields_packed size fields (a.concat first)
      fun f hf => hpos f (List.mem_cons_of_mem _ hf)
    have htotal : (packed first ((name, a) :: fields)).size =
        first.size + (a.size + (fields.map fun f => f.2.size).sum) := size_packed ((name, a) :: fields) first
    have hslice : ((packed first ((name, a) :: fields)).extendTo size).slice a.size first.size = .ok a := by
      refine slice_eq (hpos _ List.mem_cons_self) ?_ fun i hi => ?_
      · rw [size_extendTo_num]
        omega
      · have hlt : first.size + i < (a.concat first).size := by
          rw [Nat.add_comm]
          exact Nat.add_lt_add_right hi _
        rw [getLsbD_extendTo _ _ (by omega), packed, List.foldl_cons, ← packed, getLsbD_packed fields _ hlt,
          SpecNum.concat, BitVec.getLsbD_append, if_neg (by omega), Nat.add_sub_cancel_left]
    rw [List.map_cons, SpecItem.wrapFields, hslice, show first.size + a.size = (a.concat first).size from
      Nat.add_comm _ _]
    exact congrArg (fun r => r.bind fun rest => Except.ok ((name, a) :: rest)) hrest

/-- **A dictionary that was made a number is cut from it again**, if no field is without bits. -/
theorem wrap_unwrap (size : ℕ) (fields : List (String × SpecNum)) {a : SpecNum}
    (h : (SpecItem.dict fields).unwrap size = .ok a) (hpos : ∀ n ∈ fields.map (fun f => f.2.size), 0 < n) :
    SpecItem.wrap a (some (fields.map fun f => (f.1, f.2.size))) = .ok (.dict fields) := by
  cases fields with
  | nil => cases h
  | cons f fields =>
    obtain rfl : (packed f.2 fields).extendTo size = a := Except.ok.inj h
    have hpacked : packed f.2 fields = packed ⟨0, 0⟩ (f :: fields) := by
      rw [packed, packed, List.foldl_cons]
      refine congrArg (fun r => List.foldl _ r fields) (SpecNum.ext_toNat (Nat.add_zero _).symm ?_)
      rw [SpecNum.concat, BitVec.toNat_append]
      simp
    have hfields : ∀ g ∈ f :: fields, 0 < g.2.size := fun g hg => hpos _ (List.mem_map.mpr ⟨g, hg, rfl⟩)
    rw [SpecItem.wrap, hpacked, @wrapFields_packed size _ ⟨0, 0⟩ hfields]
    rfl

/-! ### Maps -/

/-- A ghost map at the end of a path: the size of its keys, its items and those of its oldest version. -/
structure ChosenMap where
  keySize : ℕ
  items : List (SpecNum × SpecNum)
  oldest : List (SpecNum × SpecNum)

/-- `Map`, with the map that was chosen. -/
structure SpecMap where
  keyType : Option (List (String × ℕ))
  valueType : Option (List (String × ℕ))
  map : ChosenMap

namespace SpecMap

/-- "the state of this Map before processing the current packet" -/
def old (map : SpecMap) : SpecMap := { map with map := { map.map with items := map.map.oldest } }

/-- `__contains__` -/
def contains (map : SpecMap) (key : SpecItem) : Except String Bool :=
  (key.unwrap map.map.keySize).map fun key => (map.map.items.lookup key).isSome

/-- `__getitem__` -/
def getItem (map : SpecMap) (key : SpecItem) : Except String SpecItem := do
  let key ← key.unwrap map.map.keySize
  match map.map.items.lookup key with
  | none => .error "Spec called get but element may not be there"
  | some value => SpecItem.wrap value map.valueType

def allOf (map : SpecMap) (pred : SpecItem → SpecItem → Except String Bool) :
    List (SpecNum × SpecNum) → Except String Bool
  | [] => .ok true
  | (k, v) :: items => do
    let b ← pred (← SpecItem.wrap k map.keyType) (← SpecItem.wrap v map.valueType)
    return b && (← map.allOf pred items)

/-- `forall` -/
def all (map : SpecMap) (pred : SpecItem → SpecItem → Except String Bool) : Except String Bool :=
  map.allOf pred map.map.items

def length (map : SpecMap) : SpecNum := SpecNum.nat64 map.map.items.length

end SpecMap

/-- `Cell`: the value and the one before the packet. -/
structure SpecCell where
  valueType : List (String × ℕ)
  current : SpecNum
  oldest : SpecNum

namespace SpecCell

def value (cell : SpecCell) : Except String SpecItem := SpecItem.wrap cell.current (some cell.valueType)

def oldValue (cell : SpecCell) : Except String SpecItem := SpecItem.wrap cell.oldest (some cell.valueType)

end SpecCell

/-- `_SpecConfig`: the parameters, as the 64-bit values that they were read as, and the number of devices. -/
structure SpecConfig where
  items : ConfigItems
  devicesCount : UInt16

namespace SpecConfig

/-- `__getitem__` -/
def get (config : SpecConfig) (index : String) : Except String SpecNum :=
  match osConfigTryGet config.items index with
  | none => .error ("Unknown config item: " ++ index)
  | some value => .ok (SpecNum.nat64 value.toNat)

/-- `config.devices_count` -/
def devices (config : SpecConfig) : SpecNum := SpecNum.u16 config.devicesCount

end SpecConfig

/-! ### Expiring sets -/

/-- `ExpiringSet`, with its three maps. -/
structure SpecExpiringSet where
  expirationTime : SpecNum
  capacity : SpecNum
  time : SpecNum
  elemsToIndices : SpecMap
  indicesToElems : SpecMap
  indicesToTimes : SpecMap

/-- The maps that are chosen for the ones of an `ExpiringSet`. -/
structure ChosenSet where
  elemsToIndices : ChosenMap
  indicesToElems : ChosenMap
  indicesToTimes : ChosenMap

/-- `ExpiringSet(elem_type, expiration_time, capacity, time)` -/
def SpecExpiringSet.new (elemType : Option (List (String × ℕ))) (expirationTime capacity time : SpecNum)
    (maps : ChosenSet) : SpecExpiringSet where
  expirationTime := expirationTime
  capacity := capacity
  time := time
  elemsToIndices := ⟨elemType, none, maps.elemsToIndices⟩
  indicesToElems := ⟨none, elemType, maps.indicesToElems⟩
  indicesToTimes := ⟨none, none, maps.indicesToTimes⟩

namespace SpecExpiringSet

def old (set : SpecExpiringSet) : SpecExpiringSet :=
  { set with elemsToIndices := set.elemsToIndices.old, indicesToElems := set.indicesToElems.old,
             indicesToTimes := set.indicesToTimes.old }

/-- `(self.time < self.expiration_time) | (self.time - self.expiration_time <= v)` -/
def young (set : SpecExpiringSet) (v : SpecNum) : Bool :=
  set.time.lt set.expirationTime || (set.time.sub set.expirationTime).le v

def full (set : SpecExpiringSet) : Except String Bool := do
  let young ← set.indicesToTimes.all fun _ v => return set.young (← v.toNum)
  return set.elemsToIndices.length.eq set.capacity && young

/-- `self._indices_to_times[self._elems_to_indices[item]]` -/
def timeOf (set : SpecExpiringSet) (item : SpecItem) : Except String SpecNum := do
  let index ← set.elemsToIndices.getItem item
  (← set.indicesToTimes.getItem index).toNum

def didRefresh (set : SpecExpiringSet) (item : SpecItem) : Except String Bool := do
  if ← set.elemsToIndices.contains item then return (← set.timeOf item).eq set.time
  else return false

/-- `__contains__` -/
def contains (set : SpecExpiringSet) (item : SpecItem) : Except String Bool := do
  if ← set.elemsToIndices.contains item then return set.young (← set.timeOf item)
  else return false

/-- The time of the index is old: `(time >= expiration) & (time - expiration > times[index])`. -/
def expired (set : SpecExpiringSet) (v : SpecNum) : Bool :=
  set.time.ge set.expirationTime && (set.time.sub set.expirationTime).gt v

def getByIndex (set : SpecExpiringSet) (index : SpecNum) : Except String (Option SpecItem) := do
  if !(← set.indicesToTimes.contains (.num index)) then return none
  else if set.expired (← (← set.indicesToTimes.getItem (.num index)).toNum) then return none
  else if !(← set.indicesToElems.contains (.num index)) then return none
  else
    let elem ← set.indicesToElems.getItem (.num index)
    specAssert (← set.elemsToIndices.contains elem) ""
    specAssert (index.eq (← (← set.elemsToIndices.getItem elem).toNum)) ""
    return some (← set.indicesToElems.getItem (.num index))

def getIndex (set : SpecExpiringSet) (item : SpecItem) : Except String (Option SpecNum) := do
  if ← set.elemsToIndices.contains item then return some (← (← set.elemsToIndices.getItem item).toNum)
  else return none

end SpecExpiringSet

/-! ### Parameters -/

theorem osConfigTryGet_of_get {items : ConfigItems} {name : String} {min max v : UInt64}
    (h : osConfigGet items name min max = some v) : osConfigTryGet items name = some v := by
  unfold osConfigGet at h
  split at h
  · cases h
  · next value hv =>
    split_ifs at h
    rw [hv, h]

namespace SpecConfig

variable {items : ConfigItems} {devicesCount : UInt16} {name : String}

/-- A parameter that was read is in the config, as it was before it was cut to its type. -/
theorem get_of_map {T : Type} {cut : UInt64 → T} {max : UInt64} {v : T}
    (h : (osConfigGet items name 0 max).map cut = some v) :
    ∃ w, cut w = v ∧ (SpecConfig.mk items devicesCount).get name = .ok (SpecNum.nat64 w.toNat) := by
  obtain ⟨w, hw, rfl⟩ := Option.map_eq_some_iff.mp h
  exact ⟨w, rfl, by rw [SpecConfig.get, osConfigTryGet_of_get hw]⟩

theorem get_size {n : ℕ} (h : osConfigGetSize items name = some n) :
    (SpecConfig.mk items devicesCount).get name = .ok (SpecNum.nat64 n) := by
  obtain ⟨w, rfl, hw⟩ := get_of_map h
  exact hw

theorem get_time {n : ℕ} (h : osConfigGetTime items name = some n) :
    n < 2 ^ 64 ∧ (SpecConfig.mk items devicesCount).get name = .ok (SpecNum.nat64 n) := by
  obtain ⟨w, rfl, hw⟩ := get_of_map h
  exact ⟨w.toNat_lt, hw⟩

theorem get_device {v count : UInt16} (h : osConfigGetDevice items name count = some v) :
    ∃ d, (SpecConfig.mk items devicesCount).get name = .ok (SpecNum.nat64 d) ∧ v = UInt16.ofNat d := by
  obtain ⟨w, rfl, hw⟩ := get_of_map h
  exact ⟨w.toNat, hw, by rw [← UInt16.toNat_inj, UInt64.toNat_toUInt16, UInt16.toNat_ofNat']⟩

theorem get_u16 {v : UInt16} (h : osConfigGetU16 items name = some v) :
    ∃ d, (SpecConfig.mk items devicesCount).get name = .ok (SpecNum.nat64 d) ∧ v = UInt16.ofNat d := by
  obtain ⟨w, rfl, hw⟩ := get_of_map h
  exact ⟨w.toNat, hw, by rw [← UInt16.toNat_inj, UInt64.toNat_toUInt16, UInt16.toNat_ofNat']⟩

theorem get_u32 {v : UInt32} (h : osConfigGetU32 items name = some v) :
    ∃ d, (SpecConfig.mk items devicesCount).get name = .ok (SpecNum.nat64 d) ∧ v = UInt32.ofNat d := by
  obtain ⟨w, rfl, hw⟩ := get_of_map h
  exact ⟨w.toNat, hw, by rw [← UInt32.toNat_inj, UInt64.toNat_toUInt32, UInt32.toNat_ofNat']⟩

end SpecConfig

/-! ### The wrapper -/

/-- The size of a packet's buffer. -/
def packetMtu : ℕ := 1514

/-- `TransmissionMetadata`, with the packet's data at the end of the path. -/
structure Transmission where
  data : ℕ → UInt8
  length : ℕ
  isFlood : Bool
  device : UInt16

/-- The packet before the path. -/
def receivedPacket (packet : NetPacket) : SpecPacket where
  map := ⟨packetMtu, packet.data⟩
  length := SpecNum.nat64 packet.length
  time := some (SpecNum.nat64 packet.time)
  devices := .single (SpecNum.u16 packet.device)

def transmittedPacket (config : SpecConfig) (t : Transmission) : SpecPacket where
  map := ⟨packetMtu, t.data⟩
  length := SpecNum.nat64 t.length
  time := none
  devices := if t.isFlood then .flooded (SpecNum.u16 t.device) config.devices else .single (SpecNum.u16 t.device)

/-- `_spec_wrapper` -/
def specWrapper (spec : SpecPacket → SpecConfig → Option SpecPacket → Except String Unit) (config : SpecConfig)
    (packet : NetPacket) : List Transmission → Except String Unit
  | [] => spec (receivedPacket packet) config none
  | [t] => spec (receivedPacket packet) config (some (transmittedPacket config t))
  | _ :: _ :: _ => .error "TODO support multiple transmitted packets"

/-- A call of `net_transmit`. -/
def Transmission.ofCall (t : NetTransmit) : Transmission where
  data := t.data
  length := t.length
  isFlood := false
  device := t.device

/-- `packet.time`, of a received packet. -/
def SpecPacket.receivedTime (packet : SpecPacket) : Except String SpecNum := notNone packet.time

variable {p : NetPacket}

/-- A buffer has the headers that a specification reads. -/
theorem received_long (p : NetPacket) : 38 ≤ (receivedPacket p).map.length := show 38 ≤ 1514 by decide

theorem received_time (p : NetPacket) : (receivedPacket p).receivedTime = .ok (SpecNum.nat64 p.time) := rfl

theorem received_device (p : NetPacket) : (receivedPacket p).device = .ok (SpecNum.u16 p.device) := rfl

theorem received_tcpudp (h : flowHeaders p = none) : (receivedPacket p).tcpudp = .ok none := by
  rw [flowHeaders_eq] at h
  rw [SpecPacket.tcpudp_eq (received_long p), if_neg fun hc => ?_]
  rw [if_pos (show etherType p.data 0 = 0x0008 ∧ (nextProtoId p.data 14 = ipProtocolTcp ∨
    nextProtoId p.data 14 = ipProtocolUdp) from hc)] at h
  cases h

theorem received_ipv4 (p : NetPacket) : ∃ header, (receivedPacket p).ipv4 = .ok header :=
  ⟨_, SpecPacket.ipv4_eq (received_long p)⟩

/-- The headers of a TCP or UDP packet. -/
theorem received_flow {ipv4 tcpudp : ℕ} (h : flowHeaders p = some (ipv4, tcpudp)) : ipv4 = 14 ∧ tcpudp = 34 ∧
    (receivedPacket p).ipv4 = .ok (some (receivedPacket p).ipv4Header) ∧
    (receivedPacket p).tcpudp = .ok (some (receivedPacket p).tcpudpHeader) := by
  rw [flowHeaders_eq] at h
  rw [SpecPacket.ipv4_eq (received_long p), SpecPacket.tcpudp_eq (received_long p)]
  split_ifs at h with hc
  simp only [Option.some.injEq, Prod.mk.injEq] at h
  obtain ⟨rfl, rfl⟩ := h
  refine ⟨rfl, rfl, ?_, ?_⟩
  · rw [if_pos (show etherType (receivedPacket p).map.byte 0 = 0x0008 from hc.1)]
  · exact congrArg Except.ok (if_pos hc)

theorem received_src (p : NetPacket) :
    (receivedPacket p).ipv4Header.getAttr "src" = .ok (.u32 (srcAddr p.data 14)) :=
  SpecPacket.ipv4_src (received_long p)

theorem received_dst (p : NetPacket) :
    (receivedPacket p).ipv4Header.getAttr "dst" = .ok (.u32 (dstAddr p.data 14)) :=
  SpecPacket.ipv4_dst (received_long p)

theorem received_protocol (p : NetPacket) :
    (receivedPacket p).ipv4Header.getAttr "protocol" = .ok (.u8 (nextProtoId p.data 14)) :=
  SpecPacket.ipv4_protocol (received_long p)

theorem received_srcPort (p : NetPacket) :
    (receivedPacket p).tcpudpHeader.getAttr "src" = .ok (.u16 (srcPort p.data 34)) :=
  SpecPacket.tcpudp_src (received_long p)

theorem received_dstPort (p : NetPacket) :
    (receivedPacket p).tcpudpHeader.getAttr "dst" = .ok (.u16 (dstPort p.data 34)) :=
  SpecPacket.tcpudp_dst (received_long p)

/-- The flow of a TCP or UDP packet, as the specifications read it. -/
theorem protocol_of_flow (h : flowHeaders p = some (14, 34)) :
    nextProtoId p.data 14 = ipProtocolTcp ∨ nextProtoId p.data 14 = ipProtocolUdp := by
  rw [flowHeaders_eq] at h
  split_ifs at h with hc
  exact hc.2

section

variable (config : SpecConfig) (t : Transmission)

theorem transmitted_long : 38 ≤ (transmittedPacket config t).map.length := show 38 ≤ 1514 by decide

theorem transmitted_src : (transmittedPacket config t).ipv4Header.getAttr "src" = .ok (.u32 (srcAddr t.data 14)) :=
  SpecPacket.ipv4_src (transmitted_long config t)

theorem transmitted_dst : (transmittedPacket config t).ipv4Header.getAttr "dst" = .ok (.u32 (dstAddr t.data 14)) :=
  SpecPacket.ipv4_dst (transmitted_long config t)

theorem transmitted_srcPort :
    (transmittedPacket config t).tcpudpHeader.getAttr "src" = .ok (.u16 (srcPort t.data 34)) :=
  SpecPacket.tcpudp_src (transmitted_long config t)

theorem transmitted_dstPort :
    (transmittedPacket config t).tcpudpHeader.getAttr "dst" = .ok (.u16 (dstPort t.data 34)) :=
  SpecPacket.tcpudp_dst (transmitted_long config t)

end

/-- The headers of a transmitted packet that has the type and the protocol of one. -/
theorem transmitted_flow (config : SpecConfig) {t : Transmission} (hh : flowHeaders p = some (14, 34))
    (htype : etherType t.data 0 = etherType p.data 0) (hproto : nextProtoId t.data 14 = nextProtoId p.data 14) :
    (transmittedPacket config t).ipv4 = .ok (some (transmittedPacket config t).ipv4Header) ∧
      (transmittedPacket config t).tcpudp = .ok (some (transmittedPacket config t).tcpudpHeader) := by
  have hlong := transmitted_long config t
  rw [flowHeaders_eq] at hh
  rw [SpecPacket.ipv4_eq hlong, SpecPacket.tcpudp_eq hlong]
  split_ifs at hh with hc
  rw [← htype, ← hproto] at hc
  exact ⟨congrArg Except.ok (if_pos hc.1), congrArg Except.ok (if_pos hc)⟩

/-- The bytes of two packets. -/
theorem PacketMap.eq_iff {a b : PacketMap} (h : a.length = b.length) :
    a.eq b = true ↔ ∀ k, k < a.length → a.byte k = b.byte k := by
  simp only [PacketMap.eq, Bool.and_eq_true, beq_iff_eq, List.all_eq_true, List.mem_range, decide_eq_true_iff, ← h]
  constructor
  · rintro ⟨-, hall⟩ k hk
    exact (hall k hk).2
  · exact fun hall => ⟨trivial, fun k hk => ⟨hk, hall k hk⟩⟩

end Tool
end Klint
