/-
# Transmitting a packet

`net_transmit`, `net_flood` and `net_flood_except` of the TinyNF driver
(`env/src/net/tinynf/main.c`). All outputs of a packet share its buffer: the
functions only set the length of the frame on each output, 0 for no frame, and
rewrite the Ethernet addresses in the shared buffer when asked to. So the
frames leave with the addresses that were written last.

`floodWith_sent` and `floodWith_data` say what a flood leaves in the lengths
and the buffer, `transmit_sent` what `net_transmit` does. With more than two
devices the frames of a flood share the addresses of its last device:
`flooded_addresses` says when these are the right ones.
-/
import Klint.Net.Packet

namespace Klint

/-! ### Ethernet addresses -/

/-- `struct net_ether_addr`. -/
structure EtherAddr where
  b0 : UInt8
  b1 : UInt8
  b2 : UInt8
  b3 : UInt8
  b4 : UInt8
  b5 : UInt8
  deriving DecidableEq, Repr, Inhabited

/-- `sizeof(struct net_ether_addr)`. -/
def etherAddrSize : ℕ := 6

/-- A group address: the least significant bit of the first octet is set. -/
def EtherAddr.group (a : EtherAddr) : Bool := a.b0 &&& 1 ≠ 0

def loadEtherAddr (data : ℕ → UInt8) (p : ℕ) : EtherAddr :=
  ⟨data p, data (p + 1), data (p + 2), data (p + 3), data (p + 4), data (p + 5)⟩

def storeEtherAddr (data : ℕ → UInt8) (p : ℕ) (a : EtherAddr) : ℕ → UInt8 := fun q =>
  if q = p then a.b0 else if q = p + 1 then a.b1 else if q = p + 2 then a.b2
  else if q = p + 3 then a.b3 else if q = p + 4 then a.b4 else if q = p + 5 then a.b5 else data q

@[simp] theorem loadEtherAddr_storeEtherAddr (data : ℕ → UInt8) (p : ℕ) (a : EtherAddr) :
    loadEtherAddr (storeEtherAddr data p a) p = a := by
  simp [loadEtherAddr, storeEtherAddr]

theorem storeEtherAddr_of_ne {data : ℕ → UInt8} {p q : ℕ} (a : EtherAddr) (h : q < p ∨ p + 6 ≤ q) :
    storeEtherAddr data p a q = data q := by
  unfold storeEtherAddr
  rw [if_neg (by omega), if_neg (by omega), if_neg (by omega), if_neg (by omega), if_neg (by omega),
    if_neg (by omega)]

theorem loadEtherAddr_congr {data data' : ℕ → UInt8} {p : ℕ} (h : ∀ i, i < 6 → data' (p + i) = data (p + i)) :
    loadEtherAddr data' p = loadEtherAddr data p := by
  unfold loadEtherAddr
  rw [h 1 (by omega), h 2 (by omega), h 3 (by omega), h 4 (by omega), h 5 (by omega),
    show data' p = data p from h 0 (by omega)]

/-- The destination and the source address of an Ethernet header. -/
def etherDstAddr (data : ℕ → UInt8) (ether : ℕ) : EtherAddr := loadEtherAddr data ether
def etherSrcAddr (data : ℕ → UInt8) (ether : ℕ) : EtherAddr := loadEtherAddr data (ether + 6)

/-- `sizeof(struct net_ether_header)`. -/
def etherHeaderSize : ℕ := 14

/-! ### The driver -/

/-- What `main` sets up: the devices, and their addresses as the hardware has
them. -/
structure Tinynf where
  devicesCount : UInt16
  deviceMacs : ℕ → EtherAddr

/-- `endpoint_macs[n]`, "in the meantime use a non-constant". -/
def endpointMac (n : ℕ) : EtherAddr :=
  ⟨0, UInt8.ofNat (n >>> 10), UInt8.ofNat (n >>> 20), UInt8.ofNat (n >>> 30), UInt8.ofNat (n >>> 40), 0⟩

/-- The packet that is handled, with `current_output_lengths`. -/
structure Outputs where
  packet : NetPacket
  lengths : List ℕ

/-- What `tinynf_packet_handler` starts with: no output. -/
def Tinynf.received (drv : Tinynf) (packet : NetPacket) : Outputs where
  packet := packet
  lengths := List.replicate (drv.devicesCount.toNat - 1) 0

def indexFromDevice (packet : NetPacket) (device : UInt16) : ℕ :=
  if packet.device < device then device.toNat - 1 else device.toNat

def deviceFromIndex (packet : NetPacket) (index : ℕ) : UInt16 :=
  if index < packet.device.toNat then UInt16.ofNat index else UInt16.ofNat (index + 1)

def handleFlags (drv : Tinynf) (packet : NetPacket) (device : UInt16) : NetTransmitFlags → NetPacket
  | .none => packet
  | .updateEtherAddrs =>
    { packet with
      data := storeEtherAddr (storeEtherAddr packet.data 0 (endpointMac device.toNat)) 6
        (drv.deviceMacs device.toNat) }

def netTransmit (drv : Tinynf) (o : Outputs) (device : UInt16) (flags : NetTransmitFlags) : Outputs :=
  let packet := handleFlags drv o.packet device flags
  { packet := packet, lengths := o.lengths.set (indexFromDevice packet device) packet.length }

/-- The loop of the floods, with the length they give each device. -/
def floodWith (drv : Tinynf) (flags : NetTransmitFlags) (lengthOn : ℕ → UInt16 → ℕ) (o : Outputs) : ℕ → Outputs
  | 0 => o
  | n + 1 =>
    let o := floodWith drv flags lengthOn o n
    let device := deviceFromIndex o.packet n
    let packet := handleFlags drv o.packet device flags
    { packet := packet, lengths := o.lengths.set n (lengthOn packet.length device) }

def netFlood (drv : Tinynf) (o : Outputs) (flags : NetTransmitFlags) : Outputs :=
  floodWith drv flags (fun length _ => length) o (drv.devicesCount.toNat - 1)

def netFloodExcept (drv : Tinynf) (o : Outputs) (disabledDevices : List Bool) (flags : NetTransmitFlags) : Outputs :=
  floodWith drv flags (fun length device => if disabledDevices.getD device.toNat false then 0 else length) o
    (drv.devicesCount.toNat - 1)

/-- The length of the frame that leaves on a device, 0 if there is none. None
leaves on the device the packet came from. -/
def Outputs.sent (o : Outputs) (device : UInt16) : ℕ :=
  if device = o.packet.device then 0 else o.lengths.getD (indexFromDevice o.packet device) 0

/-! ### Devices and outputs -/

variable {drv : Tinynf} {o : Outputs} {packet : NetPacket} {flags : NetTransmitFlags}

theorem indexFromDevice_lt {n device : UInt16} (hd : device < n) (hp : packet.device < n)
    (hne : device ≠ packet.device) : indexFromDevice packet device < n.toNat - 1 := by
  unfold indexFromDevice
  rw [UInt16.lt_iff_toNat_lt] at hd hp
  have hne' : device.toNat ≠ packet.device.toNat := fun he => hne (UInt16.toNat_inj.mp he)
  split_ifs with h
  · rw [UInt16.lt_iff_toNat_lt] at h
    omega
  · rw [UInt16.lt_iff_toNat_lt] at h
    omega

theorem deviceFromIndex_indexFromDevice {device : UInt16} (hne : device ≠ packet.device) :
    deviceFromIndex packet (indexFromDevice packet device) = device := by
  have hne' : device.toNat ≠ packet.device.toNat := fun he => hne (UInt16.toNat_inj.mp he)
  unfold indexFromDevice
  split_ifs with h
  · rw [UInt16.lt_iff_toNat_lt] at h
    rw [deviceFromIndex, if_neg (by omega), show device.toNat - 1 + 1 = device.toNat by omega, UInt16.ofNat_toNat]
  · rw [UInt16.lt_iff_toNat_lt] at h
    rw [deviceFromIndex, if_pos (by omega), UInt16.ofNat_toNat]

theorem indexFromDevice_inj {d e : UInt16} (hd : d ≠ packet.device) (he : e ≠ packet.device)
    (h : indexFromDevice packet d = indexFromDevice packet e) : d = e := by
  rw [← deviceFromIndex_indexFromDevice hd, h, deviceFromIndex_indexFromDevice he]

/-! ### What the functions leave -/

@[simp] theorem handleFlags_device (device : UInt16) : (handleFlags drv packet device flags).device =
    packet.device := by
  cases flags <;> rfl

@[simp] theorem handleFlags_length (device : UInt16) : (handleFlags drv packet device flags).length =
    packet.length := by
  cases flags <;> rfl

/-- The payload is not touched. -/
theorem handleFlags_data (device : UInt16) {q : ℕ} (hq : 12 ≤ q) :
    (handleFlags drv packet device flags).data q = packet.data q := by
  cases flags with
  | none => rfl
  | updateEtherAddrs =>
    simp only [handleFlags]
    rw [storeEtherAddr_of_ne _ (by omega), storeEtherAddr_of_ne _ (by omega)]

theorem handleFlags_dst (device : UInt16) :
    etherDstAddr (handleFlags drv packet device .updateEtherAddrs).data 0 = endpointMac device.toNat := by
  rw [etherDstAddr, handleFlags]
  refine (loadEtherAddr_congr fun i hi => ?_).trans (loadEtherAddr_storeEtherAddr packet.data 0
    (endpointMac device.toNat))
  exact storeEtherAddr_of_ne _ (by omega)

theorem handleFlags_src (device : UInt16) :
    etherSrcAddr (handleFlags drv packet device .updateEtherAddrs).data 0 = drv.deviceMacs device.toNat :=
  loadEtherAddr_storeEtherAddr (storeEtherAddr packet.data 0 (endpointMac device.toNat)) 6 (drv.deviceMacs device.toNat)

/-- A packet that was just received has no output. -/
theorem received_sent (device : UInt16) : (drv.received packet).sent device = 0 := by
  simp only [Outputs.sent, Tinynf.received, List.getD_eq_getElem?_getD, List.getElem?_replicate]
  split_ifs <;> rfl

section Flood

variable {lengthOn : ℕ → UInt16 → ℕ}

@[simp] theorem floodWith_device : ∀ n, (floodWith drv flags lengthOn o n).packet.device = o.packet.device
  | 0 => rfl
  | n + 1 => by rw [floodWith, handleFlags_device, floodWith_device n]

@[simp] theorem floodWith_length : ∀ n, (floodWith drv flags lengthOn o n).packet.length = o.packet.length
  | 0 => rfl
  | n + 1 => by rw [floodWith, handleFlags_length, floodWith_length n]

theorem floodWith_lengths_length : ∀ n, (floodWith drv flags lengthOn o n).lengths.length = o.lengths.length
  | 0 => rfl
  | n + 1 => by rw [floodWith, List.length_set, floodWith_lengths_length n]

/-- The device of an index depends on the device the packet came from only. -/
theorem deviceFromIndex_congr {packet' : NetPacket} (h : packet'.device = packet.device) (index : ℕ) :
    deviceFromIndex packet' index = deviceFromIndex packet index := by
  rw [deviceFromIndex, deviceFromIndex, h]

theorem floodWith_lengths : ∀ {n k : ℕ}, n ≤ o.lengths.length → k < n →
    (floodWith drv flags lengthOn o n).lengths.getD k 0 = lengthOn o.packet.length (deviceFromIndex o.packet k)
  | n + 1, k, hn, hk => by
    have hlen := @floodWith_lengths_length drv o flags lengthOn n
    rw [floodWith, List.getD_eq_getElem?_getD, handleFlags_length, floodWith_length]
    by_cases hkn : k = n
    · subst hkn
      rw [List.getElem?_set_self (by omega), Option.getD_some,
        deviceFromIndex_congr (floodWith_device k)]
    · rw [List.getElem?_set_ne (Ne.symm hkn), ← List.getD_eq_getElem?_getD]
      exact floodWith_lengths (by omega) (by omega)

/-- A flood sends a frame of the length of each device on it. -/
theorem floodWith_sent (hlen : o.lengths.length = drv.devicesCount.toNat - 1) (hp : o.packet.device < drv.devicesCount)
    {device : UInt16} (hd : device < drv.devicesCount) (hne : device ≠ o.packet.device) :
    (floodWith drv flags lengthOn o (drv.devicesCount.toNat - 1)).sent device = lengthOn o.packet.length device := by
  have hidx : indexFromDevice (floodWith drv flags lengthOn o (drv.devicesCount.toNat - 1)).packet device =
      indexFromDevice o.packet device := by
    rw [indexFromDevice, indexFromDevice, floodWith_device]
  rw [Outputs.sent, floodWith_device, if_neg hne, hidx, floodWith_lengths (by omega) (indexFromDevice_lt hd hp hne),
    deviceFromIndex_indexFromDevice hne]

/-- A flood does not touch the payload. -/
theorem floodWith_data {q : ℕ} (hq : 12 ≤ q) : ∀ n,
    (floodWith drv flags lengthOn o n).packet.data q = o.packet.data q
  | 0 => rfl
  | n + 1 => by rw [floodWith, handleFlags_data _ hq, floodWith_data hq n]

theorem floodWith_none : ∀ n, (floodWith drv .none lengthOn o n).packet = o.packet
  | 0 => rfl
  | n + 1 => by rw [floodWith, handleFlags, floodWith_none n]

/-- The destination is the endpoint of the last device. -/
theorem floodWith_dst (n : ℕ) : etherDstAddr (floodWith drv .updateEtherAddrs lengthOn o (n + 1)).packet.data 0 =
    endpointMac (deviceFromIndex o.packet n).toNat := by
  rw [floodWith, handleFlags_dst, deviceFromIndex_congr (floodWith_device n)]

/-- The source is the last device. -/
theorem floodWith_src (n : ℕ) : etherSrcAddr (floodWith drv .updateEtherAddrs lengthOn o (n + 1)).packet.data 0 =
    drv.deviceMacs (deviceFromIndex o.packet n).toNat := by
  rw [floodWith, handleFlags_src, deviceFromIndex_congr (floodWith_device n)]

end Flood

/-- `net_transmit` sends the packet on the device. -/
theorem transmit_sent (hlen : o.lengths = List.replicate (drv.devicesCount.toNat - 1) 0)
    (hp : o.packet.device < drv.devicesCount) {device : UInt16} (hd : device < drv.devicesCount)
    (hne : device ≠ o.packet.device) (e : UInt16) :
    (netTransmit drv o device flags).sent e = if e = device then o.packet.length else 0 := by
  have hidx : ∀ d, indexFromDevice (handleFlags drv o.packet device flags) d = indexFromDevice o.packet d := fun d => by
    rw [indexFromDevice, indexFromDevice, handleFlags_device]
  rw [netTransmit, Outputs.sent]
  simp only [hidx, handleFlags_device, handleFlags_length]
  by_cases hep : e = o.packet.device
  · rw [if_pos hep, if_neg fun h => hne (h.symm.trans hep)]
  · rw [if_neg hep, List.getD_eq_getElem?_getD, hlen]
    by_cases he : e = device
    · subst he
      rw [List.getElem?_set_self (by rw [List.length_replicate]; exact indexFromDevice_lt hd hp hne), if_pos rfl,
        Option.getD_some]
    · rw [List.getElem?_set_ne fun h => he (indexFromDevice_inj hne hep h).symm, if_neg he,
        ← List.getD_eq_getElem?_getD]
      simp [List.getD_eq_getElem?_getD, List.getElem?_replicate]
      split_ifs <;> rfl

/-! ### The addresses of the frames -/

/-- Every frame that leaves has the addresses of its own device. -/
def Outputs.OwnAddresses (drv : Tinynf) (o : Outputs) : Prop :=
  ∀ device < drv.devicesCount, o.sent device ≠ 0 →
    etherSrcAddr o.packet.data 0 = drv.deviceMacs device.toNat ∧
      etherDstAddr o.packet.data 0 = endpointMac device.toNat

/-- The device that the loop of a flood handles last. -/
def lastOutput (drv : Tinynf) (packet : NetPacket) : UInt16 := deviceFromIndex packet (drv.devicesCount.toNat - 2)

/-- On a single device the addresses are right. -/
theorem transmit_ownAddresses (hp : packet.device < drv.devicesCount) {device : UInt16}
    (hd : device < drv.devicesCount) (hne : device ≠ packet.device) :
    (netTransmit drv (drv.received packet) device .updateEtherAddrs).OwnAddresses drv := by
  intro e _ hsent
  rw [transmit_sent rfl hp hd hne] at hsent
  have he : e = device := by
    by_contra h
    exact hsent (if_neg h)
  subst he
  exact ⟨handleFlags_src e, handleFlags_dst e⟩

/-- The frames of a flood have the addresses of the last device, so they are
right on the devices that share them. -/
theorem floodWith_ownAddresses {lengthOn : ℕ → UInt16 → ℕ} (hp : packet.device < drv.devicesCount) :
    (floodWith drv .updateEtherAddrs lengthOn (drv.received packet) (drv.devicesCount.toNat - 1)).OwnAddresses drv ↔
      ∀ device < drv.devicesCount, device ≠ packet.device → lengthOn packet.length device ≠ 0 →
        drv.deviceMacs device.toNat = drv.deviceMacs (lastOutput drv packet).toNat ∧
          endpointMac device.toNat = endpointMac (lastOutput drv packet).toNat := by
  have hlen : (drv.received packet).lengths.length = drv.devicesCount.toNat - 1 := List.length_replicate
  have haddr : ∀ device < drv.devicesCount, device ≠ packet.device →
      etherSrcAddr (floodWith drv .updateEtherAddrs lengthOn (drv.received packet)
          (drv.devicesCount.toNat - 1)).packet.data 0 = drv.deviceMacs (lastOutput drv packet).toNat ∧
        etherDstAddr (floodWith drv .updateEtherAddrs lengthOn (drv.received packet)
          (drv.devicesCount.toNat - 1)).packet.data 0 = endpointMac (lastOutput drv packet).toNat := by
    intro device hd hne
    have hlt := indexFromDevice_lt hd hp hne
    rw [show drv.devicesCount.toNat - 1 = drv.devicesCount.toNat - 2 + 1 by omega]
    exact ⟨floodWith_src _, floodWith_dst _⟩
  have hsent : ∀ device < drv.devicesCount, device ≠ packet.device →
      (floodWith drv .updateEtherAddrs lengthOn (drv.received packet) (drv.devicesCount.toNat - 1)).sent device =
        lengthOn packet.length device :=
    fun device hd hne => floodWith_sent hlen hp hd hne
  constructor
  · intro h device hd hne hl
    obtain ⟨hsrc, hdst⟩ := h device hd (by rwa [hsent device hd hne])
    obtain ⟨hsrc', hdst'⟩ := haddr device hd hne
    exact ⟨hsrc.symm.trans hsrc', hdst.symm.trans hdst'⟩
  · intro h device hd hs
    have hne : device ≠ packet.device := by
      intro he
      have hdev := @floodWith_device drv (drv.received packet) .updateEtherAddrs lengthOn (drv.devicesCount.toNat - 1)
      exact hs (if_pos (he.trans hdev.symm))
    rw [hsent device hd hne] at hs
    obtain ⟨hsrc, hdst⟩ := h device hd hne hs
    obtain ⟨hsrc', hdst'⟩ := haddr device hd hne
    exact ⟨hsrc'.trans hsrc.symm, hdst'.trans hdst.symm⟩

/-- The frames of a flood carry the right addresses when every device that a
frame leaves on has the addresses of the last device. -/
theorem flooded_addresses (drv : Tinynf) (packet : NetPacket) (disabledDevices : List Bool)
    (hp : packet.device < drv.devicesCount) :
    ((netFlood drv (drv.received packet) .updateEtherAddrs).OwnAddresses drv ↔
      packet.length = 0 ∨ ∀ device < drv.devicesCount, device ≠ packet.device →
        drv.deviceMacs device.toNat = drv.deviceMacs (lastOutput drv packet).toNat ∧
          endpointMac device.toNat = endpointMac (lastOutput drv packet).toNat) ∧
    ((netFloodExcept drv (drv.received packet) disabledDevices .updateEtherAddrs).OwnAddresses drv ↔
      packet.length = 0 ∨ ∀ device < drv.devicesCount, device ≠ packet.device →
        disabledDevices.getD device.toNat false = false →
        drv.deviceMacs device.toNat = drv.deviceMacs (lastOutput drv packet).toNat ∧
          endpointMac device.toNat = endpointMac (lastOutput drv packet).toNat) := by
  constructor
  · rw [netFlood, floodWith_ownAddresses hp]
    by_cases hl : packet.length = 0
    · simp [hl]
    · simp [hl]
  · rw [netFloodExcept, floodWith_ownAddresses hp]
    by_cases hl : packet.length = 0
    · simp [hl]
    · simp [hl]

/-- Three devices, of addresses that end in 1, 2 and 3. -/
def threeDevices : Tinynf where
  devicesCount := 3
  deviceMacs := fun n => ⟨0, 0, 0, 0, 0, UInt8.ofNat (n + 1)⟩

/-- A packet from the first of them. -/
def fromFirst : NetPacket where
  data := fun _ => 0
  length := 60
  time := 0
  device := 0

theorem flooded_addresses_three :
    (0 : UInt16) < 3 ∧
    ((netFlood threeDevices (threeDevices.received fromFirst) .updateEtherAddrs).OwnAddresses threeDevices ↔
      fromFirst.length = 0 ∨ ∀ device < threeDevices.devicesCount, device ≠ fromFirst.device →
        threeDevices.deviceMacs device.toNat = threeDevices.deviceMacs (lastOutput threeDevices fromFirst).toNat ∧
          endpointMac device.toNat = endpointMac (lastOutput threeDevices fromFirst).toNat) :=
  ⟨by decide, (flooded_addresses threeDevices fromFirst [] (by decide)).1⟩

/-- On the second device, the frame has the source address of the third. -/
theorem flooded_addresses_not :
    ¬ ∀ (drv : Tinynf) (packet : NetPacket), packet.device < drv.devicesCount →
      (netFlood drv (drv.received packet) .updateEtherAddrs).OwnAddresses drv := by
  intro h
  have h1 := (h threeDevices fromFirst (by decide) 1 (by decide) (by decide)).1
  revert h1
  decide

end Klint
