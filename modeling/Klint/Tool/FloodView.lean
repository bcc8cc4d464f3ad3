/-
# The devices a specification sees

What the symbolic executor records of `net_transmit`, `net_flood` and
`net_flood_except` (`externals/net/tx.py`), and the object that `_spec_wrapper`
makes of the record for the specification (`verif/spec_prefix.py`). The record
holds the devices that a flood leaves out; the object does not.

`flood_denotes` says for which packets and which disabled devices the object
denotes the devices that the driver sends a frame on.
-/
import Klint.Net.Tinynf
import Klint.Tool.Claripy
import Mathlib.Data.Finset.Card

namespace Klint
namespace Tool

/-! ### The record -/

/-- `TransmissionMetadata` -/
structure TransmissionMetadata where
  dataAddr : BV
  length : BV
  flags : BV
  isFlood : Bool
  device : BV
  excludedDevices : Option BV

/-- `NetworkMetadata` -/
structure NetworkMetadata where
  receivedAddr : BV
  receivedDevice : BV
  receivedLength : BV
  transmitted : List TransmissionMetadata

/-- What `get_data_addr`, `get_length` and `get_device` load from the packet. -/
structure PacketTerms where
  dataAddr : BV
  length : BV
  device : BV

namespace NetworkMetadata

/-- `metadata.transmitted.append` -/
def append (metadata : NetworkMetadata) (t : TransmissionMetadata) : NetworkMetadata :=
  { metadata with transmitted := metadata.transmitted ++ [t] }

/-- `net_transmit` -/
def netTransmit (metadata : NetworkMetadata) (pkt : PacketTerms) (device flags : BV) : NetworkMetadata :=
  metadata.append ⟨pkt.dataAddr, pkt.length, flags, false, device, none⟩

/-- `net_flood` -/
def netFlood (metadata : NetworkMetadata) (pkt : PacketTerms) (flags : BV) : NetworkMetadata :=
  metadata.append ⟨pkt.dataAddr, pkt.length, flags, true, pkt.device, none⟩

/-- `net_flood_except` -/
def netFloodExcept (metadata : NetworkMetadata) (pkt : PacketTerms) (disabledDevices flags : BV) : NetworkMetadata :=
  metadata.append ⟨pkt.dataAddr, pkt.length, flags, true, pkt.device, some disabledDevices⟩

end NetworkMetadata

/-! ### The object -/

/-- `_SpecFloodedDevice` or `_SpecSingleDevice` -/
inductive SpecDevice
  | flooded (origDevice devicesCount : BV)
  | single (device : BV)

namespace SpecDevice

variable (cl : Claripy)

/-- `__contains__` -/
def contains : SpecDevice → BV → BoolAst
  | flooded origDevice _, item => cl.ne item origDevice
  | single device, item => cl.eq item device

/-- `length` -/
def length : SpecDevice → BV
  | flooded _ devicesCount => cl.bv (.bin .sub devicesCount (bvv devicesCount.size 1))
  | single _ => bvv 16 1

end SpecDevice

/-- The fields of `StateData` that the devices are made of. -/
structure StateData where
  network : NetworkMetadata
  devicesCount : BV

/-- The device of the transmitted packet in `_spec_wrapper`. -/
def specTransmittedDevice (data : StateData) : Except String (Option SpecDevice) :=
  match data.network.transmitted with
  | [] => .ok none
  | [t] => .ok (some (if t.isFlood then .flooded t.device data.devicesCount else .single t.device))
  | _ :: _ :: _ => .error "TODO support multiple transmitted packets"

/-! ### What the object denotes -/

/-- The devices that a frame leaves on. -/
def outputDevices (drv : Tinynf) (o : Outputs) : Finset ℕ :=
  (Finset.range drv.devicesCount.toNat).filter fun device => o.sent (UInt16.ofNat device) ≠ 0

/-- The object's `in` test, asked of the devices, and its length are those of a
set of devices. -/
def SpecDevice.Denotes (cl : Claripy) (ι : Env) (devicesCount : UInt16) (dev : SpecDevice) (s : Finset ℕ) : Prop :=
  (∀ item : BV, item.eval ι < devicesCount.toNat → ((dev.contains cl item).eval ι = true ↔ item.eval ι ∈ s)) ∧
    (dev.length cl).eval ι = s.card

/-- The packet and the number of devices as the executor has them: terms whose
values are those that the driver handles. -/
structure Describes (ι : Env) (pkt : PacketTerms) (devicesCount : BV) (drv : Tinynf) (packet : NetPacket) : Prop where
  device : pkt.device.eval ι = packet.device.toNat
  size : devicesCount.size = 16
  count : devicesCount.eval ι = drv.devicesCount.toNat
  lt : packet.device < drv.devicesCount

variable {cl : Claripy} {ι : Env} {pkt : PacketTerms} {count : BV} {drv : Tinynf} {packet : NetPacket}
  {metadata : NetworkMetadata} {flags : BV}

theorem eval_flooded_contains (hd : Describes ι pkt count drv packet) (item : BV) :
    ((SpecDevice.flooded pkt.device count).contains cl item).eval ι = true ↔ item.eval ι ≠ packet.device.toNat := by
  rw [SpecDevice.contains, Claripy.eval_ne, hd.device, bne_iff_ne]

theorem eval_flooded_length (hd : Describes ι pkt count drv packet) :
    ((SpecDevice.flooded pkt.device count).length cl).eval ι = drv.devicesCount.toNat - 1 := by
  have hlt := drv.devicesCount.toNat_lt
  have hpos := (UInt16.lt_iff_toNat_lt.mp hd.lt)
  rw [SpecDevice.length, cl.eval_bv]
  simp only [BV.eval, BinOp.apply, BinOp.size, hd.count, Claripy.eval_bvv, hd.size]
  omega

/-- A device number is one of the driver's devices. -/
theorem mem_outputDevices {o : Outputs} {device : UInt16} (hd : device < drv.devicesCount) :
    device.toNat ∈ outputDevices drv o ↔ o.sent device ≠ 0 := by
  rw [outputDevices, Finset.mem_filter, Finset.mem_range, UInt16.ofNat_toNat]
  exact and_iff_right (UInt16.lt_iff_toNat_lt.mp hd)

theorem toNat_ofNat_of_lt {n : ℕ} (h : n < drv.devicesCount.toNat) :
    (UInt16.ofNat n).toNat = n ∧ UInt16.ofNat n < drv.devicesCount := by
  have hlt := drv.devicesCount.toNat_lt
  have hn : (UInt16.ofNat n).toNat = n := by rw [UInt16.toNat_ofNat']; omega
  exact ⟨hn, UInt16.lt_iff_toNat_lt.mpr (by omega)⟩

/-- The flooded object denotes all devices but the one the packet came from, so
it denotes the outputs when these are all devices. -/
theorem flooded_denotes_iff (hd : Describes ι pkt count drv packet) {o : Outputs}
    (hself : o.sent packet.device = 0) :
    (SpecDevice.flooded pkt.device count).Denotes cl ι drv.devicesCount (outputDevices drv o) ↔
      ∀ device < drv.devicesCount, device ≠ packet.device → o.sent device ≠ 0 := by
  constructor
  · rintro ⟨hin, -⟩ device hlt hne
    have hval : (bvv 16 device.toNat).eval ι = device.toNat := by
      rw [Claripy.eval_bvv]
      exact Nat.mod_eq_of_lt device.toNat_lt
    have h := hin (bvv 16 device.toNat) (by rw [hval]; exact UInt16.lt_iff_toNat_lt.mp hlt)
    rw [eval_flooded_contains hd, hval, mem_outputDevices hlt] at h
    exact h.mp fun he => hne (UInt16.toNat_inj.mp he)
  · intro h
    have hset : outputDevices drv o = (Finset.range drv.devicesCount.toNat).erase packet.device.toNat := by
      ext n
      rw [Finset.mem_erase, Finset.mem_range, outputDevices, Finset.mem_filter, Finset.mem_range]
      constructor
      · rintro ⟨hn, hsent⟩
        refine ⟨fun he => hsent ?_, hn⟩
        rw [he, UInt16.ofNat_toNat]
        exact hself
      · rintro ⟨hne, hn⟩
        obtain ⟨hnat, hlt⟩ := toNat_ofNat_of_lt hn
        exact ⟨hn, h _ hlt fun he => hne (by rw [← he, hnat])⟩
    refine ⟨fun item hitem => ?_, ?_⟩
    · rw [eval_flooded_contains hd, hset, Finset.mem_erase, Finset.mem_range]
      exact (and_iff_left hitem).symm
    · rw [eval_flooded_length hd, hset, Finset.card_erase_of_mem, Finset.card_range]
      exact Finset.mem_range.mpr (UInt16.lt_iff_toNat_lt.mp hd.lt)

/-! ### The three ways to transmit -/

theorem specTransmittedDevice_netFlood (h : metadata.transmitted = []) :
    specTransmittedDevice ⟨metadata.netFlood pkt flags, count⟩ = .ok (some (.flooded pkt.device count)) := by
  simp [specTransmittedDevice, NetworkMetadata.netFlood, NetworkMetadata.append, h]

theorem specTransmittedDevice_netFloodExcept (h : metadata.transmitted = []) (disabledDevices : BV) :
    specTransmittedDevice ⟨metadata.netFloodExcept pkt disabledDevices flags, count⟩ =
      .ok (some (.flooded pkt.device count)) := by
  simp [specTransmittedDevice, NetworkMetadata.netFloodExcept, NetworkMetadata.append, h]

/-- The object of a single device denotes what `net_transmit` sends on. -/
theorem single_denotes (hd : Describes ι pkt count drv packet) {device : BV} {d : UInt16}
    (hval : device.eval ι = d.toNat) (hlt : d < drv.devicesCount) (hne : d ≠ packet.device) (hlen : packet.length ≠ 0)
    (cflags : NetTransmitFlags) :
    (SpecDevice.single device).Denotes cl ι drv.devicesCount
      (outputDevices drv (Klint.netTransmit drv (drv.received packet) d cflags)) := by
  have hset : outputDevices drv (Klint.netTransmit drv (drv.received packet) d cflags) = {d.toNat} := by
    ext n
    rw [Finset.mem_singleton, outputDevices, Finset.mem_filter, Finset.mem_range]
    constructor
    · rintro ⟨hn, hsent⟩
      rw [transmit_sent rfl hd.lt hlt hne] at hsent
      by_contra hnd
      exact hsent (if_neg fun he => hnd (by rw [← he, (toNat_ofNat_of_lt hn).1]))
    · rintro rfl
      rw [UInt16.ofNat_toNat, transmit_sent rfl hd.lt hlt hne, if_pos rfl]
      exact ⟨UInt16.lt_iff_toNat_lt.mp hlt, hlen⟩
  refine ⟨fun item _ => ?_, ?_⟩
  · rw [SpecDevice.contains, Claripy.eval_eq, beq_iff_eq, hval, hset, Finset.mem_singleton]
  · rw [SpecDevice.length, Claripy.eval_bvv, hset, Finset.card_singleton]
    rfl

/-- The driver's floods, on each device. -/
theorem netFlood_sent (hp : packet.device < drv.devicesCount) (cflags : NetTransmitFlags) {device : UInt16}
    (hd : device < drv.devicesCount) (hne : device ≠ packet.device) :
    (Klint.netFlood drv (drv.received packet) cflags).sent device = packet.length :=
  floodWith_sent List.length_replicate hp hd hne

theorem netFloodExcept_sent (hp : packet.device < drv.devicesCount) (disabledDevices : List Bool)
    (cflags : NetTransmitFlags) {device : UInt16} (hd : device < drv.devicesCount) (hne : device ≠ packet.device) :
    (Klint.netFloodExcept drv (drv.received packet) disabledDevices cflags).sent device =
      if disabledDevices.getD device.toNat false then 0 else packet.length :=
  floodWith_sent List.length_replicate hp hd hne

theorem floodWith_sent_self {lengthOn : ℕ → UInt16 → ℕ} {cflags : NetTransmitFlags} {o : Outputs} (n : ℕ) :
    (floodWith drv cflags lengthOn o n).sent o.packet.device = 0 :=
  if_pos (floodWith_device n).symm

/-- There is no other device if there is one device only. -/
theorem other_devices (hp : packet.device < drv.devicesCount) :
    (drv.devicesCount = 1 ∧ ∀ device < drv.devicesCount, device = packet.device) ∨
      drv.devicesCount ≠ 1 ∧ ∃ device < drv.devicesCount, device ≠ packet.device := by
  have hlt := UInt16.lt_iff_toNat_lt.mp hp
  by_cases h1 : drv.devicesCount = 1
  · refine Or.inl ⟨h1, fun device hd => UInt16.toNat_inj.mp ?_⟩
    have hd' := UInt16.lt_iff_toNat_lt.mp hd
    rw [h1, UInt16.toNat_one] at hlt hd'
    omega
  · have h1' : drv.devicesCount.toNat ≠ 1 := fun h => h1 (UInt16.toNat_inj.mp h)
    refine Or.inr ⟨h1, if packet.device = 0 then 1 else 0, ?_⟩
    by_cases h0 : packet.device = 0
    · rw [if_pos h0, h0, UInt16.lt_iff_toNat_lt, UInt16.toNat_one]
      exact ⟨by omega, by decide⟩
    · rw [if_neg h0, UInt16.lt_iff_toNat_lt, UInt16.toNat_zero]
      exact ⟨by omega, fun h => h0 h.symm⟩

/-- The object denotes the outputs of a flood when the packet is not empty and
no other device is disabled, or when there is no other device. -/
theorem flood_denotes (cl : Claripy) (ι : Env) (pkt : PacketTerms) (count flags disabled : BV)
    (metadata : NetworkMetadata) (drv : Tinynf) (packet : NetPacket) (disabledDevices : List Bool)
    (cflags : NetTransmitFlags) (hd : Describes ι pkt count drv packet) (hm : metadata.transmitted = []) :
    (∃ dev, specTransmittedDevice ⟨metadata.netFlood pkt flags, count⟩ = .ok (some dev) ∧
      (dev.Denotes cl ι drv.devicesCount (outputDevices drv (Klint.netFlood drv (drv.received packet) cflags)) ↔
        drv.devicesCount = 1 ∨ packet.length ≠ 0)) ∧
    ∃ dev, specTransmittedDevice ⟨metadata.netFloodExcept pkt disabled flags, count⟩ = .ok (some dev) ∧
      (dev.Denotes cl ι drv.devicesCount
          (outputDevices drv (Klint.netFloodExcept drv (drv.received packet) disabledDevices cflags)) ↔
        drv.devicesCount = 1 ∨ packet.length ≠ 0 ∧
          ∀ device < drv.devicesCount, device ≠ packet.device → disabledDevices.getD device.toNat false = false) := by
  refine ⟨⟨_, specTransmittedDevice_netFlood hm, ?_⟩, ⟨_, specTransmittedDevice_netFloodExcept hm disabled, ?_⟩⟩
  · rw [flooded_denotes_iff hd (floodWith_sent_self _)]
    obtain ⟨h1, hall⟩ | ⟨h1, e, he, hne⟩ := other_devices hd.lt
    · exact iff_of_true (fun device hlt hne => absurd (hall device hlt) hne) (Or.inl h1)
    · constructor
      · intro h
        rw [← netFlood_sent hd.lt cflags he hne]
        exact Or.inr (h e he hne)
      · rintro h device hlt hne'
        rw [netFlood_sent hd.lt cflags hlt hne']
        exact h.resolve_left h1
  · rw [flooded_denotes_iff hd (floodWith_sent_self _)]
    obtain ⟨h1, hall⟩ | ⟨h1, e, he, hne⟩ := other_devices hd.lt
    · exact iff_of_true (fun device hlt hne => absurd (hall device hlt) hne) (Or.inl h1)
    · have hsent : ∀ device < drv.devicesCount, device ≠ packet.device →
          ((Klint.netFloodExcept drv (drv.received packet) disabledDevices cflags).sent device ≠ 0 ↔
            packet.length ≠ 0 ∧ disabledDevices.getD device.toNat false = false) := by
        intro device hlt hne'
        rw [netFloodExcept_sent hd.lt disabledDevices cflags hlt hne']
        cases disabledDevices.getD device.toNat false <;> simp
      constructor
      · intro h
        exact Or.inr ⟨((hsent e he hne).mp (h e he hne)).1,
          fun device hlt hne' => ((hsent device hlt hne').mp (h device hlt hne')).2⟩
      · rintro h device hlt hne'
        obtain ⟨hlen, hdis⟩ := h.resolve_left h1
        exact (hsent device hlt hne').mpr ⟨hlen, hdis device hlt hne'⟩

/-- A packet from device 0 of three, and the second device disabled. -/
def describedPacket : PacketTerms := ⟨bvv 64 0, bvv 64 60, bvv 16 0⟩

theorem describes_fromFirst (ι : Env) : Describes ι describedPacket (bvv 16 3) threeDevices fromFirst where
  device := Claripy.eval_bvv ι 16 0
  size := rfl
  count := Claripy.eval_bvv ι 16 3
  lt := (by decide : (0 : UInt16) < 3)

/-- Device 0, which the packet is from, is disabled. -/
theorem flood_denotes_three :
    let metadata : NetworkMetadata := ⟨bvv 64 0, bvv 16 0, bvv 64 60, []⟩
    let ι : Env := ⟨fun _ => 0, fun _ => false⟩
    let received := threeDevices.received fromFirst
    (∃ dev, specTransmittedDevice ⟨metadata.netFlood describedPacket (bvv 32 0), bvv 16 3⟩ = .ok (some dev) ∧
      dev.Denotes plain ι 3 (outputDevices threeDevices (Klint.netFlood threeDevices received .none))) ∧
    ∃ dev, specTransmittedDevice ⟨metadata.netFloodExcept describedPacket (bvv 64 0) (bvv 32 0), bvv 16 3⟩ =
        .ok (some dev) ∧
      dev.Denotes plain ι 3
        (outputDevices threeDevices (Klint.netFloodExcept threeDevices received [true, false, false] .none)) := by
  intro metadata ι received
  obtain ⟨⟨dev, hdev, hflood⟩, ⟨dev', hdev', hexcept⟩⟩ := flood_denotes plain ι describedPacket (bvv 16 3) (bvv 32 0)
    (bvv 64 0) metadata threeDevices fromFirst [true, false, false] .none (describes_fromFirst ι) rfl
  refine ⟨⟨dev, hdev, hflood.mpr (Or.inr (by decide))⟩, ⟨dev', hdev', hexcept.mpr (Or.inr ⟨by decide, ?_⟩)⟩⟩
  intro device hlt hne
  have hlt' : device.toNat < 3 := UInt16.lt_iff_toNat_lt.mp hlt
  have hne' : device.toNat ≠ 0 := fun h => hne (UInt16.toNat_inj.mp h)
  obtain h | h : device.toNat = 1 ∨ device.toNat = 2 := by omega
  · rw [h]
    rfl
  · rw [h]
    rfl

/-- The second device is disabled: the driver sends one frame, the specification
sees two. -/
theorem flood_denotes_not :
    ¬ ∀ (cl : Claripy) (ι : Env) (pkt : PacketTerms) (count flags disabled : BV) (metadata : NetworkMetadata)
        (drv : Tinynf) (packet : NetPacket) (disabledDevices : List Bool) (cflags : NetTransmitFlags),
      Describes ι pkt count drv packet → metadata.transmitted = [] →
      ∃ dev, specTransmittedDevice ⟨metadata.netFloodExcept pkt disabled flags, count⟩ = .ok (some dev) ∧
        dev.Denotes cl ι drv.devicesCount
          (outputDevices drv (Klint.netFloodExcept drv (drv.received packet) disabledDevices cflags)) := by
  intro h
  obtain ⟨dev, hdev, -, hlen⟩ := h plain ⟨fun _ => 0, fun _ => false⟩ describedPacket (bvv 16 3) (bvv 32 0)
    (bvv 64 0) ⟨bvv 64 0, bvv 16 0, bvv 64 60, []⟩ threeDevices fromFirst [false, true, false] .none
    (describes_fromFirst _) rfl
  rw [specTransmittedDevice_netFloodExcept rfl] at hdev
  obtain rfl : SpecDevice.flooded describedPacket.device (bvv 16 3) = dev := by simpa using hdev
  rw [eval_flooded_length (describes_fromFirst _)] at hlen
  revert hlen
  decide

end Tool
end Klint
