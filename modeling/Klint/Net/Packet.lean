/-
# Packets and their headers

The accessors of `env/include/net/packet.h`, on the bytes from the packet's
data pointer on. A header is the offset of its first byte. The machine is
little-endian, so a 16-bit field is a load with its first byte low.
-/
import Klint.Os.Memory

namespace Klint

/-- A packet received on a device; `data` is the buffer from the data pointer
on, which the OS makes larger than any header. -/
structure NetPacket where
  data : ℕ → UInt8
  length : ℕ
  time : ℕ
  device : UInt16

/-- The flags of `net_transmit`. -/
inductive NetTransmitFlags where
  | none
  | updateEtherAddrs
  deriving DecidableEq, Repr

/-- A call of `net_transmit`: the packet's bytes at that moment, its length,
the device and the flags. -/
structure NetTransmit where
  data : ℕ → UInt8
  length : ℕ
  device : UInt16
  flags : NetTransmitFlags

/-! ### Loads and stores -/

def load16 (data : ℕ → UInt8) (p : ℕ) : UInt16 :=
  UInt16.ofNat ((data p).toNat + 256 * (data (p + 1)).toNat)

def load32 (data : ℕ → UInt8) (p : ℕ) : UInt32 :=
  UInt32.ofNat ((load16 data p).toNat + 65536 * (load16 data (p + 2)).toNat)

def store16 (data : ℕ → UInt8) (p : ℕ) (v : UInt16) : ℕ → UInt8 :=
  Function.update (Function.update data p (UInt8.ofNat (v.toNat % 256))) (p + 1) (UInt8.ofNat (v.toNat / 256))

def store32 (data : ℕ → UInt8) (p : ℕ) (v : UInt32) : ℕ → UInt8 :=
  store16 (store16 data p (UInt16.ofNat (v.toNat % 65536))) (p + 2) (UInt16.ofNat (v.toNat / 65536))

def load64 (data : ℕ → UInt8) (p : ℕ) : UInt64 :=
  UInt64.ofNat ((load32 data p).toNat + 2 ^ 32 * (load32 data (p + 4)).toNat)

def store64 (data : ℕ → UInt8) (p : ℕ) (v : UInt64) : ℕ → UInt8 :=
  store32 (store32 data p (UInt32.ofNat (v.toNat % 2 ^ 32))) (p + 4) (UInt32.ofNat (v.toNat / 2 ^ 32))

theorem load16_toNat (data : ℕ → UInt8) (p : ℕ) :
    (load16 data p).toNat = (data p).toNat + 256 * (data (p + 1)).toNat := by
  have h1 := (data p).toNat_lt
  have h2 := (data (p + 1)).toNat_lt
  rw [load16, UInt16.toNat_ofNat']
  omega

theorem load32_toNat (data : ℕ → UInt8) (p : ℕ) :
    (load32 data p).toNat = (load16 data p).toNat + 65536 * (load16 data (p + 2)).toNat := by
  have h1 := (load16 data p).toNat_lt
  have h2 := (load16 data (p + 2)).toNat_lt
  rw [load32, UInt32.toNat_ofNat']
  omega

theorem load16_congr {data data' : ℕ → UInt8} {p : ℕ} (h0 : data' p = data p)
    (h1 : data' (p + 1) = data (p + 1)) : load16 data' p = load16 data p := by
  rw [load16, load16, h0, h1]

theorem load32_congr {data data' : ℕ → UInt8} {p : ℕ} (h : ∀ i, i < 4 → data' (p + i) = data (p + i)) :
    load32 data' p = load32 data p := by
  have h01 : load16 data' p = load16 data p := load16_congr (h 0 (by omega)) (h 1 (by omega))
  have h23 : load16 data' (p + 2) = load16 data (p + 2) := load16_congr (h 2 (by omega)) (h 3 (by omega))
  rw [load32, load32, h01, h23]

theorem store16_of_ne {data : ℕ → UInt8} {p q : ℕ} (v : UInt16) (h0 : q ≠ p) (h1 : q ≠ p + 1) :
    store16 data p v q = data q := by
  rw [store16, Function.update_of_ne h1, Function.update_of_ne h0]

theorem store32_of_ne {data : ℕ → UInt8} {p q : ℕ} (v : UInt32) (h : q < p ∨ p + 4 ≤ q) :
    store32 data p v q = data q := by
  rw [store32, store16_of_ne _ (by omega) (by omega), store16_of_ne _ (by omega) (by omega)]

@[simp] theorem load16_store16 (data : ℕ → UInt8) (p : ℕ) (v : UInt16) : load16 (store16 data p v) p = v := by
  have hv := v.toNat_lt
  rw [← UInt16.toNat_inj, load16_toNat, store16, Function.update_self, Function.update_of_ne (by omega),
    Function.update_self, UInt8.toNat_ofNat', UInt8.toNat_ofNat']
  omega

theorem load16_store16_of_ne {data : ℕ → UInt8} {p q : ℕ} (v : UInt16) (h : q + 1 < p ∨ p + 1 < q) :
    load16 (store16 data p v) q = load16 data q :=
  load16_congr (store16_of_ne v (by omega) (by omega)) (store16_of_ne v (by omega) (by omega))

@[simp] theorem load32_store32 (data : ℕ → UInt8) (p : ℕ) (v : UInt32) : load32 (store32 data p v) p = v := by
  have hv := v.toNat_lt
  rw [← UInt32.toNat_inj, load32_toNat, store32, load16_store16, load16_store16_of_ne _ (by omega),
    load16_store16, UInt16.toNat_ofNat', UInt16.toNat_ofNat']
  omega

theorem load32_store32_of_ne {data : ℕ → UInt8} {p q : ℕ} (v : UInt32) (h : q + 4 ≤ p ∨ p + 4 ≤ q) :
    load32 (store32 data p v) q = load32 data q :=
  load32_congr fun i hi => store32_of_ne v (by omega)

theorem load64_toNat (data : ℕ → UInt8) (p : ℕ) :
    (load64 data p).toNat = (load32 data p).toNat + 2 ^ 32 * (load32 data (p + 4)).toNat := by
  have h1 := (load32 data p).toNat_lt
  have h2 := (load32 data (p + 4)).toNat_lt
  rw [load64, UInt64.toNat_ofNat']
  omega

theorem load64_congr {data data' : ℕ → UInt8} {p : ℕ} (h : ∀ i, i < 8 → data' (p + i) = data (p + i)) :
    load64 data' p = load64 data p := by
  have h03 : load32 data' p = load32 data p := load32_congr fun i hi => h i (by omega)
  have h47 : load32 data' (p + 4) = load32 data (p + 4) := load32_congr fun i hi => by
    rw [Nat.add_assoc]
    exact h (4 + i) (by omega)
  rw [load64, load64, h03, h47]

theorem store64_of_ne {data : ℕ → UInt8} {p q : ℕ} (v : UInt64) (h : q < p ∨ p + 8 ≤ q) :
    store64 data p v q = data q := by
  rw [store64, store32_of_ne _ (by omega), store32_of_ne _ (by omega)]

@[simp] theorem load64_store64 (data : ℕ → UInt8) (p : ℕ) (v : UInt64) : load64 (store64 data p v) p = v := by
  have hv := v.toNat_lt
  rw [← UInt64.toNat_inj, load64_toNat, store64, load32_store32, load32_store32_of_ne _ (by omega),
    load32_store32, UInt32.toNat_ofNat', UInt32.toNat_ofNat']
  omega

/-! ### Headers -/

def ipProtocolTcp : UInt8 := 6
def ipProtocolUdp : UInt8 := 17

/-- Only Ethernet packets are supported. -/
def netGetEtherHeader (_packet : NetPacket) : Option ℕ := some 0

def etherType (data : ℕ → UInt8) (ether : ℕ) : UInt16 := load16 data (ether + 12)

/-- 14 bytes after the Ethernet header, if its type is IPv4. -/
def netGetIpv4Header (data : ℕ → UInt8) (ether : ℕ) : Option ℕ :=
  if etherType data ether = 0x0008 then some (ether + 14) else none

def nextProtoId (data : ℕ → UInt8) (ipv4 : ℕ) : UInt8 := data (ipv4 + 9)
def srcAddr (data : ℕ → UInt8) (ipv4 : ℕ) : UInt32 := load32 data (ipv4 + 12)
def dstAddr (data : ℕ → UInt8) (ipv4 : ℕ) : UInt32 := load32 data (ipv4 + 16)

/-- 20 bytes after the IPv4 header, options ignored, if the protocol is TCP
or UDP. -/
def netGetTcpudpHeader (data : ℕ → UInt8) (ipv4 : ℕ) : Option ℕ :=
  if nextProtoId data ipv4 = ipProtocolTcp ∨ nextProtoId data ipv4 = ipProtocolUdp then some (ipv4 + 20)
  else none

def srcPort (data : ℕ → UInt8) (tcpudp : ℕ) : UInt16 := load16 data tcpudp
def dstPort (data : ℕ → UInt8) (tcpudp : ℕ) : UInt16 := load16 data (tcpudp + 2)

/-- The test the network functions over flows begin with: the IPv4 and the
TCP/UDP header. -/
def flowHeaders (packet : NetPacket) : Option (ℕ × ℕ) := do
  let ether ← netGetEtherHeader packet
  let ipv4 ← netGetIpv4Header packet.data ether
  let tcpudp ← netGetTcpudpHeader packet.data ipv4
  return (ipv4, tcpudp)

/-- The 5-tuple `struct flow`; its padding is zero. -/
structure Flow where
  srcIp : UInt32
  dstIp : UInt32
  srcPort : UInt16
  dstPort : UInt16
  protocol : UInt8
  deriving DecidableEq, Repr, Inhabited

/-- `sizeof(struct flow)`. -/
def flowSize : ℕ := 16

/-- The flow of a packet's headers. -/
def flowOf (data : ℕ → UInt8) (ipv4 tcpudp : ℕ) : Flow where
  srcIp := srcAddr data ipv4
  dstIp := dstAddr data ipv4
  srcPort := srcPort data tcpudp
  dstPort := dstPort data tcpudp
  protocol := nextProtoId data ipv4

/-- The flow the other way. -/
def Flow.inverted (f : Flow) : Flow where
  srcIp := f.dstIp
  dstIp := f.srcIp
  srcPort := f.dstPort
  dstPort := f.srcPort
  protocol := f.protocol

/-- A frame with the headers of a flow and zero elsewhere. -/
def flowFrame (f : Flow) : ℕ → UInt8 :=
  store16 (store16 (store32 (store32 (Function.update (store16 (fun _ => 0) 12 0x0008) 23 f.protocol)
    26 f.srcIp) 30 f.dstIp) 34 f.srcPort) 36 f.dstPort

/-- The headers are where a TCP/UDP-over-IPv4 frame has them. -/
theorem flowHeaders_eq (packet : NetPacket) :
    flowHeaders packet =
      if etherType packet.data 0 = 0x0008 ∧
          (nextProtoId packet.data 14 = ipProtocolTcp ∨ nextProtoId packet.data 14 = ipProtocolUdp)
      then some (14, 34) else none := by
  simp only [flowHeaders, netGetEtherHeader, netGetIpv4Header, netGetTcpudpHeader, Option.pure_def,
    Option.bind_eq_bind, Option.bind_some, Nat.zero_add]
  by_cases h1 : etherType packet.data 0 = 0x0008
  · by_cases h2 : nextProtoId packet.data 14 = ipProtocolTcp ∨ nextProtoId packet.data 14 = ipProtocolUdp
    · simp [h1, h2]
    · simp [h1, h2]
  · simp [h1]

theorem flowHeaders_flowFrame {f : Flow} (h : f.protocol = ipProtocolTcp ∨ f.protocol = ipProtocolUdp)
    (length time : ℕ) (device : UInt16) : flowHeaders ⟨flowFrame f, length, time, device⟩ = some (14, 34) := by
  rw [flowHeaders_eq, if_pos]
  refine ⟨?_, ?_⟩
  · rfl
  · exact h

theorem flowOf_flowFrame (f : Flow) : flowOf (flowFrame f) 14 34 = f := by
  have h1 : srcAddr (flowFrame f) 14 = f.srcIp := by
    refine (load32_congr fun i hi => ?_).trans
      (load32_store32 (Function.update (store16 (fun _ => 0) 12 0x0008) 23 f.protocol) 26 f.srcIp)
    rw [flowFrame, store16_of_ne _ (by omega) (by omega), store16_of_ne _ (by omega) (by omega),
      store32_of_ne _ (by omega)]
  have h2 : dstAddr (flowFrame f) 14 = f.dstIp := by
    refine (load32_congr fun i hi => ?_).trans (load32_store32
      (store32 (Function.update (store16 (fun _ => 0) 12 0x0008) 23 f.protocol) 26 f.srcIp) 30 f.dstIp)
    rw [flowFrame, store16_of_ne _ (by omega) (by omega), store16_of_ne _ (by omega) (by omega)]
  have h3 : srcPort (flowFrame f) 34 = f.srcPort := by
    rw [srcPort, flowFrame, load16_store16_of_ne _ (by omega), load16_store16]
  have h4 : dstPort (flowFrame f) 34 = f.dstPort := load16_store16 _ 36 f.dstPort
  have h5 : nextProtoId (flowFrame f) 14 = f.protocol := rfl
  rw [flowOf, h1, h2, h3, h4, h5]

end Klint
