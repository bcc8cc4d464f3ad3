/-
# What the translation writes to a packet

The claim for a packet that the NAT forwards: it changes the translated
address and port and the two checksums only (`Confined`), and keeps valid
checksums valid (`ChecksumsKept`). Two slips break it: the checksum of the
IPv4 header is updated at offset 12, which is the source address, not at 10;
and the sums of `net_checksum_update` drop their carries.

`rewrite_iff`: for every state of every run and every packet forwarded, the
claim holds exactly when the words replaced and the new ones satisfy
`RewriteOk`. The 16-bit words in it are loads of the machine.
-/
import Klint.Nf.Nat

namespace Klint
namespace NatNf

open OnesComplement

/-- Above the Ethernet addresses, the packet changes in the four bytes at
`addr`, the two at `port` and the two checksums only. -/
def Confined (data data' : ℕ → UInt8) (addr port : ℕ) : Prop :=
  ∀ q, 12 ≤ q → data' q ≠ data q → (addr ≤ q ∧ q < addr + 4) ∨ (port ≤ q ∧ q < port + 2) ∨
    (24 ≤ q ∧ q < 26) ∨ (l4ChecksumPtr data 14 ≤ q ∧ q < l4ChecksumPtr data 14 + 2)

/-- The checksums of a packet are valid, and the TCP or UDP one is there. -/
def ChecksumsValid (data : ℕ → UInt8) : Prop :=
  Ipv4ChecksumValid data 14 ∧ load16 data (l4ChecksumPtr data 14) ≠ 0 ∧ L4ChecksumValid data 14

def ChecksumsKept (data data' : ℕ → UInt8) : Prop :=
  ChecksumsValid data → Ipv4ChecksumValid data' 14 ∧ L4ChecksumValid data' 14

/-- A TCP or UDP frame with an IPv4 header of 20 bytes and a whole TCP or UDP
header. -/
structure Frame (data : ℕ → UInt8) : Prop where
  etherType : etherType data 0 = 0x0008
  versionIhl : data 14 = 0x45
  protocol : nextProtoId data 14 = ipProtocolTcp ∨ nextProtoId data 14 = ipProtocolUdp
  fits : L4HeaderFits data 14

/-- The words replaced, with the checksum, exceed the new ones by the three
carries that the updates drop. -/
def NoCarry (data : ℕ → UInt8) (oldAddr newAddr : UInt32) (oldPort newPort : UInt16) : Prop :=
  halves newAddr + newPort.toNat + 3 * 65535 ≤
    (load16 data (l4ChecksumPtr data 14)).toNat + halves oldAddr + oldPort.toNat

/-- When the claim holds of a packet from inside. -/
def OutboundOk (data : ℕ → UInt8) (addr : UInt32) (port : UInt16) : Prop :=
  ChecksumsValid data → halves (srcAddr data 14) % 65535 = halves addr % 65535 ∧
    NoCarry data (srcAddr data 14) addr (srcPort data 34) port

/-- When the claim holds of a packet from outside: the two updates of the
source address cancel, and the rest is as for a packet from inside. -/
def InboundOk (data : ℕ → UInt8) (flow : Flow) : Prop :=
  (halves (dstAddr data 14) + 2) % 65536 = halves flow.srcIp % 65536 ∧
    (ChecksumsValid data → halves (dstAddr data 14) % 65535 = halves flow.srcIp % 65535 ∧
      NoCarry data (dstAddr data 14) flow.srcIp (dstPort data 34) flow.srcPort)

/-! ### The bytes written -/

section Bytes

variable {data : ℕ → UInt8}

/-- The checksum of the segment after the three updates. -/
def l4ChecksumAfter (data : ℕ → UInt8) (oldAddr newAddr : UInt32) (oldPort newPort : UInt16) : ℕ :=
  ((load16 data (l4ChecksumPtr data 14)).toNat + halves oldAddr + oldPort.toNat + 3 * 65537 -
    halves newAddr - newPort.toNat) % 65536

/-- The three updates of a packet: two for an address, one for the port at
`port`, which they do not change before it is read. -/
theorem updates_spec (hp : nextProtoId data 14 = ipProtocolTcp ∨ nextProtoId data 14 = ipProtocolUdp)
    (oldAddr newAddr : UInt32) (newPort : UInt16) {port : ℕ} (hport : port = 34 ∨ port = 36) :
    let d := netPacketChecksumUpdate32 data 14 oldAddr newAddr true
    let d' := netPacketChecksumUpdate d 14 (load16 d port) newPort false
    (∀ q, q ≠ 26 → q ≠ 27 → q ≠ l4ChecksumPtr data 14 → q ≠ l4ChecksumPtr data 14 + 1 → d' q = data q) ∧
    (load16 d' (l4ChecksumPtr data 14)).toNat = l4ChecksumAfter data oldAddr newAddr (load16 data port) newPort ∧
    (load16 d' 26).toNat = ((load16 data 26).toNat + halves oldAddr + 2 * 65537 - halves newAddr) % 65536 := by
  intro d d'
  have hptr := l4ChecksumPtr_cases data 14
  obtain ⟨f1, c1, s1⟩ := netPacketChecksumUpdate32_spec hp oldAddr newAddr
  have hproto : d (14 + 9) = data (14 + 9) := f1 _ (by omega) (by omega) (by omega) (by omega)
  have hp1 : nextProtoId d 14 = ipProtocolTcp ∨ nextProtoId d 14 = ipProtocolUdp := by
    rw [nextProtoId, hproto]; exact hp
  have hread : load16 d port = load16 data port :=
    load16_congr (f1 _ (by omega) (by omega) (by omega) (by omega))
      (f1 _ (by omega) (by omega) (by omega) (by omega))
  obtain ⟨f2, c2, -⟩ := netPacketChecksumUpdate_spec hp1 (load16 d port) newPort false
  rw [l4ChecksumPtr_congr hproto] at f2 c2
  have ho := halves_le oldAddr
  have hn := halves_le newAddr
  have hop := (load16 data port).toNat_lt
  have hnp := newPort.toNat_lt
  refine ⟨fun q h1 h2 h3 h4 => ?_, ?_, ?_⟩
  · exact (f2 q (fun hc => by simp at hc) h3 h4).trans (f1 q h1 h2 h3 h4)
  · rw [c2, c1, hread]
    unfold checksumAfter l4ChecksumAfter
    omega
  · rw [load16_congr (f2 _ (fun hc => by simp at hc) (by omega) (by omega))
      (f2 _ (fun hc => by simp at hc) (by omega) (by omega))]
    exact s1

theorem rewriteOutbound_spec (hp : nextProtoId data 14 = ipProtocolTcp ∨ nextProtoId data 14 = ipProtocolUdp)
    (addr : UInt32) (port : UInt16) :
    (∀ q, (q < 26 ∨ 30 ≤ q) → (q < 34 ∨ 36 ≤ q) → q ≠ l4ChecksumPtr data 14 → q ≠ l4ChecksumPtr data 14 + 1 →
      rewriteOutbound data 14 34 addr port q = data q) ∧
    (load16 (rewriteOutbound data 14 34 addr port) (l4ChecksumPtr data 14)).toNat =
      l4ChecksumAfter data (srcAddr data 14) addr (srcPort data 34) port ∧
    srcAddr (rewriteOutbound data 14 34 addr port) 14 = addr := by
  have hptr := l4ChecksumPtr_cases data 14
  obtain ⟨f, c, -⟩ := updates_spec hp (srcAddr data 14) addr port (.inl rfl)
  refine ⟨fun q h1 h2 h3 h4 => ?_, ?_, ?_⟩
  · rw [rewriteOutbound, store16_of_ne _ (by omega) (by omega), store32_of_ne _ (by omega)]
    exact f q (by omega) (by omega) h3 h4
  · rw [rewriteOutbound, load16_store16_of_ne _ (by omega)]
    exact (congrArg _ (load16_congr (store32_of_ne _ (by omega)) (store32_of_ne _ (by omega)))).trans c
  · exact (load32_congr fun i hi => store16_of_ne _ (by omega) (by omega)).trans (load32_store32 _ _ _)

theorem rewriteInbound_spec (hp : nextProtoId data 14 = ipProtocolTcp ∨ nextProtoId data 14 = ipProtocolUdp)
    (flow : Flow) :
    (∀ q, q ≠ 26 → q ≠ 27 → (q < 30 ∨ 34 ≤ q) → (q < 36 ∨ 38 ≤ q) → q ≠ l4ChecksumPtr data 14 →
      q ≠ l4ChecksumPtr data 14 + 1 → rewriteInbound data 14 34 flow q = data q) ∧
    (load16 (rewriteInbound data 14 34 flow) (l4ChecksumPtr data 14)).toNat =
      l4ChecksumAfter data (dstAddr data 14) flow.srcIp (dstPort data 34) flow.srcPort ∧
    (load16 (rewriteInbound data 14 34 flow) 26).toNat =
      ((load16 data 26).toNat + halves (dstAddr data 14) + 2 * 65537 - halves flow.srcIp) % 65536 := by
  have hptr := l4ChecksumPtr_cases data 14
  obtain ⟨f, c, s⟩ := updates_spec hp (dstAddr data 14) flow.srcIp flow.srcPort (.inr rfl)
  refine ⟨fun q h1 h2 h3 h4 h5 h6 => ?_, ?_, ?_⟩
  · rw [rewriteInbound, store16_of_ne _ (by omega) (by omega), store32_of_ne _ (by omega)]
    exact f q h1 h2 h5 h6
  · rw [rewriteInbound, load16_store16_of_ne _ (by omega)]
    exact (congrArg _ (load16_congr (store32_of_ne _ (by omega)) (store32_of_ne _ (by omega)))).trans c
  · rw [rewriteInbound, load16_store16_of_ne _ (by omega)]
    exact (congrArg _ (load16_congr (store32_of_ne _ (by omega)) (store32_of_ne _ (by omega)))).trans s

end Bytes

/-! ### The checksums of a packet with some words replaced -/

/-- Above the Ethernet addresses, `data'` is `data` but for an address, a port
and the checksum of the segment. -/
structure Replaced (data data' : ℕ → UInt8) (addr port : ℕ) : Prop where
  addr_eq : addr = 26 ∨ addr = 30
  port_eq : port = 34 ∨ port = 36
  frame : ∀ q, 12 ≤ q → (q < addr ∨ addr + 4 ≤ q) → (q < port ∨ port + 2 ≤ q) →
    q ≠ l4ChecksumPtr data 14 → q ≠ l4ChecksumPtr data 14 + 1 → data' q = data q

namespace Replaced

variable {data data' : ℕ → UInt8} {addr port : ℕ}

theorem ipv4_sum (h : Replaced data data' addr port) :
    (ipv4Words data' 14).sum + (netWord data addr + netWord data (addr + 2)) =
      (ipv4Words data 14).sum + (netWord data' addr + netWord data' (addr + 2)) := by
  have haddr := h.addr_eq
  have hport := h.port_eq
  have hptr := l4ChecksumPtr_cases data 14
  obtain ⟨a, ha, hlt⟩ : ∃ a, addr = 14 + 2 * a ∧ a + 1 < 10 := by
    rcases haddr with rfl | rfl
    · exact ⟨6, rfl, by omega⟩
    · exact ⟨8, rfl, by omega⟩
  have hsum := sum_range_two (f := fun i => netWord data (14 + 2 * i)) (g := fun i => netWord data' (14 + 2 * i))
    (show a < 10 by omega) (show a + 1 < 10 by omega) (by omega) fun i hi h1 h2 =>
      netWord_congr (h.frame _ (by omega) (by omega) (by omega) (by omega) (by omega))
        (h.frame _ (by omega) (by omega) (by omega) (by omega) (by omega))
  simp only [show 14 + 2 * (a + 1) = 14 + 2 * a + 2 by omega, ← ha] at hsum
  exact hsum

theorem l4Length_eq (h : Replaced data data' addr port) : l4Length data' 14 = l4Length data 14 := by
  have haddr := h.addr_eq
  have hport := h.port_eq
  have hptr := l4ChecksumPtr_cases data 14
  rw [l4Length, l4Length, netWord_congr (h.frame _ (by omega) (by omega) (by omega) (by omega) (by omega))
    (h.frame _ (by omega) (by omega) (by omega) (by omega) (by omega))]

theorem proto_eq (h : Replaced data data' addr port) : nextProtoId data' 14 = nextProtoId data 14 := by
  have haddr := h.addr_eq
  have hport := h.port_eq
  have hptr := l4ChecksumPtr_cases data 14
  exact h.frame _ (by omega) (by omega) (by omega) (by omega) (by omega)

/-- The words of the pseudo-header. -/
theorem pseudoHeader_sum (h : Replaced data data' addr port) :
    (pseudoHeader data' 14).sum + (netWord data addr + netWord data (addr + 2)) =
      (pseudoHeader data 14).sum + (netWord data' addr + netWord data' (addr + 2)) := by
  have hport := h.port_eq
  have hptr := l4ChecksumPtr_cases data 14
  have hsame : ∀ p, 26 ≤ p → p + 1 < 34 → p + 1 < addr ∨ addr + 4 ≤ p →
      netWord data' p = netWord data p := fun p h1 h2 h3 =>
    netWord_congr (h.frame _ (by omega) (by omega) (by omega) (by omega) (by omega))
      (h.frame _ (by omega) (by omega) (by omega) (by omega) (by omega))
  simp only [pseudoHeader, h.proto_eq, h.l4Length_eq, List.sum_cons, List.sum_nil, Nat.reduceAdd]
  rcases h.addr_eq with rfl | rfl
  · rw [hsame 30 (by omega) (by omega) (by omega), hsame 32 (by omega) (by omega) (by omega)]
    simp only [Nat.reduceAdd]
    omega
  · rw [hsame 26 (by omega) (by omega) (by omega), hsame 28 (by omega) (by omega) (by omega)]
    simp only [Nat.reduceAdd]
    omega

/-- The words of the segment. -/
theorem segment_sum (h : Replaced data data' addr port) (hfits : L4HeaderFits data 14) :
    let words := fun d : ℕ → UInt8 =>
      (List.range ((l4Length data 14 + 1) / 2)).map (l4Word d (14 + 20) (l4Length data 14))
    (words data').sum + (netWord data port + netWord data (l4ChecksumPtr data 14)) =
      (words data).sum + (netWord data' port + netWord data' (l4ChecksumPtr data 14)) := by
  intro words
  have haddr := h.addr_eq
  obtain ⟨htcp, h8⟩ := hfits
  obtain ⟨a, ha, hale⟩ : ∃ a, port = 34 + 2 * a ∧ a ≤ 1 := by
    rcases h.port_eq with rfl | rfl
    · exact ⟨0, rfl, by omega⟩
    · exact ⟨1, rfl, by omega⟩
  obtain ⟨b, hb, hblt, hb3⟩ : ∃ b, l4ChecksumPtr data 14 = 34 + 2 * b ∧ 2 * b + 1 < l4Length data 14 ∧ 3 ≤ b := by
    unfold l4ChecksumPtr
    split_ifs with hp
    · exact ⟨8, rfl, by have := htcp hp; omega, by omega⟩
    · exact ⟨3, rfl, by omega, by omega⟩
  have hsum := sum_range_two (f := l4Word data (14 + 20) (l4Length data 14))
    (g := l4Word data' (14 + 20) (l4Length data 14)) (show a < (l4Length data 14 + 1) / 2 by omega)
    (show b < (l4Length data 14 + 1) / 2 by omega) (by omega) fun i _ h1 h2 => by
      rw [l4Word, l4Word, h.frame (14 + 20 + 2 * i) (by omega) (by omega) (by omega) (by omega) (by omega),
        h.frame (14 + 20 + 2 * i + 1) (by omega) (by omega) (by omega) (by omega) (by omega)]
  rw [l4Word_eq_netWord (by omega), l4Word_eq_netWord (by omega), l4Word_eq_netWord (by omega),
    l4Word_eq_netWord (by omega)] at hsum
  simp only [Nat.reduceAdd, ← ha, ← hb] at hsum
  exact hsum

theorem l4_sum (h : Replaced data data' addr port) (hfits : L4HeaderFits data 14) :
    (l4Words data' 14).sum + (netWord data addr + netWord data (addr + 2) +
        (netWord data port + netWord data (l4ChecksumPtr data 14))) =
      (l4Words data 14).sum + (netWord data' addr + netWord data' (addr + 2) +
        (netWord data' port + netWord data' (l4ChecksumPtr data 14))) := by
  have h1 := h.pseudoHeader_sum
  have h2 := h.segment_sum hfits
  simp only [l4Words, h.l4Length_eq, List.sum_append]
  simp only at h2
  omega

end Replaced

/-- Sums in the two byte orders. -/
theorem byteOrder_mod {s t u v l k : ℕ} (hs : s + 65535 * u = 256 * l) (ht : t + 65535 * v = 256 * k) :
    s % 65535 = t % 65535 ↔ l % 65535 = k % 65535 := by omega

theorem halves_load32 (data : ℕ → UInt8) (p : ℕ) :
    halves (load32 data p) = (load16 data p).toNat + (load16 data (p + 2)).toNat := by
  have h1 := (load16 data p).toNat_lt
  have h2 := (load16 data (p + 2)).toNat_lt
  rw [halves, load32_toNat]
  omega

namespace Replaced

variable {data data' : ℕ → UInt8} {addr port : ℕ}

/-- The header's checksum stays valid when the addresses agree. -/
theorem ipv4_valid_iff (h : Replaced data data' addr port) (hf : Frame data) (hv : Ipv4ChecksumValid data 14) :
    Ipv4ChecksumValid data' 14 ↔ halves (load32 data addr) % 65535 = halves (load32 data' addr) % 65535 := by
  have haddr := h.addr_eq
  have hport := h.port_eq
  have hptr := l4ChecksumPtr_cases data 14
  have hpos : (ipv4Words data' 14).sum ≠ 0 := by
    have h14 : data' 14 = data 14 := h.frame _ (by omega) (by omega) (by omega) (by omega) (by omega)
    have hle : netWord data' 14 ≤ (ipv4Words data' 14).sum :=
      List.single_le_sum (fun _ _ => Nat.zero_le _) _ (List.mem_map.mpr ⟨0, by simp, rfl⟩)
    rw [netWord, h14, hf.versionIhl] at hle
    have : (0x45 : UInt8).toNat = 69 := rfl
    omega
  rw [Ipv4ChecksumValid, full_iff_of_replaced (by omega) (fun _ hw => ipv4Words_le hw)
    (fun _ hw => ipv4Words_le hw) h.ipv4_sum hpos hv, halves_load32, halves_load32]
  have n1 := netWord_add data addr
  have n2 := netWord_add data (addr + 2)
  have n3 := netWord_add data' addr
  have n4 := netWord_add data' (addr + 2)
  exact byteOrder_mod (u := (data (addr + 1)).toNat + (data (addr + 2 + 1)).toNat)
    (v := (data' (addr + 1)).toNat + (data' (addr + 2 + 1)).toNat) (by omega) (by omega)

/-- The segment's checksum stays valid when the words replaced and the new
ones agree. -/
theorem l4_valid_iff (h : Replaced data data' addr port) (hf : Frame data) (hv : L4ChecksumValid data 14) :
    L4ChecksumValid data' 14 ↔
      (halves (load32 data addr) + (load16 data port).toNat + (load16 data (l4ChecksumPtr data 14)).toNat) % 65535 =
      (halves (load32 data' addr) + (load16 data' port).toNat +
        (load16 data' (l4ChecksumPtr data 14)).toNat) % 65535 := by
  have hpos : (l4Words data' 14).sum ≠ 0 := by
    have hle : (nextProtoId data' 14).toNat ≤ (l4Words data' 14).sum :=
      List.single_le_sum (fun _ _ => Nat.zero_le _) _ (List.mem_append_left _ (by simp [pseudoHeader]))
    rw [h.proto_eq] at hle
    rcases hf.protocol with hp | hp <;> rw [hp] at hle
    · have : ipProtocolTcp.toNat = 6 := rfl
      omega
    · have : ipProtocolUdp.toNat = 17 := rfl
      omega
  rw [L4ChecksumValid, full_iff_of_replaced (by omega) (fun _ hw => l4Words_le hw)
    (fun _ hw => l4Words_le hw) (h.l4_sum hf.fits) hpos hv, halves_load32, halves_load32]
  have n1 := netWord_add data addr
  have n2 := netWord_add data (addr + 2)
  have n3 := netWord_add data' addr
  have n4 := netWord_add data' (addr + 2)
  have n5 := netWord_add data port
  have n6 := netWord_add data' port
  have n7 := netWord_add data (l4ChecksumPtr data 14)
  have n8 := netWord_add data' (l4ChecksumPtr data 14)
  exact byteOrder_mod
    (u := (data (addr + 1)).toNat + (data (addr + 2 + 1)).toNat + (data (port + 1)).toNat +
      (data (l4ChecksumPtr data 14 + 1)).toNat)
    (v := (data' (addr + 1)).toNat + (data' (addr + 2 + 1)).toNat + (data' (port + 1)).toNat +
      (data' (l4ChecksumPtr data 14 + 1)).toNat) (by omega) (by omega)

end Replaced

/-- The updated checksum stands for the words replaced exactly when no carry
was dropped. -/
theorem l4ChecksumAfter_mod (data : ℕ → UInt8) (oldAddr newAddr : UInt32) (oldPort newPort : UInt16) :
    (halves oldAddr + oldPort.toNat + (load16 data (l4ChecksumPtr data 14)).toNat) % 65535 =
        (halves newAddr + newPort.toNat + l4ChecksumAfter data oldAddr newAddr oldPort newPort) % 65535 ↔
      NoCarry data oldAddr newAddr oldPort newPort := by
  have ho := halves_le oldAddr
  have hn := halves_le newAddr
  have hop := oldPort.toNat_lt
  have hnp := newPort.toNat_lt
  have hc := (load16 data (l4ChecksumPtr data 14)).toNat_lt
  unfold l4ChecksumAfter NoCarry
  set x := (load16 data (l4ChecksumPtr data 14)).toNat + halves oldAddr + oldPort.toNat + 3 * 65537 -
    halves newAddr - newPort.toNat with hx
  -- the updates wrap as often as the quotient says, and three carries make it 6
  have hdiv := Nat.div_add_mod x 65536
  have hq : x / 65536 ≤ 6 := by omega
  constructor
  · intro he
    omega
  · intro hle
    have : x / 65536 = 6 := by omega
    omega

/-! ### When the claim holds -/

section Rewrites

variable {data : ℕ → UInt8}

theorem rewriteOutbound_replaced (hf : Frame data) (addr : UInt32) (port : UInt16) :
    Replaced data (rewriteOutbound data 14 34 addr port) 26 34 where
  addr_eq := .inl rfl
  port_eq := .inl rfl
  frame := fun q _ h1 h2 h3 h4 => (rewriteOutbound_spec hf.protocol addr port).1 q h1 h2 h3 h4

theorem Replaced.confined {data' : ℕ → UInt8} {addr port : ℕ} (h : Replaced data data' addr port) :
    Confined data data' addr port := by
  intro q hq hne
  by_contra hc
  exact hne (h.frame q hq (by omega) (by omega) (by omega) (by omega))

/-- The checksums, for the new words and the updated checksum. -/
theorem Replaced.kept_iff {data' : ℕ → UInt8} {addr port : ℕ} {newAddr : UInt32} {newPort : UInt16}
    (h : Replaced data data' addr port) (hf : Frame data) (haddr : load32 data' addr = newAddr)
    (hport : load16 data' port = newPort)
    (hck : (load16 data' (l4ChecksumPtr data 14)).toNat =
      l4ChecksumAfter data (load32 data addr) newAddr (load16 data port) newPort) :
    ChecksumsKept data data' ↔
      (ChecksumsValid data → halves (load32 data addr) % 65535 = halves newAddr % 65535 ∧
        NoCarry data (load32 data addr) newAddr (load16 data port) newPort) := by
  refine forall_congr' fun hv => ?_
  rw [h.ipv4_valid_iff hf hv.1, h.l4_valid_iff hf hv.2.2, haddr, hport, hck, l4ChecksumAfter_mod]

theorem outbound_iff (hf : Frame data) (addr : UInt32) (port : UInt16) :
    Confined data (rewriteOutbound data 14 34 addr port) 26 34 ∧
        ChecksumsKept data (rewriteOutbound data 14 34 addr port) ↔ OutboundOk data addr port := by
  have hr := rewriteOutbound_replaced hf addr port
  obtain ⟨-, hck, haddr⟩ := rewriteOutbound_spec hf.protocol addr port
  have hk := hr.kept_iff hf haddr (srcPort_rewriteOutbound data 14 34 addr port) hck
  exact ⟨fun h => hk.mp h.2, fun h => ⟨hr.confined, hk.mpr h⟩⟩

/-- The two updates of the source address cancel. -/
theorem srcAddr_kept_iff (hf : Frame data) (flow : Flow) :
    load16 (rewriteInbound data 14 34 flow) 26 = load16 data 26 ↔
      (halves (dstAddr data 14) + 2) % 65536 = halves flow.srcIp % 65536 := by
  obtain ⟨-, -, hs⟩ := rewriteInbound_spec hf.protocol flow
  have ho := halves_le (dstAddr data 14)
  have hn := halves_le flow.srcIp
  have hlt := (load16 data 26).toNat_lt
  rw [← UInt16.toNat_inj, hs]
  omega

theorem rewriteInbound_replaced (hf : Frame data) (flow : Flow)
    (hs : load16 (rewriteInbound data 14 34 flow) 26 = load16 data 26) :
    Replaced data (rewriteInbound data 14 34 flow) 30 36 where
  addr_eq := .inr rfl
  port_eq := .inr rfl
  frame := fun q _ h1 h2 h3 h4 => by
    have hb := congrArg UInt16.toNat hs
    rw [load16_toNat, load16_toNat] at hb
    simp only [Nat.reduceAdd] at hb
    have h26 := (rewriteInbound data 14 34 flow 26).toNat_lt
    have h26' := (data 26).toNat_lt
    by_cases hq : q = 26 ∨ q = 27
    · rw [← UInt8.toNat_inj]
      rcases hq with rfl | rfl <;> omega
    · exact (rewriteInbound_spec hf.protocol flow).1 q (by omega) (by omega) (by omega) (by omega) h3 h4

theorem inbound_iff (hf : Frame data) (flow : Flow) :
    Confined data (rewriteInbound data 14 34 flow) 30 36 ∧
        ChecksumsKept data (rewriteInbound data 14 34 flow) ↔ InboundOk data flow := by
  obtain ⟨-, hck, -⟩ := rewriteInbound_spec hf.protocol flow
  have hk : ∀ hs, _ := fun hs => (rewriteInbound_replaced hf flow hs).kept_iff hf
    (dstAddr_rewriteInbound data 14 flow) (dstPort_rewriteInbound data 14 34 flow) hck
  constructor
  · rintro ⟨hc, hkept⟩
    -- the bytes of the source address are in no field that may change
    have hptr := l4ChecksumPtr_cases data 14
    have hs : load16 (rewriteInbound data 14 34 flow) 26 = load16 data 26 :=
      load16_congr (by by_contra hne; have := hc 26 (by omega) hne; omega)
        (by by_contra hne; have := hc 27 (by omega) hne; omega)
    exact ⟨(srcAddr_kept_iff hf flow).mp hs, (hk hs).mp hkept⟩
  · rintro ⟨h1, h2⟩
    have hs := (srcAddr_kept_iff hf flow).mpr h1
    exact ⟨(rewriteInbound_replaced hf flow hs).confined, (hk hs).mpr h2⟩

end Rewrites

/-- What is claimed of a packet that the NAT sends: from outside, the
destination changes; from inside, the source. -/
def RewriteClaim (s : State) (packet : NetPacket) (sent : NetTransmit) : Prop :=
  if packet.device = s.wanDevice then
    Confined packet.data sent.data 30 36 ∧ ChecksumsKept packet.data sent.data
  else Confined packet.data sent.data 26 34 ∧ ChecksumsKept packet.data sent.data

/-- The condition on a packet and the state before it, for the flow or the
port that the table has for the packet. -/
def RewriteOk (hash : Flow → UInt32) (s : State) (packet : NetPacket) : Prop :=
  if packet.device = s.wanDevice then
    ∀ flow, (flowTableGetExternal s.table packet.time (dstPort packet.data 34)).1 = some flow →
      InboundOk packet.data flow
  else
    ∀ port, (flowTableGetInternal hash s.table packet.time (flowOf packet.data 14 34)).1 = some port →
      OutboundOk packet.data s.externalAddr port

/-- For any state. -/
theorem handle_rewrite_iff (hash : Flow → UInt32) (s : State) {packet : NetPacket} (hf : Frame packet.data)
    {sent : NetTransmit} (hsent : (nfHandle hash s packet).2 = some sent) :
    RewriteClaim s packet sent ↔ RewriteOk hash s packet := by
  have hh : flowHeaders packet = some (14, 34) := by
    rw [flowHeaders_eq, if_pos ⟨hf.etherType, hf.protocol⟩]
  unfold RewriteClaim RewriteOk
  unfold nfHandle at hsent
  rw [hh] at hsent
  by_cases hd : packet.device = s.wanDevice
  · simp only [hd, ↓reduceIte] at hsent ⊢
    rcases hext : flowTableGetExternal s.table packet.time (dstPort packet.data 34) with ⟨_ | flow, t⟩
    · rw [hext] at hsent; cases hsent
    · rw [hext] at hsent
      simp only at hsent
      split_ifs at hsent with hspoof
      cases hsent
      simp only [Option.some.injEq, forall_eq']
      exact inbound_iff hf flow
  · simp only [hd, ↓reduceIte] at hsent ⊢
    rcases hint : flowTableGetInternal hash s.table packet.time (flowOf packet.data 14 34) with ⟨_ | port, t⟩
    · rw [hint] at hsent; cases hsent
    · rw [hint] at hsent
      cases hsent
      simp only [Option.some.injEq, forall_eq']
      exact outbound_iff hf s.externalAddr port

/-- **When the rewriting is confined and keeps checksums valid.** In every
state of every run, for every packet of the claim's kind that is forwarded:
exactly when `RewriteOk`. -/
theorem rewrite_iff (hash : Flow → UInt32) (items : ConfigItems) (devicesCount : UInt16) (s : State)
    (_ : Reachable hash items devicesCount s) (packet : NetPacket) (hf : Frame packet.data)
    (sent : NetTransmit) (hsent : (nfHandle hash s packet).2 = some sent) :
    RewriteClaim s packet sent ↔ RewriteOk hash s packet :=
  handle_rewrite_iff hash s hf hsent

/-- A configuration with the external address 1.2.3.4. -/
def demoItems : ConfigItems :=
  [("external addr", 0x04030201), ("wan device", 1), ("max flows", 1), ("expiration time", 5), ("start port", 1024)]

/-- A UDP packet from 10.0.0.1, port 5000, to 8.8.8.8, port 53, with valid
checksums or without that of the segment. -/
def request (checksum : Bool) : NetPacket where
  data := fun i =>
    [0, 0, 0, 0, 0, 0, 0, 0, 0, 0, 0, 0, 8, 0, 69, 0, 0, 28, 0, 0, 0, 0, 64, 17, 96, 193, 10, 0, 0, 1, 8, 8, 8, 8,
      19, 136, 0, 53, 0, 8, if checksum then 210 else 0, if checksum then 16 else 0].getD i 0
  length := 42
  time := 0
  device := 0

/-- The answer to 1.2.3.4 and the port the request was sent with. -/
def reply : NetPacket where
  data := fun i =>
    [0, 0, 0, 0, 0, 0, 0, 0, 0, 0, 0, 0, 8, 0, 69, 0, 0, 28, 0, 0, 0, 0, 64, 17, 102, 188, 8, 8, 8, 8, 1, 2, 3, 4,
      0, 53, 0, 4, 0, 8, 235, 143].getD i 0
  length := 42
  time := 1
  device := 1

theorem request_frame (checksum : Bool) : Frame (request checksum).data where
  etherType := rfl
  versionIhl := rfl
  protocol := .inr rfl
  fits := ⟨fun h => by revert h; decide +revert, by decide +revert⟩

/-- The theorem at the first packet of a run, sent without a checksum of the
segment. -/
theorem rewrite_iff_request :
    ∃ s sent, nfInit demoItems 2 = some s ∧ (nfHandle (fun _ => 0) s (request false)).2 = some sent ∧
      RewriteClaim s (request false) sent := by
  refine ⟨_, _, rfl, rfl, (rewrite_iff (fun _ => 0) demoItems 2 _ ⟨_, [], rfl, ⟨?_, ?_⟩, rfl⟩ (request false)
    (request_frame false) _ rfl).mpr ?_⟩
  · simp
  · simp
  · intro port _ hv
    exact absurd rfl hv.2.1

/-- The request is sent with invalid checksums, and the answer with another
source address. -/
theorem rewrite_not_confined :
    ∃ s, nfInit demoItems 2 = some s ∧
      (∃ sent, (nfHandle (fun _ => 0) s (request true)).2 = some sent ∧ ChecksumsValid (request true).data ∧
        ¬ Ipv4ChecksumValid sent.data 14 ∧ ¬ L4ChecksumValid sent.data 14) ∧
      ∃ sent, (nfHandle (fun _ => 0) (nfHandle (fun _ => 0) s (request true)).1 reply).2 = some sent ∧
        ¬ RewriteClaim (nfHandle (fun _ => 0) s (request true)).1 reply sent := by
  refine ⟨_, rfl, ⟨_, rfl, ⟨by decide, by decide, by decide⟩, by decide, by decide⟩, _, rfl, fun h => ?_⟩
  have hsrc := h.1 26 (by decide) (by decide)
  revert hsrc
  decide

end NatNf
end Klint
