/-
# Incremental checksum updates

`net_checksum_update` and its callers (`env/include/net/packet.h`), on the
bytes of the packet. C promotes the words to `int` and truncates the result
to 16 bits; modulo 2^16 this is arithmetic on `UInt16`. So the update is in
two's complement (`checksumAfter`): no carry comes back in.

What the checksums are for is stated in network byte order, with the sum in
ones' complement: `Ipv4ChecksumValid` and `L4ChecksumValid`. The sum does not
depend on the byte order up to a factor of 256 (`netWord_add`).

`checksum_updates`: an update keeps a sum valid exactly when it carries, as then the carry
that does not come back in is the one that truncation takes away.
-/
import Klint.Lib.OnesComplement
import Klint.Net.Packet

namespace Klint

/-- "RFC 1624 Equation 3": `~(~checksum + ~old + new)`. -/
def netChecksumUpdate (data : ℕ → UInt8) (checksumPtr : ℕ) (oldWord newWord : UInt16) : ℕ → UInt8 :=
  store16 data checksumPtr (~~~(~~~(load16 data checksumPtr) + ~~~oldWord + newWord))

/-- Update the IP checksum if the word is in the IP header, and the TCP or UDP
checksum. The offset of the IP checksum is 12 in the source. -/
def netPacketChecksumUpdate (data : ℕ → UInt8) (ipv4 : ℕ) (oldWord newWord : UInt16) (inIp : Bool) : ℕ → UInt8 :=
  let data := if inIp then netChecksumUpdate data (ipv4 + 12) oldWord newWord else data
  let l4 := ipv4 + 20
  if nextProtoId data ipv4 = ipProtocolTcp then netChecksumUpdate data (l4 + 16) oldWord newWord
  else if nextProtoId data ipv4 = ipProtocolUdp then netChecksumUpdate data (l4 + 6) oldWord newWord
  else data

/-- The low half of the word, then the high half. -/
def netPacketChecksumUpdate32 (data : ℕ → UInt8) (ipv4 : ℕ) (oldWord newWord : UInt32) (inIp : Bool) : ℕ → UInt8 :=
  let data := netPacketChecksumUpdate data ipv4 oldWord.toUInt16 newWord.toUInt16 inIp
  netPacketChecksumUpdate data ipv4 (oldWord >>> 16).toUInt16 (newWord >>> 16).toUInt16 inIp

/-! ### What an update writes -/

/-- The checksum after an update, as a number. -/
def checksumAfter (c oldWord newWord : ℕ) : ℕ := (c + oldWord + 65537 - newWord) % 65536

theorem load16_netChecksumUpdate (data : ℕ → UInt8) (p : ℕ) (o n : UInt16) :
    (load16 (netChecksumUpdate data p o n) p).toNat =
      checksumAfter (load16 data p).toNat o.toNat n.toNat := by
  have hc := (load16 data p).toNat_lt
  have ho := o.toNat_lt
  have hn := n.toNat_lt
  rw [netChecksumUpdate, load16_store16, checksumAfter]
  simp only [UInt16.toNat_not, UInt16.toNat_add, UInt16.size]
  omega

theorem netChecksumUpdate_of_ne {data : ℕ → UInt8} {p q : ℕ} (o n : UInt16) (h0 : q ≠ p) (h1 : q ≠ p + 1) :
    netChecksumUpdate data p o n q = data q :=
  store16_of_ne _ h0 h1

/-- Where the TCP or UDP checksum is. -/
def l4ChecksumPtr (data : ℕ → UInt8) (ipv4 : ℕ) : ℕ :=
  ipv4 + 20 + if nextProtoId data ipv4 = ipProtocolTcp then 16 else 6

theorem l4ChecksumPtr_congr {data data' : ℕ → UInt8} {ipv4 : ℕ} (h : data' (ipv4 + 9) = data (ipv4 + 9)) :
    l4ChecksumPtr data' ipv4 = l4ChecksumPtr data ipv4 := by
  rw [l4ChecksumPtr, l4ChecksumPtr, nextProtoId, nextProtoId, h]

theorem l4ChecksumPtr_cases (data : ℕ → UInt8) (ipv4 : ℕ) :
    l4ChecksumPtr data ipv4 = ipv4 + 36 ∨ l4ChecksumPtr data ipv4 = ipv4 + 26 := by
  rw [l4ChecksumPtr]; split_ifs <;> simp

/-- What an update does to a TCP or UDP packet: it writes the checksum of the
segment, and two bytes of the source address if the word is in the IP
header. -/
theorem netPacketChecksumUpdate_spec {data : ℕ → UInt8} {ipv4 : ℕ}
    (hp : nextProtoId data ipv4 = ipProtocolTcp ∨ nextProtoId data ipv4 = ipProtocolUdp) (o n : UInt16)
    (inIp : Bool) :
    (∀ q, (inIp = true → q ≠ ipv4 + 12 ∧ q ≠ ipv4 + 13) → q ≠ l4ChecksumPtr data ipv4 →
      q ≠ l4ChecksumPtr data ipv4 + 1 → netPacketChecksumUpdate data ipv4 o n inIp q = data q) ∧
    (load16 (netPacketChecksumUpdate data ipv4 o n inIp) (l4ChecksumPtr data ipv4)).toNat =
      checksumAfter (load16 data (l4ChecksumPtr data ipv4)).toNat o.toNat n.toNat ∧
    (inIp = true → (load16 (netPacketChecksumUpdate data ipv4 o n inIp) (ipv4 + 12)).toNat =
      checksumAfter (load16 data (ipv4 + 12)).toNat o.toNat n.toNat) := by
  set data1 := if inIp then netChecksumUpdate data (ipv4 + 12) o n else data with hdata1
  have hptr := l4ChecksumPtr_cases data ipv4
  have h1 : ∀ q, (inIp = true → q ≠ ipv4 + 12 ∧ q ≠ ipv4 + 13) → data1 q = data q := by
    intro q hq
    rw [hdata1]
    split_ifs with hi
    · exact netChecksumUpdate_of_ne o n (hq hi).1 (hq hi).2
    · rfl
  have hproto : nextProtoId data1 ipv4 = nextProtoId data ipv4 := h1 _ fun _ => by omega
  have heq : netPacketChecksumUpdate data ipv4 o n inIp =
      netChecksumUpdate data1 (l4ChecksumPtr data ipv4) o n := by
    rw [netPacketChecksumUpdate, l4ChecksumPtr]
    simp only [← hdata1, hproto]
    rcases hp with hp | hp
    · simp only [hp, ↓reduceIte]
    · simp only [hp, show ¬ ipProtocolUdp = ipProtocolTcp by decide, ↓reduceIte]
  rw [heq]
  refine ⟨fun q hq h2 h3 => ?_, ?_, fun hi => ?_⟩
  · rw [netChecksumUpdate_of_ne o n h2 h3, h1 q hq]
  · rw [load16_netChecksumUpdate, load16_congr (h1 _ fun _ => by omega) (h1 _ fun _ => by omega)]
  · rw [netChecksumUpdate, load16_store16_of_ne _ (by omega), hdata1, if_pos hi, load16_netChecksumUpdate]

theorem toUInt16_toNat (w : UInt32) : w.toUInt16.toNat = w.toNat % 65536 := by simp

theorem shift_toUInt16_toNat (w : UInt32) : (w >>> 16).toUInt16.toNat = w.toNat / 65536 := by
  have hw := w.toNat_lt
  rw [toUInt16_toNat, UInt32.toNat_shiftRight]
  simp only [show (16 : UInt32).toNat % 32 = 16 from rfl, Nat.shiftRight_eq_div_pow]
  omega

/-- The low and the high half of a 32-bit word, added. -/
def halves (w : UInt32) : ℕ := w.toNat % 65536 + w.toNat / 65536

theorem halves_le (w : UInt32) : halves w ≤ 131070 := by
  have hw := w.toNat_lt
  unfold halves; omega

/-- The two updates of a 32-bit word in the IP header. -/
theorem netPacketChecksumUpdate32_spec {data : ℕ → UInt8} {ipv4 : ℕ}
    (hp : nextProtoId data ipv4 = ipProtocolTcp ∨ nextProtoId data ipv4 = ipProtocolUdp) (o n : UInt32) :
    (∀ q, q ≠ ipv4 + 12 → q ≠ ipv4 + 13 → q ≠ l4ChecksumPtr data ipv4 → q ≠ l4ChecksumPtr data ipv4 + 1 →
      netPacketChecksumUpdate32 data ipv4 o n true q = data q) ∧
    (load16 (netPacketChecksumUpdate32 data ipv4 o n true) (l4ChecksumPtr data ipv4)).toNat =
      ((load16 data (l4ChecksumPtr data ipv4)).toNat + halves o + 2 * 65537 - halves n) % 65536 ∧
    (load16 (netPacketChecksumUpdate32 data ipv4 o n true) (ipv4 + 12)).toNat =
      ((load16 data (ipv4 + 12)).toNat + halves o + 2 * 65537 - halves n) % 65536 := by
  have hptr := l4ChecksumPtr_cases data ipv4
  obtain ⟨f1, c1, s1⟩ := netPacketChecksumUpdate_spec hp o.toUInt16 n.toUInt16 true
  set d1 := netPacketChecksumUpdate data ipv4 o.toUInt16 n.toUInt16 true
  have hproto : d1 (ipv4 + 9) = data (ipv4 + 9) := f1 _ (fun _ => by omega) (by omega) (by omega)
  have hp1 : nextProtoId d1 ipv4 = ipProtocolTcp ∨ nextProtoId d1 ipv4 = ipProtocolUdp := by
    rw [nextProtoId, hproto]; exact hp
  obtain ⟨f2, c2, s2⟩ := netPacketChecksumUpdate_spec hp1 (o >>> 16).toUInt16 (n >>> 16).toUInt16 true
  rw [l4ChecksumPtr_congr hproto] at f2 c2
  have hupd : netPacketChecksumUpdate32 data ipv4 o n true =
      netPacketChecksumUpdate d1 ipv4 (o >>> 16).toUInt16 (n >>> 16).toUInt16 true := rfl
  have ho := o.toNat_lt
  have hn := n.toNat_lt
  rw [hupd]
  refine ⟨fun q h1 h2 h3 h4 => ?_, ?_, ?_⟩
  · rw [f2 q (fun _ => ⟨h1, h2⟩) h3 h4, f1 q (fun _ => ⟨h1, h2⟩) h3 h4]
  · rw [c2, c1, toUInt16_toNat, toUInt16_toNat, shift_toUInt16_toNat, shift_toUInt16_toNat]
    unfold checksumAfter halves
    omega
  · rw [s2 rfl, s1 rfl, toUInt16_toNat, toUInt16_toNat, shift_toUInt16_toNat, shift_toUInt16_toNat]
    unfold checksumAfter halves
    omega

/-! ### Valid checksums -/

/-- The 16-bit word at `p`, in network byte order. -/
def netWord (data : ℕ → UInt8) (p : ℕ) : ℕ := 256 * (data p).toNat + (data (p + 1)).toNat

/-- The ten words of the IPv4 header. -/
def ipv4Words (data : ℕ → UInt8) (ipv4 : ℕ) : List ℕ := (List.range 10).map fun i => netWord data (ipv4 + 2 * i)

/-- The header's words sum to all ones. -/
def Ipv4ChecksumValid (data : ℕ → UInt8) (ipv4 : ℕ) : Prop := OnesComplement.onesSum 65535 (ipv4Words data ipv4) = 65535

/-- The length of the TCP or UDP segment, from the total length. -/
def l4Length (data : ℕ → UInt8) (ipv4 : ℕ) : ℕ := netWord data (ipv4 + 2) - 20

/-- The `i`th word of the segment of `n` bytes, padded with a zero byte. -/
def l4Word (data : ℕ → UInt8) (l4 n i : ℕ) : ℕ :=
  256 * (data (l4 + 2 * i)).toNat + if 2 * i + 1 < n then (data (l4 + 2 * i + 1)).toNat else 0

/-- The pseudo-header: the addresses, the protocol and the length. -/
def pseudoHeader (data : ℕ → UInt8) (ipv4 : ℕ) : List ℕ :=
  [netWord data (ipv4 + 12), netWord data (ipv4 + 14), netWord data (ipv4 + 16), netWord data (ipv4 + 18),
    (nextProtoId data ipv4).toNat, l4Length data ipv4]

def l4Words (data : ℕ → UInt8) (ipv4 : ℕ) : List ℕ :=
  pseudoHeader data ipv4 ++
    (List.range ((l4Length data ipv4 + 1) / 2)).map (l4Word data (ipv4 + 20) (l4Length data ipv4))

/-- The words of the pseudo-header and the segment sum to all ones. -/
def L4ChecksumValid (data : ℕ → UInt8) (ipv4 : ℕ) : Prop := OnesComplement.onesSum 65535 (l4Words data ipv4) = 65535

instance (data : ℕ → UInt8) (ipv4 : ℕ) : Decidable (Ipv4ChecksumValid data ipv4) := by
  unfold Ipv4ChecksumValid; infer_instance

instance (data : ℕ → UInt8) (ipv4 : ℕ) : Decidable (L4ChecksumValid data ipv4) := by
  unfold L4ChecksumValid; infer_instance

/-- The length is at least that of a header that holds the checksum. -/
def L4HeaderFits (data : ℕ → UInt8) (ipv4 : ℕ) : Prop :=
  (nextProtoId data ipv4 = ipProtocolTcp → 20 ≤ l4Length data ipv4) ∧ 8 ≤ l4Length data ipv4

instance (data : ℕ → UInt8) (ipv4 : ℕ) : Decidable (L4HeaderFits data ipv4) := by
  unfold L4HeaderFits; infer_instance

theorem netWord_le (data : ℕ → UInt8) (p : ℕ) : netWord data p ≤ 65535 := by
  have h0 := (data p).toNat_lt
  have h1 := (data (p + 1)).toNat_lt
  rw [netWord]; omega

theorem netWord_congr {data data' : ℕ → UInt8} {p : ℕ} (h0 : data' p = data p)
    (h1 : data' (p + 1) = data (p + 1)) : netWord data' p = netWord data p := by
  rw [netWord, netWord, h0, h1]

/-- The two byte orders agree up to a factor. -/
theorem netWord_add (data : ℕ → UInt8) (p : ℕ) :
    netWord data p + 65535 * (data (p + 1)).toNat = 256 * (load16 data p).toNat := by
  rw [netWord, load16_toNat]; omega

theorem l4Word_le (data : ℕ → UInt8) (l4 n i : ℕ) : l4Word data l4 n i ≤ 65535 := by
  have h0 := (data (l4 + 2 * i)).toNat_lt
  have h1 := (data (l4 + 2 * i + 1)).toNat_lt
  rw [l4Word]; split_ifs <;> omega

theorem l4Word_eq_netWord {data : ℕ → UInt8} {l4 n i : ℕ} (h : 2 * i + 1 < n) :
    l4Word data l4 n i = netWord data (l4 + 2 * i) := by
  rw [l4Word, if_pos h, netWord]

theorem ipv4Words_le {data : ℕ → UInt8} {ipv4 w : ℕ} (h : w ∈ ipv4Words data ipv4) : w ≤ 65535 := by
  obtain ⟨i, -, rfl⟩ := List.mem_map.mp h
  exact netWord_le _ _

theorem l4Words_le {data : ℕ → UInt8} {ipv4 w : ℕ} (h : w ∈ l4Words data ipv4) : w ≤ 65535 := by
  rcases List.mem_append.mp h with h | h
  · have hp := (nextProtoId data ipv4).toNat_lt
    have hl := netWord_le data (ipv4 + 2)
    simp only [pseudoHeader, List.mem_cons, List.not_mem_nil, or_false] at h
    rcases h with rfl | rfl | rfl | rfl | rfl | rfl
    iterate 4 exact netWord_le _ _
    · omega
    · rw [l4Length]; omega
  · obtain ⟨i, -, rfl⟩ := List.mem_map.mp h
    exact l4Word_le _ _ _ _

/-! ### Updates of summed words -/

/-- The words and their checksum sum to all ones. -/
def ChecksumValid (words : List UInt16) (checksum : UInt16) : Prop :=
  OnesComplement.onesSum 65535 (checksum.toNat :: words.map UInt16.toNat) = 65535

instance (words : List UInt16) (checksum : UInt16) : Decidable (ChecksumValid words checksum) := by
  unfold ChecksumValid; infer_instance

/-- The natural sum of the words and their checksum. -/
def summed (words : List UInt16) (checksum : UInt16) : ℕ := checksum.toNat + (words.map UInt16.toNat).sum

/-- The update of a word carries, so that the missing end-around carry does not show, and leaves a word that is
not zero. -/
def CarryOk (words : List UInt16) (checksum oldWord newWord : UInt16) : Prop :=
  newWord.toNat + 65535 ≤ checksum.toNat + oldWord.toNat ∧ 65535 < summed words checksum

instance (words : List UInt16) (checksum oldWord newWord : UInt16) :
    Decidable (CarryOk words checksum oldWord newWord) :=
  inferInstanceAs (Decidable (_ ∧ _))

/-- The word at a position is replaced and the checksum at `checksumPtr` updated. -/
def replaceWord (checksumPtr : ℕ) (words : List UInt16) (data : ℕ → UInt8) (i : ℕ) (newWord : UInt16) :
    List UInt16 × (ℕ → UInt8) :=
  (words.set i newWord, netChecksumUpdate data checksumPtr (words.getD i 0) newWord)

/-- The checksum is valid after each of the updates. -/
def AllValid (checksumPtr : ℕ) (words : List UInt16) (data : ℕ → UInt8) : List (ℕ × UInt16) → Prop
  | [] => True
  | (i, newWord) :: us =>
    let (words', data') := replaceWord checksumPtr words data i newWord
    ChecksumValid words' (load16 data' checksumPtr) ∧ AllValid checksumPtr words' data' us

/-- Each of the updates carries. -/
def AllCarryOk (checksumPtr : ℕ) (words : List UInt16) (data : ℕ → UInt8) : List (ℕ × UInt16) → Prop
  | [] => True
  | (i, newWord) :: us =>
    let (words', data') := replaceWord checksumPtr words data i newWord
    CarryOk words (load16 data checksumPtr) (words.getD i 0) newWord ∧ AllCarryOk checksumPtr words' data' us

theorem checksumValid_iff (words : List UInt16) (checksum : UInt16) :
    ChecksumValid words checksum ↔ summed words checksum ≠ 0 ∧ summed words checksum % 65535 = 0 := by
  refine OnesComplement.onesSum_full_iff (by decide) fun w hw => ?_
  rcases List.mem_cons.mp hw with rfl | hw
  · exact Nat.le_of_lt_succ checksum.toNat_lt
  · obtain ⟨v, -, rfl⟩ := List.mem_map.mp hw
    exact Nat.le_of_lt_succ v.toNat_lt

theorem sum_set : ∀ (words : List UInt16) {i : ℕ} (newWord : UInt16), i < words.length →
    ((words.set i newWord).map UInt16.toNat).sum + (words.getD i 0).toNat =
      (words.map UInt16.toNat).sum + newWord.toNat
  | w :: ws, 0, newWord, _ => by
    simp only [List.set_cons_zero, List.map_cons, List.sum_cons, List.getD_cons_zero]
    omega
  | w :: ws, i + 1, newWord, h => by
    have ih := sum_set ws newWord (Nat.lt_of_succ_lt_succ h)
    simp only [List.set_cons_succ, List.map_cons, List.sum_cons, List.getD_cons_succ]
    omega

/-- An update is off by at most two. -/
theorem checksumAfter_cases {c o n : ℕ} (hc : c < 65536) (ho : o < 65536) (hn : n < 65536) :
    n + 65535 ≤ c + o ∧ checksumAfter c o n + n + 65535 = c + o ∨
      c + o < n + 65535 ∧ n ≤ c + o + 1 ∧ checksumAfter c o n + n = c + o + 1 ∨
      c + o + 1 < n ∧ checksumAfter c o n + n = c + o + 65537 := by
  unfold checksumAfter
  omega

/-- One update: the natural sum falls by 65535, or is off by one or two. -/
theorem replaceWord_valid_iff {p i : ℕ} {words : List UInt16} {data : ℕ → UInt8} (newWord : UInt16)
    (hi : i < words.length)
    (h : ChecksumValid words (load16 data p)) :
    ChecksumValid (words.set i newWord) (load16 (netChecksumUpdate data p (words.getD i 0) newWord) p) ↔
      CarryOk words (load16 data p) (words.getD i 0) newWord := by
  have hsum := sum_set _ newWord hi
  have hafter := load16_netChecksumUpdate data p (words.getD i 0) newWord
  have hcases := checksumAfter_cases (load16 data p).toNat_lt (words.getD i 0).toNat_lt newWord.toNat_lt
  rw [checksumValid_iff] at h ⊢
  unfold CarryOk
  unfold summed at h ⊢
  rw [hafter]
  omega

theorem allValid_iff (p : ℕ) : ∀ {us : List (ℕ × UInt16)} {words : List UInt16} {data : ℕ → UInt8},
    (∀ u ∈ us, u.1 < words.length) → ChecksumValid words (load16 data p) →
    (AllValid p words data us ↔ AllCarryOk p words data us)
  | [], _, _, _, _ => Iff.rfl
  | (i, newWord) :: us, words, data, hus, h => by
    have hone := replaceWord_valid_iff newWord (hus _ List.mem_cons_self) h
    have hrest : ∀ u ∈ us, u.1 < (words.set i newWord).length := fun u hu => by
      rw [List.length_set]
      exact hus u (List.mem_cons_of_mem _ hu)
    simp only [AllValid, AllCarryOk, replaceWord, hone]
    exact and_congr_right fun hc => allValid_iff p hrest (hone.mpr hc)

theorem set_getD {words : List UInt16} {i : ℕ} (hi : i < words.length) : words.set i (words.getD i 0) = words := by
  rw [List.getD_eq_getElem?_getD, List.getElem?_eq_getElem hi]
  exact List.set_getElem_self hi

/-- The word stays as it is. -/
theorem same_valid_iff {p i : ℕ} {words : List UInt16} {data : ℕ → UInt8} (hi : i < words.length)
    (h : ChecksumValid words (load16 data p)) :
    ChecksumValid words (load16 (netChecksumUpdate data p (words.getD i 0) (words.getD i 0)) p) ↔
      load16 data p = 0xFFFF ∧ 65535 < summed words (load16 data p) := by
  have hone := replaceWord_valid_iff (words.getD i 0) hi h
  rw [set_getD hi] at hone
  rw [hone, CarryOk, ← UInt16.toNat_inj]
  have hc := (load16 data p).toNat_lt
  refine and_congr_left fun _ => ?_
  show _ ↔ (load16 data p).toNat = 65535
  omega

/-- What the two updates of a 32-bit word leave. -/
theorem load16_netPacketChecksumUpdate32 {data : ℕ → UInt8} {ipv4 : ℕ}
    (hp : nextProtoId data ipv4 = ipProtocolTcp ∨ nextProtoId data ipv4 = ipProtocolUdp) (o n : UInt32) (inIp : Bool) :
    (load16 (netPacketChecksumUpdate32 data ipv4 o n inIp) (l4ChecksumPtr data ipv4)).toNat =
      checksumAfter (checksumAfter (load16 data (l4ChecksumPtr data ipv4)).toNat o.toUInt16.toNat n.toUInt16.toNat)
        (o >>> 16).toUInt16.toNat (n >>> 16).toUInt16.toNat := by
  have hptr := l4ChecksumPtr_cases data ipv4
  obtain ⟨f1, c1, -⟩ := netPacketChecksumUpdate_spec hp o.toUInt16 n.toUInt16 inIp
  set d1 := netPacketChecksumUpdate data ipv4 o.toUInt16 n.toUInt16 inIp
  have hproto : d1 (ipv4 + 9) = data (ipv4 + 9) := f1 _ (fun _ => by omega) (by omega) (by omega)
  have hp1 : nextProtoId d1 ipv4 = ipProtocolTcp ∨ nextProtoId d1 ipv4 = ipProtocolUdp := by
    rw [nextProtoId, hproto]; exact hp
  obtain ⟨-, c2, -⟩ := netPacketChecksumUpdate_spec hp1 (o >>> 16).toUInt16 (n >>> 16).toUInt16 inIp
  rw [l4ChecksumPtr_congr hproto, c1] at c2
  exact c2

/-- The halves of a 32-bit word at two positions. Both updates must carry: two errors do not cancel. -/
theorem update32_valid_iff {data : ℕ → UInt8} {ipv4 i j : ℕ} {words : List UInt16} {o : UInt32} (n : UInt32)
    (inIp : Bool)
    (hp : nextProtoId data ipv4 = ipProtocolTcp ∨ nextProtoId data ipv4 = ipProtocolUdp) (hij : i ≠ j)
    (hi : i < words.length) (hj : j < words.length) (hlow : words.getD i 0 = o.toUInt16)
    (hhigh : words.getD j 0 = (o >>> 16).toUInt16)
    (h : ChecksumValid words (load16 data (l4ChecksumPtr data ipv4))) :
    ChecksumValid ((words.set i n.toUInt16).set j (n >>> 16).toUInt16)
        (load16 (netPacketChecksumUpdate32 data ipv4 o n inIp) (l4ChecksumPtr data ipv4)) ↔
      AllCarryOk (l4ChecksumPtr data ipv4) words data [(i, n.toUInt16), (j, (n >>> 16).toUInt16)] := by
  have hj' : j < (words.set i n.toUInt16).length := by rwa [List.length_set]
  have hget : (words.set i n.toUInt16).getD j 0 = (o >>> 16).toUInt16 := by
    rw [List.getD_eq_getElem?_getD, List.getElem?_set_ne hij, ← List.getD_eq_getElem?_getD, hhigh]
  have hsum := sum_set _ n.toUInt16 hi
  have hsum' := sum_set _ (n >>> 16).toUInt16 hj'
  have hfirst := load16_netChecksumUpdate data (l4ChecksumPtr data ipv4) o.toUInt16 n.toUInt16
  have hboth := load16_netPacketChecksumUpdate32 hp o n inIp
  have hcases := checksumAfter_cases (load16 data (l4ChecksumPtr data ipv4)).toNat_lt o.toUInt16.toNat_lt
    n.toUInt16.toNat_lt
  have hcases' := checksumAfter_cases
    (load16 (netChecksumUpdate data (l4ChecksumPtr data ipv4) o.toUInt16 n.toUInt16) (l4ChecksumPtr data ipv4)).toNat_lt
    (o >>> 16).toUInt16.toNat_lt (n >>> 16).toUInt16.toNat_lt
  rw [checksumValid_iff] at h ⊢
  simp only [AllCarryOk, replaceWord, CarryOk, and_true]
  unfold summed at h ⊢
  rw [hlow] at hsum ⊢
  rw [hget] at hsum' ⊢
  rw [hfirst] at hcases' ⊢
  rw [hboth]
  omega

/-- **Incremental checksum updates.** Replacing a word of a valid sum and updating the checksum leaves it valid
exactly when the update carries; so does any sequence of updates, a 32-bit one and one that changes nothing. -/
theorem checksum_updates (p : ℕ) (words : List UInt16) (data : ℕ → UInt8) (h : ChecksumValid words (load16 data p)) :
    (∀ i < words.length, ∀ newWord,
      ChecksumValid (words.set i newWord) (load16 (netChecksumUpdate data p (words.getD i 0) newWord) p) ↔
        CarryOk words (load16 data p) (words.getD i 0) newWord) ∧
    (∀ us : List (ℕ × UInt16), (∀ u ∈ us, u.1 < words.length) →
      (AllValid p words data us ↔ AllCarryOk p words data us)) ∧
    (∀ i < words.length,
      ChecksumValid words (load16 (netChecksumUpdate data p (words.getD i 0) (words.getD i 0)) p) ↔
        load16 data p = 0xFFFF ∧ 65535 < summed words (load16 data p)) ∧
    ∀ ipv4, p = l4ChecksumPtr data ipv4 →
      nextProtoId data ipv4 = ipProtocolTcp ∨ nextProtoId data ipv4 = ipProtocolUdp →
      ∀ i < words.length, ∀ j < words.length, i ≠ j → ∀ o n : UInt32, words.getD i 0 = o.toUInt16 →
        words.getD j 0 = (o >>> 16).toUInt16 → ∀ inIp,
        (ChecksumValid ((words.set i n.toUInt16).set j (n >>> 16).toUInt16)
            (load16 (netPacketChecksumUpdate32 data ipv4 o n inIp) p) ↔
          AllCarryOk p words data [(i, n.toUInt16), (j, (n >>> 16).toUInt16)]) := by
  refine ⟨fun i hi newWord => replaceWord_valid_iff newWord hi h, fun us hus => allValid_iff p hus h,
    fun i hi => same_valid_iff hi h, ?_⟩
  rintro ipv4 rfl hp i hi j hj hij o n hlow hhigh inIp
  exact update32_valid_iff n inIp hp hij hi hj hlow hhigh h

/-- The word 0xFFFF with the checksum 0xFFFF: the word 0x1234 is put in its place. -/
theorem checksum_updates_ones : ChecksumValid [0x1234] (load16 (netChecksumUpdate (fun _ => 0xFF) 0 0xFFFF 0x1234) 0) :=
  ((checksum_updates 0 [0xFFFF] (fun _ => 0xFF) (by decide)).1 0 (by decide) 0x1234).mpr (by decide)

/-- The word 1 with the checksum 0xFFFE: replaced by itself it leaves the checksum 0xFFFF. -/
theorem checksum_updates_not : ¬ ∀ (p : ℕ) (words : List UInt16) (data : ℕ → UInt8),
    ChecksumValid words (load16 data p) →
    ∀ i < words.length, ∀ newWord,
      ChecksumValid (words.set i newWord) (load16 (netChecksumUpdate data p (words.getD i 0) newWord) p) := by
  intro hclaim
  have h := hclaim 0 [1] (store16 (fun _ => 0) 0 0xFFFE) (by decide) 0 (by decide) 1
  exact absurd h (by decide)

end Klint
