/-
# The packets of specifications

`_SpecPacketHeader` and `_SpecPacket` of `tool/klint/verif/spec_prefix.py`. A header is a
list of attributes with their sizes in bits. An attribute is read in chunks of a byte from
the map of the packet's data, as many as it takes, and then cut to its bits.

`getAttr_iff`: an attribute can be read exactly when the packet has all its bytes, and is
then its bits of the packet, the first bit of each byte being the lowest.
`asValue_bits`: the attributes of a header are the bits of the header, each once and in order.
In the namespace `SpecPacket`: the headers of a specification are those of `net/packet.h`.
-/
import Klint.Net.Tinynf
import Klint.Tool.SpecValues

namespace Klint
namespace Tool

/-! ### Headers -/

/-- The map of a packet's data. -/
structure PacketMap where
  length : ℕ
  byte : ℕ → UInt8

/-- The chunk at an index, if it is present. -/
def PacketMap.get (map : PacketMap) (index : ℕ) : Option SpecNum :=
  if index < map.length then some (SpecNum.u8 (map.byte index)) else none

/-- The names that Python finds on a header itself, so that `__getattr__` is not called for them: the fields, the
method and what every object has. -/
def ownAttr (name : String) : Bool :=
  name ∈ ["state", "map", "offset", "attrs", "as_value"] || name.toList.take 2 = ['_', '_']

/-- `_SpecPacketHeader`; no attribute is hidden by one that the header has itself. -/
structure SpecPacketHeader where
  map : PacketMap
  offset : ℕ
  attrs : List (String × ℕ)
  notOwn : ∀ a ∈ attrs, ownAttr a.1 = false := by decide

/-- The attribute's offset and size. -/
def findAttr (attr : String) : List (String × ℕ) → ℕ → Option (ℕ × ℕ)
  | [], _ => none
  | (name, size) :: attrs, offset => if name = attr then some (offset, size) else findAttr attr attrs (offset + size)

/-- "Then read, in chunks if needed". The fuel is the number of bits, more than there are chunks. -/
def readChunks (map : PacketMap) (bits : ℕ) : ℕ → ℕ → SpecNum → Except String SpecNum
  | 0, _, result => .ok result
  | fuel + 1, index, result =>
    if result.size < bits then
      match map.get index with
      | none => .error "AssertionError"  -- "Ensure we can read"
      | some chunk => readChunks map bits fuel (index + 1) (chunk.concat result)
    else .ok result

/-- `result[:offset]`. -/
def SpecNum.from (a : SpecNum) (offset : ℕ) : SpecNum := ⟨a.size - offset, (a.bits >>> offset).setWidth _⟩

/-- `result[size-1:0]`; from `-1` on it is the whole value. -/
def SpecNum.upTo (a : SpecNum) (size : ℕ) : SpecNum := if size = 0 then a else ⟨size, a.bits.setWidth _⟩

/-- `__getattr__` -/
def SpecPacketHeader.getAttr (header : SpecPacketHeader) (attr : String) : Except String SpecNum :=
  match findAttr attr header.attrs header.offset with
  | none => .error ("Unknown attribute: " ++ attr)
  | some (offset, size) =>
    let index := offset / 8
    let offset := offset % 8
    (readChunks header.map (size + offset) (size + offset) index ⟨0, 0⟩).map fun result =>
      let result := if offset ≠ 0 then result.from offset else result
      if size < result.size then result.upTo size else result

/-- The loop of `as_value`, with the value so far. -/
def SpecPacketHeader.asValueFrom (header : SpecPacketHeader) :
    List String → Option SpecNum → Except String (Option SpecNum)
  | [], result => .ok result
  | a :: attrs, result => do
    let val ← header.getAttr a
    header.asValueFrom attrs (some (match result with
      | none => val
      | some result => val.concat result))

/-- `as_value` -/
def SpecPacketHeader.asValue (header : SpecPacketHeader) : Except String (Option SpecNum) :=
  header.asValueFrom (header.attrs.map Prod.fst) none

/-! ### Packets -/

/-- `_SpecFloodedDevice` or `_SpecSingleDevice` -/
inductive SpecDevices
  | flooded (origDevice devicesCount : SpecNum)
  | single (device : SpecNum)

namespace SpecDevices

/-- `__contains__` -/
def contains : SpecDevices → SpecNum → Bool
  | flooded origDevice _, item => item.ne origDevice
  | single device, item => item.eq device

def length : SpecDevices → SpecNum
  | flooded _ devicesCount => devicesCount.sub (devicesCount.int 1)
  | single device => device.int 1

end SpecDevices

/-- `_SpecPacket`; a transmitted packet has no time. -/
structure SpecPacket where
  map : PacketMap
  length : SpecNum
  time : Option SpecNum
  devices : SpecDevices

namespace SpecPacket

def device (packet : SpecPacket) : Except String SpecNum :=
  match packet.devices with
  | .single device => .ok device
  | .flooded _ _ => .error "The packet was sent on multiple devices"

def etherAttrs : List (String × ℕ) := [("dst", 48), ("src", 48), ("type", 16)]

def ipv4Attrs : List (String × ℕ) :=
  [("ihl", 4), ("version", 4), ("dscp", 6), ("ecn", 2), ("total_length", 16), ("identification", 16), ("flags", 3),
    ("fragment_offset", 13), ("time_to_live", 8), ("protocol", 8), ("checksum", 16), ("src", 32), ("dst", 32)]

def tcpudpAttrs : List (String × ℕ) := [("src", 16), ("dst", 16)]

/-- "always set for now, we only support Ethernet packets" -/
def ether (packet : SpecPacket) : SpecPacketHeader := { map := packet.map, offset := 0, attrs := etherAttrs }

def ipv4 (packet : SpecPacket) : Except String (Option SpecPacketHeader) := do
  let type ← packet.ether.getAttr "type"
  if type.eq (type.int 0x0008) then return some { map := packet.map, offset := 48 + 48 + 16, attrs := ipv4Attrs }
  else return none

def tcpudp (packet : SpecPacket) : Except String (Option SpecPacketHeader) := do
  match ← packet.ipv4 with
  | none => return none
  | some ipv4 =>
    let protocol ← ipv4.getAttr "protocol"
    if protocol.eq (protocol.int 6) || protocol.eq (protocol.int 17) then
      return some
        { map := packet.map
          offset := (48 + 48 + 16) + (8 + 8 + 16 + 16 + 16 + 8 + 8 + 16 + 32 + 32)
          attrs := tcpudpAttrs }
    else return none

end SpecPacket

/-- `_SpecPacketData.__eq__` -/
def PacketMap.eq (a b : PacketMap) : Bool :=
  a.length == b.length && (List.range a.length).all fun k => k < b.length && a.byte k == b.byte k

/-! ### The bits of a packet -/

/-- Bit `k` of the packet, the first bit of each byte being the lowest. -/
def bitAt (data : ℕ → UInt8) (k : ℕ) : Bool := (data (k / 8)).toBitVec.getLsbD (k % 8)

/-- The number is the bits of the packet from `start` on. -/
def SpecNum.IsBits (data : ℕ → UInt8) (start : ℕ) (a : SpecNum) : Prop :=
  ∀ i, i < a.size → a.bits.getLsbD i = bitAt data (start + i)

variable {data : ℕ → UInt8} {start : ℕ}

theorem SpecNum.ext_bits {a b : SpecNum} (hs : a.size = b.size)
    (h : ∀ i, i < a.size → a.bits.getLsbD i = b.bits.getLsbD i) : a = b := by
  obtain ⟨n, x⟩ := a
  obtain ⟨m, y⟩ := b
  obtain rfl : n = m := hs
  rw [SpecNum.mk.injEq]
  exact ⟨rfl, heq_of_eq (BitVec.eq_of_getLsbD_eq h)⟩

theorem SpecNum.IsBits.unique {a b : SpecNum} (ha : a.IsBits data start) (hb : b.IsBits data start)
    (h : a.size = b.size) : a = b := SpecNum.ext_bits h fun i hi => (ha i hi).trans (hb i (h ▸ hi)).symm

/-- Two parts are known from the number. -/
theorem SpecNum.concat_inj {a b c d : SpecNum} (h : a.concat b = c.concat d) (hac : a.size = c.size)
    (hbd : b.size = d.size) : a = c ∧ b = d := by
  have hbits : ∀ i, (a.concat b).bits.getLsbD i = (c.concat d).bits.getLsbD i := fun i => by rw [h]
  simp only [SpecNum.concat, BitVec.getLsbD_append] at hbits
  refine ⟨SpecNum.ext_bits hac fun i _ => ?_, SpecNum.ext_bits hbd fun i hi => ?_⟩
  · have hi := hbits (b.size + i)
    rwa [if_neg (by omega), if_neg (by omega), ← hbd, Nat.add_sub_cancel_left] at hi
  · have hi' := hbits i
    rwa [if_pos hi, if_pos (hbd ▸ hi)] at hi'

/-- No bits. -/
theorem isBits_empty : SpecNum.IsBits data start ⟨0, 0⟩ := fun i hi => absurd hi (Nat.not_lt_zero i)

theorem isBits_chunk (k : ℕ) : (SpecNum.u8 (data k)).IsBits data (8 * k) := fun i hi => by
  have hi8 : i < 8 := hi
  have hdiv : (8 * k + i) / 8 = k := by omega
  have hmod : (8 * k + i) % 8 = i := by omega
  rw [bitAt, hdiv, hmod]
  rfl

theorem SpecNum.IsBits.concat {a b : SpecNum} (ha : a.IsBits data (start + b.size)) (hb : b.IsBits data start) :
    (a.concat b).IsBits data start := fun i hi => by
  have hlt : i < a.size + b.size := hi
  rw [SpecNum.concat, BitVec.getLsbD_append]
  by_cases hib : i < b.size
  · rw [if_pos hib]
    exact hb i hib
  · rw [if_neg hib, ha (i - b.size) (by omega)]
    congr 1
    omega

theorem SpecNum.IsBits.from {a : SpecNum} (h : a.IsBits data start) {offset : ℕ} (ho : offset ≤ a.size) :
    (a.from offset).IsBits data (start + offset) := fun i hi => by
  have hlt : i < a.size - offset := hi
  rw [SpecNum.from, BitVec.getLsbD_setWidth, BitVec.getLsbD_ushiftRight, h (offset + i) (by omega),
    decide_eq_true hlt, Bool.true_and, Nat.add_assoc]

theorem SpecNum.IsBits.upTo {a : SpecNum} (h : a.IsBits data start) {size : ℕ} (hs : size ≤ a.size) :
    (a.upTo size).IsBits data start := by
  unfold SpecNum.upTo
  split_ifs with h0
  · exact h
  · intro i hi
    have hlt : i < size := hi
    rw [BitVec.getLsbD_setWidth, decide_eq_true hlt, Bool.true_and]
    exact h i (by omega)

/-! ### Reading an attribute -/

variable {map : PacketMap} {bits : ℕ}

/-- With all bytes present, the chunks are the bits from the first one on. -/
theorem readChunks_ok (hall : start + bits ≤ 8 * map.length) : ∀ (fuel index : ℕ) (result : SpecNum),
    bits ≤ result.size + fuel → start + result.size = 8 * index → result.IsBits map.byte start →
    ∃ r, readChunks map bits fuel index result = .ok r ∧ r.IsBits map.byte start ∧ bits ≤ r.size
  | 0, index, result, hfuel, _, hbits => ⟨result, rfl, hbits, hfuel⟩
  | fuel + 1, index, result, hfuel, hindex, hbits => by
    unfold readChunks
    by_cases hlt : result.size < bits
    · have hget : map.get index = some (SpecNum.u8 (map.byte index)) := if_pos (by omega)
      rw [if_pos hlt, hget]
      have hsize : ((SpecNum.u8 (map.byte index)).concat result).size = 8 + result.size := rfl
      refine readChunks_ok hall fuel (index + 1) _ (by omega) (by omega) ?_
      exact SpecNum.IsBits.concat (hindex ▸ isBits_chunk index) hbits
    · rw [if_neg hlt]
      exact ⟨result, rfl, hbits, by omega⟩

/-- If a byte is missing, it is an error. -/
theorem readChunks_error (hmissing : 8 * map.length < start + bits) : ∀ (fuel index : ℕ) (result : SpecNum),
    bits ≤ result.size + fuel → start + result.size = 8 * index → result.size < bits →
    readChunks map bits fuel index result = .error "AssertionError"
  | 0, _, _, hfuel, _, hlt => by omega
  | fuel + 1, index, result, hfuel, hindex, hlt => by
    unfold readChunks
    rw [if_pos hlt]
    by_cases hi : index < map.length
    · rw [show map.get index = some (SpecNum.u8 (map.byte index)) from if_pos hi]
      have hsize : ((SpecNum.u8 (map.byte index)).concat result).size = 8 + result.size := rfl
      exact readChunks_error hmissing fuel (index + 1) _ (by omega) (by omega) (by omega)
    · rw [show map.get index = none from if_neg hi]

variable {header : SpecPacketHeader} {attr : String} {offset size : ℕ}

/-- An attribute whose bytes are present is its bits. -/
theorem getAttr_ok (hfind : findAttr attr header.attrs header.offset = some (offset, size)) (hpos : 0 < size)
    (hall : offset + size ≤ 8 * header.map.length) :
    ∃ v, header.getAttr attr = .ok v ∧ v.size = size ∧ v.IsBits header.map.byte offset := by
  obtain ⟨r, hr, hbits, hsize⟩ := @readChunks_ok (8 * (offset / 8)) header.map (size + offset % 8) (by omega)
    (size + offset % 8) (offset / 8) ⟨0, 0⟩ (by omega) rfl isBits_empty
  -- the bits of the first chunk that are before the attribute
  have hfrom : ∃ r', (if offset % 8 ≠ 0 then r.from (offset % 8) else r) = r' ∧ r'.IsBits header.map.byte offset ∧
      size ≤ r'.size := by
    split_ifs with h0
    · have hb := hbits.from (show offset % 8 ≤ r.size by omega)
      rw [Nat.div_add_mod] at hb
      exact ⟨_, rfl, hb, show size ≤ r.size - offset % 8 by omega⟩
    · rw [show 8 * (offset / 8) = offset by omega] at hbits
      exact ⟨r, rfl, hbits, by omega⟩
  obtain ⟨r', hr', hbits', hsize'⟩ := hfrom
  refine ⟨if size < r'.size then r'.upTo size else r', ?_, ?_, ?_⟩
  · simp only [SpecPacketHeader.getAttr, hfind, hr, Except.map, hr']
  · split_ifs with hlt
    · rw [SpecNum.upTo, if_neg hpos.ne']
    · omega
  · split_ifs with hlt
    · exact hbits'.upTo hlt.le
    · exact hbits'

/-- **Reading an attribute.** It succeeds exactly when the packet has all its bytes, and is its bits then. -/
theorem getAttr_iff (header : SpecPacketHeader) (attr : String) {offset size : ℕ}
    (hfind : findAttr attr header.attrs header.offset = some (offset, size)) (hpos : 0 < size) :
    ((∃ v, header.getAttr attr = .ok v) ↔ offset + size ≤ 8 * header.map.length) ∧
      ∀ v, header.getAttr attr = .ok v → v.size = size ∧ v.IsBits header.map.byte offset := by
  by_cases hall : offset + size ≤ 8 * header.map.length
  · obtain ⟨v, hv, hsize, hbits⟩ := getAttr_ok hfind hpos hall
    refine ⟨iff_of_true ⟨v, hv⟩ hall, fun v' hv' => ?_⟩
    obtain rfl : v = v' := by simpa [hv] using hv'
    exact ⟨hsize, hbits⟩
  · have herr : header.getAttr attr = .error "AssertionError" := by
      have hread := @readChunks_error (8 * (offset / 8)) header.map (size + offset % 8) (by omega)
        (size + offset % 8) (offset / 8) ⟨0, 0⟩ (by omega) rfl (show 0 < size + offset % 8 by omega)
      simp only [SpecPacketHeader.getAttr, hfind, hread, Except.map]
    refine ⟨iff_of_false ?_ hall, fun v hv => ?_⟩
    · rintro ⟨v, hv⟩
      rw [herr] at hv
      cases hv
    · rw [herr] at hv
      cases hv

/-! ### The value of a header -/

/-- The sizes of the attributes, added. -/
def totalSize (attrs : List (String × ℕ)) : ℕ := (attrs.map Prod.snd).sum

/-- The attributes have different names, and none is without bits. -/
structure HeaderAttrs (attrs : List (String × ℕ)) : Prop where
  names : (attrs.map Prod.fst).Nodup
  positive : ∀ a ∈ attrs, 0 < a.2

/-- An attribute comes after those before it in the list. -/
theorem findAttr_append {name : String} {size : ℕ} {suf : List (String × ℕ)} : ∀ {pre : List (String × ℕ)} (offset : ℕ),
    name ∉ pre.map Prod.fst → findAttr name (pre ++ (name, size) :: suf) offset = some (offset + totalSize pre, size)
  | [], _, _ => if_pos rfl
  | p :: pre, offset, hn => by
    rw [List.map_cons, List.mem_cons, not_or] at hn
    rw [List.cons_append, findAttr, if_neg (Ne.symm hn.1), findAttr_append _ hn.2, totalSize, totalSize, List.map_cons,
      List.sum_cons, Nat.add_assoc]

theorem HeaderAttrs.findAttr {attrs pre suf : List (String × ℕ)} {name : String} {size : ℕ} (h : HeaderAttrs attrs)
    (he : attrs = pre ++ (name, size) :: suf) (offset : ℕ) :
    Tool.findAttr name attrs offset = some (offset + totalSize pre, size) ∧ 0 < size := by
  have hn := h.names
  rw [he, List.map_append, List.map_cons, List.nodup_append] at hn
  refine ⟨?_, h.positive (name, size) (by rw [he]; simp)⟩
  rw [he]
  exact findAttr_append offset fun hmem => hn.2.2 name hmem name List.mem_cons_self rfl

/-- The loop goes on from the bits of the attributes so far. -/
theorem asValueFrom_ok (h : HeaderAttrs header.attrs)
    (hall : header.offset + totalSize header.attrs ≤ 8 * header.map.length) :
    ∀ (suf pre : List (String × ℕ)) (result : Option SpecNum), header.attrs = pre ++ suf →
      (∀ r, result = some r → r.size = totalSize pre ∧ r.IsBits header.map.byte header.offset) →
      (result = none → pre = []) → header.attrs ≠ [] →
      ∃ v, header.asValueFrom (suf.map Prod.fst) result = .ok (some v) ∧ v.size = totalSize header.attrs ∧
        v.IsBits header.map.byte header.offset
  | [], pre, result, he, hr, hnone, hne => by
    rw [List.append_nil] at he
    cases result with
    | none => exact absurd (he.trans (hnone rfl)) hne
    | some r =>
      obtain ⟨hs, hb⟩ := hr r rfl
      exact ⟨r, rfl, he ▸ hs, hb⟩
  | (name, size) :: suf, pre, result, he, hr, hnone, hne => by
    obtain ⟨hfind, hpos⟩ := h.findAttr he header.offset
    have htotal : totalSize header.attrs = totalSize pre + (size + totalSize suf) := by
      simp [he, totalSize]
    obtain ⟨v, hv, hsize, hbits⟩ := getAttr_ok hfind hpos (by omega)
    have hpre : totalSize (pre ++ [(name, size)]) = totalSize pre + size := by simp [totalSize]
    simp only [List.map_cons, SpecPacketHeader.asValueFrom, hv, bind, Except.bind]
    refine asValueFrom_ok h hall suf (pre ++ [(name, size)]) _ (by rw [he, List.append_assoc]; rfl) (fun r hres => ?_)
      (fun hc => by cases hc) hne
    rw [hpre]
    cases result with
    | none =>
      obtain rfl : v = r := by simpa using hres
      obtain rfl := hnone rfl
      exact ⟨hsize.trans (Nat.zero_add _).symm, hbits⟩
    | some r' =>
      obtain rfl : v.concat r' = r := by simpa using hres
      obtain ⟨hs', hb'⟩ := hr r' rfl
      rw [← hs'] at hbits ⊢
      exact ⟨(congrArg (· + r'.size) hsize).trans (Nat.add_comm _ _), hbits.concat hb'⟩

/-- Every attribute of a value was read. -/
theorem asValueFrom_reads : ∀ (names : List String) (result v : Option SpecNum),
    header.asValueFrom names result = .ok v → ∀ a ∈ names, ∃ w, header.getAttr a = .ok w
  | [], _, _, _, a, ha => absurd ha List.not_mem_nil
  | n :: names, result, v, hv, a, ha => by
    simp only [SpecPacketHeader.asValueFrom, bind, Except.bind] at hv
    cases hn : header.getAttr n with
    | error e =>
      rw [hn] at hv
      cases hv
    | ok w =>
      rw [hn] at hv
      rcases List.mem_cons.mp ha with rfl | ha
      · exact ⟨w, hn⟩
      · exact asValueFrom_reads names _ v hv a ha

/-- **The value of a header** whose attributes have different names that are not its own, and have bits. It exists
exactly when the packet has all bytes of the header, and is the header's bits then, those of each attribute once and
in the order of the attributes. -/
theorem asValue_bits (header : SpecPacketHeader) (h : HeaderAttrs header.attrs) (hne : header.attrs ≠ []) :
    ((∃ v, header.asValue = .ok v) ↔ header.offset + totalSize header.attrs ≤ 8 * header.map.length) ∧
      ∀ v, header.asValue = .ok v →
        ∃ r, v = some r ∧ r.size = totalSize header.attrs ∧ r.IsBits header.map.byte header.offset := by
  have hok : header.offset + totalSize header.attrs ≤ 8 * header.map.length → ∃ r, header.asValue = .ok (some r) ∧
      r.size = totalSize header.attrs ∧ r.IsBits header.map.byte header.offset := fun hall =>
    asValueFrom_ok h hall header.attrs [] none rfl (fun r hr => by cases hr) (fun _ => rfl) hne
  have hiff : (∃ v, header.asValue = .ok v) ↔ header.offset + totalSize header.attrs ≤ 8 * header.map.length := by
    refine ⟨fun ⟨v, hv⟩ => ?_, fun hall => ?_⟩
    · -- the last attribute ends where the header does
      obtain ⟨pre, ⟨name, size⟩, he⟩ := (List.eq_nil_or_concat header.attrs).resolve_left hne
      rw [List.concat_eq_append] at he
      obtain ⟨hfind, hpos⟩ := h.findAttr he header.offset
      have hread := asValueFrom_reads _ _ _ hv name (by rw [he]; simp)
      have hlast := (getAttr_iff header name hfind hpos).1.mp hread
      rw [he]
      simp only [totalSize, List.map_append, List.map_cons, List.map_nil, List.sum_append, List.sum_cons,
        List.sum_nil] at hlast ⊢
      omega
    · obtain ⟨r, hr, -⟩ := hok hall
      exact ⟨some r, hr⟩
  refine ⟨hiff, fun v hv => ?_⟩
  obtain ⟨r, hr, hs, hb⟩ := hok (hiff.mp ⟨v, hv⟩)
  rw [hr] at hv
  obtain rfl : some r = v := by simpa using hv
  exact ⟨r, rfl, hs, hb⟩

/-- Four bytes have the value of a header of two ports. -/
theorem asValue_bits_ports :
    ∃ v, (SpecPacketHeader.mk ⟨4, UInt8.ofNat⟩ 0 SpecPacket.tcpudpAttrs).asValue = .ok v :=
  (asValue_bits _ ⟨by decide, by decide⟩ (by decide)).1.mpr (by decide)

/-! ### The headers of `net/packet.h` -/

/-- An Ethernet address as a number, its first byte the lowest. -/
def SpecNum.etherAddr (a : EtherAddr) : SpecNum :=
  ((((SpecNum.u8 a.b5).concat (SpecNum.u8 a.b4)).concat (SpecNum.u8 a.b3)).concat (SpecNum.u8 a.b2)).concat
    (SpecNum.u8 a.b1) |>.concat (SpecNum.u8 a.b0)

theorem SpecNum.u16_load16 (data : ℕ → UInt8) (p : ℕ) :
    SpecNum.u16 (load16 data p) = (SpecNum.u8 (data (p + 1))).concat (SpecNum.u8 (data p)) := by
  refine SpecNum.ext_toNat rfl ?_
  have h := load16_toNat data p
  have h0 := (data p).toNat_lt
  rw [SpecNum.concat, BitVec.toNat_append]
  change (load16 data p).toNat = (data (p + 1)).toNat <<< 8 ||| (data p).toNat
  rw [Nat.shiftLeft_eq, ← Nat.mul_comm, ← Nat.two_pow_add_eq_or_of_lt h0, h]
  omega

theorem SpecNum.u32_load32 (data : ℕ → UInt8) (p : ℕ) :
    SpecNum.u32 (load32 data p) = (SpecNum.u16 (load16 data (p + 2))).concat (SpecNum.u16 (load16 data p)) := by
  refine SpecNum.ext_toNat rfl ?_
  have h := load32_toNat data p
  have h0 := (load16 data p).toNat_lt
  rw [SpecNum.concat, BitVec.toNat_append]
  change (load32 data p).toNat = (load16 data (p + 2)).toNat <<< 16 ||| (load16 data p).toNat
  rw [Nat.shiftLeft_eq, ← Nat.mul_comm, ← Nat.two_pow_add_eq_or_of_lt h0, h]
  omega

/-- A byte below the bits of the bytes after it. -/
theorem SpecNum.IsBits.concat_chunk {a : SpecNum} {p : ℕ} (h : a.IsBits data (8 * (p + 1))) :
    (a.concat (SpecNum.u8 (data p))).IsBits data (8 * p) := by
  have hsize : (SpecNum.u8 (data p)).size = 8 := rfl
  refine SpecNum.IsBits.concat ?_ (isBits_chunk p)
  rw [hsize, ← Nat.mul_succ]
  exact h

theorem isBits_load16 (data : ℕ → UInt8) (p : ℕ) : (SpecNum.u16 (load16 data p)).IsBits data (8 * p) := by
  rw [SpecNum.u16_load16]
  exact (isBits_chunk (p + 1)).concat_chunk

theorem isBits_load32 (data : ℕ → UInt8) (p : ℕ) : (SpecNum.u32 (load32 data p)).IsBits data (8 * p) := by
  have hsize : (SpecNum.u16 (load16 data p)).size = 16 := rfl
  rw [SpecNum.u32_load32]
  refine SpecNum.IsBits.concat ?_ (isBits_load16 data p)
  rw [hsize, show 8 * p + 16 = 8 * (p + 2) by omega]
  exact isBits_load16 data (p + 2)

theorem isBits_loadEtherAddr (data : ℕ → UInt8) (p : ℕ) :
    (SpecNum.etherAddr (loadEtherAddr data p)).IsBits data (8 * p) := by
  have h5 := @isBits_chunk data (p + 5)
  have h4 := SpecNum.IsBits.concat_chunk (p := p + 4) h5
  have h3 := SpecNum.IsBits.concat_chunk (p := p + 3) h4
  have h2 := SpecNum.IsBits.concat_chunk (p := p + 2) h3
  have h1 := SpecNum.IsBits.concat_chunk (p := p + 1) h2
  exact SpecNum.IsBits.concat_chunk h1

/-- An attribute is any number that is its bits. -/
theorem getAttr_eq (offset : ℕ) {v : SpecNum} (hfind : findAttr attr header.attrs header.offset = some (offset, v.size))
    (hpos : 0 < v.size) (hall : offset + v.size ≤ 8 * header.map.length) (hbits : v.IsBits header.map.byte offset) :
    header.getAttr attr = .ok v := by
  obtain ⟨w, hw, hs, hb⟩ := getAttr_ok hfind hpos hall
  rw [hw, hb.unique hbits hs]

namespace SpecPacket

/-- The headers that a packet may have. -/
def ipv4Header (packet : SpecPacket) : SpecPacketHeader where
  map := packet.map
  offset := 48 + 48 + 16
  attrs := ipv4Attrs

def tcpudpHeader (packet : SpecPacket) : SpecPacketHeader where
  map := packet.map
  offset := (48 + 48 + 16) + (8 + 8 + 16 + 16 + 16 + 8 + 8 + 16 + 32 + 32)
  attrs := tcpudpAttrs

variable {packet : SpecPacket}

section

variable (h : 38 ≤ packet.map.length)

include h

theorem ether_dst : packet.ether.getAttr "dst" = .ok (.etherAddr (etherDstAddr packet.map.byte 0)) :=
  getAttr_eq 0 rfl (Nat.zero_lt_succ _) (show 0 + 48 ≤ 8 * packet.map.length by omega)
    (isBits_loadEtherAddr packet.map.byte 0)

theorem ether_type : packet.ether.getAttr "type" = .ok (.u16 (etherType packet.map.byte 0)) :=
  getAttr_eq 96 rfl (Nat.zero_lt_succ _) (show 96 + 16 ≤ 8 * packet.map.length by omega)
    (isBits_load16 packet.map.byte 12)

theorem ipv4_protocol : packet.ipv4Header.getAttr "protocol" = .ok (.u8 (nextProtoId packet.map.byte 14)) :=
  getAttr_eq 184 rfl (Nat.zero_lt_succ _) (show 184 + 8 ≤ 8 * packet.map.length by omega) (isBits_chunk 23)

theorem ipv4_src : packet.ipv4Header.getAttr "src" = .ok (.u32 (srcAddr packet.map.byte 14)) :=
  getAttr_eq 208 rfl (Nat.zero_lt_succ _) (show 208 + 32 ≤ 8 * packet.map.length by omega)
    (isBits_load32 packet.map.byte 26)

theorem ipv4_dst : packet.ipv4Header.getAttr "dst" = .ok (.u32 (dstAddr packet.map.byte 14)) :=
  getAttr_eq 240 rfl (Nat.zero_lt_succ _) (show 240 + 32 ≤ 8 * packet.map.length by omega)
    (isBits_load32 packet.map.byte 30)

theorem tcpudp_src : packet.tcpudpHeader.getAttr "src" = .ok (.u16 (srcPort packet.map.byte 34)) :=
  getAttr_eq 272 rfl (Nat.zero_lt_succ _) (show 272 + 16 ≤ 8 * packet.map.length by omega)
    (isBits_load16 packet.map.byte 34)

theorem tcpudp_dst : packet.tcpudpHeader.getAttr "dst" = .ok (.u16 (dstPort packet.map.byte 34)) :=
  getAttr_eq 288 rfl (Nat.zero_lt_succ _) (show 288 + 16 ≤ 8 * packet.map.length by omega)
    (isBits_load16 packet.map.byte 36)

theorem ipv4_eq : packet.ipv4 =
    .ok (if etherType packet.map.byte 0 = 0x0008 then some packet.ipv4Header else none) := by
  unfold ipv4
  rw [ether_type h]
  by_cases ht : etherType packet.map.byte 0 = 0x0008
  · rw [if_pos ht, ht]
    rfl
  · have hne : (SpecNum.u16 (etherType packet.map.byte 0)).eq
        ((SpecNum.u16 (etherType packet.map.byte 0)).int 0x0008) = false :=
      beq_false_of_ne fun he => ht (UInt16.toBitVec_inj.mp he)
    simp only [bind, Except.bind, hne, if_neg ht]
    rfl

theorem tcpudp_eq : packet.tcpudp =
    .ok (if etherType packet.map.byte 0 = 0x0008 ∧ (nextProtoId packet.map.byte 14 = ipProtocolTcp ∨
      nextProtoId packet.map.byte 14 = ipProtocolUdp) then some packet.tcpudpHeader else none) := by
  unfold tcpudp
  rw [ipv4_eq h]
  by_cases ht : etherType packet.map.byte 0 = 0x0008
  · rw [if_pos ht]
    simp only [bind, Except.bind, ipv4_protocol h]
    have hkind :
        ((SpecNum.u8 (nextProtoId packet.map.byte 14)).eq ((SpecNum.u8 (nextProtoId packet.map.byte 14)).int 6) ||
        (SpecNum.u8 (nextProtoId packet.map.byte 14)).eq ((SpecNum.u8 (nextProtoId packet.map.byte 14)).int 17)) =
          decide (nextProtoId packet.map.byte 14 = ipProtocolTcp ∨ nextProtoId packet.map.byte 14 = ipProtocolUdp) := by
      rw [Bool.decide_or]
      congr 1 <;> rw [SpecNum.eq, beq_eq_decide, decide_eq_decide] <;> exact UInt8.toBitVec_inj
    rw [hkind]
    by_cases hp : nextProtoId packet.map.byte 14 = ipProtocolTcp ∨ nextProtoId packet.map.byte 14 = ipProtocolUdp
    · rw [if_pos (decide_eq_true hp), if_pos ⟨ht, hp⟩]
      rfl
    · rw [if_neg fun hc => hp (of_decide_eq_true hc), if_neg fun hc => hp hc.2]
      rfl
  · rw [if_neg ht, if_neg fun hc => ht hc.1]
    rfl

end

end SpecPacket

end Tool
end Klint
