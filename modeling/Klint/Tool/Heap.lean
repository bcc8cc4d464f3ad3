/-
# Ownership of the keys that maps hold

The heap plugin (`tool/klint/heap.py`) and the procedures of the map
(`tool/klint/externals/structs/map.py`), on one concrete execution: `none` where
an assertion fails. Each element of an allocation has the fraction of it that the
program owns. `map_set` takes 25 from the element of the key's address, for the
whole key, and a write needs 100 of each element it touches.

So a write cannot change the element that a stored key starts in, and can change
those the key goes on into. `keys_held`: as long as no write touches such an element
(`Spills`), every stored key keeps its bytes, and the fraction of every element is
100 less 25 for each map that holds a key in it.
-/
import Mathlib.Data.List.AList

namespace Klint
namespace Tool

/-- A value, the least significant bit first. -/
abbrev Bits := List Bool

/-- The bytes in the other order. -/
def reverseBytes : ℕ → Bits → Bits
  | 0, v => v
  | n + 1, v => reverseBytes n (v.drop 8) ++ v.take 8

/-- `value.reversed`. -/
def reversed (v : Bits) : Bits := reverseBytes (v.length / 8) v

/-- An allocation, `size` in bytes, with the ghost maps of its elements and
fractions. -/
structure Block where
  count : ℕ
  size : ℕ
  elems : List Bits
  fractions : List UInt8
  deriving DecidableEq, Repr

/-- A pointer: what is added to which allocation's address. -/
structure Ptr where
  base : ℕ
  added : ℕ
  deriving DecidableEq, Repr

/-- The index of `base_index_offset`, and the offset, in bits. -/
def Block.index (b : Block) (p : Ptr) : ℕ := p.added / b.size
def Block.offset (b : Block) (p : Ptr) : ℕ := p.added % b.size * 8

/-- `maps.value_size(base)`. -/
def Block.writeSize (b : Block) : ℕ := b.size * 8

/-- `mapp`, with the ghost maps of the values and the addresses. -/
structure Mapp where
  keySize : ℕ
  capacity : ℕ
  values : AList fun _ : Bits => ℕ
  addrs : AList fun _ : Bits => Ptr

structure Heap where
  blocks : List Block
  maps : List Mapp

/-! ### Reading and writing -/

/-- The loop of `_read`, until there are `want` bits. -/
def readLoop (b : Block) (want : ℕ) : ℕ → ℕ → Bits → Option Bits
  | 0, _, result => some result
  | k + 1, index, result =>
    if want ≤ result.length then some result
    else
      match b.elems[index]?, b.fractions[index]? with
      | some chunk, some fraction => if fraction = 0 then none else readLoop b want k (index + 1) (result ++ chunk)
      | _, _ => none

def Block.read (b : Block) (index offset size : ℕ) (reverseEndness : Bool) : Option Bits :=
  (readLoop b (size * 8 + offset) (size * 8 + offset) index []).map fun result =>
    let result := if reverseEndness then reversed result else result
    (result.drop offset).take (size * 8)

/-- What `_write` puts in an element: the chunk, with what it leaves of the element. -/
def overwrite (writeSize : ℕ) (reverseEndness : Bool) (offset : ℕ) (current chunk : Bits) : Bits :=
  let chunk :=
    if chunk.length ≠ writeSize then
      let current := if reverseEndness then reversed current else current
      let chunk := if offset ≠ 0 then current.take offset ++ chunk else chunk
      if chunk.length ≠ current.length then chunk ++ current.drop chunk.length else chunk
    else chunk
  if reverseEndness then reversed chunk else chunk

/-- What `_write` takes of the rest for an element: less if the rest is smaller, or if
it begins at an offset. -/
def nextChunk (writeSize offset : ℕ) (rest : Bits) : Bits :=
  let chunk := rest.take (min rest.length writeSize)
  if offset ≠ 0 then chunk.take (min chunk.length (writeSize - offset)) else chunk

/-- The loop of `_write`. -/
def writeLoop (reverseEndness : Bool) : ℕ → Block → ℕ → ℕ → Bits → Option Block
  | 0, b, _, _, _ => some b
  | k + 1, b, index, offset, rest =>
    if rest = [] then some b
    else
      match b.elems[index]?, b.fractions[index]? with
      | some current, some fraction =>
        if fraction ≠ 100 then none
        else
          let chunk := nextChunk b.writeSize offset rest
          let rest := rest.drop chunk.length
          let chunk := overwrite b.writeSize reverseEndness offset current chunk
          writeLoop reverseEndness k { b with elems := b.elems.set index chunk } (index + 1) 0 rest
      | _, _ => none

def Block.write (b : Block) (index offset : ℕ) (value : Bits) (reverseEndness : Bool) : Option Block :=
  writeLoop reverseEndness value.length b index offset value

namespace Heap

def setBlock (h : Heap) (base : ℕ) (b : Block) : Heap := { h with blocks := h.blocks.set base b }

def load (h : Heap) (p : Ptr) (size : ℕ) : Option Bits :=
  h.blocks[p.base]?.bind fun b => b.read (b.index p) (b.offset p) size false

def store (h : Heap) (p : Ptr) (value : Bits) (reverseEndness : Bool) : Option Heap :=
  h.blocks[p.base]?.bind fun b =>
    (b.write (b.index p) (b.offset p) value reverseEndness).map (h.setBlock p.base)

/-- `none` takes all. -/
def take (h : Heap) (fraction : Option UInt8) (p : Ptr) : Option (UInt8 × Heap) :=
  h.blocks[p.base]?.bind fun b =>
    if b.offset p ≠ 0 then none
    else
      b.fractions[b.index p]?.bind fun current =>
        let fraction := fraction.getD current
        if fraction ≤ current then
          some (current, h.setBlock p.base { b with fractions := b.fractions.set (b.index p) (current - fraction) })
        else none

def give (h : Heap) (fraction : UInt8) (p : Ptr) : Option Heap :=
  h.blocks[p.base]?.bind fun b =>
    if b.offset p ≠ 0 then none
    else
      b.fractions[b.index p]?.bind fun current =>
        if current + fraction ≤ 100 then
          some (h.setBlock p.base { b with fractions := b.fractions.set (b.index p) (current + fraction) })
        else none

/-! ### The procedures of the map -/

def mapSet (h : Heap) (map : ℕ) (keyPtr : Ptr) (value : ℕ) : Option Heap :=
  h.maps[map]?.bind fun mapp =>
    (h.load keyPtr mapp.keySize).bind fun key =>
      (h.take (some 25) keyPtr).bind fun (_, h) =>
        if mapp.values.keys.length < mapp.capacity ∧ key ∉ mapp.values ∧ key ∉ mapp.addrs then
          some { h with maps := h.maps.set map { mapp with
            values := mapp.values.insert key value
            addrs := mapp.addrs.insert key keyPtr } }
        else none

def mapRemove (h : Heap) (map : ℕ) (keyPtr : Ptr) : Option Heap :=
  h.maps[map]?.bind fun mapp =>
    (h.load keyPtr mapp.keySize).bind fun key =>
      (h.take none keyPtr).bind fun (frac, h) =>
        if frac ≠ 0 ∧ key ∈ mapp.values ∧ mapp.addrs.lookup key = some keyPtr then
          Heap.give { h with maps := h.maps.set map { mapp with
            values := mapp.values.erase key
            addrs := mapp.addrs.erase key } } (frac + 25) keyPtr
        else none

/-- A step of a program: a write, or a call of a procedure. -/
inductive Op
  | write (p : Ptr) (value : Bits) (reverseEndness : Bool)
  | mapSet (map : ℕ) (keyPtr : Ptr) (value : ℕ)
  | mapRemove (map : ℕ) (keyPtr : Ptr)

def step (h : Heap) : Op → Option Heap
  | .write p value reverseEndness => h.store p value reverseEndness
  | .mapSet map keyPtr value => h.mapSet map keyPtr value
  | .mapRemove map keyPtr => h.mapRemove map keyPtr

/-- A program that is accepted ends in a heap. -/
def run (h : Heap) : List Op → Option Heap
  | [] => some h
  | op :: ops => (h.step op).bind fun h => h.run ops

end Heap

/-- `allocate`, with the elements the program starts with, and full ownership. -/
def allocate (size : ℕ) (elems : List Bits) : Block where
  count := elems.length
  size := size
  elems := elems
  fractions := List.replicate elems.length 100

/-- `map_alloc`. -/
def mapAlloc (keySize capacity : ℕ) : Mapp := ⟨keySize, capacity, ∅, ∅⟩

/-! ### What a heap holds -/

/-- A bit of an allocation. -/
def Block.bit (b : Block) (j : ℕ) : Option Bool := b.elems[j / b.writeSize]?.bind fun e => e[j % b.writeSize]?

/-- The bytes at an address are these. -/
def Heap.Holds (h : Heap) (p : Ptr) (size : ℕ) (k : Bits) : Prop :=
  k.length = size * 8 ∧ ∃ b, h.blocks[p.base]? = some b ∧ ∀ j, j < size * 8 → b.bit (p.added * 8 + j) = k[j]?

/-- A map holds a key address in an element of an allocation. -/
def Mapp.holdsIn (m : Mapp) (base size i : ℕ) : Bool :=
  m.addrs.entries.any fun e => e.2.base = base ∧ e.2.added / size = i

/-- What is claimed of a heap: every stored key still is at its address, and the fraction of every element
with 25 for each map that holds a key address in it is 100. -/
structure Heap.KeysHeld (h : Heap) : Prop where
  held : ∀ m ∈ h.maps, ∀ k p, m.addrs.lookup k = some p → h.Holds p m.keySize k
  owned : ∀ base b i fraction, h.blocks[base]? = some b → b.fractions[i]? = some fraction →
    fraction.toNat + 25 * h.maps.countP (fun m => m.holdsIn base b.size i) = 100

/-- A write of so many bits at an address touches an element that a stored key goes on into after the one it
starts in. -/
def Heap.Spills (h : Heap) (p : Ptr) (length : ℕ) : Prop :=
  ∃ m ∈ h.maps, ∃ k a b i, m.addrs.lookup k = some a ∧ a.base = p.base ∧ h.blocks[p.base]? = some b ∧
    b.index a < i ∧ i * b.size < a.added + m.keySize ∧
    b.index p ≤ i ∧ i * b.writeSize < p.added * 8 + length

/-- No write of a program touches such an element. -/
def Heap.Clear (h : Heap) : List Heap.Op → Prop
  | [] => True
  | op :: ops =>
    (∀ p value reverseEndness, op = .write p value reverseEndness → ¬ h.Spills p value.length) ∧
      ∀ h', h.step op = some h' → h'.Clear ops

/-! ### Blocks -/

/-- An allocation with elements of its size. -/
structure Block.Wf (b : Block) : Prop where
  size : 0 < b.size
  fractions : b.fractions.length = b.elems.length
  elems : ∀ e ∈ b.elems, e.length = b.writeSize

theorem reverseBytes_length : ∀ (n : ℕ) (v : Bits), (reverseBytes n v).length = v.length
  | 0, _ => rfl
  | n + 1, v => by
    rw [reverseBytes, List.length_append, reverseBytes_length n, List.length_drop, List.length_take]
    omega

theorem reversed_length (v : Bits) : (reversed v).length = v.length := reverseBytes_length _ v

variable {b b' : Block} {p : Ptr}

theorem Block.Wf.writeSize_pos (h : b.Wf) : 0 < b.writeSize := Nat.mul_pos h.size (by decide)

theorem Block.Wf.elem_length (h : b.Wf) {i : ℕ} {e : Bits} (he : b.elems[i]? = some e) : e.length = b.writeSize :=
  h.elems e (List.mem_of_getElem? he)

/-- Where the bits of an element are. -/
theorem bit_eq {i j : ℕ} (hj : j < b.writeSize) : b.bit (i * b.writeSize + j) = b.elems[i]?.bind fun e => e[j]? := by
  have hpos : 0 < b.writeSize := Nat.zero_lt_of_lt hj
  rw [Block.bit, Nat.mul_comm, Nat.mul_add_div hpos, Nat.div_eq_of_lt hj, Nat.add_zero, Nat.mul_add_mod,
    Nat.mod_eq_of_lt hj]

/-- What the loop of a read has collected are the bits from its first element on. -/
theorem readLoop_bits (hb : b.Wf) {want : ℕ} : ∀ {k index : ℕ} {result v : Bits} {start : ℕ},
    result.length = (index - start) * b.writeSize → start ≤ index → want ≤ result.length + k →
    (∀ j, j < result.length → b.bit (start * b.writeSize + j) = result[j]?) →
    readLoop b want k index result = some v →
    want ≤ v.length ∧ ∀ j, j < v.length → b.bit (start * b.writeSize + j) = v[j]?
  | 0, index, result, v, start, _, _, hk, hbits, h => by
    cases h
    exact ⟨hk, hbits⟩
  | k + 1, index, result, v, start, hlen, hle, hk, hbits, h => by
    rw [readLoop] at h
    split_ifs at h with hw
    · cases h
      exact ⟨hw, hbits⟩
    · cases hc : b.elems[index]? with
      | none => rw [hc] at h; cases h
      | some chunk =>
        cases hf : b.fractions[index]? with
        | none => rw [hc, hf] at h; cases h
        | some fraction =>
          rw [hc, hf] at h
          simp only at h
          split_ifs at h with h0
          have hchunk := hb.elem_length hc
          have hpos := hb.writeSize_pos
          have hstart : start * b.writeSize + (index - start) * b.writeSize = index * b.writeSize := by
            rw [← Nat.add_mul, Nat.add_sub_cancel' hle]
          refine readLoop_bits hb ?_ (Nat.le_succ_of_le hle) (by rw [List.length_append]; omega) (fun j hj => ?_) h
          · rw [List.length_append, hlen, hchunk, Nat.succ_sub hle, Nat.succ_mul]
          · rw [List.length_append] at hj
            rcases Nat.lt_or_ge j result.length with hlt | hge
            · rw [hbits j hlt, List.getElem?_append_left hlt]
            · have hin : start * b.writeSize + j = index * b.writeSize + (j - result.length) := by omega
              rw [List.getElem?_append_right hge, hin, bit_eq (by omega), hc]
              rfl

/-- A read finds the bits that the allocation has. -/
theorem read_bits (hb : b.Wf) {size : ℕ} {v : Bits} (h : b.read (b.index p) (b.offset p) size false = some v) :
    v.length = size * 8 ∧ ∀ j, j < size * 8 → b.bit (p.added * 8 + j) = v[j]? := by
  rw [Block.read, Option.map_eq_some_iff] at h
  obtain ⟨result, hres, rfl⟩ := h
  obtain ⟨hlen, hbits⟩ := @readLoop_bits b hb _ _ (b.index p) [] _ (b.index p) (by simp) (le_refl _) (by simp)
    (fun j hj => absurd hj (Nat.not_lt_zero j)) hres
  have hadd : p.added * 8 = b.index p * b.writeSize + b.offset p := by
    have := Nat.div_add_mod p.added b.size
    rw [Block.index, Block.offset, Block.writeSize, ← Nat.mul_assoc, ← Nat.add_mul, Nat.mul_comm (p.added / b.size),
      this]
  refine ⟨by simp; omega, fun j hj => ?_⟩
  rw [hadd, Nat.add_assoc, hbits _ (by omega)]
  simp only [Bool.false_eq_true, ↓reduceIte]
  rw [List.getElem?_take, if_pos hj, List.getElem?_drop]

theorem overwrite_length {writeSize offset : ℕ} {reverseEndness : Bool} {current chunk : Bits}
    (hc : current.length = writeSize) (hle : chunk.length + offset ≤ writeSize) :
    (overwrite writeSize reverseEndness offset current chunk).length = writeSize := by
  have hcur : (if reverseEndness then reversed current else current).length = writeSize := by
    split_ifs
    · rw [reversed_length, hc]
    · exact hc
  unfold overwrite
  simp only
  generalize (if reverseEndness then reversed current else current) = cur at hcur ⊢
  have hfull : ∀ v : Bits, v.length ≤ writeSize →
      (if v.length ≠ cur.length then v ++ cur.drop v.length else v).length = writeSize := by
    intro v hv
    split_ifs with hne
    · rw [List.length_append, List.length_drop]
      omega
    · omega
  have hchunk : (if chunk.length ≠ writeSize then
      (if (if offset ≠ 0 then cur.take offset ++ chunk else chunk).length ≠ cur.length then
        (if offset ≠ 0 then cur.take offset ++ chunk else chunk) ++
          cur.drop (if offset ≠ 0 then cur.take offset ++ chunk else chunk).length
      else if offset ≠ 0 then cur.take offset ++ chunk else chunk) else chunk).length = writeSize := by
    by_cases hws : chunk.length = writeSize
    · rw [if_neg (not_not.mpr hws), hws]
    · rw [if_pos hws]
      refine hfull _ ?_
      split_ifs
      · rw [List.length_append, List.length_take]
        omega
      · omega
  split_ifs at hchunk ⊢ <;> first | exact hchunk | (rw [reversed_length]; exact hchunk)

/-- The chunk is the rest, or goes up to the end of the element. -/
theorem nextChunk_length {writeSize offset : ℕ} (rest : Bits) (hoff : offset < writeSize) :
    (nextChunk writeSize offset rest).length = min rest.length (writeSize - offset) := by
  unfold nextChunk
  split_ifs
  · simp only [List.length_take]
    omega
  · simp only [List.length_take]
    omega

/-- What a write leaves: every element but those it touches, which the program owns. -/
theorem writeLoop_spec {reverseEndness : Bool} : ∀ {k : ℕ} {b b' : Block} {index offset : ℕ} {rest : Bits}, b.Wf →
    offset < b.writeSize → writeLoop reverseEndness k b index offset rest = some b' →
    b'.Wf ∧ b'.size = b.size ∧ b'.fractions = b.fractions ∧ ∀ i, b'.elems[i]? = b.elems[i]? ∨
      index ≤ i ∧ i * b.writeSize < index * b.writeSize + offset + rest.length ∧ b.fractions[i]? = some 100
  | 0, b, b', index, offset, rest, hb, _, h => by
    cases h
    exact ⟨hb, rfl, rfl, fun _ => .inl rfl⟩
  | k + 1, b, b', index, offset, rest, hb, hoff, h => by
    rw [writeLoop] at h
    split_ifs at h with hrest
    · cases h
      exact ⟨hb, rfl, rfl, fun _ => .inl rfl⟩
    · cases hc : b.elems[index]? with
      | none => rw [hc] at h; cases h
      | some current =>
        cases hf : b.fractions[index]? with
        | none => rw [hc, hf] at h; cases h
        | some fraction =>
          rw [hc, hf] at h
          simp only at h
          split_ifs at h with h100
          have hpos : 0 < rest.length := List.length_pos_iff.mpr hrest
          have hlen := nextChunk_length rest hoff
          set chunk := nextChunk b.writeSize offset rest
          set new := overwrite b.writeSize reverseEndness offset current chunk
          have hnew : new.length = b.writeSize := overwrite_length (hb.elem_length hc) (by omega)
          have hb₁ : Block.Wf { b with elems := b.elems.set index new } := by
            refine ⟨hb.size, by rw [List.length_set]; exact hb.fractions, fun e he => ?_⟩
            rcases List.mem_or_eq_of_mem_set he with he | rfl
            · exact hb.elems e he
            · exact hnew
          obtain ⟨h1, h2, h3, h4⟩ := writeLoop_spec hb₁ hb.writeSize_pos h
          refine ⟨h1, h2, h3, fun i => ?_⟩
          rcases h4 i with hi | ⟨hle, hlt, hown⟩
          · by_cases hii : i = index
            · subst hii
              exact .inr ⟨le_refl _, by omega, by rw [hf, not_not.mp h100]⟩
            · exact .inl (hi.trans (List.getElem?_set_ne (Ne.symm hii)))
          · refine .inr ⟨by omega, ?_, hown⟩
            change i * b.writeSize < (index + 1) * b.writeSize + 0 + (rest.drop chunk.length).length at hlt
            have hmul := Nat.mul_le_mul_right b.writeSize hle
            rw [List.length_drop, Nat.succ_mul] at hlt
            rw [Nat.succ_mul] at hmul
            omega

/-! ### The invariant -/

variable {h h' : Heap}

/-- What holds as long as no write spills: the blocks are well formed, every stored key begins at an element,
and the claim. -/
structure Heap.Inv (h : Heap) : Prop extends h.KeysHeld where
  blocks : ∀ b ∈ h.blocks, b.Wf
  aligned : ∀ m ∈ h.maps, ∀ k p, m.addrs.lookup k = some p → ∀ b, h.blocks[p.base]? = some b → p.added % b.size = 0

theorem holdsIn_iff {m : Mapp} {base size i : ℕ} :
    m.holdsIn base size i = true ↔ ∃ k p, m.addrs.lookup k = some p ∧ p.base = base ∧ p.added / size = i := by
  simp only [Mapp.holdsIn, List.any_eq_true, decide_eq_true_eq]
  constructor
  · rintro ⟨⟨k, p⟩, he, hp⟩
    exact ⟨k, p, AList.mem_lookup_iff.mpr he, hp⟩
  · rintro ⟨k, p, hk, hp⟩
    exact ⟨⟨k, p⟩, AList.mem_lookup_iff.mp hk, hp⟩

/-- Two addresses in one element at which keys begin are the same. -/
theorem ptr_eq {p q : Ptr} {size : ℕ} (hbase : p.base = q.base) (hp : p.added % size = 0) (hq : q.added % size = 0)
    (hi : p.added / size = q.added / size) : p = q := by
  have h1 := Nat.div_add_mod p.added size
  have h2 := Nat.div_add_mod q.added size
  rw [hp, hi] at h1
  rw [hq] at h2
  exact (Ptr.mk.injEq ..).mpr ⟨hbase, h1.symm.trans h2⟩

/-- The bytes at an address do not depend on the fractions. -/
theorem Heap.Holds.congr {p : Ptr} {size : ℕ} {k : Bits} (hh : h.Holds p size k)
    (hb : ∀ b, h.blocks[p.base]? = some b → ∃ b', h'.blocks[p.base]? = some b' ∧ b'.size = b.size ∧
      ∀ j, j < size * 8 → b'.bit (p.added * 8 + j) = b.bit (p.added * 8 + j)) : h'.Holds p size k := by
  obtain ⟨hlen, b, hbl, hbits⟩ := hh
  obtain ⟨b', hb', -, hsame⟩ := hb b hbl
  exact ⟨hlen, b', hb', fun j hj => (hsame j hj).trans (hbits j hj)⟩

/-- Two keys of one size at one address are the same. -/
theorem Heap.Holds.unique {p : Ptr} {size : ℕ} {k k' : Bits} (hh : h.Holds p size k) (hh' : h.Holds p size k') :
    k = k' := by
  obtain ⟨hlen, b, hb, hbits⟩ := hh
  obtain ⟨hlen', b', hb', hbits'⟩ := hh'
  rw [hb] at hb'
  cases hb'
  refine List.ext_getElem? fun j => ?_
  rcases Nat.lt_or_ge j (size * 8) with hj | hj
  · rw [← hbits j hj, hbits' j hj]
  · rw [List.getElem?_eq_none (by omega), List.getElem?_eq_none (by omega)]

/-- What a load finds is what is held. -/
theorem load_holds (hinv : h.Inv) {p : Ptr} {size : ℕ} {key : Bits} (hl : h.load p size = some key) :
    h.Holds p size key := by
  rw [Heap.load, Option.bind_eq_some_iff] at hl
  obtain ⟨b, hb, hread⟩ := hl
  obtain ⟨hlen, hbits⟩ := read_bits (hinv.blocks b (List.mem_of_getElem? hb)) hread
  exact ⟨hlen, b, hb, hbits⟩

/-- A write that does not spill touches no element that a byte of a stored key is in. -/
theorem touches_no_key (hinv : h.Inv) {p : Ptr} {length : ℕ} (hclear : ¬ h.Spills p length) {b : Block}
    (hb : h.blocks[p.base]? = some b) {m : Mapp} (hm : m ∈ h.maps) {k : Bits} {a : Ptr} (ha : m.addrs.lookup k = some a)
    (hbase : a.base = p.base) {j : ℕ} (hj : j < m.keySize * 8)
    (hle : b.index p ≤ (a.added * 8 + j) / b.writeSize)
    (htouch : (a.added * 8 + j) / b.writeSize * b.writeSize < p.added * 8 + length) :
    b.fractions[(a.added * 8 + j) / b.writeSize]? ≠ some 100 := by
  intro hown
  have hwf := hinv.blocks b (List.mem_of_getElem? hb)
  have hdiv := Nat.div_mul_le_self (a.added * 8 + j) b.writeSize
  have hge : b.index a ≤ (a.added * 8 + j) / b.writeSize := by
    rw [Nat.le_div_iff_mul_le hwf.writeSize_pos, Block.index, Block.writeSize, ← Nat.mul_assoc]
    have := Nat.div_mul_le_self a.added b.size
    omega
  rcases Nat.eq_or_lt_of_le hge with heq | hgt
  · -- the key starts in the element, so its fraction is not the whole
    have hcount := hinv.owned p.base b _ _ hb hown
    have hpos : 0 < h.maps.countP fun m => m.holdsIn p.base b.size ((a.added * 8 + j) / b.writeSize) :=
      List.countP_pos_iff.mpr ⟨m, hm, holdsIn_iff.mpr ⟨k, a, ha, hbase, heq⟩⟩
    have h100 : (100 : UInt8).toNat = 100 := rfl
    omega
  · refine hclear ⟨m, hm, k, a, b, _, ha, hbase, hb, hgt, ?_, hle, htouch⟩
    rw [Block.writeSize, ← Nat.mul_assoc] at hdiv
    have : (a.added * 8 + j) / (b.size * 8) * b.size * 8 < (a.added + m.keySize) * 8 := by omega
    exact Nat.lt_of_mul_lt_mul_right this

/-- A write that does not spill. -/
theorem store_inv (hinv : h.Inv) {p : Ptr} {value : Bits} {reverseEndness : Bool}
    (hclear : ¬ h.Spills p value.length) (hs : h.store p value reverseEndness = some h') : h'.Inv := by
  rw [Heap.store, Option.bind_eq_some_iff] at hs
  obtain ⟨b, hb, hs⟩ := hs
  obtain ⟨b', hw, rfl⟩ := Option.map_eq_some_iff.mp hs
  have hwf := hinv.blocks b (List.mem_of_getElem? hb)
  have hoff : b.offset p < b.writeSize := Nat.mul_lt_mul_of_pos_right (Nat.mod_lt _ hwf.size) (by decide)
  obtain ⟨hwf', hsize, hfr, helems⟩ := writeLoop_spec hwf hoff hw
  have hws : b'.writeSize = b.writeSize := by rw [Block.writeSize, Block.writeSize, hsize]
  have hlt : p.base < h.blocks.length := (List.getElem?_eq_some_iff.mp hb).1
  have hself : (h.setBlock p.base b').blocks[p.base]? = some b' := List.getElem?_set_self hlt
  have hother : ∀ base, base ≠ p.base → (h.setBlock p.base b').blocks[base]? = h.blocks[base]? :=
    fun base hne => List.getElem?_set_ne (Ne.symm hne)
  have hadd : p.added * 8 = b.index p * b.writeSize + b.offset p := by
    have := Nat.div_add_mod p.added b.size
    rw [Block.index, Block.offset, Block.writeSize, ← Nat.mul_assoc, ← Nat.add_mul, Nat.mul_comm (p.added / b.size),
      this]
  refine ⟨⟨fun m hm k a ha => ?_, fun base c i fraction hc hf => ?_⟩, fun c hc => ?_, fun m hm k a ha c hc => ?_⟩
  · refine (hinv.held m hm k a ha).congr fun c hc => ?_
    by_cases hbase : a.base = p.base
    · rw [hbase] at hc ⊢
      rw [hb] at hc
      cases hc
      refine ⟨b', hself, hsize, fun j hj => ?_⟩
      rw [Block.bit, Block.bit, hws]
      rcases helems ((a.added * 8 + j) / b.writeSize) with he | ⟨hle, htouch, hown⟩
      · rw [he]
      · exact absurd hown (touches_no_key hinv hclear hb hm ha hbase hj hle (hadd ▸ htouch))
    · exact ⟨c, by rw [hother _ hbase]; exact hc, rfl, fun j hj => rfl⟩
  · by_cases hbase : base = p.base
    · rw [hbase, hself] at hc
      cases hc
      rw [hsize, hbase]
      rw [hfr] at hf
      exact hinv.owned p.base b i fraction hb hf
    · rw [hother base hbase] at hc
      exact hinv.owned base c i fraction hc hf
  · rcases List.mem_or_eq_of_mem_set hc with hc | rfl
    · exact hinv.blocks c hc
    · exact hwf'
  · by_cases hbase : a.base = p.base
    · rw [hbase, hself] at hc
      cases hc
      rw [hsize]
      exact hinv.aligned m hm k a ha b (by rw [hbase]; exact hb)
    · rw [hother _ hbase] at hc
      exact hinv.aligned m hm k a ha c hc

/-- With one element the count changes by that element. -/
theorem countP_set_add {α : Type} {l : List α} {i : ℕ} {a : α} (h : l[i]? = some a) (p : α → Bool) (a' : α) :
    (l.set i a').countP p + (p a).toNat = l.countP p + (p a').toNat := by
  obtain ⟨hlt, hget⟩ := List.getElem?_eq_some_iff.mp h
  have hpos : p a = true → 0 < l.countP p := fun ha => List.countP_pos_iff.mpr ⟨a, List.mem_of_getElem? h, ha⟩
  rw [List.countP_set hlt, hget]
  cases ha : p a with
  | false => cases p a' <;> simp
  | true =>
    have := hpos ha
    cases p a' <;> simp <;> omega

section SetFraction

variable {base i : ℕ} {b : Block} {fraction fraction' : UInt8}

/-- A block after the fraction of one element is changed is the one before, but for that fraction. -/
theorem block_of_setFraction (hb : h.blocks[base]? = some b) (hf : b.fractions[i]? = some fraction) {base' : ℕ}
    {b' : Block} (hb' : (h.blocks.set base { b with fractions := b.fractions.set i fraction' })[base']? = some b') :
    ∃ c, h.blocks[base']? = some c ∧ b'.size = c.size ∧ ∀ (i' : ℕ) (f : UInt8), b'.fractions[i']? = some f →
      (base' = base ∧ i' = i ∧ f = fraction') ∨ ((base' ≠ base ∨ i' ≠ i) ∧ c.fractions[i']? = some f) := by
  have hblt := (List.getElem?_eq_some_iff.mp hb).1
  have hilt := (List.getElem?_eq_some_iff.mp hf).1
  by_cases hbb : base' = base
  · subst hbb
    rw [List.getElem?_set_self hblt] at hb'
    cases hb'
    refine ⟨b, hb, rfl, fun i' f hf' => ?_⟩
    by_cases hi : i' = i
    · subst hi
      rw [List.getElem?_set_self hilt, Option.some.injEq] at hf'
      exact .inl ⟨rfl, rfl, hf'.symm⟩
    · rw [List.getElem?_set_ne (Ne.symm hi)] at hf'
      exact .inr ⟨.inr hi, hf'⟩
  · rw [List.getElem?_set_ne (Ne.symm hbb)] at hb'
    exact ⟨b', hb', rfl, fun i' f hf' => .inr ⟨.inl hbb, hf'⟩⟩

/-- What the memory holds does not depend on the fractions. -/
theorem Heap.Holds.setFraction (hb : h.blocks[base]? = some b) (maps : List Mapp) {p : Ptr} {size : ℕ} {k : Bits}
    (hh : h.Holds p size k) : Heap.Holds
      { blocks := h.blocks.set base { b with fractions := b.fractions.set i fraction' }, maps := maps } p size k := by
  have hblt := (List.getElem?_eq_some_iff.mp hb).1
  refine hh.congr fun c hc => ?_
  by_cases hbb : p.base = base
  · rw [hbb] at hc ⊢
    rw [hb] at hc
    cases hc
    exact ⟨_, List.getElem?_set_self hblt, rfl, fun j _ => rfl⟩
  · exact ⟨c, (List.getElem?_set_ne (Ne.symm hbb)).trans hc, rfl, fun j _ => rfl⟩

end SetFraction

/-- The fraction of one element and one map change: the map gains or loses a key address there, and the fraction
makes up for it. -/
theorem update_inv (hinv : h.Inv) {base i map : ℕ} {b : Block} {fraction fraction' : UInt8} {m m' : Mapp}
    (hb : h.blocks[base]? = some b) (hf : b.fractions[i]? = some fraction) (hm : h.maps[map]? = some m)
    (hsize : m'.keySize = m.keySize)
    (hlook : ∀ k p, m'.addrs.lookup k = some p → m.addrs.lookup k = some p ∨
      h.Holds p m.keySize k ∧ p.base = base ∧ p.added % b.size = 0)
    (hsum : fraction'.toNat + 25 * (m'.holdsIn base b.size i).toNat =
      fraction.toNat + 25 * (m.holdsIn base b.size i).toNat)
    (hother : ∀ base' b' i', h.blocks[base']? = some b' → (base' ≠ base ∨ i' ≠ i) →
      m'.holdsIn base' b'.size i' = m.holdsIn base' b'.size i') :
    Heap.Inv { blocks := h.blocks.set base { b with fractions := b.fractions.set i fraction' }
               maps := h.maps.set map m' } := by
  have hmem : m ∈ h.maps := List.mem_of_getElem? hm
  have hmaps : ∀ m₁ ∈ h.maps.set map m', m₁ ∈ h.maps ∨ m₁ = m' := fun m₁ hm₁ => List.mem_or_eq_of_mem_set hm₁
  refine ⟨⟨fun m₁ hm₁ k p hk => ?_, fun base' b' i' f hb' hf' => ?_⟩, fun c hc => ?_, fun m₁ hm₁ k p hk c hc => ?_⟩
  · rcases hmaps m₁ hm₁ with hold | rfl
    · exact (hinv.held m₁ hold k p hk).setFraction hb _
    · rw [hsize]
      rcases hlook k p hk with hk | ⟨hh, -⟩
      · exact (hinv.held m hmem k p hk).setFraction hb _
      · exact hh.setFraction hb _
  · obtain ⟨c, hc, hcs, hfraction⟩ := block_of_setFraction hb hf hb'
    rw [hcs]
    dsimp only
    have hcount := countP_set_add hm (fun m => m.holdsIn base' c.size i') m'
    beta_reduce at hcount
    rcases hfraction i' f hf' with ⟨rfl, rfl, rfl⟩ | ⟨hdiff, hfold⟩
    · rw [hb] at hc
      cases hc
      have hown := hinv.owned base' b i' fraction hb hf
      omega
    · have hown := hinv.owned base' c i' f hc hfold
      rw [hother base' c i' hc hdiff] at hcount
      omega
  · rcases List.mem_or_eq_of_mem_set hc with hc | rfl
    · exact hinv.blocks c hc
    · have hwf := hinv.blocks b (List.mem_of_getElem? hb)
      exact ⟨hwf.size, by rw [List.length_set]; exact hwf.fractions, hwf.elems⟩
  · obtain ⟨c', hc', hcs, -⟩ := block_of_setFraction hb hf hc
    rw [hcs]
    rcases hmaps m₁ hm₁ with hold | rfl
    · exact hinv.aligned m₁ hold k p hk c' hc'
    · rcases hlook k p hk with hk | ⟨-, hbase, halign⟩
      · exact hinv.aligned m hmem k p hk c' hc'
      · rw [hbase, hb] at hc'
        cases hc'
        exact halign

/-- A map holds one key at most in an element, and that at its address. -/
theorem holdsIn_address (hinv : h.Inv) {m : Mapp} (hm : m ∈ h.maps) {p : Ptr} {b : Block} {key k : Bits} {a : Ptr}
    (hb : h.blocks[p.base]? = some b) (hp : p.added % b.size = 0) (hkey : h.Holds p m.keySize key)
    (hk : m.addrs.lookup k = some a) (hbase : a.base = p.base) (hi : a.added / b.size = b.index p) : k = key := by
  have ha := hinv.aligned m hm k a hk b (by rw [hbase]; exact hb)
  have hap : a = p := ptr_eq hbase ha hp hi
  exact (hap ▸ hinv.held m hm k a hk).unique hkey

/-- What `take` does. -/
theorem take_eq {fraction : Option UInt8} {p : Ptr} {current : UInt8} (ht : h.take fraction p = some (current, h')) :
    ∃ b, h.blocks[p.base]? = some b ∧ p.added % b.size = 0 ∧ b.fractions[b.index p]? = some current ∧
      fraction.getD current ≤ current ∧
      h' = h.setBlock p.base { b with fractions := b.fractions.set (b.index p) (current - fraction.getD current) } := by
  rw [Heap.take, Option.bind_eq_some_iff] at ht
  obtain ⟨b, hb, ht⟩ := ht
  split_ifs at ht with hoff
  rw [Option.bind_eq_some_iff] at ht
  obtain ⟨c, hc, ht⟩ := ht
  simp only at ht
  split_ifs at ht with hle
  cases ht
  have hz : p.added % b.size * 8 = 0 := not_not.mp hoff
  exact ⟨b, hb, by omega, hc, hle, rfl⟩

theorem mapSet_inv (hinv : h.Inv) {map value : ℕ} {keyPtr : Ptr} (hs : h.mapSet map keyPtr value = some h') :
    h'.Inv := by
  simp only [Heap.mapSet, Option.bind_eq_some_iff] at hs
  obtain ⟨m, hm, key, hload, ⟨current, h₁⟩, htake, hs⟩ := hs
  split_ifs at hs with hpre
  cases hs
  obtain ⟨-, -, hnew⟩ := hpre
  obtain ⟨b, hb, halign, hf, hle, rfl⟩ := take_eq htake
  have hkey := load_holds hinv hload
  have hmem : m ∈ h.maps := List.mem_of_getElem? hm
  have hbefore : m.holdsIn keyPtr.base b.size (b.index keyPtr) = false := by
    by_contra hne
    obtain ⟨k, a, hk, hbase, hi⟩ := holdsIn_iff.mp (by simpa using hne)
    have hkk := holdsIn_address hinv hmem hb halign hkey hk hbase hi
    rw [hkk] at hk
    rw [AList.lookup_eq_none.mpr hnew] at hk
    cases hk
  have hlook : ∀ k p, (m.addrs.insert key keyPtr).lookup k = some p →
      m.addrs.lookup k = some p ∨ k = key ∧ p = keyPtr := by
    intro k p hk
    by_cases hkk : k = key
    · subst hkk
      rw [AList.lookup_insert] at hk
      cases hk
      exact .inr ⟨rfl, rfl⟩
    · rw [AList.lookup_insert_ne hkk] at hk
      exact .inl hk
  refine @update_inv h hinv keyPtr.base (b.index keyPtr) map b current (current - 25) m
    { m with values := m.values.insert key value, addrs := m.addrs.insert key keyPtr } hb hf hm rfl
    (fun k p hk => ?_) ?_ fun base' b' i' hb' hdiff => ?_
  · rcases hlook k p hk with hold | ⟨rfl, rfl⟩
    · exact .inl hold
    · exact .inr ⟨hkey, rfl, halign⟩
  · have hafter : Mapp.holdsIn { m with values := m.values.insert key value, addrs := m.addrs.insert key keyPtr }
        keyPtr.base b.size (b.index keyPtr) = true :=
      holdsIn_iff.mpr ⟨key, keyPtr, AList.lookup_insert _, rfl, rfl⟩
    have hle25 : (25 : UInt8) ≤ current := hle
    have hle' := UInt8.le_iff_toNat_le.mp hle25
    have h25 : (25 : UInt8).toNat = 25 := rfl
    rw [hbefore, hafter, UInt8.toNat_sub_of_le _ _ hle25]
    simp only [h25, Bool.toNat_true, Bool.toNat_false] at hle' ⊢
    omega
  · rw [Bool.eq_iff_iff, holdsIn_iff, holdsIn_iff]
    constructor
    · rintro ⟨k, p, hk, rfl, rfl⟩
      rcases hlook k p hk with hold | ⟨rfl, rfl⟩
      · exact ⟨k, p, hold, rfl, rfl⟩
      · rw [hb] at hb'
        cases hb'
        exact absurd hdiff (by simp [Block.index])
    · rintro ⟨k, p, hk, hp⟩
      have hkk : k ≠ key := by
        rintro rfl
        rw [AList.lookup_eq_none.mpr hnew] at hk
        cases hk
      exact ⟨k, p, (AList.lookup_insert_ne hkk).trans hk, hp⟩

theorem mapRemove_inv (hinv : h.Inv) {map : ℕ} {keyPtr : Ptr} (hs : h.mapRemove map keyPtr = some h') : h'.Inv := by
  simp only [Heap.mapRemove, Option.bind_eq_some_iff] at hs
  obtain ⟨m, hm, key, hload, ⟨current, h₁⟩, htake, hs⟩ := hs
  split_ifs at hs with hpre
  obtain ⟨-, -, hstored⟩ := hpre
  obtain ⟨b, hb, halign, hf, -, rfl⟩ := take_eq htake
  have hkey := load_holds hinv hload
  have hmem : m ∈ h.maps := List.mem_of_getElem? hm
  have hlt := (List.getElem?_eq_some_iff.mp hb).1
  have hilt := (List.getElem?_eq_some_iff.mp hf).1
  -- the fraction is given back, with the map's
  simp only [Heap.give, Heap.setBlock, List.getElem?_set_self hlt, Option.bind_some, Block.offset, halign,
    Nat.zero_mul, ne_eq, not_true_eq_false, ↓reduceIte, Block.index] at hs
  rw [show keyPtr.added / b.size = b.index keyPtr from rfl, List.getElem?_set_self hilt, Option.bind_some] at hs
  split_ifs at hs with h100
  simp only [Option.some.injEq, List.set_set] at hs
  subst hs
  have hlook : ∀ k p, (m.addrs.erase key).lookup k = some p → m.addrs.lookup k = some p ∧ k ≠ key := by
    intro k p hk
    by_cases hkk : k = key
    · subst hkk
      rw [AList.lookup_erase] at hk
      cases hk
    · rw [AList.lookup_erase_ne hkk] at hk
      exact ⟨hk, hkk⟩
  have hown := hinv.owned keyPtr.base b _ current hb hf
  refine @update_inv h hinv keyPtr.base (b.index keyPtr) map b current
    (current - (none : Option UInt8).getD current + (current + 25)) m
    { m with values := m.values.erase key, addrs := m.addrs.erase key } hb hf hm rfl
    (fun k p hk => .inl (hlook k p hk).1) ?_ fun base' b' i' hb' hdiff => ?_
  · have hbefore : m.holdsIn keyPtr.base b.size (b.index keyPtr) = true :=
      holdsIn_iff.mpr ⟨key, keyPtr, hstored, rfl, rfl⟩
    have hafter : Mapp.holdsIn { m with values := m.values.erase key, addrs := m.addrs.erase key }
        keyPtr.base b.size (b.index keyPtr) = false := by
      by_contra hne
      obtain ⟨k, a, hk, hbase, hi⟩ := holdsIn_iff.mp (by simpa using hne)
      exact (hlook k a hk).2 (holdsIn_address hinv hmem hb halign hkey (hlook k a hk).1 hbase hi)
    have h25 : (25 : UInt8).toNat = 25 := rfl
    rw [hbefore, hafter, Option.getD_none, UInt8.sub_self, UInt8.zero_add, UInt8.toNat_add, h25]
    simp only [Bool.toNat_true, Bool.toNat_false]
    omega
  · rw [Bool.eq_iff_iff, holdsIn_iff, holdsIn_iff]
    constructor
    · rintro ⟨k, p, hk, hp⟩
      exact ⟨k, p, (hlook k p hk).1, hp⟩
    · rintro ⟨k, p, hk, rfl, rfl⟩
      have hkk : k ≠ key := by
        rintro rfl
        rw [hstored] at hk
        cases hk
        rw [hb] at hb'
        cases hb'
        exact absurd hdiff (by simp [Block.index])
      exact ⟨k, p, (AList.lookup_erase_ne hkk).trans hk, rfl, rfl⟩

/-! ### Programs -/

theorem run_inv : ∀ {ops : List Heap.Op} {h h' : Heap}, h.Inv → h.Clear ops → h.run ops = some h' → h'.Inv
  | [], h, h', hinv, _, hr => by
    cases hr
    exact hinv
  | op :: ops, h, h', hinv, hclear, hr => by
    rw [Heap.run, Option.bind_eq_some_iff] at hr
    obtain ⟨h₁, hstep, hr⟩ := hr
    refine run_inv ?_ (hclear.2 h₁ hstep) hr
    cases op with
    | write p value reverseEndness => exact store_inv hinv (hclear.1 p value reverseEndness rfl) hstep
    | mapSet map keyPtr value => exact mapSet_inv hinv hstep
    | mapRemove map keyPtr => exact mapRemove_inv hinv hstep

/-- A program starts with allocations that it owns and maps that are empty. -/
structure Heap.Initial (h : Heap) : Prop where
  blocks : ∀ b ∈ h.blocks, ∃ size elems, b = allocate size elems ∧ 0 < size ∧ ∀ e ∈ elems, e.length = size * 8
  maps : ∀ m ∈ h.maps, ∃ keySize capacity, m = mapAlloc keySize capacity

theorem initial_inv (hi : h.Initial) : h.Inv := by
  have hempty : ∀ m ∈ h.maps, ∀ k, m.addrs.lookup k = none := by
    intro m hm k
    obtain ⟨ks, c, rfl⟩ := hi.maps m hm
    exact AList.lookup_empty k
  refine ⟨⟨fun m hm k p hk => ?_, fun base b i fraction hb hf => ?_⟩, fun b hb => ?_, fun m hm k p hk => ?_⟩
  · rw [hempty m hm k] at hk
    cases hk
  · obtain ⟨size, elems, rfl, -, -⟩ := hi.blocks b (List.mem_of_getElem? hb)
    have h100 : fraction = 100 := List.eq_of_mem_replicate (List.mem_of_getElem? hf)
    have hzero : h.maps.countP (fun m => m.holdsIn base (allocate size elems).size i) = 0 := by
      rw [List.countP_eq_zero]
      intro m hm hh
      obtain ⟨k, a, hk, -⟩ := holdsIn_iff.mp hh
      rw [hempty m hm k] at hk
      cases hk
    rw [hzero, h100]
    rfl
  · obtain ⟨size, elems, rfl, hsize, helems⟩ := hi.blocks b hb
    exact ⟨hsize, by simp [allocate], helems⟩
  · rw [hempty m hm k] at hk
    cases hk

/-- **Stored keys stay as they are.** For all allocations that the program owns, maps of any key sizes and every
program of writes, insertions and removals that is accepted, none of whose writes touches an element that a
stored key goes on into after the one it starts in: every stored key still is at its address, and the fraction
of every element with 25 for each map that holds a key in it is 100. A part of such a program is one, so this
holds at every moment. -/
theorem keys_held (h : Heap) (hi : h.Initial) (ops : List Heap.Op) (hclear : h.Clear ops) {h' : Heap}
    (hr : h.run ops = some h') : h'.KeysHeld :=
  (run_inv (initial_inv hi) hclear hr).toKeysHeld

/-- A byte of eight bits, the least significant one first. -/
def demoByte (bit : Bool) : Bits := bit :: List.replicate 7 false

/-- An array of two bytes, and a map with keys of so many bytes. -/
def demoHeap (keySize : ℕ) : Heap := ⟨[allocate 1 [demoByte true, demoByte false]], [mapAlloc keySize 4]⟩

theorem demoHeap_initial (keySize : ℕ) : (demoHeap keySize).Initial where
  blocks := fun b hb => ⟨1, _, List.mem_singleton.mp hb, by decide, by decide⟩
  maps := fun m hm => ⟨keySize, 4, List.mem_singleton.mp hm⟩

/-- The theorem at a key of one byte, with a write to the other one. -/
theorem keys_held_one : ∃ h', (demoHeap 1).run [.mapSet 0 ⟨0, 0⟩ 7, .write ⟨0, 1⟩ (demoByte true) false] = some h' ∧
    h'.KeysHeld := by
  refine ⟨_, rfl, keys_held (demoHeap 1) (demoHeap_initial 1)
    [.mapSet 0 ⟨0, 0⟩ 7, .write ⟨0, 1⟩ (demoByte true) false] ⟨?_, fun h₁ h₁s => ⟨?_, fun _ _ => trivial⟩⟩ rfl⟩
  · intro p v r he
    cases he
  · intro p v r he
    cases he
    cases h₁s
    rintro ⟨m, hm, k, a, b, i, -, -, hb, hlt, hspan, -⟩
    cases List.mem_singleton.mp hm
    cases hb
    simp only [Block.index, allocate, mapAlloc, Nat.div_one, Nat.mul_one] at hlt hspan
    omega

/-- A key of two bytes in an array of bytes: its second byte is overwritten while the map holds it. -/
theorem not_keys_held : ∃ h', (demoHeap 2).run [.mapSet 0 ⟨0, 0⟩ 7, .write ⟨0, 1⟩ (demoByte true) false] = some h' ∧
    ¬ h'.KeysHeld := by
  refine ⟨_, rfl, fun hheld => ?_⟩
  obtain ⟨-, b, hb, hbits⟩ := hheld.held _ (List.mem_singleton.mpr rfl) (demoByte true ++ demoByte false) ⟨0, 0⟩ rfl
  cases hb
  have hbit := hbits 8 (by decide)
  revert hbit
  decide

end Tool
end Klint
