/-
# Reading back what was written

`_read` and `_write` of the heap plugin split an access into the elements that it touches. A write in the
other byte order reverses the bytes of each element (`seen`), a read those of the whole access
(`ObjectsMemoryMixin.load` and `store` pass one flag to both). Where an access spans two elements the two
disagree, and where it is not in the middle of its element a write changes bits, in the native order, that
the access does not have: `readsBack_iff`.
-/
import Klint.Tool.Heap

namespace Klint
namespace Tool

/-! ### Byte order -/

/-- The place of a bit among `m` bytes in the other order. -/
def mirror (m t : ℕ) : ℕ := 8 * (m - 1 - t / 8) + t % 8

theorem mirror_lt {m t : ℕ} (h : t < 8 * m) : mirror m t < 8 * m := by
  unfold mirror
  omega

theorem mirror_mirror {m t : ℕ} (h : t < 8 * m) : mirror m (mirror m t) = t := by
  unfold mirror
  omega

theorem getElem?_reverseBytes : ∀ (m : ℕ) (v : Bits) (t : ℕ), v.length = 8 * m → t < 8 * m →
    (reverseBytes m v)[t]? = v[mirror m t]?
  | 0, _, _, _, ht => absurd ht (Nat.not_lt_zero _)
  | m + 1, v, t, hv, ht => by
    have hlen : (reverseBytes m (v.drop 8)).length = 8 * m := by
      rw [reverseBytes_length, List.length_drop]
      omega
    rw [reverseBytes]
    rcases Nat.lt_or_ge t (8 * m) with hlt | hge
    · rw [List.getElem?_append_left (by omega), getElem?_reverseBytes m (v.drop 8) t
        (by rw [List.length_drop]; omega) hlt,
        List.getElem?_drop]
      congr 1
      unfold mirror
      omega
    · rw [List.getElem?_append_right (by omega), hlen, List.getElem?_take_of_lt (by omega)]
      congr 1
      unfold mirror
      omega

theorem getElem?_reversed {m t : ℕ} {v : Bits} (hv : v.length = 8 * m) (ht : t < 8 * m) :
    (reversed v)[t]? = v[mirror m t]? := by
  rw [reversed, hv, Nat.mul_div_cancel_left m (by omega)]
  exact getElem?_reverseBytes m v t hv ht

theorem reversed_reversed {m : ℕ} {v : Bits} (hv : v.length = 8 * m) : reversed (reversed v) = v := by
  have hlen : (reversed v).length = 8 * m := (reversed_length v).trans hv
  refine List.ext_getElem? fun t => ?_
  rcases Nat.lt_or_ge t (8 * m) with ht | ht
  · rw [getElem?_reversed hlen ht, getElem?_reversed hv (mirror_lt ht), mirror_mirror ht]
  · rw [List.getElem?_eq_none (by rw [reversed_length]; omega), List.getElem?_eq_none (by omega)]

/-- A value as an access in a byte order sees it. -/
def inOrder (reverseEndness : Bool) (v : Bits) : Bits := if reverseEndness then reversed v else v

theorem inOrder_length (reverseEndness : Bool) (v : Bits) : (inOrder reverseEndness v).length = v.length := by
  cases reverseEndness with
  | false => rfl
  | true => exact reversed_length v

theorem inOrder_inOrder (reverseEndness : Bool) {m : ℕ} {v : Bits} (hv : v.length = 8 * m) :
    inOrder reverseEndness (inOrder reverseEndness v) = v := by
  cases reverseEndness with
  | false => rfl
  | true => exact reversed_reversed hv

/-! ### One element -/

/-- What `_write` puts in an element, as the access sees it. -/
theorem overwrite_eq {writeSize offset : ℕ} {reverseEndness : Bool} {current chunk : Bits}
    (hc : current.length = writeSize) (hle : chunk.length + offset ≤ writeSize) :
    overwrite writeSize reverseEndness offset current chunk = inOrder reverseEndness
      ((inOrder reverseEndness current).take offset ++ chunk ++
        (inOrder reverseEndness current).drop (offset + chunk.length)) := by
  have hcur : (inOrder reverseEndness current).length = writeSize := (inOrder_length _ _).trans hc
  change inOrder reverseEndness (if chunk.length ≠ writeSize then
      let front := if offset ≠ 0 then (inOrder reverseEndness current).take offset ++ chunk else chunk
      if front.length ≠ (inOrder reverseEndness current).length then
        front ++ (inOrder reverseEndness current).drop front.length else front
    else chunk) = _
  set cur := inOrder reverseEndness current
  congr 1
  by_cases hfull : chunk.length = writeSize
  · have h0 : offset = 0 := by omega
    rw [if_neg (not_not.mpr hfull), h0, List.take_zero, List.nil_append, Nat.zero_add, hfull, ← hcur, List.drop_length,
      List.append_nil]
  · rw [if_pos hfull]
    have hfront : (if offset ≠ 0 then cur.take offset ++ chunk else chunk) = cur.take offset ++ chunk := by
      by_cases h0 : offset = 0
      · rw [if_neg (not_not.mpr h0), h0, List.take_zero, List.nil_append]
      · rw [if_pos h0]
    have hlen : (cur.take offset ++ chunk).length = offset + chunk.length := by
      rw [List.length_append, List.length_take]
      omega
    simp only [hfront, hlen]
    by_cases hend : offset + chunk.length = cur.length
    · rw [if_neg (not_not.mpr hend), hend, List.drop_length, List.append_nil]
    · rw [if_pos hend]

/-- The bits of the element afterwards, as the access sees them. -/
theorem getElem?_overwrite {size writeSize offset : ℕ} {current chunk : Bits} (hsize : writeSize = 8 * size)
    (hc : current.length = writeSize) (hle : chunk.length + offset ≤ writeSize) (reverseEndness : Bool) (y : ℕ) :
    (inOrder reverseEndness (overwrite writeSize reverseEndness offset current chunk))[y]? =
      if offset ≤ y ∧ y < offset + chunk.length then chunk[y - offset]? else (inOrder reverseEndness current)[y]? := by
  have hcur : (inOrder reverseEndness current).length = writeSize := (inOrder_length _ _).trans hc
  rw [overwrite_eq hc hle, inOrder_inOrder reverseEndness (v := _ ++ _ ++ _) (m := size)]
  · set cur := inOrder reverseEndness current
    have htake : (cur.take offset).length = offset := by
      rw [List.length_take]
      omega
    split
    · next h =>
      rw [List.getElem?_append_left (by rw [List.length_append, htake]; omega),
        List.getElem?_append_right (by omega), htake]
    · next h =>
      rcases Nat.lt_or_ge y offset with hlt | hge
      · rw [List.append_assoc, List.getElem?_append_left (by omega), List.getElem?_take_of_lt hlt]
      · rw [List.getElem?_append_right (by rw [List.length_append, htake]; omega), List.length_append, htake,
          List.getElem?_drop]
        congr 1
        omega
  · rw [List.length_append, List.length_append, List.length_take, List.length_drop]
    omega

/-! ### Whole accesses -/

/-- A bit of an allocation as an access sees it: the bytes of each element in its order. -/
def Block.seen (b : Block) (reverseEndness : Bool) (j : ℕ) : Option Bool :=
  b.elems[j / b.writeSize]?.bind fun e => (inOrder reverseEndness e)[j % b.writeSize]?

variable {b b' : Block} {reverseEndness : Bool}

theorem Block.writeSize_eq (b : Block) : b.writeSize = 8 * b.size := Nat.mul_comm _ _

theorem seen_native (b : Block) (j : ℕ) : b.seen false j = b.bit j := rfl

theorem seen_eq {i y : ℕ} (hy : y < b.writeSize) :
    b.seen reverseEndness (i * b.writeSize + y) = b.elems[i]?.bind fun e => (inOrder reverseEndness e)[y]? := by
  rw [Block.seen, Nat.mul_comm, Nat.mul_add_div (Nat.zero_lt_of_lt hy), Nat.div_eq_of_lt hy, Nat.add_zero,
    Nat.mul_add_mod, Nat.mod_eq_of_lt hy]

/-- The bits in the other order are the native ones, mirrored in the element. -/
theorem seen_reversed (hb : b.Wf) {i y : ℕ} (hy : y < b.writeSize) :
    b.seen true (i * b.writeSize + y) = b.bit (i * b.writeSize + mirror b.size y) := by
  have hy8 : y < 8 * b.size := by rwa [Nat.mul_comm]
  have hmirror : mirror b.size y < b.writeSize := by
    rw [Block.writeSize, Nat.mul_comm]
    exact mirror_lt hy8
  rw [seen_eq hy, bit_eq hmirror]
  cases he : b.elems[i]? with
  | none => rfl
  | some e =>
    have hlen : e.length = 8 * b.size := (hb.elem_length he).trans (Nat.mul_comm _ _)
    exact getElem?_reversed hlen hy8

/-- All elements that a range touches are owned. -/
def Block.Owned (b : Block) (start length : ℕ) : Prop :=
  ∀ (i : ℕ) (f : UInt8), i * b.writeSize < start + length → start < (i + 1) * b.writeSize →
    b.fractions[i]? = some f → f = 100

theorem Block.owned_of_all (h : ∀ f ∈ b.fractions, f = 100) (start length : ℕ) : b.Owned start length :=
  fun _ f _ _ hf => h f (List.mem_of_getElem? hf)

theorem Block.Owned.fraction {start length i : ℕ} (ho : b.Owned start length) (hb : b.Wf) (hi : i < b.elems.length)
    (hlt : i * b.writeSize < start + length) (hgt : start < (i + 1) * b.writeSize) : b.fractions[i]? = some 100 := by
  have hf : i < b.fractions.length := by rw [hb.fractions]; exact hi
  rw [List.getElem?_eq_getElem hf, ho i b.fractions[i] hlt hgt (List.getElem?_eq_getElem hf)]

/-- A write in bounds goes through. -/
theorem writeLoop_total : ∀ {k : ℕ} {b : Block} {index offset : ℕ} {rest : Bits}, b.Wf →
    b.Owned (index * b.writeSize + offset) rest.length → offset < b.writeSize →
      index * b.writeSize + offset + rest.length ≤ b.elems.length * b.writeSize →
    ∃ b', writeLoop reverseEndness k b index offset rest = some b'
  | 0, b, _, _, _, _, _, _, _ => ⟨b, rfl⟩
  | k + 1, b, index, offset, rest, hb, ho, hoff, hin => by
    rw [writeLoop]
    split
    · exact ⟨b, rfl⟩
    · next hrest =>
      have hpos : 0 < rest.length := List.length_pos_iff.mpr hrest
      have hindex : index < b.elems.length := Nat.lt_of_mul_lt_mul_right (a := b.writeSize) (by omega)
      rw [List.getElem?_eq_getElem hindex, ho.fraction hb hindex (by omega) (by rw [Nat.succ_mul]; omega)]
      dsimp only
      rw [if_neg (by decide)]
      have hlen := nextChunk_length rest hoff
      have hnew : (overwrite b.writeSize reverseEndness offset b.elems[index]
        (nextChunk b.writeSize offset rest)).length =
          b.writeSize := overwrite_length (hb.elems _ (List.getElem_mem hindex)) (by omega)
      have howned : b.Owned ((index + 1) * b.writeSize + 0)
        (rest.drop (nextChunk b.writeSize offset rest).length).length := by
        intro i f hlt hgt
        have hi : index + 1 < i + 1 := Nat.lt_of_mul_lt_mul_right (a := b.writeSize) (by omega)
        have hmul := Nat.mul_le_mul_right b.writeSize (Nat.le_of_lt_succ hi)
        rw [List.length_drop, hlen] at hlt
        rw [Nat.succ_mul] at hlt hmul
        exact ho i f (by omega) (by rw [Nat.succ_mul]; omega)
      refine writeLoop_total ?_ howned hb.writeSize_pos ?_
      · refine ⟨hb.size, by rw [List.length_set]; exact hb.fractions, fun e he => ?_⟩
        rcases List.mem_or_eq_of_mem_set he with he | rfl
        · exact hb.elems e he
        · exact hnew
      · change (index + 1) * b.writeSize + 0 + _ ≤ (b.elems.set index _).length * b.writeSize
        have hnext : (index + 1) * b.writeSize ≤ b.elems.length * b.writeSize := Nat.mul_le_mul_right _ hindex
        rw [Nat.succ_mul] at hnext
        rw [List.length_set, List.length_drop, hlen, Nat.succ_mul]
        omega

theorem nextChunk_eq (writeSize offset : ℕ) (rest : Bits) :
    nextChunk writeSize offset rest = rest.take (min rest.length (writeSize - offset)) := by
  unfold nextChunk
  split
  · rw [List.take_take, List.length_take]
    congr 1
    omega
  · next h0 => rw [not_not.mp h0, Nat.sub_zero]

/-- A bit of an allocation with one element replaced. -/
theorem seen_set {index j : ℕ} {new : Bits} (hindex : index < b.elems.length) :
    ({ b with elems := b.elems.set index new } : Block).seen reverseEndness j =
      if j / b.writeSize = index then (inOrder reverseEndness new)[j % b.writeSize]? else b.seen reverseEndness j := by
  change ((b.elems.set index new)[j / b.writeSize]?.bind fun e => (inOrder reverseEndness e)[j % b.writeSize]?) = _
  split
  · next h => rw [h, List.getElem?_set_self hindex, Option.bind_some]
  · next h => rw [List.getElem?_set_ne (Ne.symm h), Block.seen]

/-- **What a write leaves**: the value from its first bit on, as the access sees it, and every other bit. -/
theorem writeLoop_seen : ∀ {k : ℕ} {b b' : Block} {index offset : ℕ} {rest : Bits}, b.Wf → offset < b.writeSize →
    rest.length ≤ k → writeLoop reverseEndness k b index offset rest = some b' → ∀ j,
    b'.seen reverseEndness j =
      if index * b.writeSize + offset ≤ j ∧ j < index * b.writeSize + offset + rest.length then
        rest[j - (index * b.writeSize + offset)]? else b.seen reverseEndness j
  | 0, b, b', index, offset, rest, _, _, hk, h, j => by
    cases h
    rw [if_neg (by omega)]
  | k + 1, b, b', index, offset, rest, hb, hoff, hk, h, j => by
    rw [writeLoop] at h
    split at h
    · next hrest =>
      cases h
      rw [hrest, List.length_nil, if_neg (by omega)]
    · next hrest =>
      have hpos : 0 < rest.length := List.length_pos_iff.mpr hrest
      cases hc : b.elems[index]? with
      | none => rw [hc] at h; cases h
      | some current =>
        cases hf : b.fractions[index]? with
        | none => rw [hc, hf] at h; cases h
        | some fraction =>
          rw [hc, hf] at h
          dsimp only at h
          split at h
          · cases h
          · have hindex : index < b.elems.length := (List.getElem?_eq_some_iff.mp hc).1
            have hlen := nextChunk_length rest hoff
            have heq := nextChunk_eq b.writeSize offset rest
            set chunk := nextChunk b.writeSize offset rest
            set new := overwrite b.writeSize reverseEndness offset current chunk with hnew
            have hcurrent := hb.elem_length hc
            have hle : chunk.length + offset ≤ b.writeSize := by omega
            have hb₁ : Block.Wf { b with elems := b.elems.set index new } := by
              refine ⟨hb.size, by rw [List.length_set]; exact hb.fractions, fun e he => ?_⟩
              rcases List.mem_or_eq_of_mem_set he with he | rfl
              · exact hb.elems e he
              · exact overwrite_length hcurrent hle
            have ih := writeLoop_seen hb₁ hb.writeSize_pos (by rw [List.length_drop]; omega) h j
            rw [ih, seen_set hindex]
            change (if (index + 1) * b.writeSize + 0 ≤ j ∧ j < (index + 1) * b.writeSize + 0 +
              (rest.drop chunk.length).length then
              (rest.drop chunk.length)[j - ((index + 1) * b.writeSize + 0)]? else _) = _
            rw [Nat.add_zero, List.length_drop, List.getElem?_drop, Nat.succ_mul]
            -- the bits of the later elements, those of this one, and the others
            by_cases hlater : index * b.writeSize + b.writeSize ≤ j ∧
                j < index * b.writeSize + b.writeSize + (rest.length - chunk.length)
            · rw [if_pos hlater, if_pos (by omega)]
              congr 1
              omega
            · rw [if_neg hlater]
              have hdiv := Nat.div_add_mod j b.writeSize
              rw [Nat.mul_comm] at hdiv
              have hmod := Nat.mod_lt j hb.writeSize_pos
              split
              · next hj =>
                rw [hj] at hdiv
                have hcur : b.seen reverseEndness j = (inOrder reverseEndness current)[j % b.writeSize]? := by
                  rw [Block.seen, hj, hc, Option.bind_some]
                rw [hnew, getElem?_overwrite b.writeSize_eq hcurrent hle, hcur]
                by_cases hin : offset ≤ j % b.writeSize ∧ j % b.writeSize < offset + chunk.length
                · rw [if_pos hin, if_pos (by omega), heq, List.getElem?_take_of_lt (by omega)]
                  congr 1
                  omega
                · rw [if_neg hin, if_neg (by omega)]
              · next hj =>
                rw [if_neg]
                intro hin
                have hdivlt : j / b.writeSize < index ∨ index + 1 ≤ j / b.writeSize := by omega
                rcases hdivlt with hlt | hgt
                · have hmul := Nat.mul_le_mul_right b.writeSize (Nat.succ_le_of_lt hlt)
                  rw [Nat.succ_mul] at hmul
                  omega
                · have hmul := Nat.mul_le_mul_right b.writeSize hgt
                  rw [Nat.succ_mul] at hmul
                  omega

/-- The elements that an access touches. -/
def Block.touched (b : Block) (offset size : ℕ) : ℕ := (size * 8 + offset + b.writeSize - 1) / b.writeSize

/-- A read in bounds goes through the elements that it touches. -/
theorem readLoop_total (hb : b.Wf) {want start : ℕ} (ho : b.Owned (start * b.writeSize) want) :
    ∀ {k index : ℕ} {result : Bits}, result.length = (index - start) * b.writeSize → start ≤ index →
      want ≤ result.length + k →
    start * b.writeSize + want ≤ b.elems.length * b.writeSize → result.length < want + b.writeSize →
    ∃ v n, readLoop b want k index result = some v ∧ v.length = n * b.writeSize ∧ want ≤ v.length ∧
      v.length < want + b.writeSize
  | 0, index, result, hlen, _, hk, _, hlt => ⟨result, index - start, rfl, hlen, hk, hlt⟩
  | k + 1, index, result, hlen, hle, hk, hin, hlt => by
    rw [readLoop]
    split
    · next hdone => exact ⟨result, index - start, rfl, hlen, hdone, hlt⟩
    · next hmore =>
      have hstart : start * b.writeSize + (index - start) * b.writeSize = index * b.writeSize := by
        rw [← Nat.add_mul, Nat.add_sub_cancel' hle]
      have hindex : index < b.elems.length := Nat.lt_of_mul_lt_mul_right (a := b.writeSize) (by omega)
      have hchunk : (b.elems[index]).length = b.writeSize := hb.elems _ (List.getElem_mem hindex)
      have hpos := hb.writeSize_pos
      rw [List.getElem?_eq_getElem hindex, ho.fraction hb hindex (by omega) (by rw [Nat.succ_mul]; omega)]
      dsimp only
      rw [if_neg (by decide)]
      refine readLoop_total hb ho ?_ (Nat.le_succ_of_le hle) ?_ hin ?_
      · rw [List.length_append, hlen, hchunk, Nat.succ_sub hle, Nat.succ_mul]
      · rw [List.length_append]
        omega
      · rw [List.length_append]
        omega

theorem readLoop_start (hb : b.Wf) {want index : ℕ} {v : Bits} (h : readLoop b want want index [] = some v) :
    want ≤ v.length ∧ ∀ j < v.length, b.bit (index * b.writeSize + j) = v[j]? :=
  @readLoop_bits b hb _ _ index [] _ index (by simp) le_rfl (by simp) (fun j hj => absurd hj (Nat.not_lt_zero j)) h

/-- **What a read finds**: bits of the elements that it touches, all of them in its order. -/
theorem read_total (hb : b.Wf) {index offset size : ℕ} (ho : b.Owned (index * b.writeSize + offset) (size * 8))
    (hoff : offset < b.writeSize)
    (hin : index * b.writeSize + offset + size * 8 ≤ b.elems.length * b.writeSize) (reverseEndness : Bool) :
    ∃ v, b.read index offset size reverseEndness = some v ∧ v.length = size * 8 ∧ ∀ t < size * 8,
      v[t]? = b.bit (index * b.writeSize +
        if reverseEndness then mirror (b.touched offset size * b.size) (offset + t) else offset + t) := by
  have hpos := hb.writeSize_pos
  have howned : b.Owned (index * b.writeSize) (size * 8 + offset) := by
    intro i f hlt hgt
    have hi : index < i + 1 := Nat.lt_of_mul_lt_mul_right (a := b.writeSize) hgt
    have hmul := Nat.mul_le_mul_right b.writeSize (Nat.le_of_lt_succ hi)
    exact ho i f (by omega) (by rw [Nat.succ_mul]; omega)
  obtain ⟨v, n, hread, hlen, hge, hlt⟩ : ∃ v n, readLoop b (size * 8 + offset) (size * 8 + offset) index [] = some v ∧
      v.length = n * b.writeSize ∧ size * 8 + offset ≤ v.length ∧ v.length < size * 8 + offset + b.writeSize :=
    readLoop_total hb howned (by simp) le_rfl (by simp) (by omega) (by simp; omega)
  obtain ⟨-, hbits⟩ := readLoop_start hb hread
  have hn : b.touched offset size = n := by
    refine Nat.div_eq_of_lt_le ?_ ?_
    · omega
    · rw [Nat.succ_mul]
      omega
  have hlen8 : v.length = 8 * (b.touched offset size * b.size) := by rw [hlen, hn, b.writeSize_eq, Nat.mul_left_comm]
  refine ⟨((inOrder reverseEndness v).drop offset).take (size * 8), by rw [Block.read, hread]; rfl, ?_, fun t ht => ?_⟩
  · rw [List.length_take, List.length_drop, inOrder_length]
    omega
  · rw [List.getElem?_take_of_lt ht, List.getElem?_drop]
    cases reverseEndness with
    | false => exact (hbits _ (by omega)).symm
    | true =>
      have hlt : offset + t < 8 * (b.touched offset size * b.size) := by omega
      exact (getElem?_reversed hlen8 hlt).trans (hbits _ (hlen8 ▸ mirror_lt hlt)).symm

/-- A read in the native order finds the bits at its place. -/
theorem read_native (hb : b.Wf) {index offset size : ℕ} {v : Bits} (h : b.read index offset size false = some v) :
    v.length = size * 8 ∧ ∀ t < size * 8, b.bit (index * b.writeSize + offset + t) = v[t]? := by
  rw [Block.read, Option.map_eq_some_iff] at h
  obtain ⟨result, hres, rfl⟩ := h
  obtain ⟨hlen, hbits⟩ := readLoop_start hb hres
  refine ⟨by simp; omega, fun t ht => ?_⟩
  rw [Nat.add_assoc, hbits _ (by omega)]
  simp only [Bool.false_eq_true, ↓reduceIte]
  rw [List.getElem?_take_of_lt ht, List.getElem?_drop]

/-- Reading depends on the lengths of the elements and on the fractions to go through. -/
theorem readLoop_same {want : ℕ} (hf : b'.fractions = b.fractions)
    (he : ∀ i : ℕ, b'.elems[i]?.map List.length = b.elems[i]?.map List.length) :
      ∀ {k index : ℕ} {result result' v : Bits},
    result'.length = result.length → readLoop b want k index result = some v →
    ∃ v', readLoop b' want k index result' = some v'
  | 0, _, _, result', _, _, _ => ⟨result', rfl⟩
  | k + 1, index, result, result', v, hlen, h => by
    have hi := he index
    rw [readLoop] at h ⊢
    rw [hlen, hf]
    split at h
    · next hdone => exact ⟨result', by rw [if_pos hdone]⟩
    · next hmore =>
      rw [if_neg hmore]
      cases hc : b.elems[index]? with
      | none => rw [hc] at h; cases h
      | some chunk =>
        cases hg : b.fractions[index]? with
        | none => rw [hc, hg] at h; cases h
        | some fraction =>
          rw [hc, hg] at h
          rw [hc] at hi
          obtain ⟨chunk', hc', hchunk⟩ := Option.map_eq_some_iff.mp hi
          rw [hc']
          dsimp only at h ⊢
          split at h
          · cases h
          · next h0 =>
            rw [if_neg h0]
            exact readLoop_same hf he (by rw [List.length_append, List.length_append, hlen, hchunk]) h

/-! ### Reading back -/

/-- Every read in the native order finds the same bits outside of a range. -/
def Block.SameOutside (b b' : Block) (start length : ℕ) : Prop :=
  ∀ index offset size v, b.read index offset size false = some v → ∃ v', b'.read index offset size false = some v' ∧
    ∀ t < size * 8, ¬(start ≤ index * b.writeSize + offset + t ∧ index * b.writeSize + offset + t < start + length) →
      v'[t]? = v[t]?

/-- A value is written, and read at the same place, in the same width and order, it comes back; and nothing else
changes. -/
def Block.ReadsBack (b : Block) (index offset : ℕ) (value : Bits) (reverseEndness : Bool) : Prop :=
  ∃ b', b.write index offset value reverseEndness = some b' ∧
    b'.read index offset (value.length / 8) reverseEndness = some value ∧
    b.SameOutside b' (index * b.writeSize + offset) value.length

/-- The bits outside of a range are the same. -/
theorem sameOutside_iff (hb : b.Wf) (hb' : b'.Wf) (hsize : b'.size = b.size) (hf : b'.fractions = b.fractions)
    {start length : ℕ} (hbits : ∀ j, ¬(start ≤ j ∧ j < start + length) → b'.bit j = b.bit j) :
    b.SameOutside b' start length := by
  intro index offset size v hread
  obtain ⟨hlen, hv⟩ := read_native hb hread
  have hw : b'.writeSize = b.writeSize := by rw [Block.writeSize, Block.writeSize, hsize]
  have he : ∀ i : ℕ, b'.elems[i]?.map List.length = b.elems[i]?.map List.length := by
    intro i
    have hcount : b'.elems.length = b.elems.length := by rw [← hb'.fractions, ← hb.fractions, hf]
    rcases Nat.lt_or_ge i b.elems.length with hi | hi
    · have hi' : i < b'.elems.length := hcount ▸ hi
      rw [List.getElem?_eq_getElem hi, List.getElem?_eq_getElem hi', Option.map_some, Option.map_some,
        hb.elems _ (List.getElem_mem hi), hb'.elems _ (List.getElem_mem hi'), hw]
    · rw [List.getElem?_eq_none hi, List.getElem?_eq_none (hcount ▸ hi)]
  obtain ⟨result, hres, -⟩ := Option.map_eq_some_iff.mp hread
  obtain ⟨result', hres'⟩ := readLoop_same hf he rfl hres
  have hread' : b'.read index offset size false = some ((result'.drop offset).take (size * 8)) := by
    rw [Block.read, hres']
    rfl
  refine ⟨_, hread', fun t ht hout => ?_⟩
  rw [← (read_native hb' hread').2 t ht, ← hv t ht, hw]
  exact hbits _ hout

/-- The bits in the native order, from those that an access in the other order sees. -/
theorem bit_eq_seen (hb : b.Wf) (j : ℕ) :
    b.bit j = b.seen true (j / b.writeSize * b.writeSize + mirror b.size (j % b.writeSize)) := by
  have hmod := Nat.mod_lt j hb.writeSize_pos
  rw [b.writeSize_eq] at hmod
  have hmirror := mirror_lt hmod
  rw [← b.writeSize_eq] at hmod hmirror
  rw [seen_reversed hb hmirror, mirror_mirror (by rwa [← b.writeSize_eq]), Nat.mul_comm, Nat.div_add_mod]

/-- The bytes in the middle of an element are their own mirror image. -/
theorem mirror_mem {m o n y : ℕ} (h8 : 8 ∣ o) (hn : 2 * o + n * 8 = 8 * m) (hy : y < 8 * m) :
    (o ≤ mirror m y ∧ mirror m y < o + n * 8) ↔ o ≤ y ∧ y < o + n * 8 := by
  unfold mirror
  omega

/-- Other bytes have a bit whose mirror image is outside. -/
theorem exists_mirror_not_mem {m o n : ℕ} (hn : 0 < n) (hle : o + n * 8 ≤ 8 * m)
    (h : ¬(8 ∣ o ∧ 2 * o + n * 8 = 8 * m)) :
    ∃ y, o ≤ y ∧ y < o + n * 8 ∧ ¬(o ≤ mirror m y ∧ mirror m y < o + n * 8) := by
  by_contra hall
  push Not at hall
  unfold mirror at hall
  have h₀ := hall o le_rfl (by omega)
  have h₁ := hall (8 * (o / 8) + 7) (by omega) (by omega)
  have h₂ := hall (8 * ((o + n * 8 - 1) / 8)) (by omega) (by omega)
  omega

/-- An access within an element touches one. -/
theorem Block.touched_eq_one {offset size : ℕ} (hsize : 0 < size) (hle : offset + size * 8 ≤ b.writeSize) :
    b.touched offset size = 1 := by
  refine Nat.div_eq_of_lt_le ?_ ?_
  · omega
  · omega

/-- A place in an element is in no other one. -/
theorem div_eq_of_mem {w i k y : ℕ} (hy : y < w) (hge : i * w ≤ k * w + y) (hlt : k * w + y < i * w + w) : k = i := by
  rcases Nat.lt_trichotomy k i with h | h | h
  · have hmul := Nat.mul_le_mul_right w (Nat.succ_le_of_lt h)
    rw [Nat.succ_mul] at hmul
    omega
  · exact h
  · have hmul := Nat.mul_le_mul_right w (Nat.succ_le_of_lt h)
    rw [Nat.succ_mul] at hmul
    omega

/-- A bit that is not there. -/
theorem exists_ne_some : ∀ bit : Option Bool, ∃ c, bit ≠ some c
  | none => ⟨false, nofun⟩
  | some bit => ⟨!bit, by simp⟩

/-- Across elements, the mirror image is in another one. -/
theorem mirror_elements {m k y : ℕ} (hk : 0 < k) (hy : y < 8 * m) :
    mirror (k * m) y = (k - 1) * (8 * m) + mirror m y := by
  obtain ⟨k, rfl⟩ := Nat.exists_eq_succ_of_ne_zero (Nat.pos_iff_ne_zero.mp hk)
  have hmul : k * (8 * m) = 8 * (k * m) := Nat.mul_left_comm _ _ _
  rw [Nat.succ_sub_one, hmul, Nat.succ_mul]
  unfold mirror
  omega

section Access

variable {index offset size : ℕ} {value : Bits} (hb : b.Wf)
  (ho : b.Owned (index * b.writeSize + offset) (size * 8)) (hoff : offset < b.writeSize)
  (hin : index * b.writeSize + offset + size * 8 ≤ b.elems.length * b.writeSize) (hvalue : value.length = size * 8)
include hb ho hoff hin hvalue

/-- A write in bounds leaves an owned allocation, with the value where it was written. -/
theorem write_seen (reverseEndness : Bool) : ∃ b', b.write index offset value reverseEndness = some b' ∧ b'.Wf ∧
    b'.Owned (index * b.writeSize + offset) (size * 8) ∧ b'.size = b.size ∧ b'.fractions = b.fractions ∧ ∀ j,
      b'.seen reverseEndness j =
      if index * b.writeSize + offset ≤ j ∧ j < index * b.writeSize + offset + size * 8 then
        value[j - (index * b.writeSize + offset)]? else b.seen reverseEndness j := by
  rw [← hvalue] at ho hin ⊢
  obtain ⟨b', hwrite⟩ := @writeLoop_total reverseEndness value.length _ _ _ _ hb ho hoff hin
  obtain ⟨hb', hsize, hf, -⟩ := writeLoop_spec hb hoff hwrite
  refine ⟨b', hwrite, hb', ?_, hsize, hf, writeLoop_seen hb hoff le_rfl hwrite⟩
  rw [Block.Owned, hf, Block.writeSize, hsize]
  exact ho

/-- What is read back, bit by bit. -/
theorem read_written (reverseEndness : Bool) : ∃ b' v, b.write index offset value reverseEndness = some b' ∧
    b'.read index offset (value.length / 8) reverseEndness = some v ∧ b'.Wf ∧ b'.size = b.size ∧
    b'.fractions = b.fractions ∧ v.length = size * 8 ∧ (∀ t < size * 8, v[t]? = b'.bit (index * b.writeSize +
      if reverseEndness then mirror (b.touched offset size * b.size) (offset + t) else offset + t)) ∧
    ∀ j, b'.seen reverseEndness j =
      if index * b.writeSize + offset ≤ j ∧ j < index * b.writeSize + offset + size * 8 then
        value[j - (index * b.writeSize + offset)]? else b.seen reverseEndness j := by
  obtain ⟨b', hwrite, hb', ho', hsize, hf, hseen⟩ := write_seen hb ho hoff hin hvalue reverseEndness
  have hw : b'.writeSize = b.writeSize := by rw [Block.writeSize, Block.writeSize, hsize]
  have hcount : b'.elems.length = b.elems.length := by rw [← hb'.fractions, ← hb.fractions, hf]
  obtain ⟨v, hread, hlen, hbits⟩ := read_total hb' (hw.symm ▸ ho') (by rw [hw]; exact hoff)
    (by rw [hw, hcount]; exact hin)
    reverseEndness
  have htouched : b'.touched offset size = b.touched offset size := by rw [Block.touched, Block.touched, hw]
  rw [hw, htouched, hsize] at hbits
  have hwidth : value.length / 8 = size := by omega
  exact ⟨b', v, hwrite, by rw [hwidth]; exact hread, hb', hsize, hf, hlen, hbits, hseen⟩

theorem readsBack_native : b.ReadsBack index offset value false := by
  obtain ⟨b', v, hwrite, hread, hb', hsize, hf, hlen, hbits, hseen⟩ := read_written hb ho hoff hin hvalue false
  refine ⟨b', hwrite, ?_, ?_⟩
  · rw [hread]
    congr 1
    refine List.ext_getElem? fun t => ?_
    rcases Nat.lt_or_ge t (size * 8) with ht | ht
    · rw [hbits t ht, ← seen_native, hseen, if_neg Bool.false_ne_true, if_pos (by omega)]
      congr 1
      omega
    · rw [List.getElem?_eq_none (by omega), List.getElem?_eq_none (by omega)]
  · refine sameOutside_iff hb hb' hsize hf fun j hj => ?_
    rw [← seen_native, hseen, if_neg (by omega), seen_native]

theorem readsBack_centred (hsize : 0 < size) (h8 : 8 ∣ offset) (hmid : 2 * offset + size * 8 = b.writeSize) :
    b.ReadsBack index offset value true := by
  obtain ⟨b', v, hwrite, hread, hb', hsize', hf, hlen, hbits, hseen⟩ := read_written hb ho hoff hin hvalue true
  have hw : b'.writeSize = b.writeSize := by rw [Block.writeSize, Block.writeSize, hsize']
  have h8w := b.writeSize_eq
  rw [b.touched_eq_one hsize (by omega), Nat.one_mul] at hbits
  refine ⟨b', hwrite, ?_, ?_⟩
  · rw [hread]
    congr 1
    refine List.ext_getElem? fun t => ?_
    rcases Nat.lt_or_ge t (size * 8) with ht | ht
    · have hin' : offset + t < b.writeSize := by omega
      have hbit := seen_reversed hb' (i := index) (y := offset + t) (by rw [hw]; exact hin')
      rw [hw, hsize'] at hbit
      rw [hbits t ht, if_pos rfl, ← hbit, hseen, if_pos (by omega)]
      congr 1
      omega
    · rw [List.getElem?_eq_none (by omega), List.getElem?_eq_none (by omega)]
  · refine sameOutside_iff hb hb' hsize' hf fun j hj => ?_
    rw [bit_eq_seen hb' j, bit_eq_seen hb j, hw, hsize', hseen, if_neg]
    intro hmem
    have hdiv := Nat.div_add_mod j b.writeSize
    rw [Nat.mul_comm] at hdiv
    have hmod := Nat.mod_lt j hb.writeSize_pos
    have hmod8 : j % b.writeSize < 8 * b.size := by rwa [← h8w]
    have hmirror : mirror b.size (j % b.writeSize) < b.writeSize := lt_of_lt_of_eq (mirror_lt hmod8) h8w.symm
    have hindex : j / b.writeSize = index := div_eq_of_mem hmirror (by omega) (by omega)
    rw [hindex] at hmem hdiv
    have hmem' := (mirror_mem (n := size) h8 (by omega) hmod8).mp ⟨by omega, by omega⟩
    exact hj ⟨by omega, by omega⟩

end Access

section Necessity

variable {index offset size : ℕ} (hb : b.Wf) (ho : b.Owned (index * b.writeSize + offset) (size * 8))
  (hoff : offset < b.writeSize) (hsize : 0 < size)
  (hin : index * b.writeSize + offset + size * 8 ≤ b.elems.length * b.writeSize)
  (hback : ∀ value : Bits, value.length = size * 8 → b.ReadsBack index offset value true)
include hb ho hoff hsize hin hback

/-- What comes back in the other order was written in one element: of several, the first bit that is read is
one of the last. -/
theorem within_of_readsBack : offset + size * 8 ≤ b.writeSize := by
  by_contra hspan
  have hpos := hb.writeSize_pos
  set k := b.touched offset size with hk
  have hk2 : 1 < k := (Nat.le_div_iff_mul_le hpos).mpr (by omega)
  have hwk : b.writeSize ≤ (k - 1) * b.writeSize := Nat.le_mul_of_pos_left _ (by omega)
  set place := (index + (k - 1)) * b.writeSize + offset with hplace
  have hplace' : place = index * b.writeSize + (k - 1) * b.writeSize + offset := by rw [hplace, Nat.add_mul]
  -- a first bit that is neither the last ones nor what was there
  obtain ⟨c, hc⟩ := exists_ne_some (b.seen true place)
  let value : Bits := c :: List.replicate (size * 8 - 1) (!c)
  have hvalue : value.length = size * 8 := by
    simp only [value, List.length_cons, List.length_replicate]
    omega
  obtain ⟨b', v, hwrite, hread, hb', hsize', -, -, hbits, hseen⟩ := read_written hb ho hoff hin hvalue true
  obtain ⟨b'', hwrite', hread', -⟩ := hback value hvalue
  cases hwrite.symm.trans hwrite'
  cases hread.symm.trans hread'
  have hw : b'.writeSize = b.writeSize := by rw [Block.writeSize, Block.writeSize, hsize']
  have hfirst : value[0]? = b'.seen true place := by
    have hmirror : mirror (k * b.size) offset = (k - 1) * b.writeSize + mirror b.size offset := by
      rw [mirror_elements (by omega) (by rwa [← b.writeSize_eq]), ← b.writeSize_eq]
    have hrev := seen_reversed hb' (i := index + (k - 1)) (y := offset) (hw ▸ hoff)
    rw [hw, hsize', ← hplace] at hrev
    rw [hbits 0 (by omega), if_pos rfl, Nat.add_zero, hmirror, hrev, ← Nat.add_assoc, ← Nat.add_mul]
  rw [hseen, hplace'] at hfirst
  split at hfirst
  · next hwritten =>
    have hlater : index * b.writeSize + (k - 1) * b.writeSize + offset - (index * b.writeSize + offset) =
        ((k - 1) * b.writeSize - 1) + 1 := by omega
    rw [hlater, List.getElem?_cons_succ, List.getElem?_replicate_of_lt (by omega)] at hfirst
    exact absurd (Option.some_inj.mp hfirst) (Bool.eq_not_self c).mp
  · rw [← hplace'] at hfirst
    exact hc hfirst.symm

/-- And it was written in the middle: other places have a bit whose mirror image is not in the access, but
changes. -/
theorem centred_of_readsBack : 8 ∣ offset ∧ 2 * offset + size * 8 = b.writeSize := by
  have hle := within_of_readsBack hb ho hoff hsize hin hback
  have h8 := b.writeSize_eq
  by_contra hmid
  rw [h8] at hle hmid
  obtain ⟨y, hge, hlt, hout⟩ := exists_mirror_not_mem hsize hle hmid
  have hmirror := mirror_lt (m := b.size) (t := y) (by omega)
  set z := mirror b.size y with hz
  -- a value that has nothing of what was there
  obtain ⟨c, hc⟩ := exists_ne_some (b.bit (index * b.writeSize + z))
  let value : Bits := List.replicate (size * 8) c
  have hvalue : value.length = size * 8 := List.length_replicate
  have helem : index * b.writeSize + 0 + b.size * 8 ≤ b.elems.length * b.writeSize := by
    have hindex : index < b.elems.length := Nat.lt_of_mul_lt_mul_right (a := b.writeSize) (by omega)
    have hmul := Nat.mul_le_mul_right b.writeSize (Nat.succ_le_of_lt hindex)
    rw [Nat.succ_mul] at hmul
    omega
  have howned : b.Owned (index * b.writeSize + 0) (b.size * 8) := by
    intro i f hlt' hgt
    have hi₁ : i < index + 1 := Nat.lt_of_mul_lt_mul_right (a := b.writeSize) (by rw [Nat.succ_mul]; omega)
    have hi₂ : index < i + 1 := Nat.lt_of_mul_lt_mul_right (a := b.writeSize) hgt
    have hi : i = index := by omega
    rw [hi]
    exact ho index f (by omega) (by rw [Nat.succ_mul]; omega)
  obtain ⟨b', hwrite, hb', -, hsize', -, hseen⟩ := write_seen hb ho hoff hin hvalue true
  obtain ⟨b'', hwrite', -, hsame⟩ := hback value hvalue
  cases hwrite.symm.trans hwrite'
  have hw : b'.writeSize = b.writeSize := by rw [Block.writeSize, Block.writeSize, hsize']
  obtain ⟨v, hread, -, hbits⟩ := read_total hb howned hb.writeSize_pos helem false
  obtain ⟨v', hread', hkept⟩ := hsame _ _ _ _ hread
  have hnew : v'[z]? = some c := by
    rw [← (read_native hb' hread').2 z (by omega), hw, Nat.add_zero]
    have hrev := seen_reversed hb' (i := index) (y := y) (by omega)
    rw [hw, hsize', ← hz] at hrev
    rw [← hrev, hseen, if_pos (by omega), List.getElem?_replicate_of_lt (by omega)]
  rw [hkept z (by omega) (by omega), hbits z (by omega), if_neg Bool.false_ne_true, Nat.zero_add] at hnew
  exact hc hnew

end Necessity

/-- **Reading what was written** at every place in bounds, in every width: in the native order it comes back and
nothing else changes. In the other order it does for the bytes in the middle of one element only. -/
theorem readsBack_iff {index offset size : ℕ} (hb : b.Wf) (ho : b.Owned (index * b.writeSize + offset) (size * 8))
    (hoff : offset < b.writeSize) (hsize : 0 < size)
    (hin : index * b.writeSize + offset + size * 8 ≤ b.elems.length * b.writeSize) :
    (∀ value : Bits, value.length = size * 8 → b.ReadsBack index offset value reverseEndness) ↔
      reverseEndness = false ∨ (8 ∣ offset ∧ 2 * offset + size * 8 = b.writeSize) := by
  constructor
  · intro h
    cases reverseEndness with
    | false => exact Or.inl rfl
    | true => exact Or.inr (centred_of_readsBack hb ho hoff hsize hin h)
  · intro h value hvalue
    cases reverseEndness with
    | false => exact readsBack_native hb ho hoff hin hvalue
    | true =>
      obtain ⟨h8, hmid⟩ := h.resolve_left nofun
      exact readsBack_centred hb ho hoff hin hvalue hsize h8 hmid

/-- An allocation of one element of four bytes. -/
def word : Block := { count := 1, size := 4, elems := [List.replicate 32 false], fractions := [100] }

/-- Two bytes in the middle of a word. -/
theorem readsBack_middle :
    word.Wf ∧ ∀ value : Bits, value.length = 2 * 8 → word.ReadsBack 0 8 value true := by
  have hwf : word.Wf := ⟨by decide, by decide, by decide⟩
  refine ⟨hwf, (readsBack_iff hwf (Block.owned_of_all ?_ _ _) (by decide) (by decide) (by decide)).mpr ?_⟩
  · simp [word]
  · exact Or.inr (by decide)

/-- An allocation of two elements of one byte. -/
def bytes : Block :=
  { count := 2, size := 1, elems := [List.replicate 8 false, List.replicate 8 false], fractions := [100, 100] }

/-- A two-byte value in an array of bytes: it is written byte after byte, and read in the other order. -/
theorem not_readsBack : bytes.Wf ∧ bytes.Owned 0 16 ∧ ¬bytes.ReadsBack 0 0 (true :: List.replicate 15 false) true := by
  refine ⟨⟨by decide, by decide, by decide⟩, Block.owned_of_all (by simp [bytes]) _ _, ?_⟩
  rintro ⟨b', hwrite, hread, -⟩
  have hback : (bytes.write 0 0 (true :: List.replicate 15 false) true).bind (·.read 0 0 2 true) ≠
      some (true :: List.replicate 15 false) := by decide
  rw [hwrite] at hback
  exact hback hread

end Tool
end Klint
