/-
# The tables of network functions in specifications

The ghost maps of a `KeyedPool`, as the specification of a network function finds them: the
map from keys to indexes, the array of keys and the pool's map from indexes to times.
`ExpiringSet` on these maps says of a table what the C functions compute of it, before and
after a packet: `contains_table`, `didRefresh_table`, `full_table`, `getByIndex_table` and
`getIndex_table`.
-/
import Klint.Structs.KeyedPool
import Klint.Tool.SpecUtils

namespace Klint
namespace Tool

/-! ### Keys -/

/-- How the keys of a table are laid out: their bits in memory, and what a specification makes of them. -/
structure KeyLayout (K : Type) where
  size : ℕ
  type : Option (List (String × ℕ))
  num : K → SpecNum
  item : K → SpecItem
  unwrap_item : ∀ k, (item k).unwrap size = .ok (num k)
  wrap_num : ∀ k, SpecItem.wrap (num k) type = .ok (item k)
  item_inj : Function.Injective item

theorem KeyLayout.num_inj {K : Type} (L : KeyLayout K) {k k' : K} (h : L.num k = L.num k') : k = k' := by
  have hitem := L.wrap_num k
  rw [h, L.wrap_num k', Except.ok.injEq] at hitem
  exact (L.item_inj hitem).symm

theorem nat64_toNat {n : ℕ} (h : n < 2 ^ 64) : (SpecNum.nat64 n).bits.toNat = n := by
  change (BitVec.ofNat 64 n).toNat = n
  rw [BitVec.toNat_ofNat, Nat.mod_eq_of_lt h]

theorem nat64_inj {n m : ℕ} (hn : n < 2 ^ 64) (hm : m < 2 ^ 64) : SpecNum.nat64 n = SpecNum.nat64 m ↔ n = m := by
  refine ⟨fun h => ?_, fun h => h ▸ rfl⟩
  rw [← nat64_toNat hn, ← nat64_toNat hm, h]

/-! ### Ghost maps -/

variable {K : Type} [Inhabited K]

/-- The values of a C map, by the contents of the keys. -/
def mapValues {P : Type} (L : KeyLayout K) (mem : P → ℕ → K) (map : CMap P) : List (SpecNum × SpecNum) :=
  (List.range map.capacity).filterMap fun s =>
    (map.item s).keyAddr.map fun p => (L.num (mem p map.keySize), SpecNum.nat64 (map.item s).value)

/-- The elements of an array. -/
def arrayItems {A : Type} (num : A → SpecNum) (array : List A) : List (SpecNum × SpecNum) :=
  array.mapIdx fun i a => (SpecNum.nat64 i, num a)

/-- The items of a pool. -/
def poolItems (pool : IndexPool) : List (SpecNum × SpecNum) :=
  (List.range pool.size).filterMap fun i => (pool.items i).map fun time => (SpecNum.nat64 i, SpecNum.nat64 time)

/-- The maps of a table after a packet, with those before it. -/
def tableMaps (L : KeyLayout K) (before after : KeyedPool K) : ChosenSet where
  elemsToIndices := ⟨L.size, mapValues L (keyMem after.keys) after.map, mapValues L (keyMem before.keys) before.map⟩
  indicesToElems := ⟨64, arrayItems L.num after.keys, arrayItems L.num before.keys⟩
  indicesToTimes := ⟨64, poolItems after.pool, poolItems before.pool⟩

/-- A key with one value is looked up when it is in the list. -/
theorem lookup_iff {α β : Type} [BEq α] [LawfulBEq α] {k : α} {v : β} : ∀ {l : List (α × β)},
    (∀ v w, (k, v) ∈ l → (k, w) ∈ l → v = w) → (l.lookup k = some v ↔ (k, v) ∈ l)
  | [], _ => by simp
  | (a, b) :: l, h => by
    rw [List.lookup_cons]
    by_cases ha : k = a
    · subst ha
      simp only [beq_self_eq_true, Option.some.injEq]
      constructor
      · rintro rfl
        exact List.mem_cons_self
      · intro hv
        exact h b v List.mem_cons_self hv
    · have hne : (k == a) = false := beq_false_of_ne ha
      rw [hne]
      dsimp only
      rw [lookup_iff fun v w hv hw => h v w (List.mem_cons_of_mem _ hv) (List.mem_cons_of_mem _ hw), List.mem_cons,
        or_iff_right]
      exact fun he => ha (Prod.mk.inj he).1

omit [Inhabited K] in
theorem mem_mapValues {P : Type} {L : KeyLayout K} {mem : P → ℕ → K} {map : CMap P} {a b : SpecNum} :
    (a, b) ∈ mapValues L mem map ↔ ∃ q w, map.Entry q w ∧ L.num (mem q map.keySize) = a ∧ SpecNum.nat64 w = b := by
  simp only [mapValues, List.mem_filterMap, List.mem_range, Option.map_eq_some_iff, Prod.mk.injEq]
  constructor
  · rintro ⟨s, hs, q, hq, ha, hb⟩
    exact ⟨q, _, ⟨s, hs, hq, rfl⟩, ha, hb⟩
  · rintro ⟨q, w, ⟨s, hs, hq, rfl⟩, ha, hb⟩
    exact ⟨s, hs, q, hq, ha, hb⟩

omit [Inhabited K] in
theorem length_mapValues {P : Type} (L : KeyLayout K) (mem : P → ℕ → K) (map : CMap P) :
    (mapValues L mem map).length = map.count := by
  rw [mapValues, List.length_filterMap_eq_countP, CMap.count, ← List.toFinset_range, ← List.toFinset_filter,
    List.toFinset_card_of_nodup (List.Nodup.filter _ List.nodup_range), List.countP_eq_length_filter]
  simp

/-- An index below the size of an array has its element. -/
theorem lookup_arrayItems {A : Type} (num : A → SpecNum) {array : List A} {i : ℕ} (hlen : array.length < 2 ^ 64)
    (hi : i < 2 ^ 64) : (arrayItems num array).lookup (SpecNum.nat64 i) = (array[i]?).map num := by
  have hmem : ∀ b, (SpecNum.nat64 i, b) ∈ arrayItems num array ↔ (array[i]?).map num = some b := by
    intro b
    rw [arrayItems, List.mem_mapIdx, Option.map_eq_some_iff]
    constructor
    · rintro ⟨j, hj, he⟩
      rw [Prod.mk.injEq, nat64_inj (hj.trans hlen) hi] at he
      obtain ⟨rfl, rfl⟩ := he
      exact ⟨array[j], List.getElem?_eq_getElem hj, rfl⟩
    · rintro ⟨a, ha, rfl⟩
      obtain ⟨hj, rfl⟩ := List.getElem?_eq_some_iff.mp ha
      exact ⟨i, hj, rfl⟩
  refine Option.ext fun b => ?_
  rw [lookup_iff fun v w hv hw => ?_, hmem]
  rw [hmem] at hv hw
  exact Option.some.inj (hv.symm.trans hw)

/-- An index of a pool has its time. -/
theorem lookup_poolItems {pool : IndexPool} (hsize : pool.size < 2 ^ 64) {i : ℕ} (hi : i < 2 ^ 64) :
    (poolItems pool).lookup (SpecNum.nat64 i) = (pool.items i).map SpecNum.nat64 := by
  have hmem : ∀ b, (SpecNum.nat64 i, b) ∈ poolItems pool ↔ (pool.items i).map SpecNum.nat64 = some b := by
    intro b
    simp only [poolItems, List.mem_filterMap, List.mem_range, Option.map_eq_some_iff, Prod.mk.injEq]
    constructor
    · rintro ⟨j, hj, ts, hts, he, rfl⟩
      obtain rfl := (nat64_inj (hj.trans hsize) hi).mp he
      exact ⟨ts, hts, rfl⟩
    · rintro ⟨ts, hts, rfl⟩
      exact ⟨i, IndexPool.items_lt hts, ts, hts, rfl, rfl⟩
  refine Option.ext fun b => ?_
  rw [lookup_iff fun v w hv hw => ?_, hmem]
  rw [hmem] at hv hw
  exact Option.some.inj (hv.symm.trans hw)

theorem mem_poolItems {pool : IndexPool} {a b : SpecNum} :
    (a, b) ∈ poolItems pool ↔ ∃ i ts, pool.items i = some ts ∧ SpecNum.nat64 i = a ∧ SpecNum.nat64 ts = b := by
  simp only [poolItems, List.mem_filterMap, List.mem_range, Option.map_eq_some_iff, Prod.mk.injEq]
  constructor
  · rintro ⟨i, -, ts, hts, ha, hb⟩
    exact ⟨i, ts, hts, ha, hb⟩
  · rintro ⟨i, ts, hts, ha, hb⟩
    exact ⟨i, IndexPool.items_lt hts, ts, hts, ha, hb⟩

/-! ### Numbers of 64 bits -/

section

variable {a b : ℕ} (ha : a < 2 ^ 64) (hb : b < 2 ^ 64)

include ha hb

theorem eq_nat64 : (SpecNum.nat64 a).eq (SpecNum.nat64 b) = decide (a = b) := by
  change (BitVec.ofNat 64 a == (BitVec.ofNat 64 b).setWidth 64) = _
  rw [BitVec.setWidth_eq, beq_eq_decide, decide_eq_decide, ← BitVec.toNat_inj, BitVec.toNat_ofNat, BitVec.toNat_ofNat,
    Nat.mod_eq_of_lt ha, Nat.mod_eq_of_lt hb]

theorem lt_nat64 : (SpecNum.nat64 a).lt (SpecNum.nat64 b) = decide (a < b) := by
  change (BitVec.ofNat 64 a).ult ((BitVec.ofNat 64 b).setWidth 64) = _
  rw [BitVec.setWidth_eq, BitVec.ult, BitVec.toNat_ofNat, BitVec.toNat_ofNat, Nat.mod_eq_of_lt ha, Nat.mod_eq_of_lt hb]

theorem le_nat64 : (SpecNum.nat64 a).le (SpecNum.nat64 b) = decide (a ≤ b) := by
  change (BitVec.ofNat 64 a).ule ((BitVec.ofNat 64 b).setWidth 64) = _
  rw [BitVec.setWidth_eq, BitVec.ule, BitVec.toNat_ofNat, BitVec.toNat_ofNat, Nat.mod_eq_of_lt ha, Nat.mod_eq_of_lt hb]

theorem gt_nat64 : (SpecNum.nat64 a).gt (SpecNum.nat64 b) = decide (b < a) := by
  change ((BitVec.ofNat 64 b).setWidth 64).ult (BitVec.ofNat 64 a) = _
  rw [BitVec.setWidth_eq, BitVec.ult, BitVec.toNat_ofNat, BitVec.toNat_ofNat, Nat.mod_eq_of_lt ha, Nat.mod_eq_of_lt hb]

theorem ge_nat64 : (SpecNum.nat64 a).ge (SpecNum.nat64 b) = decide (b ≤ a) := by
  change ((BitVec.ofNat 64 b).setWidth 64).ule (BitVec.ofNat 64 a) = _
  rw [BitVec.setWidth_eq, BitVec.ule, BitVec.toNat_ofNat, BitVec.toNat_ofNat, Nat.mod_eq_of_lt ha, Nat.mod_eq_of_lt hb]

theorem sub_nat64 (hle : b ≤ a) : (SpecNum.nat64 a).sub (SpecNum.nat64 b) = SpecNum.nat64 (a - b) := by
  refine SpecNum.ext_toNat rfl ?_
  change ((BitVec.ofNat 64 a - (BitVec.ofNat 64 b).setWidth 64).setWidth 64).toNat = (BitVec.ofNat 64 (a - b)).toNat
  rw [BitVec.setWidth_eq, BitVec.setWidth_eq, BitVec.toNat_sub, BitVec.toNat_ofNat, BitVec.toNat_ofNat,
    BitVec.toNat_ofNat]
  omega

end

/-- A 16-bit number against a parameter. -/
theorem eq_u16_nat64 (v : UInt16) (d : ℕ) : (SpecNum.u16 v).eq (SpecNum.nat64 d) = decide (v = UInt16.ofNat d) := by
  change (v.toBitVec == (BitVec.ofNat 64 d).setWidth 16) = _
  rw [beq_eq_decide, decide_eq_decide, ← UInt16.toBitVec_inj, ← BitVec.toNat_inj, ← BitVec.toNat_inj,
    BitVec.toNat_setWidth, BitVec.toNat_ofNat, UInt16.toNat_toBitVec, UInt16.toNat_toBitVec, UInt16.toNat_ofNat']
  omega

theorem eq_u16 (v w : UInt16) : (SpecNum.u16 v).eq (SpecNum.u16 w) = decide (v = w) := by
  rw [SpecNum.eq_of_size (a := .u16 v) (b := .u16 w) rfl, decide_eq_decide, SpecNum.u16, SpecNum.u16, SpecNum.mk.injEq,
    ← UInt16.toBitVec_inj]
  exact ⟨fun h => eq_of_heq h.2, fun h => ⟨rfl, heq_of_eq h⟩⟩

theorem eq_u32 (v w : UInt32) : (SpecNum.u32 v).eq (SpecNum.u32 w) = decide (v = w) := by
  rw [SpecNum.eq_of_size (a := .u32 v) (b := .u32 w) rfl, decide_eq_decide, SpecNum.u32, SpecNum.u32, SpecNum.mk.injEq,
    ← UInt32.toBitVec_inj]
  exact ⟨fun h => eq_of_heq h.2, fun h => ⟨rfl, heq_of_eq h⟩⟩

theorem eq_u8 (v w : UInt8) : (SpecNum.u8 v).eq (SpecNum.u8 w) = decide (v = w) := by
  rw [SpecNum.eq_of_size (a := .u8 v) (b := .u8 w) rfl, decide_eq_decide, SpecNum.u8, SpecNum.u8, SpecNum.mk.injEq,
    ← UInt8.toBitVec_inj]
  exact ⟨fun h => eq_of_heq h.2, fun h => ⟨rfl, heq_of_eq h⟩⟩

theorem eq_u32_nat64 (v : UInt32) (d : ℕ) : (SpecNum.u32 v).eq (SpecNum.nat64 d) = decide (v = UInt32.ofNat d) := by
  change (v.toBitVec == (BitVec.ofNat 64 d).setWidth 32) = _
  rw [beq_eq_decide, decide_eq_decide, ← UInt32.toBitVec_inj, ← BitVec.toNat_inj, ← BitVec.toNat_inj,
    BitVec.toNat_setWidth, BitVec.toNat_ofNat, UInt32.toNat_toBitVec, UInt32.toNat_toBitVec, UInt32.toNat_ofNat']
  omega

theorem add_nat64 (a b : ℕ) : (SpecNum.nat64 a).add (SpecNum.nat64 b) = SpecNum.nat64 (a + b) := by
  refine SpecNum.ext_toNat rfl ?_
  change ((BitVec.ofNat 64 a + (BitVec.ofNat 64 b).setWidth 64).setWidth 64).toNat = (BitVec.ofNat 64 (a + b)).toNat
  rw [BitVec.setWidth_eq, BitVec.setWidth_eq, ← BitVec.ofNat_add]

/-- A parameter subtracted from a 16-bit number: in 16 bits, then with zeros. -/
theorem sub_u16_nat64 (v : UInt16) (d : ℕ) :
    (SpecNum.u16 v).sub (SpecNum.nat64 d) = SpecNum.nat64 (v - UInt16.ofNat d).toNat := by
  refine SpecNum.ext_toNat rfl ?_
  have hv := v.toNat_lt
  change ((v.toBitVec - (BitVec.ofNat 64 d).setWidth 16).setWidth 64).toNat =
    (BitVec.ofNat 64 (v - UInt16.ofNat d).toNat).toNat
  rw [BitVec.toNat_setWidth, BitVec.toNat_sub, BitVec.toNat_setWidth, BitVec.toNat_ofNat, BitVec.toNat_ofNat,
    UInt16.toNat_sub, UInt16.toNat_ofNat', UInt16.toNat_toBitVec]
  congr 2
  omega

theorem ge_nat64_u16 {i : ℕ} (hi : i < 2 ^ 64) (v : UInt16) :
    (SpecNum.nat64 i).ge (SpecNum.u16 v) = decide (v.toNat ≤ i) := by
  have hv := v.toNat_lt
  change (v.toBitVec.setWidth 64).ule (BitVec.ofNat 64 i) = _
  rw [BitVec.ule, BitVec.toNat_setWidth, BitVec.toNat_ofNat, Nat.mod_eq_of_lt hi, UInt16.toNat_toBitVec,
    Nat.mod_eq_of_lt (by omega)]

/-- A 16-bit number as a 64-bit key. -/
theorem unwrap_u16 (v : UInt16) : (SpecItem.num (SpecNum.u16 v)).unwrap 64 = .ok (SpecNum.nat64 v.toNat) := by
  refine congrArg Except.ok (SpecNum.ext_toNat rfl ?_)
  change (v.toBitVec.setWidth 64).toNat = (BitVec.ofNat 64 v.toNat).toNat
  rw [BitVec.toNat_setWidth, BitVec.toNat_ofNat, UInt16.toNat_toBitVec]

/-! ### Expiring sets of tables -/

/-- A table within its invariant, with no time later than `now`. -/
structure Seen (hash : K → UInt32) (E n now : ℕ) (t : KeyedPool K) : Prop where
  inv : t.Inv hash n
  expiration : t.pool.expirationTime = E
  times : ∀ i ts, t.pool.items i = some ts → ts ≤ now

/-- The `ExpiringSet` of a table. -/
def tableSet (L : KeyLayout K) (E n now : ℕ) (before after : KeyedPool K) : SpecExpiringSet :=
  .new L.type (SpecNum.nat64 E) (SpecNum.nat64 n) (SpecNum.nat64 now) (tableMaps L before after)

theorem tableSet_old (L : KeyLayout K) (E n now : ℕ) (before after : KeyedPool K) :
    (tableSet L E n now before after).old = tableSet L E n now before before := rfl

variable [DecidableEq K] {hash : K → UInt32} {E n now : ℕ} {L : KeyLayout K} {before t : KeyedPool K}

/-- The parameters of a table have 64 bits. -/
structure Params64 (E n now : ℕ) : Prop where
  expiration : E < 2 ^ 64
  capacity : n * 64 ≤ sizeMax
  time : now < 2 ^ 64

namespace Params64

theorem size_lt (hp : Params64 E n now) : n < 2 ^ 64 := by
  have h := hp.capacity
  unfold sizeMax at h
  omega

end Params64

omit [DecidableEq K] in
theorem young_table (hp : Params64 E n now) {ts : ℕ} (hts : ts ≤ now) :
    (tableSet L E n now before t).young (SpecNum.nat64 ts) = decide (poolYoung now E ts) := by
  have hts64 : ts < 2 ^ 64 := lt_of_le_of_lt hts hp.time
  change ((SpecNum.nat64 now).lt (SpecNum.nat64 E) ||
    ((SpecNum.nat64 now).sub (SpecNum.nat64 E)).le (SpecNum.nat64 ts)) = _
  rw [lt_nat64 hp.time hp.expiration]
  by_cases hlt : now < E
  · rw [decide_eq_true hlt, Bool.true_or]
    exact (decide_eq_true (Or.inl hlt)).symm
  · rw [sub_nat64 hp.time hp.expiration (by omega), le_nat64 (lt_of_le_of_lt (Nat.sub_le _ _) hp.time) hts64,
      ← Bool.decide_or]
    rfl

omit [DecidableEq K] in
theorem expired_table (hp : Params64 E n now) {ts : ℕ} (hts : ts ≤ now) :
    (tableSet L E n now before t).expired (SpecNum.nat64 ts) = !decide (poolYoung now E ts) := by
  have hts64 : ts < 2 ^ 64 := lt_of_le_of_lt hts hp.time
  change ((SpecNum.nat64 now).ge (SpecNum.nat64 E) &&
    ((SpecNum.nat64 now).sub (SpecNum.nat64 E)).gt (SpecNum.nat64 ts)) = _
  rw [ge_nat64 hp.time hp.expiration, ← decide_not]
  by_cases hle : E ≤ now
  · rw [sub_nat64 hp.time hp.expiration hle, gt_nat64 (lt_of_le_of_lt (Nat.sub_le _ _) hp.time) hts64,
      decide_eq_true hle, Bool.true_and, decide_eq_decide]
    unfold poolYoung
    omega
  · rw [decide_eq_false hle, Bool.false_and]
    refine (decide_eq_false ?_).symm
    unfold poolYoung
    omega

/-- A key is bound to the index that is found. -/
theorem lookup_mapValues (h : t.Inv hash n) (k : K) :
    (mapValues L (keyMem t.keys) t.map).lookup (L.num k) = (t.find hash k).map SpecNum.nat64 := by
  have hmem : ∀ b, (L.num k, b) ∈ mapValues L (keyMem t.keys) t.map ↔ (t.find hash k).map SpecNum.nat64 = some b := by
    intro b
    rw [mem_mapValues, Option.map_eq_some_iff]
    constructor
    · rintro ⟨q, i, hq, hk, rfl⟩
      obtain ⟨rfl, hts⟩ := (h.entry q i).mp hq
      exact ⟨i, h.find_iff.mpr ⟨hts, L.num_inj hk⟩, rfl⟩
    · rintro ⟨i, hi, rfl⟩
      obtain ⟨hts, hk⟩ := h.find_iff.mp hi
      exact ⟨.elem i, i, (h.entry _ i).mpr ⟨rfl, hts⟩, congrArg L.num hk, rfl⟩
  refine Option.ext fun b => ?_
  rw [lookup_iff fun v w hv hw => ?_, hmem]
  rw [hmem] at hv hw
  exact Option.some.inj (hv.symm.trans hw)

omit [DecidableEq K] in
/-- The element of an index in use is its key. -/
theorem getElem_keys (h : t.Inv hash n) {i : ℕ} (hi : i < n) : t.keys[i]? = some (t.key i) := by
  have hlt : i < t.keys.length := h.keys_length.symm ▸ hi
  rw [KeyedPool.key, List.getD_eq_getElem?_getD, List.getElem?_eq_getElem hlt, Option.getD_some]

theorem contains_elems (h : t.Inv hash n) (k : K) :
    (tableSet L E n now before t).elemsToIndices.contains (L.item k) = .ok (t.find hash k).isSome := by
  have hlookup := lookup_mapValues (L := L) h k
  simp only [tableSet, SpecExpiringSet.new, SpecMap.contains, tableMaps, L.unwrap_item, Except.map, hlookup,
    Option.isSome_map]

theorem getItem_elems (h : t.Inv hash n) {k : K} {i : ℕ} (hi : t.find hash k = some i) :
    (tableSet L E n now before t).elemsToIndices.getItem (L.item k) = .ok (.num (SpecNum.nat64 i)) := by
  have hlookup := lookup_mapValues (L := L) h k
  rw [hi] at hlookup
  simp only [tableSet, SpecExpiringSet.new, SpecMap.getItem, tableMaps, L.unwrap_item, bind, Except.bind, hlookup,
    Option.map_some, SpecItem.wrap]

/-- A 64-bit number is its own key. -/
theorem unwrap_nat64 (i : ℕ) : (SpecItem.num (SpecNum.nat64 i)).unwrap 64 = .ok (SpecNum.nat64 i) := rfl

omit [DecidableEq K] in
theorem contains_times (h : t.Inv hash n) (hp : Params64 E n now) {i : ℕ} (hi : i < 2 ^ 64) :
    (tableSet L E n now before t).indicesToTimes.contains (.num (SpecNum.nat64 i)) = .ok (t.pool.items i).isSome := by
  have hlookup := @lookup_poolItems t.pool (h.pool_size ▸ hp.size_lt) _ hi
  simp only [tableSet, SpecExpiringSet.new, SpecMap.contains, tableMaps, unwrap_nat64, Except.map, hlookup,
    Option.isSome_map]

omit [DecidableEq K] in
theorem getItem_times (h : t.Inv hash n) (hp : Params64 E n now) {i ts : ℕ} (hi : t.pool.items i = some ts) :
    (tableSet L E n now before t).indicesToTimes.getItem (.num (SpecNum.nat64 i)) = .ok (.num (SpecNum.nat64 ts)) := by
  have hlookup := @lookup_poolItems t.pool (h.pool_size ▸ hp.size_lt) _ ((h.lt_of_items hi).trans hp.size_lt)
  rw [hi] at hlookup
  simp only [tableSet, SpecExpiringSet.new, SpecMap.getItem, tableMaps, unwrap_nat64, bind, Except.bind, hlookup,
    Option.map_some, SpecItem.wrap]

theorem timeOf_table (h : t.Inv hash n) (hp : Params64 E n now) {k : K} {i ts : ℕ} (hi : t.find hash k = some i)
    (hts : t.pool.items i = some ts) :
    (tableSet L E n now before t).timeOf (L.item k) = .ok (SpecNum.nat64 ts) := by
  simp only [SpecExpiringSet.timeOf, getItem_elems h hi, bind, Except.bind, getItem_times h hp hts, SpecItem.toNum]

variable (before)

/-- An element is in the set when it is found at an index that is used. -/
theorem contains_table (h : Seen hash E n now t) (hp : Params64 E n now) (k : K) :
    (tableSet L E n now before t).contains (L.item k) =
      .ok (match t.find hash k with
        | none => false
        | some i => indexPoolUsed t.pool now i) := by
  simp only [SpecExpiringSet.contains, contains_elems h.inv, bind, Except.bind]
  cases hf : t.find hash k with
  | none => rfl
  | some i =>
    obtain ⟨⟨ts, hts⟩, -⟩ := h.inv.find_iff.mp hf
    simp only [Option.isSome_some, ↓reduceIte, timeOf_table h.inv hp hf hts, young_table hp (h.times i ts hts)]
    refine congrArg Except.ok ?_
    rw [Bool.eq_iff_iff, decide_eq_true_iff, IndexPool.used_iff, h.expiration]
    constructor
    · exact fun hy => ⟨ts, hts, hy⟩
    · rintro ⟨ts', hts', hy⟩
      rw [hts, Option.some.injEq] at hts'
      exact hts' ▸ hy

/-- An element was refreshed when it is found at an index with the time of the packet. -/
theorem didRefresh_table (h : t.Inv hash n) (hp : Params64 E n now) {k : K} {i : ℕ} (hf : t.find hash k = some i)
    (hi : t.pool.items i = some now) :
    (tableSet L E n now before t).didRefresh (L.item k) = .ok true := by
  simp only [SpecExpiringSet.didRefresh, contains_elems h, hf, bind, Except.bind, Option.isSome_some, ↓reduceIte,
    timeOf_table h hp hf hi]
  change Except.ok ((SpecNum.nat64 now).eq (SpecNum.nat64 now)) = _
  rw [eq_nat64 hp.time hp.time, decide_eq_true rfl]

theorem getIndex_table (h : t.Inv hash n) (k : K) :
    (tableSet L E n now before t).getIndex (L.item k) = .ok ((t.find hash k).map SpecNum.nat64) := by
  simp only [SpecExpiringSet.getIndex, contains_elems h, bind, Except.bind]
  cases hf : t.find hash k with
  | none => rfl
  | some i => simp only [Option.isSome_some, ↓reduceIte, getItem_elems h hf, SpecItem.toNum]; rfl

/-- The used index has its element, which is in the map at that index. -/
theorem getByIndex_table (h : Seen hash E n now t) (hp : Params64 E n now) {i : ℕ} (hi : i < 2 ^ 64) :
    (tableSet L E n now before t).getByIndex (SpecNum.nat64 i) =
      .ok (if indexPoolUsed t.pool now i then some (L.item (t.key i)) else none) := by
  simp only [SpecExpiringSet.getByIndex, contains_times h.inv hp hi, bind, Except.bind]
  cases hts : t.pool.items i with
  | none =>
    have hu : ¬ indexPoolUsed t.pool now i = true := by
      rw [IndexPool.used_iff, hts]
      rintro ⟨ts, hc, -⟩
      cases hc
    rw [if_neg hu]
    rfl
  | some ts =>
    have hin : i < n := h.inv.lt_of_items hts
    have hu : indexPoolUsed t.pool now i = true ↔ poolYoung now E ts := by
      rw [IndexPool.used_iff, hts, h.expiration]
      simp
    have hlookup : (arrayItems L.num t.keys).lookup (SpecNum.nat64 i) = some (L.num (t.key i)) := by
      rw [lookup_arrayItems L.num (h.inv.keys_length.symm ▸ hp.size_lt) hi, getElem_keys h.inv hin, Option.map_some]
    have hcontains : (tableSet L E n now before t).indicesToElems.contains (.num (SpecNum.nat64 i)) = .ok true := by
      simp only [tableSet, SpecExpiringSet.new, SpecMap.contains, tableMaps, unwrap_nat64, Except.map, hlookup,
        Option.isSome_some]
    have helem :
        (tableSet L E n now before t).indicesToElems.getItem (.num (SpecNum.nat64 i)) = .ok (L.item (t.key i)) := by
      simp only [tableSet, SpecExpiringSet.new, SpecMap.getItem, tableMaps, unwrap_nat64, bind, Except.bind, hlookup,
        L.wrap_num]
    have hfind : t.find hash (t.key i) = some i := h.inv.find_iff.mpr ⟨⟨ts, hts⟩, rfl⟩
    have heq : (SpecNum.nat64 i).eq (SpecNum.nat64 i) = true := by rw [eq_nat64 hi hi, decide_eq_true rfl]
    simp only [Option.isSome_some, Bool.not_true, Bool.false_eq_true, ↓reduceIte, getItem_times h.inv hp hts,
      SpecItem.toNum, expired_table hp (h.times i ts hts)]
    by_cases hy : poolYoung now E ts
    · simp only [decide_eq_true hy, Bool.not_true, Bool.false_eq_true, ↓reduceIte, hcontains, helem,
        contains_elems h.inv, hfind, Option.isSome_some, getItem_elems h.inv hfind, specAssert, heq, if_pos (hu.mpr hy)]
      rfl
    · simp only [decide_eq_false hy, Bool.not_false, ↓reduceIte, if_neg (mt hu.mp hy)]
      rfl

/-- A predicate on the numbers of a map that is not of records. -/
theorem allOf_num {map : SpecMap} (hk : map.keyType = none) (hv : map.valueType = none)
    {pred : SpecItem → SpecItem → Except String Bool} {f : SpecNum → SpecNum → Bool}
    (hpred : ∀ k v, pred (.num k) (.num v) = .ok (f k v)) : ∀ items : List (SpecNum × SpecNum),
    map.allOf pred items = .ok (items.all fun item => f item.1 item.2)
  | [] => rfl
  | (k, v) :: items => by
    simp only [SpecMap.allOf, hk, hv, SpecItem.wrap, bind, Except.bind, hpred, allOf_num hk hv hpred items,
      List.all_cons]
    rfl

omit [DecidableEq K] in
/-- As many keys are stored as indexes are in use, if these are all. -/
theorem count_eq (h : t.Inv hash n) (hall : ∀ i, i < n → ∃ ts, t.pool.items i = some ts) : t.map.count = n := by
  refine le_antisymm h.count_le ?_
  have hslot : ∀ i, ∃ s, i < n → s < t.map.capacity ∧ (t.map.item s).keyAddr = some (.elem i) := by
    intro i
    by_cases hi : i < n
    · obtain ⟨ts, hts⟩ := hall i hi
      obtain ⟨s, hs, hq, -⟩ := (h.entry (.elem i) i).mpr ⟨rfl, ts, hts⟩
      exact ⟨s, fun _ => ⟨hs, hq⟩⟩
    · exact ⟨0, fun hc => absurd hc hi⟩
  choose slot hslot using hslot
  calc n = (Finset.range n).card := (Finset.card_range n).symm
    _ ≤ t.map.count := Finset.card_le_card_of_injOn slot (fun i hi => ?_) fun i hi j hj he => ?_
  · obtain ⟨hs, hq⟩ := hslot i (Finset.mem_range.mp (Finset.mem_coe.mp hi))
    rw [Finset.mem_coe, Finset.mem_filter, Finset.mem_range, hq]
    exact ⟨hs, rfl⟩
  · obtain ⟨-, hq⟩ := hslot i (Finset.mem_range.mp (Finset.mem_coe.mp hi))
    obtain ⟨-, hq'⟩ := hslot j (Finset.mem_range.mp (Finset.mem_coe.mp hj))
    rw [he, hq', Option.some.injEq, KeyRef.elem.injEq] at hq
    exact hq.symm

omit [DecidableEq K] in
/-- The set is full when every index is used. -/
theorem full_table (h : Seen hash E n now t) (hp : Params64 E n now) :
    (tableSet L E n now before t).full = .ok (decide (∀ i, i < n → indexPoolUsed t.pool now i = true)) := by
  have hused : ∀ i, indexPoolUsed t.pool now i = true ↔ ∃ ts, t.pool.items i = some ts ∧ poolYoung now E ts :=
    fun i => h.expiration ▸ IndexPool.used_iff t.pool now i
  have hyoung : ((poolItems t.pool).all fun item => (tableSet L E n now before t).young item.2) = true ↔
      ∀ i ts, t.pool.items i = some ts → poolYoung now E ts := by
    rw [List.all_eq_true]
    constructor
    · intro hall i ts hts
      have hy := hall _ (mem_poolItems.mpr ⟨i, ts, hts, rfl, rfl⟩)
      rw [young_table hp (h.times i ts hts)] at hy
      exact of_decide_eq_true hy
    · rintro hall ⟨a, b⟩ hmem
      obtain ⟨i, ts, hts, -, rfl⟩ := mem_poolItems.mp hmem
      rw [young_table hp (h.times i ts hts)]
      exact decide_eq_true (hall i ts hts)
  have hcount : (tableSet L E n now before t).elemsToIndices.length.eq (tableSet L E n now before t).capacity =
      decide (t.map.count = n) := by
    change (SpecNum.nat64 (mapValues L (keyMem t.keys) t.map).length).eq (SpecNum.nat64 n) = _
    rw [length_mapValues, eq_nat64 (lt_of_le_of_lt h.inv.count_le hp.size_lt) hp.size_lt]
  have hall := @allOf_num (tableSet L E n now before t).indicesToTimes rfl rfl
    (fun _ v => return (tableSet L E n now before t).young (← v.toNum))
    (fun _ v => (tableSet L E n now before t).young v) (fun _ _ => rfl) (poolItems t.pool)
  unfold SpecExpiringSet.full
  rw [hcount, SpecMap.all, show (tableSet L E n now before t).indicesToTimes.map.items = poolItems t.pool from rfl,
    hall]
  refine congrArg Except.ok ?_
  rw [Bool.eq_iff_iff, Bool.and_eq_true, hyoung, decide_eq_true_iff, decide_eq_true_iff]
  constructor
  · rintro ⟨hc, hy⟩ i hi
    by_contra hn
    cases hts : t.pool.items i with
    | none => exact absurd hc (h.inv.count_lt hi hts).ne
    | some ts => exact hn ((hused i).mpr ⟨ts, hts, hy i ts hts⟩)
  · intro hu
    refine ⟨count_eq h.inv fun i hi => ?_, fun i ts hts => ?_⟩
    · obtain ⟨ts, hts, -⟩ := (hused i).mp (hu i hi)
      exact ⟨ts, hts⟩
    · obtain ⟨ts', hts', hy⟩ := (hused i).mp (hu i (h.inv.lt_of_items hts))
      rw [hts, Option.some.injEq] at hts'
      exact hts' ▸ hy

/-! ### Steps of tables -/

namespace Seen

omit [DecidableEq K] in
theorem later (h : Seen hash E n now t) {time : ℕ} (hle : now ≤ time) : Seen hash E n time t where
  inv := h.inv
  expiration := h.expiration
  times := fun i ts hts => (h.times i ts hts).trans hle

omit [DecidableEq K] in
theorem update {t' : KeyedPool K} (h : Seen hash E n now t) (hinv : t'.Inv hash n)
    (hx : t'.pool.expirationTime = t.pool.expirationTime) {i : ℕ}
    (hitems : t'.pool.items = Function.update t.pool.items i (some now)) : Seen hash E n now t' where
  inv := hinv
  expiration := hx.trans h.expiration
  times := fun j ts hj => by
    rw [hitems] at hj
    by_cases hji : j = i
    · rw [hji, Function.update_self, Option.some.injEq] at hj
      exact hj.ge
    · rw [Function.update_of_ne hji] at hj
      exact h.times j ts hj

/-- Refreshing the index of a key keeps its place. -/
theorem refresh (h : Seen hash E n now t) (ht : now ≠ timeMax) {k : K} {i : ℕ} (hf : t.find hash k = some i) :
    Seen hash E n now (t.refresh now i) ∧ (t.refresh now i).find hash k = some i ∧
      (t.refresh now i).pool.items i = some now := by
  obtain ⟨⟨ts, hts⟩, hk⟩ := h.inv.find_iff.mp hf
  obtain ⟨hinv, hitems⟩ := h.inv.refresh ht (by rw [hts]; rfl)
  have hnow : (t.refresh now i).pool.items i = some now := by rw [hitems, Function.update_self]
  exact ⟨h.update hinv rfl hitems, hinv.find_iff.mpr ⟨⟨now, hnow⟩, hk⟩, hnow⟩

/-- Inserting a key that is not found binds it to the time, or every index is used. -/
theorem insert (h : Seen hash E n now t) (ht : now ≠ timeMax) {k : K} (hf : t.find hash k = none) :
    (∃ i t', t.insert hash now k = (some i, t') ∧ i < n ∧ ¬ indexPoolUsed t.pool now i = true ∧
        Seen hash E n now t' ∧ t'.find hash k = some i ∧ t'.pool.items i = some now) ∨
      (t.insert hash now k = (none, t) ∧ ∀ i, i < n → indexPoolUsed t.pool now i = true) := by
  rcases h.inv.insert_cases ht hf with ⟨i, t', he, hi, hold, hinv, hitems, hkey, hx⟩ | ⟨he, hall⟩
  · have hnow : t'.pool.items i = some now := by rw [hitems, Function.update_self]
    refine .inl ⟨i, t', he, hi, ?_, h.update hinv hx hitems, ?_, hnow⟩
    · rw [IndexPool.used_iff]
      rintro ⟨ts, hts, hy⟩
      exact hold ts hts hy
    · exact hinv.find_iff.mpr ⟨⟨now, hnow⟩, by rw [hkey, Function.update_self]⟩
  · exact .inr ⟨he, fun i hi => (IndexPool.used_iff _ _ _).mpr (hall i hi)⟩

end Seen

/-! ### Flows -/

/-- `Flow` of the specifications. -/
def flowType : List (String × ℕ) :=
  [("src_ip", 32), ("dst_ip", 32), ("src_port", 16), ("dst_port", 16), ("protocol", 8)]

/-- The dictionary of a flow. -/
def flowItem (srcIp dstIp srcPort dstPort protocol : SpecNum) : SpecItem :=
  .dict [("src_ip", srcIp), ("dst_ip", dstIp), ("src_port", srcPort), ("dst_port", dstPort), ("protocol", protocol)]

/-- A flow in the dictionary. -/
def flowDict (f : Flow) : SpecItem :=
  flowItem (.u32 f.srcIp) (.u32 f.dstIp) (.u16 f.srcPort) (.u16 f.dstPort) (.u8 f.protocol)

/-- The bits of `struct flow`, its padding zero. -/
def flowNum (f : Flow) : SpecNum :=
  ⟨128, (f.protocol.toBitVec ++ (f.dstPort.toBitVec ++ (f.srcPort.toBitVec ++
    (f.dstIp.toBitVec ++ f.srcIp.toBitVec)))).setWidth 128⟩

/-- A flow in memory is cut to its dictionary. -/
theorem wrap_flowNum (f : Flow) : SpecItem.wrap (flowNum f) (some flowType) = .ok (flowDict f) :=
  wrap_unwrap 128 [("src_ip", .u32 f.srcIp), ("dst_ip", .u32 f.dstIp), ("src_port", .u16 f.srcPort),
    ("dst_port", .u16 f.dstPort), ("protocol", .u8 f.protocol)] rfl
    (show ∀ n ∈ [32, 32, 16, 16, 8], 0 < n by decide)

/-- The flows of the tables. -/
def flowLayout : KeyLayout Flow where
  size := 128
  type := some flowType
  num := flowNum
  item := flowDict
  unwrap_item := fun _ => rfl
  wrap_num := wrap_flowNum
  item_inj := fun f g h => by
    simp only [flowDict, flowItem, SpecItem.dict.injEq, List.cons.injEq, Prod.mk.injEq, SpecNum.u32, SpecNum.u16,
      SpecNum.u8, SpecNum.mk.injEq, heq_eq_eq, true_and, and_true, UInt32.toBitVec_inj, UInt16.toBitVec_inj,
      UInt8.toBitVec_inj] at h
    obtain ⟨h1, h2, h3, h4, h5⟩ := h
    cases f
    cases g
    simp_all

end Tool
end Klint
