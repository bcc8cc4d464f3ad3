/-
# Probes and chain counters of the hash map

The probe of a hash visits every slot of the table once, although `loop` masks in `size_t`,
and the doubling of `get_real_capacity` stops before it wraps (`probe_arithmetic`). In every
run of `map_set` and `map_remove` within their contracts, the chain counter of a slot is the
number of stored keys whose probes pass over it (`chains_exact`): no other key's call moves
the path of a stored key, and `map_remove` never decrements a counter that is 0.
-/
import Klint.Structs.MapRefine
import Mathlib.Data.Set.Function
import Mathlib.Order.Bounds.Basic

namespace Klint

open Probe CMap

/-! ### The arithmetic -/

/-- A doubling in the loop of `get_real_capacity` wraps around. -/
def getRealCapacityWraps : ℕ → ℕ → ℕ → Bool
  | 0, _, _ => false
  | f + 1, capacity, realCapacity =>
    decide (realCapacity < capacity) &&
      (decide (2 ^ 64 ≤ realCapacity * 2) || getRealCapacityWraps f capacity (realCapacity * 2 % 2 ^ 64))

theorem getRealCapacityWraps_iff_loop {capacity : ℕ} : ∀ (f j : ℕ), f + j = 63 →
    (getRealCapacityWraps (f + 2) capacity (2 ^ j) = true ↔ getRealCapacityLoop (f + 2) capacity (2 ^ j) = none)
  | 0, j, hj => by
    obtain rfl : j = 63 := by omega
    rw [getRealCapacityWraps, getRealCapacityLoop]
    by_cases h : 2 ^ 63 < capacity
    · have hzero : 2 ^ 63 * 2 % 2 ^ 64 = 0 := by decide
      rw [hzero, decide_eq_true h, if_pos h, getRealCapacityLoop, if_pos (Nat.zero_lt_of_lt h)]
      exact iff_of_true rfl rfl
    · rw [decide_eq_false h, if_neg h, Bool.false_and]
      exact iff_of_false Bool.false_ne_true (Option.some_ne_none _)
  | f + 1, j, hj => by
    have hj63 : (2 : ℕ) ^ (j + 1) ≤ 2 ^ 63 := Nat.pow_le_pow_right (by omega) (by omega)
    have hdouble : 2 ^ j * 2 % 2 ^ 64 = 2 ^ (j + 1) := by
      rw [← Nat.pow_succ]
      exact Nat.mod_eq_of_lt (by omega)
    rw [getRealCapacityWraps, getRealCapacityLoop, hdouble]
    by_cases h : 2 ^ j < capacity
    · have hfits : ¬2 ^ 64 ≤ 2 ^ j * 2 := by
        rw [← Nat.pow_succ]
        omega
      rw [if_pos h, decide_eq_true h, decide_eq_false hfits, Bool.true_and, Bool.false_or]
      exact getRealCapacityWraps_iff_loop f (j + 1) (by omega)
    · rw [if_neg h, decide_eq_false h, Bool.false_and]
      exact iff_of_false Bool.false_ne_true (Option.some_ne_none _)

/-- `get_real_capacity` does not end exactly when it wraps around. -/
theorem getRealCapacityWraps_iff (capacity : ℕ) :
    getRealCapacityWraps 65 capacity 1 = true ↔ getRealCapacity capacity = none := by
  rw [getRealCapacity]
  split_ifs with h0
  · rw [h0, getRealCapacityWraps]
    simp
  · exact getRealCapacityWraps_iff_loop 63 0 rfl

theorem isLeast_pow {capacity k : ℕ} (hle : capacity ≤ 2 ^ k) (hlt : 0 < k → 2 ^ (k - 1) < capacity) :
    IsLeast {n | capacity ≤ n ∧ ∃ j, n = 2 ^ j} (2 ^ k) := by
  refine ⟨⟨hle, k, rfl⟩, ?_⟩
  rintro n ⟨hn, j, rfl⟩
  by_contra hlow
  have hjk : j < k := (Nat.pow_lt_pow_iff_right (by decide)).mp (Nat.lt_of_not_le hlow)
  have hhalf : (2 : ℕ) ^ j ≤ 2 ^ (k - 1) := Nat.pow_le_pow_right (by decide) (by omega)
  have := hlt (by omega)
  omega

/-- The probe visits every slot once. -/
theorem loop_bijOn {k : ℕ} (hk : k ≤ 63) (start : UInt32) :
    Set.BijOn (fun i => loop start i (2 ^ k)) (Set.Iio (2 ^ k)) (Set.Iio (2 ^ k)) := by
  have ha : start.toNat % 2 ^ k < 2 ^ k := Nat.mod_lt _ (Nat.two_pow_pos k)
  have hslot : ∀ i < 2 ^ k, loop start i (2 ^ k) = slot (2 ^ k) (start.toNat % 2 ^ k) i := fun i hi => by
    rw [loop_eq hk start hi, slot_eq_mod ha hi]
  refine ⟨fun i hi => ?_, fun i hi j hj hij => ?_, fun s hs => ?_⟩
  · change loop start i (2 ^ k) < 2 ^ k
    rw [hslot i hi]
    exact slot_lt ha hi
  · dsimp only at hij
    rw [hslot i hi, hslot j hj] at hij
    rw [← dist_slot ha hi, ← dist_slot ha hj, hij]
  · refine ⟨dist (2 ^ k) (start.toNat % 2 ^ k) s, dist_lt ha hs, ?_⟩
    dsimp only
    rw [hslot _ (dist_lt ha hs), slot_dist ha hs]

/-- **Probe arithmetic.** Up to half of the machine word `get_real_capacity` ends, without
wrapping around, at the least power of two that is not below the capacity; and for every hash
`loop` is the remainder of a sum, and takes each slot once. -/
theorem probe_arithmetic (capacity : ℕ) (hc : capacity ≤ sizeMax / 2 + 1) :
    ∃ realCapacity, getRealCapacity capacity = some realCapacity ∧ getRealCapacityWraps 65 capacity 1 = false ∧
      (capacity = 0 → realCapacity = 0) ∧
      (0 < capacity → IsLeast {n | capacity ≤ n ∧ ∃ j, n = 2 ^ j} realCapacity) ∧
      ∀ h : UInt32, (∀ i < realCapacity, loop h i realCapacity = (h.toNat + i) % realCapacity) ∧
        Set.BijOn (fun i => loop h i realCapacity) (Set.Iio realCapacity) (Set.Iio realCapacity) := by
  have hmax : sizeMax / 2 + 1 = 2 ^ 63 := by decide
  rw [hmax] at hc
  have hwraps : ∀ r, getRealCapacity capacity = some r → getRealCapacityWraps 65 capacity 1 = false := by
    intro r hr
    rw [Bool.eq_false_iff, ne_eq, getRealCapacityWraps_iff, hr]
    exact Option.some_ne_none r
  rcases Nat.eq_zero_or_pos capacity with rfl | h0
  · refine ⟨0, rfl, hwraps 0 rfl, fun _ => rfl, fun h => absurd h (Nat.lt_irrefl 0), fun h => ⟨fun i hi => ?_, ?_⟩⟩
    · exact absurd hi (Nat.not_lt_zero i)
    · simp [Set.Iio]
  · obtain ⟨k, hk, hle, hk63, hlt⟩ := getRealCapacity_spec h0 hc
    refine ⟨2 ^ k, hk, hwraps _ hk, fun h => absurd h0 (by omega), fun _ => isLeast_pow hle hlt,
      fun h => ⟨fun i hi => ?_, loop_bijOn hk63 h⟩⟩
    rw [loop_eq hk63 h hi, Nat.mod_add_mod]

/-- The largest capacity. -/
theorem probe_arithmetic_largest : ∃ realCapacity, getRealCapacity (2 ^ 63) = some realCapacity ∧
    getRealCapacityWraps 65 (2 ^ 63) 1 = false ∧ (2 ^ 63 = 0 → realCapacity = 0) ∧
    (0 < 2 ^ 63 → IsLeast {n | 2 ^ 63 ≤ n ∧ ∃ j, n = 2 ^ j} realCapacity) ∧
    ∀ h : UInt32, (∀ i < realCapacity, loop h i realCapacity = (h.toNat + i) % realCapacity) ∧
      Set.BijOn (fun i => loop h i realCapacity) (Set.Iio realCapacity) (Set.Iio realCapacity) :=
  probe_arithmetic (2 ^ 63) (by decide)

/-! ### Chain counters -/

variable {P K : Type} {hash : K → UInt32} {mem : P → ℕ → K} {m : CMap P}

/-- The keys in the slots, in the order of the slots. -/
def CMap.residents (mem : P → ℕ → K) (m : CMap P) : List K := (List.range m.capacity).filterMap (m.occ mem)

theorem mem_residents (h : m.Shape) {k : K} : k ∈ m.residents mem ↔ ∃ t, m.occ mem t = some k := by
  simp only [CMap.residents, List.mem_filterMap, List.mem_range]
  constructor
  · rintro ⟨t, -, ht⟩
    exact ⟨t, ht⟩
  · rintro ⟨t, ht⟩
    exact ⟨t, h.occ_lt ht, ht⟩

theorem nodup_residents (h : m.Inv hash mem) : (m.residents mem).Nodup := by
  refine List.nodup_range.filterMap ?_
  intro s t k hs ht
  exact h.nodup s t k hs ht

variable [DecidableEq K]

/-- The probe of a key passes over slot `s` before it reaches the slot that the key is stored in. -/
def passesOver (hash : K → UInt32) (mem : P → ℕ → K) (m : CMap P) (s : ℕ) (k : K) : Bool :=
  (List.range m.capacity).any fun j => decide (m.occ mem (loop (hash k) j m.capacity) = some k) &&
    (List.range j).any fun i => decide (loop (hash k) i m.capacity = s)

/-- The loop of `map_remove` decrements a counter that is 0. -/
def mapRemoveUnderflows (hash : K → UInt32) (mem : P → ℕ → K) (keyPtr : P) : ℕ → ℕ → CMap P → Bool
  | 0, _, _ => false
  | k + 1, i, m =>
    let index := loop (hash (mem keyPtr m.keySize)) i m.capacity
    !m.isKey hash mem keyPtr index && (decide ((m.item index).chain = 0) ||
      mapRemoveUnderflows hash mem keyPtr k (i + 1)
        (m.setItem index { m.item index with chain := sizeDec (m.item index).chain }))

/-- The number of items that the loop of `map_get` looks at. -/
def mapGetProbes (hash : K → UInt32) (mem : P → ℕ → K) (m : CMap P) (keyPtr : P) : ℕ → ℕ → ℕ
  | 0, _ => 0
  | k + 1, i =>
    let index := loop (hash (mem keyPtr m.keySize)) i m.capacity
    if m.hasHash hash mem keyPtr index then
      if m.isKey hash mem keyPtr index then 1
      else 1 + mapGetProbes hash mem m keyPtr k (i + 1)
    else if (m.item index).chain = 0 then 1
    else 1 + mapGetProbes hash mem m keyPtr k (i + 1)

/-- An item that the loop of `map_remove` has passed stays as it is. -/
theorem mapRemoveLoop_item {keyPtr : P} : ∀ {k i j : ℕ} {m : CMap P}, m.Shape → i + k = m.capacity → j < i →
    (mapRemoveLoop hash mem keyPtr k i m).1.item (slot m.capacity (m.home hash (mem keyPtr m.keySize)) j) =
      m.item (slot m.capacity (m.home hash (mem keyPtr m.keySize)) j)
  | 0, _, _, _, _, _, _ => rfl
  | k + 1, i, j, m, h, hk, hj => by
    have hi : i < m.capacity := by omega
    have ha := home_lt hash (mem keyPtr m.keySize) (by omega : 0 < m.capacity)
    have hlen : slot m.capacity (m.home hash (mem keyPtr m.keySize)) i < m.items.length :=
      (slot_lt ha hi).trans_eq h.length.symm
    have hitem := fun it => item_setItem_slot hlen ha hi (hj.trans hi) (Nat.ne_of_gt hj) it
    rw [mapRemoveLoop]
    simp only [h.loop_eq_slot hash (mem keyPtr m.keySize) hi]
    split
    · exact hitem _
    · rw [← hitem { m.item _ with chain := sizeDec (m.item _).chain }]
      exact mapRemoveLoop_item (h.setItem _ _) (by simp only [setItem_capacity]; omega) (Nat.lt_succ_of_lt hj)

/-- A counter is decremented at 0 exactly if `map_remove` makes one of 0 the largest number. -/
theorem mapRemoveUnderflows_iff {keyPtr : P} : ∀ {k i : ℕ} {m : CMap P}, m.Shape → i + k = m.capacity →
    (mapRemoveUnderflows hash mem keyPtr k i m = true ↔ ∃ s, (m.item s).chain = 0 ∧
      ((mapRemoveLoop hash mem keyPtr k i m).1.item s).chain = sizeMax)
  | 0, i, m, h, hk => by
    refine iff_of_false Bool.false_ne_true ?_
    rintro ⟨s, h0, hmax⟩
    exact absurd (h0.symm.trans hmax) (by decide)
  | k + 1, i, m, h, hk => by
    have hi : i < m.capacity := by omega
    have ha := home_lt hash (mem keyPtr m.keySize) (by omega : 0 < m.capacity)
    have hlen : slot m.capacity (m.home hash (mem keyPtr m.keySize)) i < m.items.length :=
      (slot_lt ha hi).trans_eq h.length.symm
    rw [mapRemoveUnderflows, mapRemoveLoop]
    simp only [h.loop_eq_slot hash (mem keyPtr m.keySize) hi]
    set t := slot m.capacity (m.home hash (mem keyPtr m.keySize)) i with ht
    by_cases hkey : m.isKey hash mem keyPtr t = true
    · rw [hkey, if_pos rfl, Bool.not_true, Bool.false_and]
      refine iff_of_false Bool.false_ne_true ?_
      rintro ⟨s, h0, hmax⟩
      have hchain : ((m.setItem t { m.item t with keyAddr := none }).item s).chain = (m.item s).chain := by
        rw [item_setItem hlen]
        split
        · next he => rw [he]
        · rfl
      exact absurd (h0.symm.trans (hchain.symm.trans hmax)) (by decide)
    · rw [if_neg hkey, Bool.eq_false_iff.mpr hkey, Bool.not_false, Bool.true_and, Bool.or_eq_true, decide_eq_true_eq]
      set m' := m.setItem t { m.item t with chain := sizeDec (m.item t).chain } with hm'
      have hsame : ∀ s, s ≠ t → m'.item s = m.item s := fun s hs => by rw [hm', item_setItem hlen, if_neg hs]
      have hself : (m'.item t).chain = sizeDec (m.item t).chain := by rw [hm', item_setItem hlen, if_pos rfl]
      have hpassed : (mapRemoveLoop hash mem keyPtr k (i + 1) m').1.item t = m'.item t :=
        mapRemoveLoop_item (m := m') (h.setItem _ _) (by rw [hm', setItem_capacity]; omega) (Nat.lt_succ_self i)
      rw [mapRemoveUnderflows_iff (h.setItem _ _) (by rw [setItem_capacity]; omega)]
      constructor
      · rintro (h0 | ⟨s, h0, hmax⟩)
        · exact ⟨t, h0, by rw [hpassed, hself, sizeDec, if_pos h0]⟩
        · have hs : s ≠ t := by
            rintro rfl
            rw [hpassed, h0] at hmax
            exact absurd hmax (by decide)
          exact ⟨s, hsame s hs ▸ h0, hmax⟩
      · rintro ⟨s, h0, hmax⟩
        by_cases hs : s = t
        · exact Or.inl (hs ▸ h0)
        · exact Or.inr ⟨s, by rw [hsame s hs]; exact h0, hmax⟩

/-- `map_get` depends only on the items that are counted. -/
theorem mapGetLoop_congr {keyPtr : P} {m' : CMap P} (hc : m'.capacity = m.capacity) (hs : m'.keySize = m.keySize) :
    ∀ {k i : ℕ}, (∀ j < mapGetProbes hash mem m keyPtr k i,
      m'.item (loop (hash (mem keyPtr m.keySize)) (i + j) m.capacity) =
        m.item (loop (hash (mem keyPtr m.keySize)) (i + j) m.capacity)) →
    mapGetLoop hash mem m' keyPtr k i = mapGetLoop hash mem m keyPtr k i
  | 0, _, _ => rfl
  | k + 1, i, h => by
    have hfirst : 0 < mapGetProbes hash mem m keyPtr (k + 1) i := by
      rw [mapGetProbes]
      split_ifs <;> omega
    have hitem : m'.item (loop (hash (mem keyPtr m.keySize)) i m.capacity) =
        m.item (loop (hash (mem keyPtr m.keySize)) i m.capacity) := h 0 hfirst
    have hhash : m'.hasHash hash mem keyPtr (loop (hash (mem keyPtr m.keySize)) i m.capacity) =
        m.hasHash hash mem keyPtr (loop (hash (mem keyPtr m.keySize)) i m.capacity) := by
      rw [CMap.hasHash, CMap.hasHash, hitem, hs]
    have hkey : m'.isKey hash mem keyPtr (loop (hash (mem keyPtr m.keySize)) i m.capacity) =
        m.isKey hash mem keyPtr (loop (hash (mem keyPtr m.keySize)) i m.capacity) := by
      rw [CMap.isKey, CMap.isKey, hitem, hs]
    have hrest : mapGetProbes hash mem m keyPtr (k + 1) i = 1 + mapGetProbes hash mem m keyPtr k (i + 1) →
        mapGetLoop hash mem m' keyPtr k (i + 1) = mapGetLoop hash mem m keyPtr k (i + 1) := by
      refine fun hn => mapGetLoop_congr hc hs fun j hj => ?_
      rw [Nat.add_assoc]
      exact h (1 + j) (by omega)
    rw [mapGetProbes] at hrest
    rw [mapGetLoop, mapGetLoop]
    simp only [hc, hs, hitem, hhash, hkey] at hrest ⊢
    split_ifs at hrest ⊢
    · rfl
    · exact hrest rfl
    · rfl
    · exact hrest rfl

theorem passesOver_iff (h : m.Inv hash mem) {s t : ℕ} {k : K} (hs : s < m.capacity) (ht : m.occ mem t = some k) :
    passesOver hash mem m s k = true ↔ dist m.capacity (m.home hash k) s < dist m.capacity (m.home hash k) t := by
  have htlt := h.occ_lt ht
  have ha := home_lt hash k (by omega : 0 < m.capacity)
  simp only [passesOver, List.any_eq_true, List.mem_range, Bool.and_eq_true, decide_eq_true_eq]
  constructor
  · rintro ⟨j, hj, hocc, i, hi, hloop⟩
    rw [h.loop_eq_slot hash k hj] at hocc
    rw [h.loop_eq_slot hash k (by omega)] at hloop
    rw [h.nodup t _ k ht hocc, ← hloop, dist_slot ha hj, dist_slot ha (by omega)]
    exact hi
  · intro hlt
    refine ⟨_, dist_lt ha htlt, ?_, _, hlt, ?_⟩
    · rw [h.loop_eq_slot hash k (dist_lt ha htlt), slot_dist ha htlt, ht]
    · rw [h.loop_eq_slot hash k (dist_lt ha hs), slot_dist ha hs]

/-- The counter counts the residents whose probes pass over the slot. -/
theorem crossing_eq_countP (h : m.Inv hash mem) {s : ℕ} (hs : s < m.capacity) :
    crossing m.capacity (m.home hash) (m.occ mem) s = (m.residents mem).countP (passesOver hash mem m s) := by
  rw [CMap.residents, List.countP_filterMap, List.countP_eq_length_filter]
  change ((List.range m.capacity).filter fun t =>
    decide (crosses m.capacity (m.home hash) (m.occ mem) s t = true)).length = _
  congr 1
  refine List.filter_congr fun t _ => ?_
  unfold crosses
  cases hocc : m.occ mem t with
  | none => rfl
  | some k =>
    rw [Bool.eq_iff_iff]
    simpa using (passesOver_iff h hs hocc).symm

theorem MapState.Good.perm_residents {keySize capacity : ℕ} {s : MapState P K} (h : s.Good hash keySize capacity) :
    (storedKeys s.hist).Perm (s.map.residents s.mem) := by
  refine (List.perm_ext_iff_of_nodup h.nodup (nodup_residents h.inv)).mpr fun k => ?_
  rw [h.stored, mem_residents h.inv.toShape, ← exists_entry_iff h.inv.toShape, Option.ne_none_iff_exists']
  constructor
  · rintro ⟨v, hv⟩
    obtain ⟨q, hq, hk⟩ := (h.entry k v).mp hv
    exact ⟨q, v, hq, hk⟩
  · rintro ⟨q, v, hq, hk⟩
    exact ⟨v, (h.entry k v).mpr ⟨q, hq, hk⟩⟩

theorem MapState.Good.chain_eq {keySize capacity : ℕ} {s : MapState P K} (h : s.Good hash keySize capacity) {i : ℕ}
    (hi : i < s.map.capacity) :
    (s.map.item i).chain = (storedKeys s.hist).countP (passesOver hash s.mem s.map i) := by
  rw [h.inv.chain_eq i hi, crossing_eq_countP h.inv hi, h.perm_residents.countP_eq]

/-- A counter that was decremented at 0 would be larger than the number of slots. -/
theorem MapState.Good.not_underflows {keySize capacity : ℕ} {s : MapState P K} (h : s.Good hash keySize capacity)
    {p : P} (hp : MapCall.Pre capacity s (.remove p)) :
    mapRemoveUnderflows hash s.mem p s.map.capacity 0 s.map = false := by
  by_contra hne
  obtain ⟨i, -, hmax⟩ := (mapRemoveUnderflows_iff h.inv.toShape (Nat.zero_add _)).mp (Bool.not_eq_false _ ▸ hne)
  have hinv : (mapRemove hash s.mem s.map p).Inv hash s.mem := (h.exec_remove hp).2.inv
  have hle : ((mapRemove hash s.mem s.map p).item i).chain ≤ 2 ^ 63 := by
    rcases Nat.lt_or_ge i (mapRemove hash s.mem s.map p).capacity with hlt | hge
    · rw [hinv.chain_eq i hlt]
      exact (crossing_le _ _).trans hinv.capacity_le
    · rw [hinv.item_of_ge hge]
      exact Nat.zero_le _
  rw [mapRemove, hmax] at hle
  exact absurd hle (by decide)

/-- A lookup in a map without keys looks at one item. -/
theorem MapState.Good.probes_le {keySize capacity : ℕ} {s : MapState P K} (h : s.Good hash keySize capacity)
    (hnone : storedKeys s.hist = []) (p : P) : mapGetProbes hash s.mem s.map p s.map.capacity 0 ≤ 1 := by
  cases hn : s.map.capacity with
  | zero => exact Nat.zero_le 1
  | succ n =>
    have hpos : 0 < s.map.capacity := by omega
    have hlt : loop (hash (s.key p)) 0 s.map.capacity < s.map.capacity := by
      rw [h.inv.loop_eq_slot hash (s.key p) hpos]
      exact slot_lt (home_lt hash (s.key p) hpos) hpos
    have hfree : (s.map.item (loop (hash (s.key p)) 0 s.map.capacity)).keyAddr = none := by
      by_contra hsome
      obtain ⟨q, hq⟩ := Option.ne_none_iff_exists'.mp hsome
      have hmem : s.key q ∈ s.map.residents s.mem :=
        (mem_residents h.inv.toShape).mpr ⟨_, occ_eq_some.mpr ⟨q, hq, rfl⟩⟩
      rw [← h.perm_residents.mem_iff, hnone] at hmem
      cases hmem
    have hhash : s.map.hasHash hash s.mem p (loop (hash (s.key p)) 0 s.map.capacity) = false := by
      rw [CMap.hasHash, hfree, Option.isSome_none, Bool.false_and]
    have hchain : (s.map.item (loop (hash (s.key p)) 0 s.map.capacity)).chain = 0 := by
      rw [h.chain_eq hlt, hnone, List.countP_nil]
    rw [mapGetProbes]
    change (if s.map.hasHash hash s.mem p (loop (hash (s.key p)) 0 s.map.capacity) = true then _ else
      if (s.map.item (loop (hash (s.key p)) 0 s.map.capacity)).chain = 0 then _ else _) ≤ 1
    rw [hhash, hchain]
    exact Nat.le_refl 1

/-- **Chain counters.** From `map_alloc`, after any sequence of calls within their contracts, the
counter of each slot is the number of the stored keys whose probes pass over it; the next
`map_remove` within its contract decrements no counter that is 0; and once all keys are removed
the counters are 0, and a lookup looks at one item. -/
theorem chains_exact (hash : K → UInt32) (keySize capacity : ℕ) (hc : capacity * 64 ≤ sizeMax) :
    ∃ m, mapAlloc P keySize capacity = some m ∧ ∀ (mem : P → ℕ → K) (calls : List (MapCall P K)),
      (⟨m, mem, []⟩ : MapState P K).Valid hash capacity calls →
      let s := (⟨m, mem, []⟩ : MapState P K).execAll hash calls
      (∀ i < s.map.capacity,
        (s.map.item i).chain = (storedKeys s.hist).countP (passesOver hash s.mem s.map i)) ∧
      (∀ p, MapCall.Pre capacity s (.remove p) →
        mapRemoveUnderflows hash s.mem p s.map.capacity 0 s.map = false) ∧
      (storedKeys s.hist = [] → (∀ i < s.map.capacity, (s.map.item i).chain = 0) ∧
        ∀ p, mapGetProbes hash s.mem s.map p s.map.capacity 0 ≤ 1) := by
  obtain ⟨m, hm, hgood⟩ := good_mapAlloc (P := P) hash keySize hc
  refine ⟨m, hm, fun mem calls hv => ?_⟩
  have h := (hgood mem).execAll calls _ hv
  refine ⟨fun i hi => h.chain_eq hi, fun p hp => h.not_underflows hp, fun hnone => ⟨fun i hi => ?_, h.probes_le hnone⟩⟩
  rw [h.chain_eq hi, hnone, List.countP_nil]

/-- Two keys of one hash: the second passes over the slot of the first. -/
theorem chains_exact_collision : ∃ m, mapAlloc ℕ 1 2 = some m ∧
    let s := (⟨m, fun p _ => p, []⟩ : MapState ℕ ℕ).execAll (fun _ => 0) [.set 7 70, .set 8 80]
    ∀ i < s.map.capacity,
      (s.map.item i).chain = (storedKeys s.hist).countP (passesOver (fun _ => 0) s.mem s.map i) := by
  obtain ⟨m, hm, h⟩ := chains_exact (P := ℕ) (K := ℕ) (fun _ => 0) 1 2 (by decide)
  refine ⟨m, hm, ?_⟩
  exact (h (fun p _ => p) [.set 7 70, .set 8 80]
    (by simp [MapState.Valid, MapCall.Pre, storedKeys, MapState.exec, MapState.key])).1

end Klint
