/-
# An array of keys, a map from keys to indexes and a pool of indexes

The firewall, the NAT, the load balancer and the policer keep the same
table: an array of keys, a map that binds a key to its index, with the
array's element as the key's address, and an index pool that says which
indexes are in use and when each was last used. They find a key (`find`),
refresh its index (`refresh`), and insert a new key by borrowing an index,
removing the key it had if it was in use, overwriting the array element and
setting the map (`insert`).

The invariant `KeyedPool.Inv`: the pool binds index `i` exactly when the map
binds the key in element `i` to `i`. `find_iff`, `refresh_inv` and
`insert_cases` are what the functions that use the table need.
-/
import Klint.Structs.IndexPool
import Klint.Structs.MapInv

namespace Klint

/-- A pointer to a key: an element of the array, or a key elsewhere. -/
inductive KeyRef (K : Type) where
  | elem (i : ℕ)
  | arg (key : K)

/-- The contents of the keys, for an array. -/
def keyMem {K : Type} [Inhabited K] (keys : List K) : KeyRef K → ℕ → K
  | .elem i, _ => keys.getD i default
  | .arg k, _ => k

structure KeyedPool (K : Type) where
  keys : List K
  map : CMap (KeyRef K)
  pool : IndexPool

/-- The zeroed array, `map_alloc` and `index_pool_alloc`. -/
def keyedPoolAlloc (K : Type) [Inhabited K] (keySize capacity expirationTime : ℕ) : Option (KeyedPool K) :=
  (mapAlloc (KeyRef K) keySize capacity).map fun m =>
    { keys := List.replicate capacity default, map := m, pool := indexPoolAlloc capacity expirationTime }

namespace KeyedPool

variable {K : Type} [Inhabited K] [DecidableEq K] (hash : K → UInt32)

/-- `map_get(map, &key, &index)`. -/
def find (t : KeyedPool K) (key : K) : Option ℕ := mapGet hash (keyMem t.keys) t.map (.arg key)

/-- `index_pool_refresh(pool, time, index)`. -/
def refresh (t : KeyedPool K) (time index : ℕ) : KeyedPool K :=
  { t with pool := indexPoolRefresh t.pool time index }

/-- `if (was_used) map_remove(map, &keys[index])`. -/
def evict (t : KeyedPool K) (index : ℕ) (wasUsed : Bool) : CMap (KeyRef K) :=
  if wasUsed then mapRemove hash (keyMem t.keys) t.map (.elem index) else t.map

/-- Borrow an index; evict the key it had, if it had one; overwrite the
element; set the map. `some` of the index if there was one. -/
def insert (t : KeyedPool K) (time : ℕ) (key : K) : Option ℕ × KeyedPool K :=
  match indexPoolBorrow t.pool time with
  | (none, _) => (none, t)
  | (some (index, wasUsed), pool) =>
    let keys := t.keys.set index key
    (some index,
      { keys := keys, map := mapSet hash (keyMem keys) (t.evict hash index wasUsed) (.elem index) index,
        pool := pool })

/-- `map_remove(map, &keys[index])` and `index_pool_return(pool, index)`. -/
def discard (t : KeyedPool K) (index : ℕ) : KeyedPool K :=
  { t with map := mapRemove hash (keyMem t.keys) t.map (.elem index), pool := indexPoolReturn t.pool index }

/-- The key in element `i`. -/
def key (t : KeyedPool K) (i : ℕ) : K := t.keys.getD i default

/-- The index pool and the map agree on which elements are in use. -/
structure Inv (n : ℕ) (t : KeyedPool K) : Prop where
  map_inv : t.map.Inv hash (keyMem t.keys)
  room : n ≤ t.map.capacity
  keys_length : t.keys.length = n
  pool_wf : t.pool.Wf
  pool_size : t.pool.size = n
  entry : ∀ q w, t.map.Entry q w ↔ q = .elem w ∧ ∃ ts, t.pool.items w = some ts

/-! ### The preconditions of the calls -/

/-- `map_set`: the key is absent and fewer than `capacity` keys are stored. -/
def MapSetPre (capacity : ℕ) (mem : KeyRef K → ℕ → K) (m : CMap (KeyRef K)) (p : KeyRef K) : Prop :=
  (∀ q w, m.Entry q w → mem q m.keySize ≠ mem p m.keySize) ∧ m.count < capacity

/-- `map_remove`: the key is stored, at this address. -/
def MapRemovePre (m : CMap (KeyRef K)) (p : KeyRef K) : Prop := ∃ w, m.Entry p w

/-- `index_pool_refresh`: a time and an index of the pool. -/
def RefreshPre (pool : IndexPool) (time index : ℕ) : Prop := time ≠ timeMax ∧ index < pool.size

/-- The calls of `insert` meet their preconditions. -/
def InsertPre (n : ℕ) (t : KeyedPool K) (time : ℕ) (key : K) : Prop :=
  time ≠ timeMax ∧ ∀ index wasUsed pool, indexPoolBorrow t.pool time = (some (index, wasUsed), pool) →
    (wasUsed = true → MapRemovePre t.map (.elem index)) ∧
    MapSetPre n (keyMem (t.keys.set index key)) (t.evict hash index wasUsed) (.elem index)

/-- The calls of `discard` meet their preconditions. -/
def DiscardPre (t : KeyedPool K) (index : ℕ) : Prop := MapRemovePre t.map (.elem index) ∧ index < t.pool.size

variable {hash} {n : ℕ} {t : KeyedPool K}

namespace Inv

omit [DecidableEq K] in
theorem lt_of_items (h : t.Inv hash n) {i ts : ℕ} (hi : t.pool.items i = some ts) : i < n :=
  h.pool_size ▸ IndexPool.items_lt hi

omit [DecidableEq K] in
/-- The keys in use are distinct. -/
theorem key_inj (h : t.Inv hash n) {i j ts ts' : ℕ} (hi : t.pool.items i = some ts)
    (hj : t.pool.items j = some ts') (he : t.key i = t.key j) : i = j := by
  obtain ⟨s, -, hs, hsv⟩ := (h.entry (.elem i) i).mpr ⟨rfl, ts, hi⟩
  obtain ⟨u, -, hu, huv⟩ := (h.entry (.elem j) j).mpr ⟨rfl, ts', hj⟩
  have hsu : s = u := h.map_inv.nodup s u (t.key i) (CMap.occ_eq_some.mpr ⟨_, hs, rfl⟩)
    (CMap.occ_eq_some.mpr ⟨_, hu, he.symm⟩)
  rw [← hsv, ← huv, hsu]

omit [DecidableEq K] in
/-- No more keys are stored than indexes are in use. -/
theorem count_le_used (h : t.Inv hash n) :
    t.map.count ≤ ((Finset.range n).filter fun i => (t.pool.items i).isSome).card := by
  refine Finset.card_le_card_of_injOn (fun s => (t.map.item s).value) (fun s hs => ?_) ?_
  · rw [Finset.mem_coe, Finset.mem_filter] at hs
    obtain ⟨q, hq⟩ := Option.isSome_iff_exists.mp hs.2
    obtain ⟨-, ts, hts⟩ := (h.entry q _).mp ⟨s, Finset.mem_range.mp hs.1, hq, rfl⟩
    rw [Finset.mem_coe, Finset.mem_filter, Finset.mem_range]
    exact ⟨h.lt_of_items hts, by rw [hts]; rfl⟩
  · intro s hs u hu he
    rw [Finset.mem_coe, Finset.mem_filter] at hs hu
    obtain ⟨q, hq⟩ := Option.isSome_iff_exists.mp hs.2
    obtain ⟨r, hr⟩ := Option.isSome_iff_exists.mp hu.2
    obtain ⟨rfl, -⟩ := (h.entry q _).mp ⟨s, Finset.mem_range.mp hs.1, hq, rfl⟩
    obtain ⟨rfl, -⟩ := (h.entry r _).mp ⟨u, Finset.mem_range.mp hu.1, hr, rfl⟩
    simp only at he
    exact h.map_inv.nodup s u _ (CMap.occ_eq_some.mpr ⟨_, hq, rfl⟩)
      (CMap.occ_eq_some.mpr ⟨_, hr, by rw [he]⟩)

omit [DecidableEq K] in
theorem count_le (h : t.Inv hash n) : t.map.count ≤ n :=
  h.count_le_used.trans ((Finset.card_filter_le _ _).trans_eq (Finset.card_range n))

omit [DecidableEq K] in
/-- With an index unused, the map has room for one more key. -/
theorem count_lt (h : t.Inv hash n) {i : ℕ} (hi : i < n) (hu : t.pool.items i = none) : t.map.count < n := by
  have hlt := Finset.card_lt_card (Finset.filter_ssubset (p := fun i => (t.pool.items i).isSome).mpr
    ⟨i, Finset.mem_range.mpr hi, by rw [hu]; simp⟩)
  rw [Finset.card_range] at hlt
  exact lt_of_le_of_lt h.count_le_used hlt

/-- A key is found at the index in use that holds it. -/
theorem find_iff (h : t.Inv hash n) {k : K} {i : ℕ} :
    t.find hash k = some i ↔ (∃ ts, t.pool.items i = some ts) ∧ t.key i = k := by
  rw [find, mapGet_iff h.map_inv]
  constructor
  · rintro ⟨q, hq, hk⟩
    obtain ⟨rfl, hts⟩ := (h.entry q i).mp hq
    exact ⟨hts, hk⟩
  · rintro ⟨hts, hk⟩
    exact ⟨.elem i, (h.entry _ i).mpr ⟨rfl, hts⟩, hk⟩

theorem find_none (h : t.Inv hash n) {k : K} :
    t.find hash k = none ↔ ∀ i ts, t.pool.items i = some ts → t.key i ≠ k := by
  constructor
  · intro hn i ts hi hk
    rw [h.find_iff.mpr ⟨⟨ts, hi⟩, hk⟩] at hn; cases hn
  · intro hn
    cases hf : t.find hash k with
    | none => rfl
    | some i =>
      obtain ⟨⟨ts, hi⟩, hk⟩ := h.find_iff.mp hf
      exact absurd hk (hn i ts hi)

omit [DecidableEq K] in
/-- The element an index in use has is stored in the map, and only it. -/
theorem bound_iff_entry (h : t.Inv hash n) (i : ℕ) :
    (t.pool.items i).isSome ↔ t.map.Entry (.elem i) i := by
  rw [h.entry, Option.isSome_iff_exists]
  simp

/-- An index is in use when the map binds the key in its element to it. -/
theorem bound_iff (h : t.Inv hash n) (i : ℕ) :
    (t.pool.items i).isSome ↔ mapGet hash (keyMem t.keys) t.map (.elem i) = some i := by
  rw [mapGet_iff h.map_inv, h.bound_iff_entry]
  constructor
  · exact fun hi => ⟨.elem i, hi, rfl⟩
  · rintro ⟨q, hq, -⟩
    obtain ⟨rfl, -⟩ := (h.entry q i).mp hq
    exact hq

omit [DecidableEq K] in
/-- Refreshing an index in use changes its time only. -/
theorem refresh (h : t.Inv hash n) {time i : ℕ} (ht : time ≠ timeMax) (hi : (t.pool.items i).isSome) :
    (t.refresh time i).Inv hash n ∧
      (t.refresh time i).pool.items = Function.update t.pool.items i (some time) := by
  obtain ⟨ts, hts⟩ := Option.isSome_iff_exists.mp hi
  have hit := IndexPool.refresh_items h.pool_wf ht (IndexPool.items_lt hts)
  refine ⟨{ map_inv := h.map_inv, room := h.room, keys_length := h.keys_length,
            pool_wf := IndexPool.setTimestamp_wf h.pool_wf _ _, pool_size := h.pool_size,
            entry := fun q w => ?_ }, hit⟩
  rw [show (t.refresh time i).map = t.map from rfl, h.entry q w,
    show (t.refresh time i).pool.items = _ from hit]
  by_cases hw : w = i
  · subst hw; simp [hts]
  · simp [Function.update_of_ne hw]

/-- Evicting the key of an index removes its entry and no other. -/
theorem evict (h : t.Inv hash n) {i : ℕ} {used : Bool} (hi : used = (t.pool.items i).isSome) :
    (t.evict hash i used).Inv hash (keyMem t.keys) ∧
      (∀ q w, (t.evict hash i used).Entry q w ↔ q = .elem w ∧ w ≠ i ∧ ∃ ts, t.pool.items w = some ts) ∧
      (t.evict hash i used).count ≤ t.map.count ∧ (used = true → (t.evict hash i used).count < t.map.count) ∧
      (t.evict hash i used).capacity = t.map.capacity := by
  unfold KeyedPool.evict
  cases used with
  | false =>
    have hnone : t.pool.items i = none := by simpa using hi.symm
    refine ⟨h.map_inv, fun q w => ?_, le_refl _, fun hc => by simp at hc, rfl⟩
    simp only [Bool.false_eq_true, ↓reduceIte]
    rw [h.entry q w]
    constructor
    · rintro ⟨hq, ts, hts⟩
      exact ⟨hq, fun hw => (by rw [hw, hnone] at hts; cases hts), ts, hts⟩
    · rintro ⟨hq, -, hts⟩; exact ⟨hq, hts⟩
  | true =>
    obtain ⟨ts, hts⟩ := Option.isSome_iff_exists.mp hi.symm
    obtain ⟨-, h2, h3, h4, h5, h6⟩ := mapRemove_spec (.elem i) h.map_inv
      ⟨.elem i, i, (h.entry _ i).mpr ⟨rfl, ts, hts⟩, rfl⟩
    simp only [↓reduceIte]
    refine ⟨h2, fun q w => ?_, by omega, fun _ => by omega, h5⟩
    rw [h3, h.entry q w]
    constructor
    · rintro ⟨⟨rfl, hw⟩, hne⟩
      exact ⟨rfl, fun he => hne (by rw [he]), hw⟩
    · rintro ⟨rfl, hne, ts', hw⟩
      exact ⟨⟨rfl, ts', hw⟩, fun he => hne (h.key_inj hw hts he)⟩

/-- Discarding an index in use frees it. -/
theorem discard (h : t.Inv hash n) {i : ℕ} (hi : (t.pool.items i).isSome) :
    DiscardPre t i ∧ (t.discard hash i).Inv hash n ∧
      (t.discard hash i).pool.items = Function.update t.pool.items i none := by
  obtain ⟨ts, hts⟩ := Option.isSome_iff_exists.mp hi
  have hlt := IndexPool.items_lt hts
  have hit := IndexPool.return_items h.pool_wf hlt
  obtain ⟨h1, h2, -, -, h5⟩ := @Inv.evict K _ _ hash n t h i true hi.symm
  refine ⟨⟨⟨i, (h.bound_iff_entry i).mp hi⟩, hlt⟩,
    { map_inv := h1, room := le_of_le_of_eq h.room h5.symm, keys_length := h.keys_length,
      pool_wf := IndexPool.setTimestamp_wf h.pool_wf _ _, pool_size := h.pool_size,
      entry := fun q w => ?_ }, hit⟩
  rw [show (t.discard hash i).pool.items = _ from hit]
  refine (h2 q w).trans (and_congr_right fun _ => ?_)
  by_cases hw : w = i
  · subst hw; simp
  · simp [hw]

omit [DecidableEq K] in
theorem key_set (h : t.Inv hash n) {i : ℕ} (hi : i < n) (k : K) (j : ℕ) :
    (t.keys.set i k).getD j default = if j = i then k else t.key j := by
  simp only [KeyedPool.key, List.getD_eq_getElem?_getD]
  by_cases hj : j = i
  · subst hj; simp [List.getElem?_set_self (h.keys_length ▸ hi)]
  · simp [List.getElem?_set_ne (Ne.symm hj), hj]

/-- After the eviction, the map is ready for the new key in element `i`. -/
theorem evicted (h : t.Inv hash n) {i : ℕ} {used : Bool} (hin : i < n)
    (hi : used = (t.pool.items i).isSome) {k : K} (hk : t.find hash k = none) :
    (t.evict hash i used).Inv hash (keyMem (t.keys.set i k)) ∧
      (used = true → MapRemovePre t.map (.elem i)) ∧
      MapSetPre n (keyMem (t.keys.set i k)) (t.evict hash i used) (.elem i) := by
  obtain ⟨h1, h2, h3, h4, -⟩ := h.evict hi
  -- the write to element `i` is seen by no stored key
  have hmem : ∀ q w, (t.evict hash i used).Entry q w →
      keyMem (t.keys.set i k) q (t.evict hash i used).keySize = t.key w := by
    intro q w hq
    obtain ⟨rfl, hne, -⟩ := (h2 q w).mp hq
    rw [keyMem, h.key_set hin, if_neg hne]
  refine ⟨h1.mem_congr fun s p hp => ?_, fun hu => ⟨i, ?_⟩, fun q w hq => ?_, ?_⟩
  · have he : (t.evict hash i used).Entry p _ := ⟨s, h1.toShape.lt_of_addr hp, hp, rfl⟩
    obtain ⟨rfl, -⟩ := (h2 _ _).mp he
    rw [hmem _ _ he]
    rfl
  · rw [← h.bound_iff_entry, ← hi, hu]
  · obtain ⟨rfl, hne, ts, hts⟩ := (h2 q w).mp hq
    rw [hmem _ _ hq, keyMem, h.key_set hin, if_pos rfl]
    exact h.find_none.mp hk w ts hts
  · cases used with
    | false => exact lt_of_le_of_lt h3 (h.count_lt hin (by simpa using hi.symm))
    | true => exact lt_of_lt_of_le (h4 rfl) h.count_le

/-- `insert` meets the preconditions of the calls it makes. -/
theorem insertPre (h : t.Inv hash n) {time : ℕ} (ht : time ≠ timeMax) {k : K} (hk : t.find hash k = none) :
    InsertPre hash n t time k := by
  refine ⟨ht, fun index wasUsed pool hb => ?_⟩
  rcases IndexPool.borrow_cases h.pool_wf ht with ⟨i, used, pool', he, hi, hu, -⟩ | ⟨he, -⟩
  · rw [he] at hb
    simp only [Prod.mk.injEq, Option.some.injEq] at hb
    obtain ⟨⟨rfl, rfl⟩, -⟩ := hb
    have hused : used = (t.pool.items i).isSome := by
      rcases hu with ⟨rfl, hu⟩ | ⟨rfl, ts, hu, -⟩ <;> rw [hu] <;> rfl
    exact (h.evicted (h.pool_size ▸ hi) hused hk).2
  · rw [he] at hb; simp at hb

/-- What inserting an absent key does: it binds a free or expired index to
the key and the time, or every index is bound and young and nothing changes. -/
theorem insert_cases (h : t.Inv hash n) {time : ℕ} (ht : time ≠ timeMax) {k : K} (hk : t.find hash k = none) :
    (∃ i t', t.insert hash time k = (some i, t') ∧ i < n ∧
      (∀ ts, t.pool.items i = some ts → ¬ poolYoung time t.pool.expirationTime ts) ∧ t'.Inv hash n ∧
      t'.pool.items = Function.update t.pool.items i (some time) ∧ t'.key = Function.update t.key i k ∧
      t'.pool.expirationTime = t.pool.expirationTime) ∨
    (t.insert hash time k = (none, t) ∧
      ∀ i, i < n → ∃ ts, t.pool.items i = some ts ∧ poolYoung time t.pool.expirationTime ts) := by
  rcases IndexPool.borrow_cases h.pool_wf ht with ⟨i, used, pool', he, hi, hu, hit, hs, hx, hw⟩ | ⟨he, hn⟩
  · left
    have hin : i < n := h.pool_size ▸ hi
    have hused : used = (t.pool.items i).isSome := by
      rcases hu with ⟨rfl, hu⟩ | ⟨rfl, ts, hu, -⟩ <;> rw [hu] <;> rfl
    obtain ⟨h1, -, hpre⟩ := h.evicted hin hused hk
    obtain ⟨-, h2, h3, -, h5⟩ := h.evict hused
    obtain ⟨-, h6, h7, -, h8, -⟩ := mapSet_spec (.elem i) i h1
      (lt_of_lt_of_le hpre.2 (h5 ▸ h.room)) hpre.1
    have hins : t.insert hash time k = (some i,
        { keys := t.keys.set i k
          map := mapSet hash (keyMem (t.keys.set i k)) (t.evict hash i used) (.elem i) i
          pool := pool' }) := by simp only [KeyedPool.insert, he]
    refine ⟨i, _, hins, hin, ?_, ?_, hit, ?_, hx⟩
    · rintro ts hts
      rcases hu with ⟨-, hu⟩ | ⟨-, ts', hu, hy⟩
      · rw [hu] at hts; cases hts
      · rw [hu] at hts; cases hts; exact hy
    · refine { map_inv := h6, room := by rw [h8, h5]; exact h.room
               keys_length := by rw [List.length_set]; exact h.keys_length
               pool_wf := hw, pool_size := by rw [hs]; exact h.pool_size, entry := fun q w => ?_ }
      rw [h7, h2, hit]
      by_cases hwi : w = i
      · subst hwi; simp
      · simp [hwi]
    · funext j
      rw [KeyedPool.key, h.key_set hin, Function.update_apply]
  · right
    refine ⟨by simp only [KeyedPool.insert, he], fun i hi => ?_⟩
    have := hn i (h.pool_size ▸ hi)
    simp only [IndexPool.Available, not_forall, not_not] at this
    obtain ⟨ts, hts, hy⟩ := this
    exact ⟨ts, hts, hy⟩

/-- Inserting takes the last borrowed index if that is free or expired, and
leaves the index it takes as the last borrowed one. -/
theorem insert_at_last (h : t.Inv hash n) {time : ℕ} {k : K} (hl : t.pool.lastBorrowedIndex < n)
    (ha : ∀ ts, t.pool.items t.pool.lastBorrowedIndex = some ts → ¬ poolYoung time t.pool.expirationTime ts) :
    (t.insert hash time k).1 = some t.pool.lastBorrowedIndex := by
  have hb := @IndexPool.borrow_at_last t.pool time (h.pool_size.symm ▸ hl) ha
  unfold KeyedPool.insert
  rcases he : indexPoolBorrow t.pool time with ⟨_ | ⟨i, used⟩, pool'⟩
  · rw [he] at hb; cases hb
  · rw [he] at hb; exact hb

/-- Nothing changes where there is no index to borrow. -/
theorem insert_none {t t' : KeyedPool K} {time : ℕ} {k : K} (h : t.insert hash time k = (none, t')) : t' = t := by
  unfold KeyedPool.insert at h
  rcases he : indexPoolBorrow t.pool time with ⟨_ | ⟨i, used⟩, pool'⟩
  · rw [he] at h; cases h; rfl
  · rw [he] at h; cases h

theorem insert_last {t : KeyedPool K} {time i : ℕ} {k : K}
    (hi : (t.insert hash time k).1 = some i) : (t.insert hash time k).2.pool.lastBorrowedIndex = i := by
  unfold KeyedPool.insert at hi ⊢
  rcases he : indexPoolBorrow t.pool time with ⟨_ | ⟨j, used⟩, pool'⟩
  · rw [he] at hi; cases hi
  · rw [he] at hi
    cases hi
    exact IndexPool.borrow_last he

end Inv

omit [DecidableEq K] in
/-- A new table has no index in use. -/
theorem keyedPoolAlloc_inv (keySize e : ℕ) {capacity : ℕ} (hc : capacity * 64 ≤ sizeMax) :
    ∃ t, keyedPoolAlloc K keySize capacity e = some t ∧ (∀ hash : K → UInt32, t.Inv hash capacity) ∧
      (t.pool.items = fun _ => none) ∧ t.pool.expirationTime = e := by
  obtain ⟨m, hm, -, hcap, hinv, hempty, -⟩ := mapAlloc_spec (K := K) (P := KeyRef K) keySize hc
  refine ⟨_, by rw [keyedPoolAlloc, hm]; rfl, fun hash => ?_, IndexPool.alloc_items capacity e, rfl⟩
  exact { map_inv := hinv hash _, room := hcap, keys_length := by simp,
          pool_wf := IndexPool.alloc_wf capacity e, pool_size := rfl,
          entry := fun q w => by simp [IndexPool.alloc_items, hempty] }

end KeyedPool
end Klint
