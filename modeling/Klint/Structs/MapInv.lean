/-
# What one operation of the hash map does

The invariant `CMap.Inv`: every stored hash is its key's, no two slots hold
the same key, and every chain counter is the number of stored keys whose
probe passes over the slot (`Probe.crossing`). `map_set` and `map_remove`
both walk the probe of a key, change the items they pass and stop at one
(`walk`); so one lemma says what either leaves (`walk_spec`). Each operation
then has one specification over the entries of the map: `mapGet_iff`,
`mapSet_spec`, `mapRemove_spec`.
-/
import Klint.Lib.Probe
import Klint.Structs.Map

namespace Klint

open Probe

variable {P K : Type}

namespace CMap

/-- The key slot `s` holds. -/
def occ (mem : P → ℕ → K) (m : CMap P) (s : ℕ) : Option K :=
  (m.item s).keyAddr.map fun p => mem p m.keySize

/-- The slot a key's probe starts at. -/
def home (hash : K → UInt32) (m : CMap P) (k : K) : ℕ := (hash k).toNat % m.capacity

/-- The map holds the key at `q` with value `w`. -/
def Entry (m : CMap P) (q : P) (w : ℕ) : Prop :=
  ∃ s, s < m.capacity ∧ (m.item s).keyAddr = some q ∧ (m.item s).value = w

/-- The number of keys the map holds. -/
def count (m : CMap P) : ℕ :=
  ((Finset.range m.capacity).filter fun s => (m.item s).keyAddr.isSome).card

/-- As many items as the capacity, which is zero or a power of two. -/
structure Shape (m : CMap P) : Prop where
  length : m.items.length = m.capacity
  pow : m.capacity = 0 ∨ ∃ k, k ≤ 63 ∧ m.capacity = 2 ^ k

structure Inv (hash : K → UInt32) (mem : P → ℕ → K) (m : CMap P) : Prop extends Shape m where
  hash_eq : ∀ s p, (m.item s).keyAddr = some p → (m.item s).keyHash = hash (mem p m.keySize)
  nodup : ∀ s t k, m.occ mem s = some k → m.occ mem t = some k → s = t
  chain_eq : ∀ s, s < m.capacity → (m.item s).chain = crossing m.capacity (m.home hash) (m.occ mem) s

@[simp] theorem setItem_capacity (m : CMap P) (i : ℕ) (it : MapItem P) :
    (m.setItem i it).capacity = m.capacity := rfl

@[simp] theorem setItem_keySize (m : CMap P) (i : ℕ) (it : MapItem P) :
    (m.setItem i it).keySize = m.keySize := rfl

theorem item_setItem {m : CMap P} {i : ℕ} (hi : i < m.items.length) (it : MapItem P) (s : ℕ) :
    (m.setItem i it).item s = if s = i then it else m.item s := by
  simp only [item, setItem, List.getD_eq_getElem?_getD]
  by_cases h : s = i
  · subst h; simp [List.getElem?_set_self hi]
  · simp [List.getElem?_set_ne (Ne.symm h), h]

/-- An item on a probe is not changed with another one. -/
theorem item_setItem_slot {m : CMap P} {n a i j : ℕ} (hlen : slot n a i < m.items.length) (ha : a < n) (hi : i < n)
    (hj : j < n) (hij : i ≠ j) (it : MapItem P) : (m.setItem (slot n a i) it).item (slot n a j) =
      m.item (slot n a j) := by
  rw [item_setItem hlen, if_neg]
  intro he
  have hdist := congrArg (dist n a) he
  rw [dist_slot ha hj, dist_slot ha hi] at hdist
  exact hij hdist.symm

theorem Shape.setItem {m : CMap P} (h : m.Shape) (i : ℕ) (it : MapItem P) : (m.setItem i it).Shape where
  length := by simp [CMap.setItem, h.length]
  pow := h.pow

theorem Shape.item_of_ge {m : CMap P} (h : m.Shape) {s : ℕ} (hs : m.capacity ≤ s) : m.item s = .empty := by
  simp [item, List.getD_eq_getElem?_getD, h.length.trans_le hs]

theorem Shape.lt_of_addr {m : CMap P} (h : m.Shape) {s : ℕ} {p : P} (hp : (m.item s).keyAddr = some p) :
    s < m.capacity := by
  by_contra hc
  rw [h.item_of_ge (by omega)] at hp
  simp [MapItem.empty] at hp

theorem Shape.capacity_le {m : CMap P} (h : m.Shape) : m.capacity ≤ 2 ^ 63 := by
  rcases h.pow with h0 | ⟨k, hk, hc⟩
  · omega
  · rw [hc]; exact Nat.pow_le_pow_right (by omega) hk

theorem home_lt {m : CMap P} (hash : K → UInt32) (k : K) (h : 0 < m.capacity) :
    m.home hash k < m.capacity := Nat.mod_lt _ h

/-- `loop` walks the probe. -/
theorem Shape.loop_eq_slot {m : CMap P} (h : m.Shape) (hash : K → UInt32) (key : K) {i : ℕ}
    (hi : i < m.capacity) : loop (hash key) i m.capacity = slot m.capacity (m.home hash key) i := by
  rcases h.pow with h0 | ⟨k, hk, hc⟩
  · omega
  · rw [slot_eq_mod (home_lt hash key (by omega)) hi, home, hc, loop_eq hk _ (hc ▸ hi)]

theorem occ_eq_some {mem : P → ℕ → K} {m : CMap P} {s : ℕ} {k : K} :
    m.occ mem s = some k ↔ ∃ p, (m.item s).keyAddr = some p ∧ mem p m.keySize = k := by
  simp [occ]

theorem Shape.occ_lt {m : CMap P} (h : m.Shape) {mem : P → ℕ → K} {s : ℕ} {k : K}
    (hk : m.occ mem s = some k) : s < m.capacity := by
  obtain ⟨p, hp, -⟩ := occ_eq_some.mp hk
  exact h.lt_of_addr hp

/-- A key is stored if some slot holds it. -/
theorem exists_entry_iff {mem : P → ℕ → K} {m : CMap P} (h : m.Shape) {k : K} :
    (∃ q w, m.Entry q w ∧ mem q m.keySize = k) ↔ ∃ s, m.occ mem s = some k := by
  constructor
  · rintro ⟨q, w, ⟨s, -, hq, -⟩, hk⟩
    exact ⟨s, occ_eq_some.mpr ⟨q, hq, hk⟩⟩
  · rintro ⟨s, hs⟩
    obtain ⟨q, hq, hk⟩ := occ_eq_some.mp hs
    exact ⟨q, _, ⟨s, h.lt_of_addr hq, hq, rfl⟩, hk⟩

/-- Memory that keeps the contents of the stored keys keeps the invariant. -/
theorem Inv.mem_congr {hash : K → UInt32} {mem mem' : P → ℕ → K} {m : CMap P} (h : m.Inv hash mem)
    (he : ∀ s p, (m.item s).keyAddr = some p → mem' p m.keySize = mem p m.keySize) : m.Inv hash mem' := by
  have hocc : m.occ mem' = m.occ mem := by
    funext s
    unfold occ
    cases hp : (m.item s).keyAddr with
    | none => rfl
    | some p => simp [he s p hp]
  exact { toShape := h.toShape, hash_eq := fun s p hp => by rw [he s p hp]; exact h.hash_eq s p hp,
          nodup := by rw [hocc]; exact h.nodup, chain_eq := by rw [hocc]; exact h.chain_eq }

/-- A map with a free slot for one more key has one. -/
theorem exists_free {m : CMap P} (h : m.count < m.capacity) :
    ∃ s, s < m.capacity ∧ (m.item s).keyAddr = none := by
  by_contra hc
  push Not at hc
  have hall : (Finset.range m.capacity).filter (fun s => (m.item s).keyAddr.isSome) =
      Finset.range m.capacity :=
    Finset.filter_true_of_mem fun s hs => Option.isSome_iff_ne_none.mpr (hc s (Finset.mem_range.mp hs))
  rw [count, hall, Finset.card_range] at h
  omega

/-- Filling a free slot adds one key. -/
theorem count_fill {m m' : CMap P} {t : ℕ} (hc : m'.capacity = m.capacity) (ht : t < m.capacity)
    (hf : (m.item t).keyAddr = none) (hf' : (m'.item t).keyAddr.isSome)
    (he : ∀ s, s ≠ t → (m'.item s).keyAddr = (m.item s).keyAddr) : m'.count = m.count + 1 := by
  have hset : (Finset.range m'.capacity).filter (fun s => (m'.item s).keyAddr.isSome) =
      insert t ((Finset.range m.capacity).filter fun s => (m.item s).keyAddr.isSome) := by
    ext s
    simp only [Finset.mem_filter, Finset.mem_range, Finset.mem_insert, hc]
    by_cases hs : s = t
    · subst hs; simp [ht, hf']
    · simp [hs, he s hs]
  rw [count, hset, Finset.card_insert_of_notMem (by simp [hf]), count]

/-- Two tables that differ in one slot only, but for the counters. -/
structure SameBut (t : ℕ) (m m' : CMap P) : Prop where
  capacity : m'.capacity = m.capacity
  keySize : m'.keySize = m.keySize
  keyAddr : ∀ s, s ≠ t → (m'.item s).keyAddr = (m.item s).keyAddr
  value : ∀ s, s ≠ t → (m'.item s).value = (m.item s).value
  keyHash : ∀ s, s ≠ t → (m'.item s).keyHash = (m.item s).keyHash

section SameBut

variable {hash : K → UInt32} {mem : P → ℕ → K} {t : ℕ} {m m' : CMap P} (e : SameBut t m m')
include e

theorem SameBut.home_eq : m'.home hash = m.home hash := by
  funext k
  simp only [home, e.capacity]

theorem SameBut.occ : m'.occ mem =
    Function.update (m.occ mem) t ((m'.item t).keyAddr.map fun p => mem p m.keySize) := by
  funext s
  by_cases hs : s = t
  · rw [hs, Function.update_self, CMap.occ, e.keySize]
  · rw [Function.update_of_ne hs, CMap.occ, CMap.occ, e.keyAddr s hs, e.keySize]

/-- The stored hashes stay right if the one of the slot is. -/
theorem SameBut.hash_eq (h : m.Inv hash mem)
    (ht : ∀ p, (m'.item t).keyAddr = some p → (m'.item t).keyHash = hash (mem p m.keySize)) (s : ℕ) (p : P)
    (hp : (m'.item s).keyAddr = some p) : (m'.item s).keyHash = hash (mem p m'.keySize) := by
  rw [e.keySize]
  by_cases hs : s = t
  · subst hs
    exact ht p hp
  · rw [e.keyHash s hs]
    exact h.hash_eq s p (e.keyAddr s hs ▸ hp)

/-- The entries are the slot's, and those of the other slots. -/
theorem SameBut.entry_iff (ht : t < m.capacity) (q : P) (v : ℕ) : m'.Entry q v ↔
    ((m'.item t).keyAddr = some q ∧ (m'.item t).value = v) ∨
      ∃ s, s < m.capacity ∧ s ≠ t ∧ (m.item s).keyAddr = some q ∧ (m.item s).value = v := by
  constructor
  · rintro ⟨s, hs, hq, hv⟩
    by_cases hst : s = t
    · exact .inl (hst ▸ ⟨hq, hv⟩)
    · exact .inr ⟨s, e.capacity ▸ hs, hst, (e.keyAddr s hst).symm.trans hq, (e.value s hst).symm.trans hv⟩
  · rintro (⟨hq, hv⟩ | ⟨s, hs, hst, hq, hv⟩)
    · exact ⟨t, e.capacity.symm ▸ ht, hq, hv⟩
    · exact ⟨s, e.capacity.symm ▸ hs, (e.keyAddr s hst).trans hq, (e.value s hst).trans hv⟩

end SameBut

end CMap

open CMap

section Get

variable {hash : K → UInt32} {mem : P → ℕ → K} {m : CMap P} {keyPtr : P}

theorem hasHash_of_occ (h : m.Inv hash mem) {s : ℕ} (hs : m.occ mem s = some (mem keyPtr m.keySize)) :
    m.hasHash hash mem keyPtr s = true := by
  obtain ⟨p, hp, hk⟩ := occ_eq_some.mp hs
  simp [CMap.hasHash, hp, h.hash_eq s p hp, hk]

variable [DecidableEq K]

/-- The test of the loops finds the key, and finds nothing else. -/
theorem isKey_iff (h : m.Inv hash mem) (s : ℕ) :
    m.isKey hash mem keyPtr s = true ↔ m.occ mem s = some (mem keyPtr m.keySize) := by
  unfold CMap.isKey CMap.occ
  cases hp : (m.item s).keyAddr with
  | none => simp
  | some p =>
    have := h.hash_eq s p hp
    simp only [this, Option.map_some, Option.some.injEq, Bool.and_eq_true, beq_iff_eq]
    exact ⟨fun h => h.2, fun h => ⟨by rw [h], h⟩⟩

theorem mapGetLoop_iff (h : m.Inv hash mem) {v : ℕ} : ∀ {k i : ℕ}, i + k = m.capacity →
    (∀ j, j < i → m.occ mem (slot m.capacity (m.home hash (mem keyPtr m.keySize)) j) ≠
      some (mem keyPtr m.keySize)) →
    (mapGetLoop hash mem m keyPtr k i = some v ↔
      ∃ s, m.occ mem s = some (mem keyPtr m.keySize) ∧ (m.item s).value = v)
  | 0, i, hk, hno => by
    simp only [mapGetLoop, reduceCtorEq, false_iff, not_exists, not_and]
    intro s hs _
    have hlt := h.occ_lt hs
    have ha := home_lt hash (mem keyPtr m.keySize) (by omega : 0 < m.capacity)
    refine hno (dist m.capacity (m.home hash (mem keyPtr m.keySize)) s) ?_ ?_
    · have := dist_lt ha hlt; omega
    · rw [slot_dist ha hlt]; exact hs
  | k + 1, i, hk, hno => by
    have hi : i < m.capacity := by omega
    have ha := home_lt hash (mem keyPtr m.keySize) (by omega : 0 < m.capacity)
    rw [mapGetLoop]
    simp only [h.loop_eq_slot hash (mem keyPtr m.keySize) hi]
    set index := slot m.capacity (m.home hash (mem keyPtr m.keySize)) i with hindex
    have next : m.occ mem index ≠ some (mem keyPtr m.keySize) →
        (mapGetLoop hash mem m keyPtr k (i + 1) = some v ↔
          ∃ s, m.occ mem s = some (mem keyPtr m.keySize) ∧ (m.item s).value = v) := fun hne =>
      mapGetLoop_iff h (by omega) fun j hj => by
        rcases Nat.lt_succ_iff_lt_or_eq.mp hj with hj | rfl
        · exact hno j hj
        · exact hne
    split_ifs with h1 h2 h3
    · have hkey := (isKey_iff h index).mp h2
      rw [Option.some.injEq]
      refine ⟨fun hv => ⟨index, hkey, hv⟩, fun ⟨s, hs, hv⟩ => ?_⟩
      rw [← h.nodup s index _ hs hkey]; exact hv
    · exact next fun hc => h2 ((isKey_iff h index).mpr hc)
    · -- the early exit: a stored key further on would cross this slot
      simp only [false_iff, not_exists, not_and]
      intro s hs _
      have hlt := h.occ_lt hs
      have hd : i < dist m.capacity (m.home hash (mem keyPtr m.keySize)) s := by
        rcases Nat.lt_trichotomy (dist m.capacity (m.home hash (mem keyPtr m.keySize)) s) i with hd | hd | hd
        · exact absurd (by rw [slot_dist ha hlt]; exact hs) (hno _ hd)
        · rw [(dist_eq_iff ha hlt hi).mp hd, ← hindex] at hs
          exact absurd (hasHash_of_occ h hs) h1
        · exact hd
      have hpos := @crossing_pos _ m.capacity (m.home hash) _ index _ _ hlt hs
        (by rw [hindex, dist_slot ha hi]; exact hd)
      rw [← h.chain_eq index (slot_lt ha hi), h3] at hpos
      omega
    · exact next fun hc => h1 (hasHash_of_occ h hc)

/-- `map_get` finds a key exactly when the map holds it, and its value. -/
theorem mapGet_iff (h : m.Inv hash mem) {v : ℕ} :
    mapGet hash mem m keyPtr = some v ↔ ∃ q, m.Entry q v ∧ mem q m.keySize = mem keyPtr m.keySize := by
  rw [mapGet, mapGetLoop_iff h (by omega) (fun j hj => by omega)]
  constructor
  · rintro ⟨s, hs, hv⟩
    obtain ⟨q, hq, hk⟩ := occ_eq_some.mp hs
    exact ⟨q, ⟨s, h.lt_of_addr hq, hq, hv⟩, hk⟩
  · rintro ⟨q, ⟨s, -, hq, hv⟩, hk⟩
    exact ⟨s, occ_eq_some.mpr ⟨q, hq, hk⟩, hv⟩

theorem mapGet_none_iff (h : m.Inv hash mem) :
    mapGet hash mem m keyPtr = none ↔ ∀ q w, m.Entry q w → mem q m.keySize ≠ mem keyPtr m.keySize := by
  constructor
  · intro hn q w hq hk
    rw [(mapGet_iff h).mpr ⟨q, hq, hk⟩] at hn
    cases hn
  · intro hn
    cases hg : mapGet hash mem m keyPtr with
    | none => rfl
    | some v =>
      obtain ⟨q, hq, hk⟩ := (mapGet_iff h).mp hg
      exact absurd hk (hn q v hq)

end Get

/-! ### Walking a probe -/

/-- The loop of `map_set` and `map_remove`: change the items of the probe by
`f` up to one that `stop` accepts, and that one by `g`. -/
def walk (idx : ℕ → ℕ) (stop : MapItem P → Bool) (f g : MapItem P → MapItem P) :
    ℕ → ℕ → CMap P → CMap P × Option ℕ
  | 0, _, m => (m, none)
  | k + 1, i, m =>
    if stop (m.item (idx i)) then (m.setItem (idx i) (g (m.item (idx i))), some (idx i))
    else walk idx stop f g k (i + 1) (m.setItem (idx i) (f (m.item (idx i))))

/-- What a walk from step `i` of the probe at `a` that stops at step `d` has
made of `m`. -/
structure Walked (a i d : ℕ) (f g : MapItem P → MapItem P) (m m' : CMap P) : Prop where
  capacity : m'.capacity = m.capacity
  keySize : m'.keySize = m.keySize
  length : m'.items.length = m.items.length
  item : ∀ s, s < m.capacity → m'.item s =
    if dist m.capacity a s = d then g (m.item s)
    else if i ≤ dist m.capacity a s ∧ dist m.capacity a s < d then f (m.item s) else m.item s

theorem walk_spec (stop : MapItem P → Bool) (f g : MapItem P → MapItem P) {n a : ℕ} (ha : a < n) :
    ∀ {k i : ℕ} {m : CMap P}, m.Shape → m.capacity = n → i + k = n →
      (∃ d, i ≤ d ∧ d < n ∧ (∀ j, i ≤ j → j < d → stop (m.item (slot n a j)) = false) ∧
        stop (m.item (slot n a d)) = true ∧
        (walk (slot n a) stop f g k i m).2 = some (slot n a d) ∧
        Walked a i d f g m (walk (slot n a) stop f g k i m).1) ∨
      (∀ j, i ≤ j → j < n → stop (m.item (slot n a j)) = false)
  | 0, i, m, _, _, hk => .inr fun j h1 h2 => by omega
  | k + 1, i, m, hm, hc, hk => by
    have hi : i < n := by omega
    have hs := slot_lt ha hi
    have hlen : slot n a i < m.items.length := by rw [hm.length, hc]; exact hs
    rw [walk]
    by_cases hstop : stop (m.item (slot n a i)) = true
    · simp only [hstop, ↓reduceIte]
      refine .inl ⟨i, le_refl _, hi, fun j h1 h2 => by omega, hstop, rfl, rfl, rfl, by simp [setItem], ?_⟩
      intro s hsn
      rw [item_setItem hlen, hc]
      rw [hc] at hsn
      by_cases he : s = slot n a i
      · subst he; simp [dist_slot ha hi]
      · have : dist n a s ≠ i := fun hd => he ((dist_eq_iff ha hsn hi).mp hd)
        rw [if_neg he, if_neg this, if_neg (by omega)]
    · have hstop' : stop (m.item (slot n a i)) = false := by simpa using hstop
      simp only [hstop', Bool.false_eq_true, ↓reduceIte]
      have hitem : ∀ j, i < j → j < n →
          (m.setItem (slot n a i) (f (m.item (slot n a i)))).item (slot n a j) = m.item (slot n a j) :=
        fun j h1 h2 => item_setItem_slot hlen ha hi h2 (Nat.ne_of_lt h1) _
      rcases walk_spec stop f g ha (k := k) (i := i + 1)
          (hm.setItem (slot n a i) (f (m.item (slot n a i)))) hc (by omega) with
        ⟨d, hd1, hd2, hd3, hd4, hd5, hd6⟩ | hall
      · refine .inl ⟨d, by omega, hd2, fun j h1 h2 => ?_, ?_, hd5, hd6.capacity, hd6.keySize,
          by rw [hd6.length]; simp [setItem], fun s hsn => ?_⟩
        · rcases Nat.eq_or_lt_of_le h1 with rfl | h1
          · exact hstop'
          · rw [← hitem j h1 (by omega)]; exact hd3 j h1 h2
        · rw [← hitem d (by omega) hd2]; exact hd4
        · rw [hd6.item s hsn, setItem_capacity, item_setItem hlen, hc]
          rw [hc] at hsn
          by_cases he : s = slot n a i
          · subst he
            rw [dist_slot ha hi, if_neg (by omega), if_neg (by omega), if_pos rfl, if_neg (by omega),
              if_pos (by omega)]
          · have : dist n a s ≠ i := fun hd => he ((dist_eq_iff ha hsn hi).mp hd)
            have hiff : (i + 1 ≤ dist n a s ∧ dist n a s < d) ↔ (i ≤ dist n a s ∧ dist n a s < d) := by omega
            simp only [if_neg he, hiff]
      · refine .inr fun j h1 h2 => ?_
        rcases Nat.eq_or_lt_of_le h1 with rfl | h1
        · exact hstop'
        · rw [← hitem j h1 h2]; exact hall j h1 h2

/-- `item->chain = item->chain + 1`, in `size_t`. -/
def MapItem.chainUp (it : MapItem P) : MapItem P := { it with chain := (it.chain + 1) % 2 ^ 64 }

/-- `item->chain = item->chain - 1`, in `size_t`. -/
def MapItem.chainDown (it : MapItem P) : MapItem P := { it with chain := sizeDec it.chain }

@[simp] theorem MapItem.chainUp_keyAddr (it : MapItem P) : it.chainUp.keyAddr = it.keyAddr := rfl

@[simp] theorem MapItem.chainDown_keyAddr (it : MapItem P) : it.chainDown.keyAddr = it.keyAddr := rfl

/-- The key of an item removed. -/
def MapItem.clear (it : MapItem P) : MapItem P := { it with keyAddr := none }

/-- A key and its value stored in an item. -/
def MapItem.store (it : MapItem P) (p : P) (h : UInt32) (v : ℕ) : MapItem P :=
  { it with keyAddr := some p, keyHash := h, value := v }

/-- The test of `map_remove`, on an item. -/
def MapItem.holds [DecidableEq K] (hash : K → UInt32) (mem : P → ℕ → K) (keySize : ℕ) (key : K)
    (it : MapItem P) : Bool :=
  match it.keyAddr with
  | none => false
  | some p => it.keyHash == hash key && mem p keySize == key

theorem isKey_eq_holds [DecidableEq K] (hash : K → UInt32) (mem : P → ℕ → K) (m : CMap P) (keyPtr : P)
    (s : ℕ) :
    m.isKey hash mem keyPtr s = (m.item s).holds hash mem m.keySize (mem keyPtr m.keySize) := rfl

section Walk

variable {hash : K → UInt32} {mem : P → ℕ → K} {m : CMap P} {keyPtr : P}

variable (hash mem keyPtr)

theorem mapSetLoop_eq_walk (value : ℕ) : ∀ {k i : ℕ} {m : CMap P}, m.Shape → i + k = m.capacity →
    mapSetLoop hash mem keyPtr value k i m =
      walk (slot m.capacity (m.home hash (mem keyPtr m.keySize))) (fun it => it.keyAddr.isNone)
        MapItem.chainUp (fun it => it.store keyPtr (hash (mem keyPtr m.keySize)) value) k i m
  | 0, _, _, _, _ => rfl
  | k + 1, i, m, h, hk => by
    rw [mapSetLoop, walk]
    simp only [h.loop_eq_slot hash (mem keyPtr m.keySize) (by omega : i < m.capacity)]
    split_ifs with hs
    · rfl
    · exact mapSetLoop_eq_walk value (h.setItem _ _) (by simp only [setItem_capacity]; omega)

theorem mapRemoveLoop_eq_walk [DecidableEq K] : ∀ {k i : ℕ} {m : CMap P}, m.Shape → i + k = m.capacity →
    mapRemoveLoop hash mem keyPtr k i m =
      walk (slot m.capacity (m.home hash (mem keyPtr m.keySize)))
        (fun it => it.holds hash mem m.keySize (mem keyPtr m.keySize)) MapItem.chainDown
        MapItem.clear k i m
  | 0, _, _, _, _ => rfl
  | k + 1, i, m, h, hk => by
    rw [mapRemoveLoop, walk]
    simp only [h.loop_eq_slot hash (mem keyPtr m.keySize) (by omega : i < m.capacity), isKey_eq_holds]
    split_ifs with hs
    · rfl
    · exact mapRemoveLoop_eq_walk (h.setItem _ _) (by simp only [setItem_capacity]; omega)

variable {hash mem keyPtr}

theorem Walked.shape {a i d : ℕ} {f g : MapItem P → MapItem P} {m m' : CMap P}
    (w : Walked a i d f g m m') (h : m.Shape) : m'.Shape where
  length := by rw [w.length, w.capacity, h.length]
  pow := by rw [w.capacity]; exact h.pow

/-- The item that the walk stops at. -/
theorem Walked.item_stop {a i d : ℕ} {f g : MapItem P → MapItem P} {m m' : CMap P} (w : Walked a i d f g m m')
    (ha : a < m.capacity) (hd : d < m.capacity) :
    m'.item (slot m.capacity a d) = g (m.item (slot m.capacity a d)) := by
  rw [w.item _ (slot_lt ha hd), dist_slot ha hd, if_pos rfl]

/-- What the walk leaves of an item that it passes, it leaves of all items but the last. -/
theorem Walked.item_ne {a i d : ℕ} {f g : MapItem P → MapItem P} {m m' : CMap P} (w : Walked a i d f g m m')
    (h : m.Shape) (ha : a < m.capacity) (hd : d < m.capacity) {α : Type} (part : MapItem P → α)
    (hf : ∀ it, part (f it) = part it) {s : ℕ} (hs : s ≠ slot m.capacity a d) :
    part (m'.item s) = part (m.item s) := by
  rcases Nat.lt_or_ge s m.capacity with hlt | hge
  · rw [w.item s hlt, if_neg fun hc => hs ((dist_eq_iff ha hlt hd).mp hc)]
    split_ifs
    · exact hf _
    · rfl
  · rw [h.item_of_ge hge, (w.shape h).item_of_ge (w.capacity.symm ▸ hge)]

/-- A walk whose passed items keep their keys and hashes and their values
changes those of one slot only. -/
theorem Walked.sameBut {a i d : ℕ} {f g : MapItem P → MapItem P} {m m' : CMap P} (w : Walked a i d f g m m')
    (h : m.Shape) (ha : a < m.capacity) (hd : d < m.capacity) (hk : ∀ it, (f it).keyAddr = it.keyAddr)
    (hv : ∀ it, (f it).value = it.value) (hh : ∀ it, (f it).keyHash = it.keyHash) :
    SameBut (slot m.capacity a d) m m' where
  capacity := w.capacity
  keySize := w.keySize
  keyAddr _ := w.item_ne h ha hd MapItem.keyAddr hk
  value _ := w.item_ne h ha hd MapItem.value hv
  keyHash _ := w.item_ne h ha hd MapItem.keyHash hh

section Chain

variable {a d : ℕ} {g : MapItem P → MapItem P} {m' : CMap P} {k : K} (h : m.Inv hash mem) (hk : m.home hash k = a)
  (ha : a < m.capacity) (hd : d < m.capacity) (hg : ∀ it, (g it).chain = it.chain)
include h hk ha hd hg

/-- The counters that a walk to a free slot adds to are those that a key stored there crosses. -/
theorem Walked.chain_up (w : Walked a 0 d MapItem.chainUp g m m') (hfree : m.occ mem (slot m.capacity a d) = none)
    {s : ℕ} (hs : s < m.capacity) : (m'.item s).chain =
      crossing m.capacity (m.home hash) (Function.update (m.occ mem) (slot m.capacity a d) (some k)) s := by
  have hle := @crossing_le _ m.capacity (m.home hash) (m.occ mem) s
  have hcap := h.toShape.capacity_le
  rw [crossing_insert _ (slot_lt ha hd) hfree, w.item s hs, ← h.chain_eq s hs, hk, dist_slot ha hd]
  rw [← h.chain_eq s hs] at hle
  by_cases h1 : dist m.capacity a s = d
  · rw [if_pos h1, if_neg (by omega), hg]
    rfl
  · by_cases h2 : dist m.capacity a s < d
    · rw [if_neg h1, if_pos ⟨Nat.zero_le _, h2⟩, if_pos h2]
      exact Nat.mod_eq_of_lt (by omega)
    · rw [if_neg h1, if_neg (by omega), if_neg h2]
      rfl

/-- The counters that a walk to a key takes from are those that the key crosses. -/
theorem Walked.chain_down (w : Walked a 0 d MapItem.chainDown g m m')
    (hfound : m.occ mem (slot m.capacity a d) = some k) {s : ℕ} (hs : s < m.capacity) : (m'.item s).chain =
      crossing m.capacity (m.home hash) (Function.update (m.occ mem) (slot m.capacity a d) none) s := by
  have hle := @crossing_le _ m.capacity (m.home hash) (m.occ mem) s
  have hcap := h.toShape.capacity_le
  have hrem := @crossing_remove _ m.capacity (m.home hash) _ _ _ (slot_lt ha hd) hfound s
  rw [hk, dist_slot ha hd, ← h.chain_eq s hs] at hrem
  rw [← h.chain_eq s hs] at hle
  rw [w.item s hs]
  by_cases h1 : dist m.capacity a s = d
  · rw [if_neg (by omega)] at hrem
    rw [if_pos h1, hg]
    exact hrem
  · by_cases h2 : dist m.capacity a s < d
    · -- the counter is positive, so it does not wrap
      rw [if_pos h2] at hrem
      rw [if_neg h1, if_pos ⟨Nat.zero_le _, h2⟩]
      have hdec : ((m.item s).chainDown).chain = (m.item s).chain - 1 := by
        rw [MapItem.chainDown, sizeDec, if_neg (by omega)]
      rw [hdec]
      omega
    · rw [if_neg h2] at hrem
      rw [if_neg h1, if_neg (by omega)]
      exact hrem

end Chain

end Walk

section Set

variable {hash : K → UInt32} {mem : P → ℕ → K} {m : CMap P} (keyPtr : P) (value : ℕ)

/-- `map_set` of an absent key into a map with room: it finds a slot, keeps
the invariant and adds the entry. -/
theorem mapSet_spec (h : m.Inv hash mem) (hroom : m.count < m.capacity)
    (habs : ∀ q w, m.Entry q w → mem q m.keySize ≠ mem keyPtr m.keySize) :
    (mapSetSlot hash mem m keyPtr value).isSome ∧ (mapSet hash mem m keyPtr value).Inv hash mem ∧
      (∀ q w, (mapSet hash mem m keyPtr value).Entry q w ↔ (q = keyPtr ∧ w = value) ∨ m.Entry q w) ∧
      (mapSet hash mem m keyPtr value).count = m.count + 1 ∧
      (mapSet hash mem m keyPtr value).capacity = m.capacity ∧
      (mapSet hash mem m keyPtr value).keySize = m.keySize := by
  have ha := home_lt hash (mem keyPtr m.keySize) (by omega : 0 < m.capacity)
  set a := m.home hash (mem keyPtr m.keySize) with hadef
  have hwalk := mapSetLoop_eq_walk hash mem keyPtr value h.toShape (Nat.zero_add m.capacity)
  unfold mapSetSlot mapSet
  rw [hwalk, ← hadef]
  rcases walk_spec (fun it : MapItem P => it.keyAddr.isNone) MapItem.chainUp
      (fun it => it.store keyPtr (hash (mem keyPtr m.keySize)) value) ha h.toShape rfl
      (Nat.zero_add m.capacity) with ⟨d, -, hd, hbusy, hfree, hslot, w⟩ | hfull
  swap
  · -- a full probe is a full table
    obtain ⟨s, hs, hn⟩ := exists_free hroom
    have := hfull (dist m.capacity a s) (Nat.zero_le _) (dist_lt ha hs)
    rw [slot_dist ha hs, hn] at this
    cases this
  set m' := (walk (slot m.capacity a) (fun it : MapItem P => it.keyAddr.isNone) MapItem.chainUp
    (fun it => it.store keyPtr (hash (mem keyPtr m.keySize)) value) m.capacity 0 m).1
  set t := slot m.capacity a d with ht
  have htlt : t < m.capacity := slot_lt ha hd
  have hfree' : (m.item t).keyAddr = none := by simpa using hfree
  have hoccT : m.occ mem t = none := by simp [CMap.occ, hfree']
  have e : SameBut t m m' := w.sameBut h.toShape ha hd MapItem.chainUp_keyAddr (fun _ => rfl) (fun _ => rfl)
  have hitemT : m'.item t = (m.item t).store keyPtr (hash (mem keyPtr m.keySize)) value := w.item_stop ha hd
  have hocc : m'.occ mem = Function.update (m.occ mem) t (some (mem keyPtr m.keySize)) := by
    rw [e.occ, hitemT]
    rfl
  have hnew : ∀ s, m.occ mem s ≠ some (mem keyPtr m.keySize) := by
    intro s hs
    obtain ⟨q, v, hq, hk⟩ := (exists_entry_iff h.toShape).mpr ⟨s, hs⟩
    exact habs q v hq hk
  refine ⟨by rw [hslot]; rfl, ⟨w.shape h.toShape, ?_, ?_, ?_⟩, ?_, ?_, w.capacity, w.keySize⟩
  · refine e.hash_eq h fun p hp => ?_
    rw [hitemT] at hp ⊢
    simp only [MapItem.store, Option.some.injEq] at hp ⊢
    rw [hp]
  · intro s u k hs hu
    rw [hocc, Function.update_apply] at hs hu
    split_ifs at hs hu with h1 h2 h2
    · rw [h1, h2]
    · exact absurd (Option.some.inj hs ▸ hu) (hnew u)
    · exact absurd (Option.some.inj hu ▸ hs) (hnew s)
    · exact h.nodup s u k hs hu
  · intro s hs
    rw [w.capacity] at hs ⊢
    rw [e.home_eq, hocc]
    refine w.chain_up h hadef.symm ha hd ?_ hoccT hs
    exact fun _ => rfl
  · intro q v
    rw [e.entry_iff htlt, hitemT]
    refine or_congr ⟨fun ⟨hq, hv⟩ => ⟨(Option.some.inj hq).symm, hv.symm⟩, ?_⟩ ⟨?_, ?_⟩
    · rintro ⟨rfl, rfl⟩
      exact ⟨rfl, rfl⟩
    · rintro ⟨s, hs, -, hq, hv⟩
      exact ⟨s, hs, hq, hv⟩
    · rintro ⟨s, hs, hq, hv⟩
      have hst : s ≠ t := fun he => by
        rw [he, hfree'] at hq
        cases hq
      exact ⟨s, hs, hst, hq, hv⟩
  · exact count_fill w.capacity htlt hfree' (by rw [hitemT]; rfl) e.keyAddr

end Set

section Remove

variable [DecidableEq K] {hash : K → UInt32} {mem : P → ℕ → K} {m : CMap P} (keyPtr : P)

/-- `map_remove` of a present key: it finds it, keeps the invariant and
removes its entry. -/
theorem mapRemove_spec (h : m.Inv hash mem)
    (hin : ∃ q w, m.Entry q w ∧ mem q m.keySize = mem keyPtr m.keySize) :
    (mapRemoveSlot hash mem m keyPtr).isSome ∧ (mapRemove hash mem m keyPtr).Inv hash mem ∧
      (∀ q w, (mapRemove hash mem m keyPtr).Entry q w ↔
        m.Entry q w ∧ mem q m.keySize ≠ mem keyPtr m.keySize) ∧
      (mapRemove hash mem m keyPtr).count + 1 = m.count ∧
      (mapRemove hash mem m keyPtr).capacity = m.capacity ∧
      (mapRemove hash mem m keyPtr).keySize = m.keySize := by
  obtain ⟨u, hu⟩ := (exists_entry_iff h.toShape).mp hin
  have hult := h.occ_lt hu
  have ha := home_lt hash (mem keyPtr m.keySize) (by omega : 0 < m.capacity)
  set a := m.home hash (mem keyPtr m.keySize) with hadef
  have hwalk := mapRemoveLoop_eq_walk hash mem keyPtr h.toShape (Nat.zero_add m.capacity)
  unfold mapRemoveSlot mapRemove
  rw [hwalk, ← hadef]
  set stop : MapItem P → Bool := fun it => it.holds hash mem m.keySize (mem keyPtr m.keySize)
  have hstop : ∀ s, stop (m.item s) = true ↔ m.occ mem s = some (mem keyPtr m.keySize) := fun s => by
    rw [← isKey_iff h s, isKey_eq_holds]
  rcases walk_spec stop MapItem.chainDown MapItem.clear ha h.toShape rfl
      (Nat.zero_add m.capacity) with ⟨d, -, hd, hpass, hfound, hslot, w⟩ | hno
  swap
  · have := hno (dist m.capacity a u) (Nat.zero_le _) (dist_lt ha hult)
    rw [slot_dist ha hult, (hstop u).mpr hu] at this
    cases this
  set m' := (walk (slot m.capacity a) stop MapItem.chainDown MapItem.clear m.capacity 0 m).1
  set t := slot m.capacity a d with ht
  have htlt : t < m.capacity := slot_lt ha hd
  have hoccT : m.occ mem t = some (mem keyPtr m.keySize) := (hstop t).mp hfound
  obtain ⟨p, hp, hpk⟩ := occ_eq_some.mp hoccT
  have e : SameBut t m m' := w.sameBut h.toShape ha hd MapItem.chainDown_keyAddr (fun _ => rfl) (fun _ => rfl)
  have hitemT : m'.item t = (m.item t).clear := w.item_stop ha hd
  have hocc : m'.occ mem = Function.update (m.occ mem) t none := by
    rw [e.occ, hitemT]
    rfl
  refine ⟨by rw [hslot]; rfl, ⟨w.shape h.toShape, ?_, ?_, ?_⟩, ?_, ?_, w.capacity, w.keySize⟩
  · refine e.hash_eq h fun q hq => ?_
    rw [hitemT] at hq
    cases hq
  · intro s v k hs hv
    rw [hocc, Function.update_apply] at hs hv
    split_ifs at hs hv with h1 h2
    exact h.nodup s v k hs hv
  · intro s hs
    rw [w.capacity] at hs ⊢
    rw [e.home_eq, hocc]
    refine w.chain_down h hadef.symm ha hd ?_ hoccT hs
    exact fun _ => rfl
  · intro q v
    rw [e.entry_iff htlt, hitemT]
    constructor
    · rintro (⟨hq, -⟩ | ⟨s, hs, hst, hq, hv⟩)
      · cases hq
      · refine ⟨⟨s, hs, hq, hv⟩, fun hk => hst ?_⟩
        exact h.nodup s t _ (occ_eq_some.mpr ⟨q, hq, hk⟩) hoccT
    · rintro ⟨⟨s, hs, hq, hv⟩, hk⟩
      have hst : s ≠ t := fun he => by
        rw [he, hp] at hq
        exact hk (Option.some.inj hq ▸ hpk)
      exact .inr ⟨s, hs, hst, hq, hv⟩
  · exact (count_fill w.capacity.symm (w.capacity.symm ▸ htlt) (by rw [hitemT]; rfl)
      (by rw [hp]; rfl) fun s hs => (e.keyAddr s hs).symm).symm

end Remove

theorem mapAlloc_spec (keySize : ℕ) {capacity : ℕ} (hc : capacity * 64 ≤ sizeMax) :
    ∃ m, mapAlloc P keySize capacity = some m ∧ m.keySize = keySize ∧ capacity ≤ m.capacity ∧
      (∀ hash : K → UInt32, ∀ mem, m.Inv hash mem) ∧ (∀ q w, ¬ m.Entry q w) ∧ m.count = 0 := by
  unfold sizeMax at hc
  have key : ∀ n, (n = 0 ∨ ∃ k, k ≤ 63 ∧ n = 2 ^ k) →
      (∀ hash : K → UInt32, ∀ mem, (⟨List.replicate n .empty, n, keySize⟩ : CMap P).Inv hash mem) ∧
      (∀ q w, ¬ (⟨List.replicate n .empty, n, keySize⟩ : CMap P).Entry q w) ∧
      (⟨List.replicate n .empty, n, keySize⟩ : CMap P).count = 0 := by
    intro n hn
    have hitem : ∀ s, (⟨List.replicate n .empty, n, keySize⟩ : CMap P).item s = .empty := fun s => by
      simp only [item, List.getD_eq_getElem?_getD, List.getElem?_replicate]
      split_ifs <;> rfl
    have hocc : ∀ mem : P → ℕ → K, (⟨List.replicate n .empty, n, keySize⟩ : CMap P).occ mem = fun _ => none :=
      fun mem => funext fun s => by rw [CMap.occ, hitem]; rfl
    refine ⟨fun hash mem => ⟨⟨by simp, hn⟩, fun s p hp => ?_, fun s t k hs => ?_, fun s hs => ?_⟩, ?_, ?_⟩
    · rw [hitem] at hp; cases hp
    · rw [hocc] at hs; cases hs
    · rw [hitem, hocc, crossing_empty]; rfl
    · rintro q w ⟨s, -, hq, -⟩
      rw [hitem] at hq; cases hq
    · simp only [count, hitem]
      simp [MapItem.empty]
  rcases Nat.eq_zero_or_pos capacity with rfl | h0
  · exact ⟨_, rfl, rfl, le_refl _, key 0 (.inl rfl)⟩
  · obtain ⟨k, hk, hle, hk63, -⟩ := getRealCapacity_spec h0 (by omega)
    refine ⟨⟨List.replicate (2 ^ k) .empty, 2 ^ k, keySize⟩, ?_, rfl, hle, key (2 ^ k) (.inr ⟨k, hk63, rfl⟩)⟩
    rw [mapAlloc, hk]; rfl

end Klint
