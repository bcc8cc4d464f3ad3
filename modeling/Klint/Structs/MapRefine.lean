/-
# The hash map refines a partial function

A run of the map: calls of `map_set` and `map_remove` within their
contracts, on a memory in which other code may write anything but the
stored keys (the map keeps part of their ownership). The history of the run
is the calls with the contents of their keys, newest first; `lastSet` is the
partial function it says, and `map_refines` that `map_get` is that function
after every run, for any hash. For keys in bytes the memory is `chars` and
the hash `osMemoryHashOf` (`isKey_chars`).
-/
import Klint.Structs.MapInv

namespace Klint

variable {P K : Type} [DecidableEq K]

/-- The test of the three loops, on bytes. -/
theorem isKey_chars (bytes : ℕ → UInt8) (m : CMap ℕ) (keyPtr s : ℕ) :
    m.isKey osMemoryHashOf (chars bytes) keyPtr s =
      match (m.item s).keyAddr with
      | none => false
      | some p => (m.item s).keyHash == osMemoryHash bytes keyPtr m.keySize &&
          osMemoryEq bytes p keyPtr m.keySize := by
  unfold CMap.isKey
  cases (m.item s).keyAddr with
  | none => rfl
  | some p => simp only [osMemoryHash_chars, osMemoryEq_eq, beq_eq_decide]

/-- What a call does to the partial function. -/
inductive MapEvent (K : Type) where
  | set (key : K) (value : ℕ)
  | remove (key : K)

/-- The value the last `set` of a key stored, unless a `remove` followed. -/
def lastSet : List (MapEvent K) → K → Option ℕ
  | [], _ => none
  | .set k' v :: hist, k => if k = k' then some v else lastSet hist k
  | .remove k' :: hist, k => if k = k' then none else lastSet hist k

/-- The keys stored after a history. -/
def storedKeys : List (MapEvent K) → List K
  | [] => []
  | .set k _ :: hist => k :: storedKeys hist
  | .remove k :: hist => (storedKeys hist).erase k

/-- A map, the memory it lives in and the calls so far. -/
structure MapState (P K : Type) where
  map : CMap P
  mem : P → ℕ → K
  hist : List (MapEvent K)

/-- The contents of the key at a pointer. -/
def MapState.key (s : MapState P K) (p : P) : K := s.mem p s.map.keySize

/-- A call on the map, or a write of other code to memory. -/
inductive MapCall (P K : Type) where
  | set (keyPtr : P) (value : ℕ)
  | remove (keyPtr : P)
  | write (mem : P → ℕ → K)

/-- The preconditions of the contracts, for a map of the given capacity. -/
def MapCall.Pre (capacity : ℕ) (s : MapState P K) : MapCall P K → Prop
  | .set p _ => (storedKeys s.hist).length < capacity ∧ s.key p ∉ storedKeys s.hist
  | .remove p => s.key p ∈ storedKeys s.hist
  | .write mem => ∀ q w, s.map.Entry q w → mem q s.map.keySize = s.key q

def MapState.exec (hash : K → UInt32) (s : MapState P K) : MapCall P K → MapState P K
  | .set p v => { s with map := mapSet hash s.mem s.map p v, hist := .set (s.key p) v :: s.hist }
  | .remove p => { s with map := mapRemove hash s.mem s.map p, hist := .remove (s.key p) :: s.hist }
  | .write mem => { s with mem := mem }

/-- The state after a sequence of calls. -/
def MapState.execAll (hash : K → UInt32) (s : MapState P K) : List (MapCall P K) → MapState P K
  | [] => s
  | c :: cs => (s.exec hash c).execAll hash cs

/-- Every call of a sequence meets its precondition when it is made. -/
def MapState.Valid (hash : K → UInt32) (capacity : ℕ) (s : MapState P K) : List (MapCall P K) → Prop
  | [] => True
  | c :: cs => c.Pre capacity s ∧ (s.exec hash c).Valid hash capacity cs

/-- What a run keeps: the map's own invariant, room for `capacity` keys, and
its entries are what the history says. -/
structure MapState.Good (hash : K → UInt32) (keySize capacity : ℕ) (s : MapState P K) : Prop where
  inv : s.map.Inv hash s.mem
  keySize_eq : s.map.keySize = keySize
  room : capacity ≤ s.map.capacity
  count_eq : s.map.count = (storedKeys s.hist).length
  entry : ∀ k v, lastSet s.hist k = some v ↔ ∃ q, s.map.Entry q v ∧ s.key q = k
  stored : ∀ k, k ∈ storedKeys s.hist ↔ lastSet s.hist k ≠ none
  nodup : (storedKeys s.hist).Nodup

namespace MapState.Good

variable {hash : K → UInt32} {keySize capacity : ℕ} {s : MapState P K}

theorem exec_set (h : s.Good hash keySize capacity) {p : P} {v : ℕ}
    (hc : MapCall.Pre capacity s (.set p v)) :
    (mapSetSlot hash s.mem s.map p v).isSome ∧ (s.exec hash (.set p v)).Good hash keySize capacity := by
  obtain ⟨hroom, habs⟩ := hc
  have hno : ∀ q w, s.map.Entry q w → s.mem q s.map.keySize ≠ s.mem p s.map.keySize := by
    intro q w hq hk
    have hs : lastSet s.hist (s.key p) = some w := (h.entry _ w).mpr ⟨q, hq, hk⟩
    exact habs ((h.stored _).mpr (by simp [hs]))
  have hlt : s.map.count < s.map.capacity := by have := h.room; have := h.count_eq; omega
  obtain ⟨h1, h2, h3, h4, h5, h6⟩ := mapSet_spec p v h.inv hlt hno
  refine ⟨h1, h2, h6.trans h.keySize_eq, ?_, ?_, fun k w => ?_, fun k => ?_, ?_⟩
  · simp only [exec]; rw [h5]; exact h.room
  · simp only [exec, storedKeys, List.length_cons]; rw [h4, h.count_eq]
  · simp only [exec, lastSet, key]
    rw [h6]
    simp only [h3]
    constructor
    · intro hw
      split_ifs at hw with hk
      · exact ⟨p, .inl ⟨rfl, (Option.some.inj hw).symm⟩, hk.symm⟩
      · obtain ⟨q, hq, hqk⟩ := (h.entry k w).mp hw
        exact ⟨q, .inr hq, hqk⟩
    · rintro ⟨q, ⟨rfl, rfl⟩ | hq, hk⟩
      · rw [if_pos hk.symm]
      · rw [if_neg fun he => hno q w hq (hk.trans he)]
        exact (h.entry k w).mpr ⟨q, hq, hk⟩
  · simp only [exec, storedKeys, lastSet, List.mem_cons]
    by_cases hk : k = s.key p
    · simp [hk]
    · simp [hk, h.stored k]
  · exact List.nodup_cons.mpr ⟨habs, h.nodup⟩

theorem exec_remove (h : s.Good hash keySize capacity) {p : P} (hc : MapCall.Pre capacity s (.remove p)) :
    (mapRemoveSlot hash s.mem s.map p).isSome ∧ (s.exec hash (.remove p)).Good hash keySize capacity := by
  obtain ⟨v, hv⟩ := Option.ne_none_iff_exists'.mp ((h.stored _).mp hc)
  obtain ⟨q0, hq0, hk0⟩ := (h.entry _ v).mp hv
  obtain ⟨h1, h2, h3, h4, h5, h6⟩ := mapRemove_spec p h.inv ⟨q0, v, hq0, hk0⟩
  refine ⟨h1, h2, h6.trans h.keySize_eq, ?_, ?_, fun k w => ?_, fun k => ?_, h.nodup.erase _⟩
  · simp only [exec]; rw [h5]; exact h.room
  · have hlen := List.length_erase_of_mem hc
    have hpos := List.length_pos_of_mem hc
    have := h.count_eq
    simp only [exec, storedKeys]
    omega
  · simp only [exec, lastSet, key]
    rw [h6]
    simp only [h3]
    constructor
    · intro hw
      split_ifs at hw with hk
      obtain ⟨q, hq, hqk⟩ := (h.entry k w).mp hw
      exact ⟨q, ⟨hq, fun he => hk (hqk.symm.trans he)⟩, hqk⟩
    · rintro ⟨q, ⟨hq, hne⟩, hk⟩
      rw [if_neg fun he => hne (hk.trans he)]
      exact (h.entry k w).mpr ⟨q, hq, hk⟩
  · simp only [exec, storedKeys, lastSet, h.nodup.mem_erase_iff, h.stored k]
    by_cases hk : k = s.key p <;> simp [hk]

theorem exec_write (h : s.Good hash keySize capacity) {mem : P → ℕ → K}
    (hc : MapCall.Pre capacity s (.write mem)) : (s.exec hash (.write mem)).Good hash keySize capacity where
  inv := h.inv.mem_congr fun t p hp => hc p _ ⟨t, h.inv.lt_of_addr hp, hp, rfl⟩
  keySize_eq := h.keySize_eq
  room := h.room
  count_eq := h.count_eq
  entry k v := by
    rw [show (s.exec hash (.write mem)).hist = s.hist from rfl, h.entry k v]
    constructor
    · rintro ⟨q, hq, hk⟩; exact ⟨q, hq, (hc q v hq).trans hk⟩
    · rintro ⟨q, hq, hk⟩; exact ⟨q, hq, (hc q v hq).symm.trans hk⟩
  stored := h.stored
  nodup := h.nodup

theorem execAll : ∀ (calls : List (MapCall P K)) (s : MapState P K), s.Good hash keySize capacity →
    s.Valid hash capacity calls → (s.execAll hash calls).Good hash keySize capacity
  | [], _, h, _ => h
  | .set _ _ :: cs, _, h, hv => execAll cs _ (h.exec_set hv.1).2 hv.2
  | .remove _ :: cs, _, h, hv => execAll cs _ (h.exec_remove hv.1).2 hv.2
  | .write _ :: cs, _, h, hv => execAll cs _ (h.exec_write hv.1) hv.2

/-- `map_get` is the partial function of the history. -/
theorem get (h : s.Good hash keySize capacity) (p : P) :
    mapGet hash s.mem s.map p = lastSet s.hist (s.key p) := by
  cases hl : lastSet s.hist (s.key p) with
  | none =>
    refine (mapGet_none_iff h.inv).mpr fun q w hq hk => ?_
    have hs : lastSet s.hist (s.key p) = some w := (h.entry _ w).mpr ⟨q, hq, hk⟩
    rw [hs] at hl
    cases hl
  | some v =>
    obtain ⟨q, hq, hk⟩ := (h.entry _ v).mp hl
    exact (mapGet_iff h.inv).mpr ⟨q, hq, hk⟩

end MapState.Good

/-- What `map_alloc` returns is good before the first call. -/
theorem good_mapAlloc (hash : K → UInt32) (keySize : ℕ) {capacity : ℕ} (hc : capacity * 64 ≤ sizeMax) :
    ∃ m, mapAlloc P keySize capacity = some m ∧
      ∀ mem, (⟨m, mem, []⟩ : MapState P K).Good hash keySize capacity := by
  obtain ⟨m, hm, hk, hcap, hinv, hno, hcount⟩ := mapAlloc_spec (P := P) (K := K) keySize hc
  refine ⟨m, hm, fun mem => ?_⟩
  exact { inv := hinv hash mem, keySize_eq := hk, room := hcap, count_eq := hcount,
          entry := fun k v => by simp [lastSet, hno],
          stored := fun k => by simp [storedKeys, lastSet], nodup := List.nodup_nil }

/-- **The hash map refines a partial function.** From `map_alloc`, after any
sequence of calls within their contracts, `map_get` answers the value the
last `map_set` of the key stored, and nothing if there is none or the key
was removed since; the next `map_set` within its contract finds a slot and
the next `map_remove` finds its key. -/
theorem map_refines (hash : K → UInt32) (keySize capacity : ℕ) (hc : capacity * 64 ≤ sizeMax) :
    ∃ m, mapAlloc P keySize capacity = some m ∧ ∀ (mem : P → ℕ → K) (calls : List (MapCall P K)),
      (⟨m, mem, []⟩ : MapState P K).Valid hash capacity calls →
      let s := (⟨m, mem, []⟩ : MapState P K).execAll hash calls
      (∀ p, mapGet hash s.mem s.map p = lastSet s.hist (s.mem p keySize)) ∧
      (∀ p v, MapCall.Pre capacity s (.set p v) → (mapSetSlot hash s.mem s.map p v).isSome) ∧
      (∀ p, MapCall.Pre capacity s (.remove p) → (mapRemoveSlot hash s.mem s.map p).isSome) := by
  obtain ⟨m, hm, hgood⟩ := good_mapAlloc (P := P) hash keySize hc
  refine ⟨m, hm, fun mem calls hv => ?_⟩
  have h := (hgood mem).execAll calls _ hv
  refine ⟨fun p => ?_, fun p v hp => (h.exec_set hp).1, fun p hp => (h.exec_remove hp).1⟩
  rw [h.get p, MapState.key, h.keySize_eq]

/-- The theorem at a map for two keys whose hashes collide: the first is
removed, and the second, stored behind it, is still found. -/
theorem map_refines_collision :
    ∃ m, mapAlloc ℕ 1 2 = some m ∧
      mapGet (fun _ => 0) (fun p _ => p) (((⟨m, fun p _ => p, []⟩ : MapState ℕ ℕ).execAll (fun _ => 0)
        [.set 7 70, .set 8 80, .remove 7]).map) 8 = some 80 := by
  obtain ⟨m, hm, h⟩ := map_refines (P := ℕ) (K := ℕ) (fun _ => 0) 1 2 (by decide)
  refine ⟨m, hm, ?_⟩
  have := (h (fun p _ => p) [.set 7 70, .set 8 80, .remove 7]
    (by simp [MapState.Valid, MapCall.Pre, storedKeys, MapState.exec, MapState.key])).1 8
  rw [show (((⟨m, fun p _ => p, []⟩ : MapState ℕ ℕ).execAll (fun _ => 0)
    [.set 7 70, .set 8 80, .remove 7]).mem) = fun p _ => p from rfl] at this
  rw [this]
  rfl

end Klint
