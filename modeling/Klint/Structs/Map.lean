/-
# The hash map

`map` (`env/src/structs/map.c`): open addressing over a power-of-two array
of items, with a chain counter in each item instead of tombstones. An item
holds a pointer to its key, not the key: the map reads the `key_size` bytes
behind the pointers it was given. `mem p n` is the contents of the `n` bytes
at `p`; the map depends on memory through it alone (`Klint.Os.Memory`), so
pointers and contents are of any type and the hash is any function of the
contents.

The operations here are those of the source, loop by loop; `MapInv.lean`
says what one loop does.
-/
import Klint.Os.Memory
import Mathlib.Data.Nat.Bitwise

namespace Klint

/-- `struct map_item`; a NULL key address is `none`. -/
structure MapItem (P : Type) where
  keyAddr : Option P
  value : ℕ
  chain : ℕ
  keyHash : UInt32

/-- A zero-initialised item with its key address NULL and its chain 0. -/
def MapItem.empty {P : Type} : MapItem P := ⟨none, 0, 0, 0⟩

/-- `struct map`. -/
structure CMap (P : Type) where
  items : List (MapItem P)
  capacity : ℕ
  keySize : ℕ

namespace CMap

variable {P : Type}

/-- `map->items[i]`. -/
def item (m : CMap P) (i : ℕ) : MapItem P := m.items.getD i .empty

def setItem (m : CMap P) (i : ℕ) (it : MapItem P) : CMap P := { m with items := m.items.set i it }

end CMap

/-- The loop of `get_real_capacity`; `none` if it has not ended after the
given number of tests. -/
def getRealCapacityLoop : ℕ → ℕ → ℕ → Option ℕ
  | 0, _, _ => none
  | f + 1, capacity, realCapacity =>
    if realCapacity < capacity then getRealCapacityLoop f capacity (realCapacity * 2 % 2 ^ 64)
    else some realCapacity

/-- `get_real_capacity`. After 64 doublings the capacity has wrapped to 0
and the C loop never ends: this is `none`. -/
def getRealCapacity (capacity : ℕ) : Option ℕ :=
  if capacity = 0 then some 0 else getRealCapacityLoop 65 capacity 1

/-- `loop`: two masks in `size_t`. -/
def loop (start : UInt32) (i capacity : ℕ) : ℕ :=
  (((start.toNat &&& (capacity - 1)) + i) % 2 ^ 64) &&& (capacity - 1)

/-- `x - 1`, in `size_t`. -/
def sizeDec (x : ℕ) : ℕ := if x = 0 then sizeMax else x - 1

/-- `map_alloc`, where the allocations succeed. -/
def mapAlloc (P : Type) (keySize capacity : ℕ) : Option (CMap P) :=
  (getRealCapacity capacity).map fun realCapacity =>
    { items := List.replicate realCapacity .empty, capacity := realCapacity, keySize := keySize }

section Operations

variable {P K : Type} [DecidableEq K] (hash : K → UInt32) (mem : P → ℕ → K)

/-- The test of the three loops: the item has a key, the hashes agree and so
do the contents. -/
def CMap.isKey (m : CMap P) (keyPtr : P) (index : ℕ) : Bool :=
  match (m.item index).keyAddr with
  | none => false
  | some p =>
    (m.item index).keyHash == hash (mem keyPtr m.keySize) && mem p m.keySize == mem keyPtr m.keySize

/-- The first half of the test: the item has a key with this hash. -/
def CMap.hasHash (m : CMap P) (keyPtr : P) (index : ℕ) : Bool :=
  (m.item index).keyAddr.isSome && (m.item index).keyHash == hash (mem keyPtr m.keySize)

/-- The loop of `map_get`, for `k` steps from `i`. -/
def mapGetLoop (m : CMap P) (keyPtr : P) : ℕ → ℕ → Option ℕ
  | 0, _ => none
  | k + 1, i =>
    let index := loop (hash (mem keyPtr m.keySize)) i m.capacity
    if m.hasHash hash mem keyPtr index then
      if m.isKey hash mem keyPtr index then some (m.item index).value
      else mapGetLoop m keyPtr k (i + 1)
    else if (m.item index).chain = 0 then none
    else mapGetLoop m keyPtr k (i + 1)

/-- `map_get`: `some` of what it stores in `out_value`, if it returns true. -/
def mapGet (m : CMap P) (keyPtr : P) : Option ℕ := mapGetLoop hash mem m keyPtr m.capacity 0

/-- The loop of `map_set`, for `k` steps from `i`: the map and the slot the
key was stored in, if the loop found one. -/
def mapSetLoop (keyPtr : P) (value : ℕ) : ℕ → ℕ → CMap P → CMap P × Option ℕ
  | 0, _, m => (m, none)
  | k + 1, i, m =>
    let index := loop (hash (mem keyPtr m.keySize)) i m.capacity
    if (m.item index).keyAddr.isNone then
      (m.setItem index { m.item index with
        keyAddr := some keyPtr, keyHash := hash (mem keyPtr m.keySize), value := value }, some index)
    else
      mapSetLoop keyPtr value k (i + 1)
        (m.setItem index { m.item index with chain := ((m.item index).chain + 1) % 2 ^ 64 })

def mapSet (m : CMap P) (keyPtr : P) (value : ℕ) : CMap P :=
  (mapSetLoop hash mem keyPtr value m.capacity 0 m).1

/-- The slot `map_set` stores the key in. -/
def mapSetSlot (m : CMap P) (keyPtr : P) (value : ℕ) : Option ℕ :=
  (mapSetLoop hash mem keyPtr value m.capacity 0 m).2

/-- The loop of `map_remove`, for `k` steps from `i`: the map and the slot
the key was removed from, if the loop found it. -/
def mapRemoveLoop (keyPtr : P) : ℕ → ℕ → CMap P → CMap P × Option ℕ
  | 0, _, m => (m, none)
  | k + 1, i, m =>
    let index := loop (hash (mem keyPtr m.keySize)) i m.capacity
    if m.isKey hash mem keyPtr index then
      (m.setItem index { m.item index with keyAddr := none }, some index)
    else
      mapRemoveLoop keyPtr k (i + 1)
        (m.setItem index { m.item index with chain := sizeDec (m.item index).chain })

def mapRemove (m : CMap P) (keyPtr : P) : CMap P := (mapRemoveLoop hash mem keyPtr m.capacity 0 m).1

/-- The slot `map_remove` removes the key from. -/
def mapRemoveSlot (m : CMap P) (keyPtr : P) : Option ℕ :=
  (mapRemoveLoop hash mem keyPtr m.capacity 0 m).2

end Operations

/-! ### The arithmetic of the slots -/

theorem getRealCapacityLoop_spec : ∀ (f j capacity : ℕ), f + j = 64 → capacity ≤ 2 ^ 63 →
    (0 < j → 2 ^ (j - 1) < capacity) →
    ∃ k, getRealCapacityLoop (f + 1) capacity (2 ^ j) = some (2 ^ k) ∧ capacity ≤ 2 ^ k ∧ k ≤ 63 ∧
      (0 < k → 2 ^ (k - 1) < capacity)
  | 0, j, capacity, hj, hc, hlt => by
    obtain rfl : j = 64 := by omega
    have := hlt (by omega)
    omega
  | f + 1, j, capacity, hj, hc, hlt => by
    rw [getRealCapacityLoop]
    split_ifs with h
    · have hj63 : j < 63 := by
        by_contra hge
        have : (2 : ℕ) ^ 63 ≤ 2 ^ j := Nat.pow_le_pow_right (by omega) (by omega)
        omega
      have hw : 2 ^ j * 2 % 2 ^ 64 = 2 ^ (j + 1) := by
        rw [← Nat.pow_succ]
        exact Nat.mod_eq_of_lt (Nat.pow_lt_pow_right (by omega) (by omega))
      rw [hw]
      exact getRealCapacityLoop_spec f (j + 1) capacity (by omega) hc fun _ => h
    · refine ⟨j, rfl, by omega, ?_, hlt⟩
      by_contra hk
      have := hlt (by omega)
      have : (2 : ℕ) ^ 63 ≤ 2 ^ (j - 1) := Nat.pow_le_pow_right (by omega) (by omega)
      omega

/-- The real capacity is the least power of two not below the capacity. -/
theorem getRealCapacity_spec {capacity : ℕ} (h0 : 0 < capacity) (hc : capacity ≤ 2 ^ 63) :
    ∃ k, getRealCapacity capacity = some (2 ^ k) ∧ capacity ≤ 2 ^ k ∧ k ≤ 63 ∧
      (0 < k → 2 ^ (k - 1) < capacity) := by
  rw [getRealCapacity, if_neg (by omega)]
  exact getRealCapacityLoop_spec 64 0 capacity (by omega) hc fun h => absurd h (by omega)

/-- The masks are remainders: the probe of a hash starts at its remainder. -/
theorem loop_eq {k : ℕ} (hk : k ≤ 63) (start : UInt32) {i : ℕ} (hi : i < 2 ^ k) :
    loop start i (2 ^ k) = (start.toNat % 2 ^ k + i) % 2 ^ k := by
  have hp : (2 : ℕ) ^ k ≤ 2 ^ 63 := Nat.pow_le_pow_right (by omega) hk
  have hm : start.toNat % 2 ^ k < 2 ^ k := Nat.mod_lt _ (by positivity)
  unfold loop
  rw [Nat.and_two_pow_sub_one_eq_mod, Nat.and_two_pow_sub_one_eq_mod, Nat.mod_eq_of_lt (b := 2 ^ 64)]
  omega

end Klint
