/-
# Memory as the data structures see it

`os_memory_eq` and `os_memory_hash` (`env/include/os/memory.h`) read the
bytes at a pointer. Both depend on the bytes only: `osMemoryEq` compares two
blocks (`osMemoryEq_eq`), and `osMemoryHash` is a function of the block
(`osMemoryHash_eq`). So the structures over them are modelled over the
contents of the keys, with any hash function. A pointer and a length are
natural numbers, and the machine is little-endian.
-/
import Mathlib.Data.List.Basic
import Mathlib.Data.List.Range
import Mathlib.Tactic

namespace Klint

/-- `SIZE_MAX`. -/
def sizeMax : ℕ := 2 ^ 64 - 1

/-- Subtraction of unsigned 64-bit numbers. -/
def sub64 (a b : ℕ) : ℕ := (a + 2 ^ 64 - b) % 2 ^ 64

theorem sub64_of_le {a b : ℕ} (h : b ≤ a) (ha : a < 2 ^ 64) : sub64 a b = a - b := by
  unfold sub64; omega

/-- The block of `n` bytes at `p`, VeriFast's `chars`. -/
def chars (mem : ℕ → UInt8) (p n : ℕ) : List UInt8 := (List.range n).map fun i => mem (p + i)

theorem chars_length (mem : ℕ → UInt8) (p n : ℕ) : (chars mem p n).length = n := by simp [chars]

theorem chars_getD (mem : ℕ → UInt8) (p n i : ℕ) (h : i < n) : (chars mem p n).getD i 0 = mem (p + i) := by
  simp [chars, h]

/-- The loop of `os_memory_eq`, for the `k` bytes from `n` on. -/
def osMemoryEqLoop (mem : ℕ → UInt8) (a b : ℕ) : ℕ → ℕ → Bool
  | 0, _ => true
  | k + 1, n => if mem (a + n) ≠ mem (b + n) then false else osMemoryEqLoop mem a b k (n + 1)

def osMemoryEq (mem : ℕ → UInt8) (a b objSize : ℕ) : Bool := osMemoryEqLoop mem a b objSize 0

theorem osMemoryEqLoop_iff (mem : ℕ → UInt8) (a b : ℕ) : ∀ k n,
    osMemoryEqLoop mem a b k n = true ↔ ∀ i, i < k → mem (a + (n + i)) = mem (b + (n + i))
  | 0, _ => by simp [osMemoryEqLoop]
  | k + 1, n => by
    rw [osMemoryEqLoop]
    split_ifs with h
    · simp only [false_iff, not_forall]
      exact ⟨0, by omega, h⟩
    · rw [osMemoryEqLoop_iff mem a b k (n + 1)]
      constructor
      · intro hr i hi
        cases i with
        | zero => exact not_not.mp h
        | succ i => have := hr i (by omega); rwa [Nat.add_right_comm, Nat.add_assoc n i 1] at this
      · intro hr i hi
        have := hr (i + 1) (by omega)
        rwa [Nat.add_right_comm, Nat.add_assoc n i 1]

/-- Two blocks are equal when their contents are. -/
theorem osMemoryEq_eq (mem : ℕ → UInt8) (a b n : ℕ) :
    osMemoryEq mem a b n = decide (chars mem a n = chars mem b n) := by
  rw [Bool.eq_iff_iff, osMemoryEq, osMemoryEqLoop_iff, decide_eq_true_eq]
  simp only [Nat.zero_add, chars]
  constructor
  · intro h
    exact List.map_congr_left fun i hi => h i (List.mem_range.mp hi)
  · intro h i hi
    exact List.map_inj_left.mp h i (List.mem_range.mpr hi)

/-- The unsigned integer of `n` bytes at `p`, low byte first. -/
def osMemoryWord (mem : ℕ → UInt8) (p : ℕ) : ℕ → UInt32
  | 0 => 0
  | n + 1 => (mem p).toUInt32 + 256 * osMemoryWord mem (p + 1) n

/-- One step of the hash: `(hash >> 5) + hash + value`. -/
def osMemoryMix (hash value : UInt32) : UInt32 := (hash >>> 5) + hash + value

/-- The loop of `os_memory_hash` over `k` whole words: the hash, the pointer
after them and the bytes left. -/
def osMemoryHashLoop (mem : ℕ → UInt8) : ℕ → ℕ → ℕ → UInt32 → UInt32 × ℕ × ℕ
  | 0, p, n, hash => (hash, p, n)
  | k + 1, p, n, hash =>
    if 4 ≤ n then osMemoryHashLoop mem k (p + 4) (n - 4) (osMemoryMix hash (osMemoryWord mem p 4))
    else (hash, p, n)

def osMemoryHash (mem : ℕ → UInt8) (obj objSize : ℕ) : UInt32 :=
  let (hash, p, n) := osMemoryHashLoop mem (objSize / 4) obj objSize 0
  let (hash, p) := if n &&& 2 ≠ 0 then (osMemoryMix hash (osMemoryWord mem p 2), p + 2) else (hash, p)
  if n &&& 1 ≠ 0 then osMemoryMix hash (osMemoryWord mem p 1) else hash

theorem osMemoryWord_congr {mem mem' : ℕ → UInt8} : ∀ {n p p' : ℕ},
    (∀ i, i < n → mem (p + i) = mem' (p' + i)) → osMemoryWord mem p n = osMemoryWord mem' p' n
  | 0, _, _, _ => rfl
  | n + 1, p, p', h => by
    have h0 := h 0 (by omega)
    simp only [Nat.add_zero] at h0
    rw [osMemoryWord, osMemoryWord, h0, @osMemoryWord_congr mem mem' n (p + 1) (p' + 1) fun i hi => ?_]
    have := h (i + 1) (by omega)
    rwa [← Nat.add_assoc, Nat.add_right_comm, ← Nat.add_assoc, Nat.add_right_comm p'] at this

/-- What the loop leaves: a prefix of the block read, at most three bytes to go. -/
theorem osMemoryHashLoop_congr {mem mem' : ℕ → UInt8} : ∀ (k : ℕ) {n p p' : ℕ} (hash : UInt32),
    (∀ i, i < n → mem (p + i) = mem' (p' + i)) →
    ∃ d hash', osMemoryHashLoop mem k p n hash = (hash', p + d, n - d) ∧
      osMemoryHashLoop mem' k p' n hash = (hash', p' + d, n - d) ∧ d ≤ n ∧ d = 4 * min k (n / 4)
  | 0, n, p, p', hash, _ => ⟨0, hash, rfl, rfl, Nat.zero_le _, by omega⟩
  | k + 1, n, p, p', hash, h => by
    rw [osMemoryHashLoop, osMemoryHashLoop]
    split_ifs with h4
    · have hw : osMemoryWord mem p 4 = osMemoryWord mem' p' 4 :=
        osMemoryWord_congr fun i hi => h i (by omega)
      obtain ⟨d, hash', e1, e2, e3, e4⟩ := @osMemoryHashLoop_congr mem mem' k (n - 4) (p + 4) (p' + 4)
        (osMemoryMix hash (osMemoryWord mem p 4)) fun i hi => by
          have := h (4 + i) (by omega)
          rwa [← Nat.add_assoc, ← Nat.add_assoc] at this
      refine ⟨4 + d, hash', ?_, ?_, by omega, by omega⟩
      · rw [e1, Nat.add_assoc, Nat.sub_sub]
      · rw [← hw, e2, Nat.add_assoc, Nat.sub_sub]
    · exact ⟨0, hash, rfl, rfl, Nat.zero_le _, by omega⟩

/-- `hash_fp`: the hash is a function of the contents. -/
theorem osMemoryHash_eq {mem mem' : ℕ → UInt8} {a b n : ℕ} (h : chars mem a n = chars mem' b n) :
    osMemoryHash mem a n = osMemoryHash mem' b n := by
  have hb : ∀ i, i < n → mem (a + i) = mem' (b + i) := fun i hi => by
    rw [← chars_getD mem a n i hi, ← chars_getD mem' b n i hi, h]
  obtain ⟨d, hash, e1, e2, e3, e4⟩ := osMemoryHashLoop_congr (n / 4) 0 hb
  have hrest : ∀ j k, d + j + k ≤ n →
      osMemoryWord mem (a + d + j) k = osMemoryWord mem' (b + d + j) k := fun j k hk =>
    osMemoryWord_congr fun i hi => by
      have := hb (d + j + i) (by omega)
      rwa [← Nat.add_assoc, ← Nat.add_assoc, ← Nat.add_assoc, ← Nat.add_assoc] at this
  have hand2 : (n - d) &&& 2 ≠ 0 → 2 ≤ n - d := fun h2 => by
    by_contra hc
    have : n - d = 0 ∨ n - d = 1 := by omega
    rcases this with h | h <;> simp [h] at h2
  have hand1 : (n - d) &&& 1 ≠ 0 → 1 ≤ n - d ∧ ((n - d) &&& 2 ≠ 0 → 3 ≤ n - d) := fun h1 => by
    refine ⟨?_, fun h2 => ?_⟩
    · by_contra hc
      have : n - d = 0 := by omega
      simp [this] at h1
    · have := hand2 h2
      by_contra hc
      have : n - d = 2 := by omega
      simp [this] at h1
  simp only [osMemoryHash, e1, e2]
  by_cases h2 : (n - d) &&& 2 ≠ 0
  · have w2 := hrest 0 2 (by have := hand2 h2; omega)
    simp only [Nat.add_zero] at w2
    rw [if_pos h2, if_pos h2, w2]
    by_cases h1 : (n - d) &&& 1 ≠ 0
    · have w1 := hrest 2 1 (by have := (hand1 h1).2 h2; omega)
      simp only [if_pos h1, w1]
    · simp only [if_neg h1]
  · rw [if_neg h2, if_neg h2]
    by_cases h1 : (n - d) &&& 1 ≠ 0
    · have w1 := hrest 0 1 (by have := (hand1 h1).1; omega)
      simp only [Nat.add_zero] at w1
      simp only [if_pos h1, w1]
    · simp only [if_neg h1]

/-- The hash of a block, from its contents. -/
def osMemoryHashOf (block : List UInt8) : UInt32 :=
  osMemoryHash (fun i => block.getD i 0) 0 block.length

theorem osMemoryHash_chars (mem : ℕ → UInt8) (p n : ℕ) :
    osMemoryHash mem p n = osMemoryHashOf (chars mem p n) := by
  rw [osMemoryHashOf, chars_length]
  refine osMemoryHash_eq (List.ext_getElem (by simp [chars]) fun i h _ => ?_)
  have hi : i < n := by simpa [chars] using h
  simp [chars, hi]

end Klint
