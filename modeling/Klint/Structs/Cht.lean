/-
# The consistent hash table

`cht_alloc` and `cht_find_preferred_available_backend`
(`env/src/structs/cht.c`). Each backend has a permutation of the buckets;
the table lists for each bucket all backends, in the order in which their
permutations reach it. A lookup takes the first backend of the bucket that
the pool says is in use.

The sizes of `nf_init` (`height < 40000`, `backendCapacity < height`) keep all
sums below 2^32, so they are natural numbers.
-/
import Klint.Structs.IndexPool

namespace Klint

/-- `MAX_CHT_HEIGHT`. -/
def maxChtHeight : ℕ := 40000

structure Cht where
  data : List UInt16
  height : ℕ
  backendCapacity : ℕ
  deriving DecidableEq, Repr

/-- The bucket that backend `i` reaches at step `j`. -/
def chtPermut (height i j : ℕ) : ℕ := (i * 31 % height + (i % (height - 1) + 1) * j) % height

/-- "Create permutations". -/
def chtPermutations (height backendCapacity : ℕ) : List UInt16 :=
  (List.range backendCapacity).foldl (fun permutations i =>
    (List.range height).foldl (fun permutations j =>
      permutations.set (i * height + j) (UInt16.ofNat (chtPermut height i j))) permutations)
    (List.replicate (height * backendCapacity) 0)

/-- One step of "Fill the CHT": backend `j` takes the next place of the bucket
it reaches at step `i`. -/
def chtFillStep (permutations : List UInt16) (height backendCapacity i j : ℕ) (s : List ℕ × List UInt16) :
    List ℕ × List UInt16 :=
  let bucketId := (permutations.getD (j * height + i) 0).toNat
  let priority := s.1.getD bucketId 0
  (s.1.set bucketId (priority + 1), s.2.set (backendCapacity * bucketId + priority) (UInt16.ofNat j))

def chtAlloc (height backendCapacity : ℕ) : Cht where
  data := ((List.range height).foldl (fun s i =>
    (List.range backendCapacity).foldl (fun s j =>
      chtFillStep (chtPermutations height backendCapacity) height backendCapacity i j s) s)
    (List.replicate height 0, List.replicate (height * backendCapacity) 0)).2
  height := height
  backendCapacity := backendCapacity

/-- The first place of the bucket of an object, for its hash. -/
def Cht.bucket (cht : Cht) (hash : UInt32) : ℕ := hash.toNat % cht.height * cht.backendCapacity

/-- The candidate at a place of a bucket. -/
def Cht.candidate (cht : Cht) (hash : UInt32) (i : ℕ) : UInt16 := cht.data.getD (cht.bucket hash + i) 0

/-- The loop of `cht_find_preferred_available_backend`, for the `k` places
from `i` on. -/
def chtFindLoop (cht : Cht) (hash : UInt32) (activeBackends : IndexPool) (time : ℕ) : ℕ → ℕ → Option UInt16
  | 0, _ => none
  | k + 1, i =>
    if indexPoolUsed activeBackends time (cht.candidate hash i).toNat then some (cht.candidate hash i)
    else chtFindLoop cht hash activeBackends time k (i + 1)

/-- The hash is that of the object. -/
def chtFindPreferredAvailableBackend (cht : Cht) (hash : UInt32) (activeBackends : IndexPool) (time : ℕ) :
    Option UInt16 :=
  chtFindLoop cht hash activeBackends time cht.backendCapacity 0

/-- No backend that the bucket has before its first `b` is available. -/
def Cht.Preferred (cht : Cht) (hash : UInt32) (activeBackends : IndexPool) (time : ℕ) (b : UInt16) : Prop :=
  ∃ i, i < cht.backendCapacity ∧ cht.candidate hash i = b ∧
    ∀ j, j < i → indexPoolUsed activeBackends time (cht.candidate hash j).toNat = false

variable {cht : Cht} {hash : UInt32} {pool : IndexPool} {time : ℕ}

theorem chtFindLoop_iff {b : UInt16} : ∀ {k i : ℕ},
    chtFindLoop cht hash pool time k i = some b ↔
      indexPoolUsed pool time b.toNat = true ∧ ∃ j, i ≤ j ∧ j < i + k ∧ cht.candidate hash j = b ∧
        ∀ l, i ≤ l → l < j → indexPoolUsed pool time (cht.candidate hash l).toNat = false
  | 0, i => by
    simp only [chtFindLoop, reduceCtorEq, false_iff, not_and, not_exists]
    intro _ j h1 h2
    omega
  | k + 1, i => by
    rw [chtFindLoop]
    split_ifs with hu
    · simp only [Option.some.injEq]
      constructor
      · rintro rfl
        exact ⟨hu, i, le_refl i, by omega, rfl, fun l h1 h2 => by omega⟩
      · rintro ⟨-, j, h1, -, rfl, hno⟩
        rcases Nat.eq_or_lt_of_le h1 with rfl | hlt
        · rfl
        · rw [hno i (le_refl i) hlt] at hu; cases hu
    · rw [chtFindLoop_iff]
      have hf : indexPoolUsed pool time (cht.candidate hash i).toNat = false := by simpa using hu
      refine and_congr_right fun hb => ⟨?_, ?_⟩
      · rintro ⟨j, h1, h2, h3, h4⟩
        refine ⟨j, by omega, by omega, h3, fun l h5 h6 => ?_⟩
        rcases Nat.eq_or_lt_of_le h5 with rfl | hlt
        · exact hf
        · exact h4 l hlt h6
      · rintro ⟨j, h1, h2, h3, h4⟩
        rcases Nat.eq_or_lt_of_le h1 with rfl | hlt
        · rw [h3, hb] at hf; cases hf
        · exact ⟨j, hlt, by omega, h3, fun l h5 h6 => h4 l (by omega) h6⟩

/-- A lookup finds the available backend before which none is available. -/
theorem chtFind_iff {b : UInt16} :
    chtFindPreferredAvailableBackend cht hash pool time = some b ↔
      indexPoolUsed pool time b.toNat = true ∧ cht.Preferred hash pool time b := by
  rw [chtFindPreferredAvailableBackend, chtFindLoop_iff]
  refine and_congr_right fun _ => exists_congr fun i => ?_
  simp

end Klint
