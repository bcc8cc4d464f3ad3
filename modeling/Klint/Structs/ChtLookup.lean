/-
# Lookups in a well-formed consistent hash table

With a prime height the shifts of fewer backends than buckets are coprime to
it, so `cht_alloc` gives every bucket each backend once (`chtAlloc_rows`). A
lookup is then the first available entry of a permutation of the backends: it
succeeds if any backend is available, and taking backends away other than the
one it chose does not change it.
-/
import Klint.Structs.ChtAlloc

namespace Klint

variable {cht : Cht} {hash : UInt32} {pool pool' : IndexPool} {time time' : ℕ}

/-! ### Lookups and their rows -/

/-- Every row of the table is a permutation of its backends. -/
def Cht.RowsPerm (cht : Cht) : Prop := ∀ b, b < cht.height → (cht.row b).Perm (List.range cht.backendCapacity)

/-- The candidates of an object are the row of its bucket. -/
theorem candidate_mem_row {i : ℕ} (hi : i < cht.backendCapacity) :
    (cht.candidate hash i).toNat ∈ cht.row (hash.toNat % cht.height) :=
  List.mem_map.mpr ⟨i, List.mem_range.mpr hi, rfl⟩

theorem candidate_lt (hrows : cht.RowsPerm) (hh : 0 < cht.height) {i : ℕ} (hi : i < cht.backendCapacity) :
    (cht.candidate hash i).toNat < cht.backendCapacity :=
  List.mem_range.mp ((hrows _ (Nat.mod_lt _ hh)).mem_iff.mp (candidate_mem_row hi))

/-- Every backend is a candidate. -/
theorem exists_candidate (hrows : cht.RowsPerm) (hh : 0 < cht.height) {b : ℕ} (hb : b < cht.backendCapacity) :
    ∃ i, i < cht.backendCapacity ∧ (cht.candidate hash i).toNat = b := by
  have hmem : b ∈ cht.row (hash.toNat % cht.height) :=
    (hrows _ (Nat.mod_lt _ hh)).mem_iff.mpr (List.mem_range.mpr hb)
  obtain ⟨i, hi, he⟩ := List.mem_map.mp hmem
  exact ⟨i, List.mem_range.mp hi, he⟩

/-- What is found is a backend that is available. -/
theorem chtFind_available (hrows : cht.RowsPerm) (hh : 0 < cht.height) {b : UInt16}
    (h : chtFindPreferredAvailableBackend cht hash pool time = some b) :
    b.toNat < cht.backendCapacity ∧ indexPoolUsed pool time b.toNat = true := by
  obtain ⟨hused, i, hi, rfl, -⟩ := chtFind_iff.mp h
  exact ⟨candidate_lt hrows hh hi, hused⟩

/-- Something is found if a candidate is available: the first such one. -/
theorem chtFind_isSome {i : ℕ} (hi : i < cht.backendCapacity)
    (hused : indexPoolUsed pool time (cht.candidate hash i).toNat = true) :
    (chtFindPreferredAvailableBackend cht hash pool time).isSome = true := by
  have hex : ∃ j, indexPoolUsed pool time (cht.candidate hash j).toNat = true := ⟨i, hused⟩
  have hle : Nat.find hex ≤ i := Nat.find_min' hex hused
  refine Option.isSome_iff_exists.mpr ⟨cht.candidate hash (Nat.find hex), ?_⟩
  refine chtFind_iff.mpr ⟨Nat.find_spec hex, Nat.find hex, by omega, rfl, fun j hj => ?_⟩
  simpa using Nat.find_min hex hj

/-- With fewer backends available, one that was found and still is available is found again. -/
theorem chtFind_of_subset (hrows : cht.RowsPerm) (hh : 0 < cht.height) {b : UInt16}
    (hsub : ∀ c, c < cht.backendCapacity → indexPoolUsed pool time c = true → indexPoolUsed pool' time' c = true)
    (h : chtFindPreferredAvailableBackend cht hash pool' time' = some b)
    (hused : indexPoolUsed pool time b.toNat = true) :
    chtFindPreferredAvailableBackend cht hash pool time = some b := by
  obtain ⟨-, i, hi, hb, hbefore⟩ := chtFind_iff.mp h
  refine chtFind_iff.mpr ⟨hused, i, hi, hb, fun j hj => ?_⟩
  by_contra hne
  have hj' := hsub _ (candidate_lt hrows hh (by omega : j < cht.backendCapacity)) (by simpa using hne)
  rw [hbefore j hj] at hj'
  cases hj'

/-! ### Prime heights -/

/-- Every number below a prime is coprime to it. -/
theorem chtAlloc_rows {height backendCapacity : ℕ} (hp : height.Prime) (hbh : backendCapacity < height)
    (h16 : height < 2 ^ 16) : (chtAlloc height backendCapacity).RowsPerm := by
  rcases Nat.eq_zero_or_pos backendCapacity with rfl | hb
  · intro b _
    exact List.Perm.refl _
  · exact (wellFormed_of_coprime hb hbh (fun i hi => coprime_of_lt_minFac (by rw [hp.minFac_eq]; omega)) h16).2

/-- **Lookups with a prime height.** For every object, given by its hash, and every state of the pool:
a lookup finds a backend exactly when one below `backend_capacity` is used, what it finds is one of those,
and it finds the same when the used backends are fewer but what it found is still one of them. -/
theorem chtFind_prime (height backendCapacity : ℕ) (hp : height.Prime) (hbh : backendCapacity < height)
    (h16 : height < 2 ^ 16) (hash : UInt32) (pool : IndexPool) (time : ℕ) :
    ((chtFindPreferredAvailableBackend (chtAlloc height backendCapacity) hash pool time).isSome = true ↔
      ∃ b, b < backendCapacity ∧ indexPoolUsed pool time b = true) ∧
    (∀ b, chtFindPreferredAvailableBackend (chtAlloc height backendCapacity) hash pool time = some b →
      b.toNat < backendCapacity ∧ indexPoolUsed pool time b.toNat = true) ∧
    ∀ (pool' : IndexPool) (time' : ℕ) (b : UInt16),
      (∀ c, c < backendCapacity → indexPoolUsed pool time c = true → indexPoolUsed pool' time' c = true) →
      chtFindPreferredAvailableBackend (chtAlloc height backendCapacity) hash pool' time' = some b →
      indexPoolUsed pool time b.toNat = true →
      chtFindPreferredAvailableBackend (chtAlloc height backendCapacity) hash pool time = some b := by
  have hrows := chtAlloc_rows hp hbh h16
  have hh : 0 < (chtAlloc height backendCapacity).height := hp.pos
  refine ⟨⟨fun h => ?_, ?_⟩, fun b h => chtFind_available hrows hh h,
    fun pool' time' b hsub h hused => chtFind_of_subset hrows hh hsub h hused⟩
  · obtain ⟨b, hb⟩ := Option.isSome_iff_exists.mp h
    exact ⟨b.toNat, chtFind_available hrows hh hb⟩
  · rintro ⟨b, hb, hused⟩
    obtain ⟨i, hi, rfl⟩ := @exists_candidate _ hash hrows hh b hb
    exact chtFind_isSome hi hused

/-- The theorem at a height of 3 and two backends, of which the second one is used. -/
theorem chtFind_prime_three : (chtFindPreferredAvailableBackend (chtAlloc 3 2) 0
    { size := 2, expirationTime := 10, lastBorrowedIndex := 0, timestamps := [timeMax, 5] } 7).isSome = true :=
  (chtFind_prime 3 2 (by norm_num) (by decide) (by decide) 0 _ 7).1.mpr ⟨1, by decide, by decide⟩

end Klint
