/-
# The contract of the consistent hash table

`cht_find_preferred_available_backend` as the symbolic executor sees it
(`externals/structs/cht.py`, the contract of `structs/cht.h`), next to the C
function. The contract looks at the items that are present in the pool, the code
at those that have not expired.

`chtFind_allowed` says when the outcome of the code is one of the contract's.
-/
import Klint.Structs.ChtLookup

namespace Klint
namespace Tool

/-! ### The contract -/

/-- `is_not_available`: the condition on each item under which no backend is found. -/
def isNotAvailable (backendCapacity index : ℕ) : Prop := index < 0 ∨ index ≥ backendCapacity

/-- `guard`, `maps.forall` over the items of the pool. -/
def chtGuard (backendCapacity : ℕ) (items : ℕ → Option ℕ) : Prop :=
  ∀ k v, items k = some v → isNotAvailable backendCapacity k

/-- The outcomes of `ChtFindPreferredAvailableBackend.run`: the branches of
`fork_guarded`, with the chosen backend where the result is true. -/
inductive ChtFindOutcome (backendCapacity : ℕ) (items : ℕ → Option ℕ) : Option UInt16 → Prop
  | caseTrue : chtGuard backendCapacity items → ChtFindOutcome backendCapacity items none
  | caseFalse (backend : UInt16) : ¬ chtGuard backendCapacity items → 0 ≤ backend.toNat →
      backend.toNat < backendCapacity → (items backend.toNat).isSome = true →
      ChtFindOutcome backendCapacity items (some backend)

theorem not_chtGuard {backendCapacity k v : ℕ} {items : ℕ → Option ℕ} (hk : k < backendCapacity)
    (hv : items k = some v) : ¬ chtGuard backendCapacity items := by
  intro h
  obtain h0 | hge := h k v hv
  · exact Nat.not_lt_zero k h0
  · exact Nat.lt_irrefl k (Nat.lt_of_lt_of_le hk hge)

/-! ### The code -/

variable {cht : Cht} {hash : UInt32} {pool : IndexPool} {time : ℕ}

/-- What the code finds is an outcome of the contract. -/
theorem chtFind_some_allowed (hrows : cht.RowsPerm) (hh : 0 < cht.height) {b : UInt16}
    (h : chtFindPreferredAvailableBackend cht hash pool time = some b) :
    ChtFindOutcome cht.backendCapacity pool.items (some b) := by
  obtain ⟨hlt, hused⟩ := chtFind_available hrows hh h
  obtain ⟨t, ht, -⟩ := (IndexPool.used_iff pool time b.toNat).mp hused
  exact .caseFalse b (not_chtGuard hlt ht) (Nat.zero_le _) hlt (by rw [ht]; rfl)

/-- The code finds nothing when every backend is absent or has expired. -/
theorem chtFind_eq_none_iff (hrows : cht.RowsPerm) (hh : 0 < cht.height) :
    chtFindPreferredAvailableBackend cht hash pool time = none ↔
      ∀ k < cht.backendCapacity, indexPoolUsed pool time k = false := by
  constructor
  · intro h k hk
    by_contra hused
    obtain ⟨i, hi, rfl⟩ := @exists_candidate _ hash hrows hh k hk
    have hsome := chtFind_isSome hi (eq_true_of_ne_false hused)
    rw [h] at hsome
    cases hsome
  · intro h
    by_contra hne
    obtain ⟨b, hb⟩ := Option.ne_none_iff_exists'.mp hne
    obtain ⟨hlt, hused⟩ := chtFind_available hrows hh hb
    rw [h _ hlt] at hused
    cases hused

/-- Finding nothing is an outcome of the contract if no backend is present. -/
theorem none_allowed_iff {backendCapacity : ℕ} {items : ℕ → Option ℕ} :
    ChtFindOutcome backendCapacity items none ↔ ∀ k < backendCapacity, items k = none := by
  constructor
  · intro h k hk
    cases h with
    | caseTrue hguard =>
      by_contra hne
      obtain ⟨v, hv⟩ := Option.ne_none_iff_exists'.mp hne
      exact not_chtGuard hk hv hguard
  · intro h
    refine .caseTrue fun k v hv => Or.inr ?_
    by_contra hlt
    rw [h k (by omega)] at hv
    cases hv

/-- The contract allows the outcome of the code exactly when the backends present
in the pool, if any, have not all expired. -/
theorem chtFind_allowed (cht : Cht) (hash : UInt32) (pool : IndexPool) (time : ℕ) (hrows : cht.RowsPerm)
    (hh : 0 < cht.height) :
    ChtFindOutcome cht.backendCapacity pool.items (chtFindPreferredAvailableBackend cht hash pool time) ↔
      ((∃ k < cht.backendCapacity, (pool.items k).isSome = true) →
        ∃ k < cht.backendCapacity, indexPoolUsed pool time k = true) := by
  cases hfind : chtFindPreferredAvailableBackend cht hash pool time with
  | some b =>
    have hused := chtFind_available hrows hh hfind
    exact iff_of_true (chtFind_some_allowed hrows hh hfind) fun _ => ⟨b.toNat, hused⟩
  | none =>
    have hnone := (chtFind_eq_none_iff hrows hh).mp hfind
    rw [none_allowed_iff]
    constructor
    · rintro h ⟨k, hk, hsome⟩
      rw [h k hk] at hsome
      cases hsome
    · intro h k hk
      by_contra hne
      obtain ⟨j, hj, hused⟩ := h ⟨k, hk, Option.isSome_iff_ne_none.mpr hne⟩
      rw [hnone j hj] at hused
      cases hused

/-- A table of two backends, and a pool in which the second was seen at time 5 and
expires after 10. -/
def seenOnce : IndexPool where
  timestamps := [timeMax, 5]
  size := 2
  expirationTime := 10
  lastBorrowedIndex := 0

theorem chtFind_allowed_seenOnce :
    (chtAlloc 3 2).RowsPerm ∧
    (ChtFindOutcome 2 seenOnce.items (chtFindPreferredAvailableBackend (chtAlloc 3 2) 0 seenOnce 7) ↔
      ((∃ k < 2, (seenOnce.items k).isSome = true) → ∃ k < 2, indexPoolUsed seenOnce 7 k = true)) :=
  have hrows := chtAlloc_rows (by norm_num) (by decide) (by decide)
  ⟨hrows, chtFind_allowed (chtAlloc 3 2) 0 seenOnce 7 hrows (by decide)⟩

/-- At time 16 the backend has expired, and is still present. -/
theorem chtFind_allowed_not :
    ¬ ∀ (cht : Cht) (hash : UInt32) (pool : IndexPool) (time : ℕ), cht.RowsPerm → 0 < cht.height →
      cht.backendCapacity ≤ pool.size →
      ChtFindOutcome cht.backendCapacity pool.items (chtFindPreferredAvailableBackend cht hash pool time) := by
  intro h
  have hout := h (chtAlloc 3 2) 0 seenOnce 16
    (chtAlloc_rows (by norm_num) (by decide) (by decide)) (by decide) (by decide)
  rw [show chtFindPreferredAvailableBackend (chtAlloc 3 2) 0 seenOnce 16 = none by decide] at hout
  have hitem := none_allowed_iff.mp hout 1 (by decide)
  revert hitem
  decide

end Tool
end Klint
