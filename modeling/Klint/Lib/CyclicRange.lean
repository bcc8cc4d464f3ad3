/-
# Ranges of a ring

A ring of `size` slots is walked by counters that only grow; a slot's index is a counter modulo
the size, and a register holds an index. As long as two counters are less than `size` apart, the indices
from one up to the other, around the ring, are those of the counters in between.
-/
import Mathlib.Tactic.Common

namespace Klint

/-- The indices from `lo` up to but excluding `hi`, around a ring; none if they are equal. -/
def cyclicRange (size lo hi i : ℕ) : Prop := (i + size - lo) % size < (hi + size - lo) % size

/-- How far an index is ahead of another one. -/
theorem cyclicDistance {size a b : ℕ} (hab : a ≤ b) (h : b < a + size) :
    (b % size + size - a % size) % size = b - a := by
  obtain ⟨d, rfl⟩ := Nat.exists_eq_add_of_le hab
  have hd : d < size := by omega
  have hr : a % size < size := Nat.mod_lt _ (by omega)
  rw [Nat.add_sub_cancel_left, Nat.add_mod, Nat.mod_eq_of_lt hd]
  rcases Nat.lt_or_ge (a % size + d) size with hlt | hge
  · rw [Nat.mod_eq_of_lt hlt, show a % size + d + size - a % size = d + size by omega, Nat.add_mod_right,
      Nat.mod_eq_of_lt hd]
  · have hsum : (a % size + d) % size = a % size + d - size := by
      rw [Nat.mod_eq_sub_mod hge, Nat.mod_eq_of_lt (by omega)]
    rw [hsum, show a % size + d - size + size - a % size = d by omega, Nat.mod_eq_of_lt hd]

/-- Counters less than a ring apart have different indices. -/
theorem eq_of_index_eq {size a j j' : ℕ} (h : a ≤ j) (h' : a ≤ j') (hlt : j < a + size) (hlt' : j' < a + size)
    (he : j % size = j' % size) : j = j' := by
  have hd := cyclicDistance h hlt
  rw [he, cyclicDistance h' hlt'] at hd
  omega

/-- The indices of a range are those of its counters. -/
theorem cyclicRange_iff {size a b i : ℕ} (hab : a ≤ b) (h : b < a + size) (hi : i < size) :
    cyclicRange size (a % size) (b % size) i ↔ ∃ j, a ≤ j ∧ j < b ∧ j % size = i := by
  rw [cyclicRange, cyclicDistance hab h]
  constructor
  · intro hlt
    have hr : a % size < size := Nat.mod_lt _ (by omega)
    refine ⟨a + (i + size - a % size) % size, Nat.le_add_right _ _, by omega, ?_⟩
    rw [Nat.add_mod_mod, ← Nat.mod_add_mod, show a % size + (i + size - a % size) = i + size by omega,
      Nat.add_mod_right,
      Nat.mod_eq_of_lt hi]
  · rintro ⟨j, haj, hjb, rfl⟩
    rw [cyclicDistance haj (by omega)]
    omega

end Klint
