/-
# Fields of a bit vector

A field is a run of bits of a vector, given by its mask. It is read by shifting vector and
mask to the right until the field is lowest, and written by clearing the mask and shifting
a value into it. On the values that fit, reading and writing obey the laws of a lens
(`get_put`, `put_get`), and a write changes no bit outside of the mask
(`getLsbD_put`).
-/
import Mathlib.Data.Nat.Bitwise
import Mathlib.Order.Bounds.Basic
import Mathlib.Tactic.Common

namespace Klint
namespace BitField

variable {w : ℕ}

/-- The mask has the bits from `start` to `last`, and no others. -/
structure Run (mask : BitVec w) (start last : ℕ) : Prop where
  le : start ≤ last
  lt : last < w
  bit : ∀ i, mask.getLsbD i = decide (start ≤ i ∧ i ≤ last)

/-- The value has no more bits than the field. -/
def Fits (start last : ℕ) (value : BitVec w) : Prop := value.toNat < 2 ^ (last - start + 1)

/-- The greatest value that fits. -/
def ones (w start last : ℕ) : BitVec w := BitVec.ofNat w (2 ^ (last - start + 1) - 1)

def get (mask : BitVec w) (shift : ℕ) (v : BitVec w) : BitVec w := (v >>> shift) &&& (mask >>> shift)

def put (mask : BitVec w) (shift : ℕ) (v value : BitVec w) : BitVec w := (v &&& ~~~mask) ||| (value <<< shift)

section Laws

variable {mask v value value' : BitVec w} {start last : ℕ}

theorem Fits.getLsbD (h : Fits start last value) {i : ℕ} (hi : last - start < i) : value.getLsbD i = false := by
  apply Nat.testBit_lt_two_pow
  exact h.trans_le (Nat.pow_le_pow_right (by decide) hi)

theorem fits_of_getLsbD (h : ∀ i, last - start < i → value.getLsbD i = false) : Fits start last value :=
  Nat.lt_pow_two_of_testBit _ fun i hi => h i hi

theorem fits_zero : Fits start last (0 : BitVec w) := by
  change (0#w).toNat < _
  rw [BitVec.toNat_zero]
  exact Nat.two_pow_pos _

theorem Run.getLsbD_get (h : Run mask start last) (i : ℕ) :
    (get mask start v).getLsbD i = (decide (i ≤ last - start) && v.getLsbD (start + i)) := by
  have hle := h.le
  have hbit : decide (start ≤ start + i ∧ start + i ≤ last) = decide (i ≤ last - start) :=
    decide_eq_decide.mpr (by omega)
  rw [get, BitVec.getLsbD_and, BitVec.getLsbD_ushiftRight, BitVec.getLsbD_ushiftRight, h.bit, hbit, Bool.and_comm]

/-- A write is the value in the field, and what was there outside of it. -/
theorem Run.getLsbD_put (h : Run mask start last) (hv : Fits start last value) (i : ℕ) :
    (put mask start v value).getLsbD i =
      if start ≤ i ∧ i ≤ last then value.getLsbD (i - start) else v.getLsbD i := by
  have hlt := h.lt
  rw [put, BitVec.getLsbD_or, BitVec.getLsbD_and, BitVec.getLsbD_not, BitVec.getLsbD_shiftLeft, h.bit]
  by_cases hin : start ≤ i ∧ i ≤ last
  · have hw : i < w := by omega
    have hge : ¬i < start := by omega
    simp [hin, hw, hge]
  · rw [if_neg hin]
    have hout : (decide (i < w) && !decide (i < start) && value.getLsbD (i - start)) = false := by
      by_cases hlow : i < start
      · simp [hlow]
      · have hle := h.le
        rw [hv.getLsbD (by omega), Bool.and_false]
    rw [hout]
    by_cases hw : i < w
    · simp [hw, hin]
    · simp [BitVec.getLsbD_of_ge v i (by omega)]

/-- What is written is read. -/
theorem Run.get_put (h : Run mask start last) (hv : Fits start last value) :
    get mask start (put mask start v value) = value := by
  apply BitVec.eq_of_getLsbD_eq
  intro i _
  have hle := h.le
  rw [h.getLsbD_get, h.getLsbD_put hv]
  by_cases hi : i ≤ last - start
  · have hin : start ≤ start + i ∧ start + i ≤ last := by omega
    rw [decide_eq_true hi, Bool.true_and, if_pos hin, Nat.add_sub_cancel_left]
  · rw [decide_eq_false hi, Bool.false_and, hv.getLsbD (by omega)]

theorem Run.fits_get (h : Run mask start last) : Fits start last (get mask start v) := by
  apply fits_of_getLsbD
  intro i hi
  rw [h.getLsbD_get, decide_eq_false (by omega), Bool.false_and]

/-- To write what is read changes nothing. -/
theorem Run.put_get (h : Run mask start last) : put mask start v (get mask start v) = v := by
  apply BitVec.eq_of_getLsbD_eq
  intro i _
  rw [h.getLsbD_put h.fits_get]
  split_ifs with hin
  · rw [h.getLsbD_get, decide_eq_true (by omega), Bool.true_and, Nat.add_sub_cancel' hin.1]
  · rfl

/-- A field reads as zero when all its bits are clear. -/
theorem Run.get_eq_zero_iff (h : Run mask start last) :
    get mask start v = 0 ↔ ∀ i, mask.getLsbD i = true → v.getLsbD i = false := by
  constructor
  · intro hzero i hi
    rw [h.bit, decide_eq_true_eq] at hi
    have hbit := h.getLsbD_get (v := v) (i - start)
    rw [hzero, Nat.add_sub_cancel' hi.1, decide_eq_true (by omega), Bool.true_and] at hbit
    simpa using hbit.symm
  · intro hclear
    apply BitVec.eq_of_getLsbD_eq
    intro i _
    have hle := h.le
    rw [h.getLsbD_get]
    by_cases hi : i ≤ last - start
    · have hset : mask.getLsbD (start + i) = true := by
        rw [h.bit]
        exact decide_eq_true (by omega)
      rw [hclear _ hset, Bool.and_false]
      simp
    · rw [decide_eq_false hi, Bool.false_and]
      simp

theorem getLsbD_ones (i : ℕ) : (ones w start last).getLsbD i = (decide (i < w) && decide (i ≤ last - start)) := by
  rw [ones, BitVec.getLsbD_ofNat, Nat.testBit_two_pow_sub_one, decide_eq_decide.mpr Nat.lt_succ_iff]

/-- Where the whole mask is set, the field reads as all ones. -/
theorem Run.get_or (h : Run mask start last) : get mask start (v ||| mask) = ones w start last := by
  apply BitVec.eq_of_getLsbD_eq
  intro i hi
  have hle := h.le
  rw [h.getLsbD_get, getLsbD_ones, decide_eq_true hi, Bool.true_and]
  by_cases hin : i ≤ last - start
  · have hbit : mask.getLsbD (start + i) = true := by
      rw [h.bit]
      exact decide_eq_true (by omega)
    rw [BitVec.getLsbD_or, hbit, Bool.or_true, Bool.and_true]
  · rw [decide_eq_false hin, Bool.false_and]

end Laws

/-! ### Masks -/

/-- The lowest bit that is set. -/
def Lowest (v : BitVec w) (n : ℕ) : Prop := IsLeast {i | v.getLsbD i = true} n

theorem lt_of_getLsbD {v : BitVec w} {i : ℕ} (h : v.getLsbD i = true) : i < w := by
  by_contra hge
  rw [BitVec.getLsbD_of_ge v i (by omega)] at h
  cases h

theorem exists_getLsbD {v : BitVec w} (h : v ≠ 0) : ∃ i, v.getLsbD i = true := by
  by_contra hnone
  push Not at hnone
  refine h (BitVec.eq_of_getLsbD_eq fun i _ => ?_)
  simpa using hnone i

theorem lowest_of {v : BitVec w} {n : ℕ} (hn : v.getLsbD n = true) (hclear : ∀ i < n, v.getLsbD i = false) :
    Lowest v n := by
  refine ⟨hn, fun i hi => ?_⟩
  by_contra hlt
  have hset : v.getLsbD i = true := hi
  rw [hclear i (by omega)] at hset
  cases hset

theorem Run.lowest {mask : BitVec w} {start last : ℕ} (h : Run mask start last) : Lowest mask start := by
  refine lowest_of ?_ fun i hi => ?_
  · rw [h.bit]
    exact decide_eq_true ⟨Nat.le_refl start, h.le⟩
  · rw [h.bit]
    exact decide_eq_false fun hin => Nat.not_lt_of_le hin.1 hi

theorem Run.ne_zero {mask : BitVec w} {start last : ℕ} (h : Run mask start last) : mask ≠ 0 := by
  intro hzero
  have hset : mask.getLsbD start = true := h.lowest.1
  rw [hzero] at hset
  simp at hset

end BitField
end Klint
