/-
# The bits of a number

A number of some width as the list of its bits, the least significant one first: what
putting numbers together and cutting them apart does to the lists.
-/
import Mathlib.Data.Nat.Bitwise
import Mathlib.Data.List.Basic

namespace Klint

/-- The `n` lowest bits of a number. -/
def bitsOf (n v : ℕ) : List Bool := (List.range n).map v.testBit

@[simp] theorem length_bitsOf (n v : ℕ) : (bitsOf n v).length = n := by
  rw [bitsOf, List.length_map, List.length_range]

theorem getElem?_bitsOf (n v i : ℕ) : (bitsOf n v)[i]? = if i < n then some (v.testBit i) else none := by
  split
  · next h => rw [bitsOf, List.getElem?_map, List.getElem?_range h, Option.map_some]
  · next h => rw [List.getElem?_eq_none (by rw [length_bitsOf]; omega)]

/-- The bits above the width do not count. -/
theorem bitsOf_mod {n m : ℕ} (v : ℕ) (h : n ≤ m) : bitsOf n (v % 2 ^ m) = bitsOf n v := by
  refine List.map_congr_left fun i hi => ?_
  rw [Nat.testBit_mod_two_pow, decide_eq_true ((List.mem_range.mp hi).trans_le h), Bool.true_and]

theorem take_bitsOf (m n v : ℕ) : (bitsOf n v).take m = bitsOf (min m n) v := by
  rw [bitsOf, ← List.map_take, List.take_range, bitsOf]

theorem drop_bitsOf (m n v : ℕ) : (bitsOf n v).drop m = bitsOf (n - m) (v / 2 ^ m) := by
  refine List.ext_getElem? fun i => ?_
  rw [List.getElem?_drop, getElem?_bitsOf, getElem?_bitsOf, Nat.testBit_div_two_pow, Nat.add_comm]
  simp only [Nat.lt_sub_iff_add_lt]

/-- The low bits come first. -/
theorem bitsOf_append {s lo : ℕ} (t hi : ℕ) (h : lo < 2 ^ s) :
    bitsOf s lo ++ bitsOf t hi = bitsOf (s + t) (hi * 2 ^ s + lo) := by
  refine List.ext_getElem? fun i => ?_
  rw [List.getElem?_append, length_bitsOf, getElem?_bitsOf, getElem?_bitsOf, getElem?_bitsOf, Nat.mul_comm,
    Nat.testBit_two_pow_mul_add _ h]
  split
  · next hi =>
    rw [if_pos (by omega)]
  · next hi =>
    simp only [show i - s < t ↔ i < s + t by omega]

end Klint
