/-
# Token buckets

A bucket of capacity `burst` gains `rate` tokens for each unit of time. For
the tokens `spent` since the start `t1` of a window, `Within` says at a time
of the window that they are within `burst` plus the tokens gained since, and
that so they are with the `size` left, up to one token: a bucket that always
keeps one token back may be refilled with one too many (`refill`).
-/
import Mathlib.Tactic

namespace TokenBucket

/-- The tokens spent by `time` in a window from `t1` on, and the tokens left. -/
structure Within (burst rate t1 time spent size : ℕ) : Prop where
  spent_le : spent ≤ burst + rate * (time - t1)
  size_le : size ≤ burst
  sum_le : spent + size ≤ burst + rate * (time - t1) + if size = 0 then 0 else 1

variable {burst rate t1 t t' spent size : ℕ}

/-- Nothing is spent at the start. -/
theorem start (h : size ≤ burst) : Within burst rate t1 t 0 size where
  spent_le := Nat.zero_le _
  size_le := h
  sum_le := by omega

theorem gained (h1 : t1 ≤ t) (h2 : t ≤ t') : rate * (t' - t1) = rate * (t - t1) + rate * (t' - t) := by
  rw [← Nat.mul_add]
  congr 1
  omega

/-- A refill gives what was gained since, or fills an empty bucket with at
most one token more than was gained. -/
theorem Within.refill (h : Within burst rate t1 t spent size) (h1 : t1 ≤ t) (h2 : t ≤ t') {size' : ℕ}
    (hle : size' ≤ burst) (hsize : size' ≤ size + rate * (t' - t) ∨ size' ≤ rate * (t' - t) + 1) :
    Within burst rate t1 t' spent size' where
  spent_le := by
    have := h.spent_le
    rw [gained h1 h2]
    omega
  size_le := hle
  sum_le := by
    have hs := h.spent_le
    have hsum := h.sum_le
    rw [gained h1 h2]
    split_ifs at hsum ⊢ <;> omega

/-- Spending tokens, but not the last one. -/
theorem Within.spend (h : Within burst rate t1 t spent size) {n : ℕ} (hn : n < size) :
    Within burst rate t1 t (spent + n) (size - n) where
  spent_le := by
    have hsum := h.sum_le
    split_ifs at hsum <;> omega
  size_le := by have := h.size_le; omega
  sum_le := by
    have hsum := h.sum_le
    split_ifs at hsum ⊢ <;> omega

/-- A new bucket, once the tokens of a whole bucket have been gained since the
old one was last used. -/
theorem renew (hs : spent ≤ burst + rate * (t - t1)) (h1 : t1 ≤ t) (h2 : t ≤ t')
    (hgain : burst ≤ rate * (t' - t)) {n : ℕ} (hn : n ≤ burst) :
    Within burst rate t1 t' (spent + n) (burst - n) where
  spent_le := by
    rw [gained h1 h2]
    omega
  size_le := Nat.sub_le _ _
  sum_le := by
    rw [gained h1 h2]
    omega

/-- A new bucket at the start. -/
theorem create {n : ℕ} (hn : n ≤ burst) : Within burst rate t1 t n (burst - n) where
  spent_le := by omega
  size_le := Nat.sub_le _ _
  sum_le := by omega

end TokenBucket
