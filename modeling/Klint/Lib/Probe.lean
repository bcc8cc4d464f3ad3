/-
# Linear probing with crossing counters

A table of `n` slots. The probe of a key starts at its home slot and goes
around the table one slot at a time, so it visits every slot once
(`dist_slot`, `slot_dist`). A resident of slot `t` crosses the slots its
probe passes over before it reaches `t`; `crossing` counts, for a slot, the
residents that cross it. Counters that are exact let a lookup stop early: a
resident is never behind a slot nobody crosses (`crossing_pos`). Adding and
removing a resident change the count by one on exactly the slots it crosses
(`crossing_insert`, `crossing_remove`).
-/
import Mathlib.Algebra.BigOperators.Group.Finset.Basic
import Mathlib.Algebra.Order.BigOperators.Group.Finset
import Mathlib.Data.Finset.Card
import Mathlib.Tactic

namespace Klint
namespace Probe

/-- The `i`-th slot a probe from `a` visits. -/
def slot (n a i : ℕ) : ℕ := if a + i < n then a + i else a + i - n

/-- How many slots a probe from `a` visits before `s`. -/
def dist (n a s : ℕ) : ℕ := if a ≤ s then s - a else s + n - a

theorem slot_eq_mod {n a i : ℕ} (ha : a < n) (hi : i < n) : slot n a i = (a + i) % n := by
  unfold slot
  split_ifs with h
  · exact (Nat.mod_eq_of_lt h).symm
  · rw [Nat.mod_eq_sub_mod (by omega), Nat.mod_eq_of_lt (by omega)]

theorem slot_lt {n a i : ℕ} (ha : a < n) (hi : i < n) : slot n a i < n := by
  unfold slot; split_ifs <;> omega

theorem dist_lt {n a s : ℕ} (ha : a < n) (hs : s < n) : dist n a s < n := by
  unfold dist; split_ifs <;> omega

theorem slot_dist {n a s : ℕ} (ha : a < n) (hs : s < n) : slot n a (dist n a s) = s := by
  unfold slot dist; split_ifs <;> omega

theorem dist_slot {n a i : ℕ} (ha : a < n) (hi : i < n) : dist n a (slot n a i) = i := by
  unfold slot dist; split_ifs <;> omega

theorem dist_eq_iff {n a s i : ℕ} (ha : a < n) (hs : s < n) (hi : i < n) :
    dist n a s = i ↔ s = slot n a i := by
  constructor
  · rintro rfl; exact (slot_dist ha hs).symm
  · rintro rfl; exact dist_slot ha hi

/-! ### Counters -/

variable {κ : Type} (n : ℕ) (home : κ → ℕ)

/-- The resident of slot `t`, if there is one, crosses slot `s`. -/
def crosses (occ : ℕ → Option κ) (s t : ℕ) : Bool :=
  match occ t with
  | some k => decide (dist n (home k) s < dist n (home k) t)
  | none => false

/-- The number of residents that cross slot `s`. -/
def crossing (occ : ℕ → Option κ) (s : ℕ) : ℕ :=
  ((Finset.range n).filter fun t => crosses n home occ s t = true).card

variable {n home}

theorem crossing_le (occ : ℕ → Option κ) (s : ℕ) : crossing n home occ s ≤ n :=
  (Finset.card_filter_le _ _).trans_eq (Finset.card_range n)

theorem crossing_empty (s : ℕ) : crossing n home (fun _ => none) s = 0 := by
  simp [crossing, crosses]

/-- A slot that a resident crosses has a positive count. -/
theorem crossing_pos {occ : ℕ → Option κ} {s t : ℕ} {k : κ} (ht : t < n) (hk : occ t = some k)
    (hd : dist n (home k) s < dist n (home k) t) : 0 < crossing n home occ s := by
  have hc : crosses n home occ s t = true := by simp [crosses, hk, hd]
  exact Finset.card_pos.mpr ⟨t, Finset.mem_filter.mpr ⟨Finset.mem_range.mpr ht, hc⟩⟩

theorem crosses_update {occ : ℕ → Option κ} {t u s : ℕ} {o : Option κ} (h : u ≠ t) :
    crosses n home (Function.update occ t o) s u = crosses n home occ s u := by
  simp [crosses, Function.update_of_ne h]

/-- Removing the resident of `t` uncounts it on the slots it crosses. -/
theorem crossing_remove {occ : ℕ → Option κ} {t : ℕ} {k : κ} (ht : t < n) (hk : occ t = some k) (s : ℕ) :
    crossing n home occ s = crossing n home (Function.update occ t none) s +
      if dist n (home k) s < dist n (home k) t then 1 else 0 := by
  have hsplit : Finset.range n = insert t ((Finset.range n).erase t) :=
    (Finset.insert_erase (Finset.mem_range.mpr ht)).symm
  have hrest : ((Finset.range n).erase t).filter (fun u => crosses n home occ s u = true) =
      ((Finset.range n).erase t).filter
        (fun u => crosses n home (Function.update occ t none) s u = true) := by
    refine Finset.filter_congr fun u hu => ?_
    rw [crosses_update (Finset.ne_of_mem_erase hu)]
  have hnone : crosses n home (Function.update occ t none) s t = false := by simp [crosses]
  have hself : crosses n home occ s t = decide (dist n (home k) s < dist n (home k) t) := by
    simp [crosses, hk]
  unfold crossing
  rw [hsplit, Finset.filter_insert, Finset.filter_insert, hnone, hself, hrest]
  by_cases h : dist n (home k) s < dist n (home k) t
  · simp only [h, decide_true, Bool.false_eq_true, ↓reduceIte]
    rw [Finset.card_insert_of_notMem (by simp)]
  · simp only [h, decide_false, Bool.false_eq_true, ↓reduceIte, Nat.add_zero]

/-- Adding a resident to a free slot counts it on the slots it crosses. -/
theorem crossing_insert {occ : ℕ → Option κ} {t : ℕ} (k : κ) (ht : t < n) (hf : occ t = none) (s : ℕ) :
    crossing n home (Function.update occ t (some k)) s = crossing n home occ s +
      if dist n (home k) s < dist n (home k) t then 1 else 0 := by
  have hback : Function.update (Function.update occ t (some k)) t none = occ := by
    rw [Function.update_idem, ← hf, Function.update_eq_self]
  rw [crossing_remove ht (Function.update_self t (some k) occ) s, hback]

end Probe
end Klint
