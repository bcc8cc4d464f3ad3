/-
# Blocks placed one after the other

A bump allocator places each block at the first multiple of its alignment from
the end of the last block on. `place` is where the blocks are, `finish` the end
of the last one. They are in order (`place_pairwise`), between the start and the
end (`mem_place`), and on multiples of their alignments (`getElem?_place`).
-/
import Mathlib.Data.List.Pairwise
import Mathlib.Data.Nat.ModEq
import Mathlib.Tactic.Common

namespace Klint
namespace Bump

/-- The first multiple of `d` from `x` on. -/
def alignUp (x d : ℕ) : ℕ := if x % d = 0 then x else x + (d - x % d)

theorem le_alignUp (x d : ℕ) : x ≤ alignUp x d := by
  unfold alignUp
  split_ifs <;> omega

theorem dvd_alignUp {d : ℕ} (hd : 0 < d) (x : ℕ) : d ∣ alignUp x d := by
  unfold alignUp
  split_ifs with h
  · exact Nat.dvd_of_mod_eq_zero h
  · have hlt := Nat.mod_lt x hd
    rw [show x + (d - x % d) = d * (x / d) + d by have := Nat.div_add_mod x d; omega]
    exact Nat.dvd_add (Dvd.intro _ rfl) (dvd_refl d)

theorem alignUp_of_dvd {x d : ℕ} (h : d ∣ x) : alignUp x d = x := if_pos (Nat.mod_eq_zero_of_dvd h)

/-- From a multiple on, only the rest counts. -/
theorem alignUp_add {x d : ℕ} (h : d ∣ x) (y : ℕ) : alignUp (x + y) d = x + alignUp y d := by
  have hmod : (x + y) % d = y % d := by rw [Nat.add_mod, Nat.mod_eq_zero_of_dvd h, Nat.zero_add, Nat.mod_mod]
  unfold alignUp
  rw [hmod]
  split_ifs <;> omega

/-- A block to be placed. -/
structure Request where
  alignment : ℕ
  length : ℕ

structure Block where
  start : ℕ
  length : ℕ
  deriving DecidableEq, Repr

def Block.stop (b : Block) : ℕ := b.start + b.length

/-- The end of a block placed from `x` on. -/
def Request.finish (r : Request) (x : ℕ) : ℕ := alignUp x r.alignment + r.length

def place : ℕ → List Request → List Block
  | _, [] => []
  | x, r :: rs => ⟨alignUp x r.alignment, r.length⟩ :: place (r.finish x) rs

/-- The end of the last block. -/
def finish (x : ℕ) (rs : List Request) : ℕ := rs.foldl (fun x r => r.finish x) x

theorem Request.le_finish (r : Request) (x : ℕ) : x ≤ r.finish x :=
  (le_alignUp x r.alignment).trans (Nat.le_add_right _ _)

theorem le_finish : ∀ (rs : List Request) (x : ℕ), x ≤ finish x rs
  | [], x => le_refl x
  | r :: rs, x => (r.le_finish x).trans (le_finish rs (r.finish x))

/-- The blocks are between the start and the end. -/
theorem mem_place : ∀ {rs : List Request} {x : ℕ} {b : Block}, b ∈ place x rs → x ≤ b.start ∧ b.stop ≤ finish x rs
  | r :: rs, x, b, h => by
    rcases List.mem_cons.mp h with rfl | h
    · exact ⟨le_alignUp x r.alignment, le_finish rs (r.finish x)⟩
    · obtain ⟨hstart, hstop⟩ := mem_place h
      exact ⟨(r.le_finish x).trans hstart, hstop⟩

/-- Each block ends before the later ones start. -/
theorem place_pairwise : ∀ (rs : List Request) (x : ℕ), (place x rs).Pairwise fun b c => b.stop ≤ c.start
  | [], _ => List.Pairwise.nil
  | r :: rs, x => List.pairwise_cons.mpr ⟨fun _ hc => (mem_place hc).1, place_pairwise rs (r.finish x)⟩

/-- Each block is on a multiple of its alignment. -/
theorem getElem?_place : ∀ {rs : List Request} {x i : ℕ} {b : Block}, (∀ r ∈ rs, 0 < r.alignment) →
    (place x rs)[i]? = some b → ∃ r, rs[i]? = some r ∧ r.alignment ∣ b.start ∧ b.length = r.length
  | r :: rs, x, 0, b, hpos, h => by
    cases h
    exact ⟨r, rfl, dvd_alignUp (hpos r List.mem_cons_self) x, rfl⟩
  | _ :: rs, _, i + 1, b, hpos, h => by
    have hpos' : ∀ r ∈ rs, 0 < r.alignment := fun r hr => hpos r (List.mem_cons_of_mem _ hr)
    exact getElem?_place (i := i) hpos' h

end Bump
end Klint
