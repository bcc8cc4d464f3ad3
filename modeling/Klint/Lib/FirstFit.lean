/-
# First-fit piles

Elements are put into piles one after the other, each into the first pile whose first
element it fits, or else into a pile of its own.

`perm`: the piles hold every element once. `fits_head`: every element of a pile fits the
first one. `subset_of_mem`: when piles are divided further, what holds of a pile's elements
holds of those of its parts.
-/
import Mathlib.Data.List.Basic
import Mathlib.Data.List.Flatten

namespace FirstFit

variable {α : Type*} (fits : α → α → Bool)

/-- The pile for an element, in the order of the piles. -/
def place (a : α) : List (List α) → List (List α)
  | [] => [[a]]
  | pile :: piles => if pile.head?.any fun first => fits first a then (pile ++ [a]) :: piles else pile :: place a piles

/-- The piles of a list. -/
def triage (l : List α) : List (List α) := l.foldl (fun piles a => place fits a piles) []

variable {fits}

theorem flatten_place (a : α) : ∀ piles : List (List α), (place fits a piles).flatten.Perm (piles.flatten ++ [a])
  | [] => List.Perm.refl _
  | pile :: piles => by
    unfold place
    split_ifs with h
    · simp only [List.flatten_cons, List.append_assoc]
      exact (List.perm_append_comm).append_left pile
    · simp only [List.flatten_cons, List.append_assoc]
      exact (flatten_place a piles).append_left pile

theorem flatten_foldl : ∀ (l : List α) (piles : List (List α)),
    (l.foldl (fun piles a => place fits a piles) piles).flatten.Perm (piles.flatten ++ l)
  | [], piles => by rw [List.append_nil]; exact List.Perm.refl _
  | a :: l, piles => by
    refine (flatten_foldl l _).trans ?_
    have hplace : (place fits a piles).flatten.Perm (piles.flatten ++ [a]) := flatten_place a piles
    have h := hplace.append_right l
    rwa [List.append_assoc] at h

/-- **The piles hold every element once.** -/
theorem perm (l : List α) : (triage fits l).flatten.Perm l := flatten_foldl l []

/-- A pile has a first element, which the others fit. -/
def Fits (fits : α → α → Bool) (pile : List α) : Prop :=
  ∃ first others, pile = first :: others ∧ ∀ a ∈ others, fits first a = true

theorem fits_place (a : α) : ∀ {piles : List (List α)}, (∀ pile ∈ piles, Fits fits pile) →
    ∀ pile ∈ place fits a piles, Fits fits pile
  | [], _, pile, h => by
    obtain rfl := List.mem_singleton.mp h
    exact ⟨a, [], rfl, fun b hb => absurd hb List.not_mem_nil⟩
  | p :: piles, hall, pile, h => by
    unfold place at h
    split_ifs at h with hfit
    · rcases List.mem_cons.mp h with rfl | hmem
      · obtain ⟨first, others, rfl, hothers⟩ := hall p List.mem_cons_self
        refine ⟨first, others ++ [a], rfl, fun b hb => ?_⟩
        rcases List.mem_append.mp hb with hb | hb
        · exact hothers b hb
        · exact List.mem_singleton.mp hb ▸ hfit
      · exact hall pile (List.mem_cons_of_mem _ hmem)
    · rcases List.mem_cons.mp h with rfl | hmem
      · exact hall pile List.mem_cons_self
      · exact fits_place a (fun q hq => hall q (List.mem_cons_of_mem _ hq)) pile hmem

theorem fits_foldl : ∀ (l : List α) {piles : List (List α)}, (∀ pile ∈ piles, Fits fits pile) →
    ∀ pile ∈ l.foldl (fun piles a => place fits a piles) piles, Fits fits pile
  | [], _, h => h
  | a :: l, _, h => fits_foldl l (fits_place a h)

/-- **The elements of a pile fit its first one.** -/
theorem fits_head (l : List α) : ∀ pile ∈ triage fits l, Fits fits pile :=
  fits_foldl l fun _ h => absurd h List.not_mem_nil

theorem subset_of_mem {l pile : List α} (h : pile ∈ triage fits l) : pile ⊆ l := fun _ ha =>
  (perm l).mem_iff.mp (List.mem_flatten.mpr ⟨pile, h, ha⟩)

/-- The elements of a pile agree on what is compared. -/
theorem same_key {β : Type*} [DecidableEq β] {key : α → β} {l pile : List α}
    (h : pile ∈ triage (fun first a => key first = key a) l) : ∀ a ∈ pile, ∀ b ∈ pile, key a = key b := by
  obtain ⟨first, others, rfl, hothers⟩ := fits_head l pile h
  have hfirst : ∀ a ∈ first :: others, key first = key a := by
    intro a ha
    rcases List.mem_cons.mp ha with rfl | ha
    · rfl
    · exact of_decide_eq_true (hothers a ha)
  exact fun a ha b hb => (hfirst a ha).symm.trans (hfirst b hb)

end FirstFit
