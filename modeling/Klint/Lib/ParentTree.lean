/-
# Parents make a spanning tree

A set of edges spans a graph as a tree if it connects all vertices and no edge
of it joins two vertices that the others connect (`IsSpanningTree`). Edges are
a type with a function to their ends, so that several may join the same
vertices.

An acyclic set has no part that is a spanning tree, but itself
(`IsAcyclic.eq_of_connects`). If every vertex but one has an edge to a parent of smaller rank, these edges
are a spanning tree (`isSpanningTree_parents`).
-/
import Mathlib.Logic.Relation
import Mathlib.Data.Sym.Sym2
import Mathlib.Order.WellFounded

namespace Klint
namespace ParentTree

variable {V E : Type*} (ends : E → Sym2 V)

/-- An edge of the set joins the vertices. -/
def Adjacent (L : Set E) (a b : V) : Prop := ∃ e ∈ L, ends e = s(a, b)

/-- The set connects the vertices. -/
def Connects (L : Set E) : V → V → Prop := Relation.ReflTransGen (Adjacent ends L)

/-- No edge joins vertices that the others connect. -/
def IsAcyclic (L : Set E) : Prop := ∀ e ∈ L, ∀ a b, ends e = s(a, b) → ¬ Connects ends (L \ {e}) a b

structure IsSpanningTree (L : Set E) : Prop where
  connected : ∀ a b, Connects ends L a b
  acyclic : IsAcyclic ends L

variable {ends} {L : Set E}

theorem Adjacent.symm {a b : V} (h : Adjacent ends L a b) : Adjacent ends L b a := by
  obtain ⟨e, he, hends⟩ := h
  exact ⟨e, he, by rw [hends, Sym2.eq_swap]⟩

theorem Connects.symm {a b : V} (h : Connects ends L a b) : Connects ends L b a := by
  induction h with
  | refl => exact Relation.ReflTransGen.refl
  | tail _ hbc ih => exact Relation.ReflTransGen.head hbc.symm ih

/-- A set of vertices that no edge leaves is connected to nothing else. -/
theorem Connects.closed {a b : V} (h : Connects ends L a b) {D : V → Prop}
    (hD : ∀ x y, Adjacent ends L x y → D x → D y) (ha : D a) : D b := by
  induction h with
  | refl => exact ha
  | tail _ hbc ih => exact hD _ _ hbc ih

/-- No edge connects nothing but each vertex with itself. -/
theorem Connects.eq_of_empty {a b : V} (h : Connects ends ∅ a b) : a = b := by
  refine h.closed (D := fun c => a = c) (fun x y hxy _ => ?_) rfl
  obtain ⟨e, he, -⟩ := hxy
  exact absurd he (Set.notMem_empty e)

theorem Connects.mono {L' : Set E} {a b : V} (h : Connects ends L a b) (hL : L ⊆ L') : Connects ends L' a b :=
  Relation.ReflTransGen.mono (fun _ _ ⟨e, he, hends⟩ => ⟨e, hL he, hends⟩) a b h

/-- No part of an acyclic set connects all vertices. -/
theorem IsAcyclic.eq_of_connects {L' : Set E} (h : IsAcyclic ends L) (hL : L' ⊆ L)
    (hconn : ∀ a b, Connects ends L' a b) :
    L' = L := by
  refine hL.antisymm fun e he => ?_
  by_contra hne
  obtain ⟨a, b, hends⟩ : ∃ a b, ends e = s(a, b) := Sym2.ind (fun a b => ⟨a, b, rfl⟩) (ends e)
  exact h e he a b hends ((hconn a b).mono fun x hx => ⟨hL hx, fun hxe => hne (hxe ▸ hx)⟩)

section Parents

variable {root : V} {parent : V → E} {up : V → V} {rank : V → ℕ}

/-- The edges to the parents. -/
def parents (root : V) (parent : V → E) : Set E := {e | ∃ v, v ≠ root ∧ e = parent v}

/-- Below a vertex, or the vertex itself. -/
def Below (root : V) (up : V → V) (v x : V) : Prop := Relation.ReflTransGen (fun x y => x ≠ root ∧ up x = y) x v

variable (hends : ∀ v, v ≠ root → ends (parent v) = s(v, up v)) (hrank : ∀ v, v ≠ root → rank (up v) < rank v)

include hends hrank

theorem connects_root (v : V) : Connects ends (parents root parent) v root := by
  induction hn : rank v using Nat.strong_induction_on generalizing v with
  | _ n ih =>
    by_cases hv : v = root
    · rw [hv]
      exact Relation.ReflTransGen.refl
    · exact Relation.ReflTransGen.head ⟨parent v, ⟨v, hv, rfl⟩, hends v hv⟩
        (ih (rank (up v)) (hn ▸ hrank v hv) (up v) rfl)

omit hends in
theorem rank_below {v x : V} (h : Below root up v x) : rank v ≤ rank x := by
  induction h using Relation.ReflTransGen.head_induction_on with
  | refl => exact le_refl _
  | head hxy _ ih => exact ih.trans (hxy.2 ▸ (hrank _ hxy.1).le)

omit hrank in
/-- Only its own edge leads from below a vertex to above it. -/
theorem below_adjacent {v x y : V} (h : Adjacent ends (parents root parent \ {parent v}) x y)
    (hx : Below root up v x) : Below root up v y := by
  obtain ⟨e, ⟨⟨w, hw, rfl⟩, hne⟩, he⟩ := h
  have hwv : w ≠ v := fun he => hne (by rw [he]; rfl)
  rw [hends w hw, Sym2.eq_iff] at he
  rcases he with ⟨rfl, rfl⟩ | ⟨rfl, rfl⟩
  · rcases Relation.ReflTransGen.cases_head hx with rfl | ⟨z, ⟨-, rfl⟩, hz⟩
    · exact absurd rfl hwv
    · exact hz
  · exact Relation.ReflTransGen.head ⟨hw, rfl⟩ hx

/-- **Edges to parents of smaller rank are a spanning tree.** -/
theorem isSpanningTree_parents : IsSpanningTree ends (parents root parent) where
  connected := fun a b => (connects_root hends hrank a).trans (connects_root hends hrank b).symm
  acyclic := by
    rintro e ⟨v, hv, rfl⟩ a b he hconn
    have hup : Connects ends (parents root parent \ {parent v}) v (up v) := by
      rw [hends v hv, Sym2.eq_iff] at he
      rcases he with ⟨rfl, rfl⟩ | ⟨rfl, rfl⟩
      · exact hconn
      · exact hconn.symm
    have hbelow : Below root up v (up v) :=
      hup.closed (fun x y hxy hx => below_adjacent hends hxy hx) Relation.ReflTransGen.refl
    exact absurd (rank_below hrank hbelow) (not_le.mpr (hrank v hv))

end Parents

end ParentTree
end Klint
