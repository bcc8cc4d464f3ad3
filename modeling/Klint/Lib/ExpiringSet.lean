/-
# Expiring sets of bounded capacity

A set whose elements expire is the partial function from an element to the
time it was last refreshed: `Live` says that the last refresh is still young.
A set of bounded capacity takes a new element unless `cap` others are live
(`touch`). A table of indexed keys with times represents such a set
(`Represents`) if its keys are distinct and what it has forgotten has
expired; expired keys may linger in it.

`young t r` is any relation that says that a refresh at `r` is young at `t`,
with what was young later young before.

Key definitions: `Live`, `Full`, `touch`, `Represents`.
Key theorems: `Represents.live_iff`, `touch_refresh`, `touch_insert`, `touch_full`.
-/
import Mathlib.Data.Finset.Card
import Mathlib.Data.Finset.Range
import Mathlib.Logic.Function.Basic

namespace ExpiringSet

variable {α T : Type*} (young : T → T → Prop)

/-- The last refresh of `k` is young at `t`. -/
def Live (last : α → Option T) (t : T) (k : α) : Prop := ∃ r, last k = some r ∧ young t r

/-- `cap` distinct elements other than `k` are live at `t`. -/
def Full (cap : ℕ) (last : α → Option T) (t : T) (k : α) : Prop :=
  ∃ S : Finset α, S.card = cap ∧ k ∉ S ∧ ∀ f ∈ S, Live young last t f

open Classical in
/-- Refresh or add `k`, unless the others fill the set. -/
noncomputable def touch (cap : ℕ) (last : α → Option T) (t : T) (k : α) : α → Option T :=
  if Full young cap last t k then last else Function.update last k (some t)

/-- The table of `items` and `key` represents the set at the time `now`. -/
structure Represents (cap : ℕ) (items : ℕ → Option T) (key : ℕ → α) (now : T) (last : α → Option T) :
    Prop where
  lt : ∀ i r, items i = some r → i < cap
  inj : ∀ i j r r', items i = some r → items j = some r' → key i = key j → i = j
  stored : ∀ i r, items i = some r → last (key i) = some r
  gone : ∀ k r, last k = some r → (∃ i, items i = some r ∧ key i = k) ∨ ¬ young now r

variable {young} {cap : ℕ} {items : ℕ → Option T} {key : ℕ → α} {now : T} {last : α → Option T}

/-- The empty table represents the empty set. -/
theorem represents_empty (cap : ℕ) (key : ℕ → α) (now : T) :
    Represents young cap (fun _ => none) key now fun _ => none where
  lt := fun _ _ h => by cases h
  inj := fun _ _ _ _ h => by cases h
  stored := fun _ _ h => by cases h
  gone := fun _ _ h => by cases h

namespace Represents

/-- What represents the set now does so later. -/
theorem later (h : Represents young cap items key now last) {now' : T}
    (hanti : ∀ r, young now' r → young now r) : Represents young cap items key now' last where
  lt := h.lt
  inj := h.inj
  stored := h.stored
  gone := fun k r hr => (h.gone k r hr).imp_right fun hn hy => hn (hanti r hy)

/-- An element is live when an index has it with a young time. -/
theorem live_iff (h : Represents young cap items key now last) (k : α) :
    Live young last now k ↔ ∃ i r, items i = some r ∧ key i = k ∧ young now r := by
  constructor
  · rintro ⟨r, hr, hy⟩
    rcases h.gone k r hr with ⟨i, hi, hk⟩ | hn
    · exact ⟨i, r, hi, hk, hy⟩
    · exact absurd hy hn
  · rintro ⟨i, r, hi, rfl, hy⟩
    exact ⟨r, h.stored i r hi, hy⟩

/-- An index that is not in use for another live element leaves room. -/
theorem not_full (h : Represents young cap items key now last) {i : ℕ} {k : α} (hi : i < cap)
    (hfree : ∀ r, items i = some r → key i = k ∨ ¬ young now r) : ¬ Full young cap last now k := by
  rintro ⟨S, hcard, hk, hlive⟩
  have hidx : ∀ f : α, ∃ j, f ∈ S → ∃ r, items j = some r ∧ key j = f ∧ young now r := by
    intro f
    by_cases hf : f ∈ S
    · obtain ⟨j, r, hj⟩ := (h.live_iff f).mp (hlive f hf)
      exact ⟨j, fun _ => ⟨r, hj⟩⟩
    · exact ⟨0, fun hc => absurd hc hf⟩
  choose index hindex using hidx
  -- the indexes of the others are below `cap`, distinct and not `i`
  have hle : S.card ≤ ((Finset.range cap).erase i).card := by
    refine Finset.card_le_card_of_injOn index (fun f hf => ?_) fun f hf g hg he => ?_
    · obtain ⟨r, hr, hkey, hy⟩ := hindex f hf
      rw [Finset.mem_coe, Finset.mem_erase, Finset.mem_range]
      refine ⟨fun hc => ?_, h.lt _ r hr⟩
      rw [hc] at hr hkey
      rcases hfree r hr with h1 | h1
      · exact hk (h1 ▸ hkey ▸ hf)
      · exact h1 hy
    · obtain ⟨-, -, hf', -⟩ := hindex f hf
      obtain ⟨-, -, hg', -⟩ := hindex g hg
      rw [← hf', ← hg', he]
  rw [Finset.card_erase_of_mem (Finset.mem_range.mpr hi), Finset.card_range, hcard] at hle
  omega

/-- A table with every index in use for another young element is full. -/
theorem full (h : Represents young cap items key now last) {k : α}
    (hall : ∀ i, i < cap → ∃ r, items i = some r ∧ young now r) (hk : ∀ i r, items i = some r → key i ≠ k) :
    Full young cap last now k := by
  classical
  refine ⟨(Finset.range cap).image key, ?_, ?_, ?_⟩
  · rw [Finset.card_image_of_injOn, Finset.card_range]
    intro i hi j hj he
    rw [Finset.mem_coe, Finset.mem_range] at hi hj
    obtain ⟨r, hr, -⟩ := hall i hi
    obtain ⟨r', hr', -⟩ := hall j hj
    exact h.inj i j r r' hr hr' he
  · rw [Finset.mem_image]
    rintro ⟨i, hi, he⟩
    obtain ⟨r, hr, -⟩ := hall i (Finset.mem_range.mp hi)
    exact hk i r hr he
  · intro f hf
    obtain ⟨i, hi, rfl⟩ := Finset.mem_image.mp hf
    obtain ⟨r, hr, hy⟩ := hall i (Finset.mem_range.mp hi)
    exact ⟨r, h.stored i r hr, hy⟩

/-- Binding index `i` to `k` at `now`, with `k` at no other index and nothing
live but `k` evicted, represents the refresh of `k`. -/
theorem bind [DecidableEq α] (h : Represents young cap items key now last) {i : ℕ} {k : α} (hi : i < cap)
    (hfree : ∀ r, items i = some r → key i = k ∨ ¬ young now r)
    (hk : ∀ j r, j ≠ i → items j = some r → key j ≠ k) :
    Represents young cap (Function.update items i (some now)) (Function.update key i k) now
      (Function.update last k (some now)) where
  lt := fun j r hj => by
    by_cases hji : j = i
    · rw [hji]; exact hi
    · rw [Function.update_of_ne hji] at hj; exact h.lt j r hj
  inj := fun j j' r r' hj hj' he => by
    by_cases h1 : j = i <;> by_cases h2 : j' = i
    · rw [h1, h2]
    · subst h1
      rw [Function.update_self, Function.update_of_ne h2] at he
      rw [Function.update_of_ne h2] at hj'
      exact absurd he.symm (hk j' r' h2 hj')
    · subst h2
      rw [Function.update_self, Function.update_of_ne h1] at he
      rw [Function.update_of_ne h1] at hj
      exact absurd he (hk j r h1 hj)
    · rw [Function.update_of_ne h1] at hj he
      rw [Function.update_of_ne h2] at hj' he
      exact h.inj j j' r r' hj hj' he
  stored := fun j r hj => by
    by_cases hji : j = i
    · subst hji
      rw [Function.update_self] at hj ⊢
      rw [Function.update_self, hj]
    · rw [Function.update_of_ne hji] at hj ⊢
      rw [Function.update_of_ne (hk j r hji hj)]
      exact h.stored j r hj
  gone := fun f r hf => by
    by_cases hfk : f = k
    · subst hfk
      rw [Function.update_self] at hf
      exact .inl ⟨i, by rw [Function.update_self, hf], by rw [Function.update_self]⟩
    · rw [Function.update_of_ne hfk] at hf
      rcases h.gone f r hf with ⟨j, hj, hkey⟩ | hn
      · by_cases hji : j = i
        · subst hji
          rcases hfree r hj with h1 | h1
          · exact absurd (hkey.symm.trans h1) hfk
          · exact .inr h1
        · exact .inl ⟨j, by rw [Function.update_of_ne hji, hj], by rw [Function.update_of_ne hji, hkey]⟩
      · exact .inr hn

end Represents

theorem touch_of_not_full [DecidableEq α] {k : α} (h : ¬ Full young cap last now k) :
    touch young cap last now k = Function.update last k (some now) := by
  rw [touch, if_neg h]
  congr
  exact Subsingleton.elim _ _

/-- Refreshing the index of a stored element, young or not. -/
theorem touch_refresh [DecidableEq α] (h : Represents young cap items key now last) {i : ℕ} {r : T}
    (hi : items i = some r) :
    ¬ Full young cap last now (key i) ∧
      Represents young cap (Function.update items i (some now)) key now (touch young cap last now (key i)) := by
  have hn := h.not_full (k := key i) (h.lt i r hi) fun _ _ => .inl rfl
  have hb := h.bind (k := key i) (h.lt i r hi) (fun _ _ => .inl rfl)
    fun j r' hji hj he => hji (h.inj j i r' r hj hi he)
  rw [Function.update_eq_self] at hb
  exact ⟨hn, by rw [touch_of_not_full hn]; exact hb⟩

/-- Binding a free or expired index to an element that is not stored. -/
theorem touch_insert (h : Represents young cap items key now last) {i : ℕ} {k : α} (hi : i < cap)
    (hfree : ∀ r, items i = some r → ¬ young now r) (hk : ∀ j r, items j = some r → key j ≠ k) :
    ¬ Full young cap last now k ∧
      Represents young cap (Function.update items i (some now)) (Function.update key i k) now
        (touch young cap last now k) := by
  classical
  have hn := h.not_full (k := k) hi fun r hr => .inr (hfree r hr)
  refine ⟨hn, ?_⟩
  rw [touch_of_not_full hn]
  exact h.bind (k := k) hi (fun r hr => .inr (hfree r hr)) fun j r _ hj => hk j r hj

/-- Nothing changes when every index is in use for another young element. -/
theorem touch_full (h : Represents young cap items key now last) {k : α}
    (hall : ∀ i, i < cap → ∃ r, items i = some r ∧ young now r) (hk : ∀ i r, items i = some r → key i ≠ k) :
    Full young cap last now k ∧ touch young cap last now k = last :=
  have hf := h.full hall hk
  ⟨hf, by rw [touch, if_pos hf]⟩

end ExpiringSet
