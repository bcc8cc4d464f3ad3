/-
# Numbers in mixed radix

A list of digits, each with its base, lowest first, and the number that they make. The number
says the digits (`digits_pack`), and is the only one below the product of the bases that does
(`digits_iff`). Taking the digits in another order makes other numbers: two orders that make
the same number of each single digit are the same (`order_unique`).
-/
import Mathlib.Algebra.BigOperators.Group.List.Basic
import Mathlib.Algebra.Order.Ring.Nat
import Mathlib.Data.List.Nodup
import Mathlib.Tactic.Common

namespace MixedRadix

/-- The number of a list of digits with their bases. -/
def pack : List (ℕ × ℕ) → ℕ
  | [] => 0
  | (d, b) :: l => d + b * pack l

/-- The product of the bases. -/
def range : List (ℕ × ℕ) → ℕ
  | [] => 1
  | (_, b) :: l => b * range l

/-- Every digit is below its base. -/
def Proper (l : List (ℕ × ℕ)) : Prop := ∀ p ∈ l, p.1 < p.2

/-- A number has the given digits. -/
def Digits : ℕ → List (ℕ × ℕ) → Prop
  | _, [] => True
  | n, (d, b) :: l => n % b = d ∧ Digits (n / b) l

theorem range_eq_prod : ∀ l : List (ℕ × ℕ), range l = (l.map Prod.snd).prod
  | [] => rfl
  | (_, b) :: l => by rw [range, range_eq_prod l, List.map_cons, List.prod_cons]

theorem pack_lt : ∀ {l : List (ℕ × ℕ)}, Proper l → pack l < range l
  | [], _ => Nat.one_pos
  | (d, b) :: l, h => by
    have hd : d < b := h _ List.mem_cons_self
    have hl : pack l + 1 ≤ range l := pack_lt fun p hp => h p (List.mem_cons_of_mem _ hp)
    calc d + b * pack l < b + b * pack l := Nat.add_lt_add_right hd _
      _ = b * (pack l + 1) := by rw [Nat.mul_add, Nat.mul_one, Nat.add_comm]
      _ ≤ b * range l := Nat.mul_le_mul_left _ hl

theorem digits_pack : ∀ {l : List (ℕ × ℕ)}, Proper l → Digits (pack l) l
  | [], _ => trivial
  | (d, b) :: l, h => by
    have hd : d < b := h _ List.mem_cons_self
    have hdiv : (d + b * pack l) / b = pack l := by
      rw [Nat.add_mul_div_left _ _ (by omega), Nat.div_eq_of_lt hd, Nat.zero_add]
    refine ⟨?_, ?_⟩
    · rw [pack, Nat.add_mul_mod_self_left, Nat.mod_eq_of_lt hd]
    · rw [pack, hdiv]
      exact digits_pack fun p hp => h p (List.mem_cons_of_mem _ hp)

theorem eq_pack_of_digits : ∀ {l : List (ℕ × ℕ)} {n : ℕ}, n < range l → Digits n l → n = pack l
  | [], n, hn, _ => by
    rw [range] at hn
    rw [pack]
    omega
  | (d, b) :: l, n, hn, ⟨hd, hl⟩ => by
    have hdiv : n / b < range l := Nat.div_lt_of_lt_mul hn
    rw [pack, ← eq_pack_of_digits hdiv hl, ← hd, Nat.mod_add_div]

/-- **A number below the range has the digits that make it, and no others.** -/
theorem digits_iff {l : List (ℕ × ℕ)} (hl : Proper l) {n : ℕ} (hn : n < range l) : Digits n l ↔ n = pack l := by
  constructor
  · exact eq_pack_of_digits hn
  · rintro rfl
    exact digits_pack hl

theorem digits_unique : ∀ {l l' : List (ℕ × ℕ)} {n : ℕ}, l.map Prod.snd = l'.map Prod.snd → Digits n l →
    Digits n l' → l = l'
  | [], [], _, _, _, _ => rfl
  | (d, b) :: l, (d', b') :: l', n, hb, h, h' => by
    rw [List.map_cons, List.map_cons, List.cons.injEq] at hb
    obtain ⟨rfl, hb⟩ := hb
    have hd : d = d' := h.1.symm.trans h'.1
    rw [hd, digits_unique hb h.2 h'.2]

/-- Proper digits of the same bases are said by the number. -/
theorem pack_inj {l l' : List (ℕ × ℕ)} (hl : Proper l) (hl' : Proper l') (hb : l.map Prod.snd = l'.map Prod.snd)
    (h : pack l = pack l') : l = l' :=
  digits_unique hb (digits_pack hl) (h ▸ digits_pack hl')

/-! ### Orders -/

section Orders

variable {κ : Type*} [DecidableEq κ]

/-- The digits of one name are 1, all others 0. -/
def single (n : κ) (l : List (κ × ℕ)) : List (ℕ × ℕ) := l.map fun p => (if p.1 = n then 1 else 0, 2 ^ p.2)

theorem pack_single_of_not_mem {n : κ} : ∀ {l : List (κ × ℕ)}, n ∉ l.map Prod.fst → pack (single n l) = 0
  | [], _ => rfl
  | p :: l, h => by
    rw [List.map_cons, List.mem_cons, not_or] at h
    have ih := pack_single_of_not_mem h.2
    unfold single at ih ⊢
    rw [List.map_cons, pack, ih, if_neg (Ne.symm h.1), Nat.mul_zero]

/-- **Orders that make the same number of each single digit are the same.** -/
theorem order_unique : ∀ {l l' : List (κ × ℕ)}, l.Perm l' → (l.map Prod.fst).Nodup → (∀ p ∈ l, 0 < p.2) →
    (∀ n ∈ l.map Prod.fst, pack (single n l) = pack (single n l')) → l = l'
  | [], l', hp, _, _, _ => hp.nil_eq
  | (n, w) :: l, [], hp, _, _, _ => absurd hp.length_eq (by simp)
  | (n, w) :: l, (m, u) :: l', hp, hn, hpos, h => by
    have hn' : (((m, u) :: l').map Prod.fst).Nodup := (hp.map Prod.fst).nodup_iff.mp hn
    rw [List.map_cons, List.nodup_cons] at hn hn'
    have hfirst : pack (single n ((n, w) :: l)) = 1 := by
      have hrest := pack_single_of_not_mem hn.1
      unfold single at hrest ⊢
      rw [List.map_cons, pack, hrest, if_pos rfl, Nat.mul_zero]
    have hhead := h n (by simp)
    rw [hfirst] at hhead
    obtain rfl : m = n := by
      by_contra hne
      have hu : 0 < u := hpos (m, u) (hp.mem_iff.mpr List.mem_cons_self)
      unfold single at hhead
      rw [List.map_cons, pack, if_neg hne, Nat.zero_add] at hhead
      have heven : 2 ∣ 1 := by
        rw [hhead]
        exact Dvd.dvd.mul_right (dvd_pow_self 2 hu.ne') _
      omega
    obtain rfl : u = w := by
      have hmem : (m, w) ∈ (m, u) :: l' := hp.mem_iff.mp List.mem_cons_self
      rcases List.mem_cons.mp hmem with he | he
      · exact (Prod.mk.inj he).2.symm
      · exact absurd (List.mem_map.mpr ⟨_, he, rfl⟩) hn'.1
    have hp' : l.Perm l' := (List.perm_cons _).mp hp
    rw [order_unique hp' hn.2 (fun p hm => hpos p (List.mem_cons_of_mem _ hm)) fun k hk => ?_]
    have hkey := h k (List.mem_cons_of_mem _ hk)
    have hne : m ≠ k := fun he => hn.1 (he ▸ hk)
    unfold single at hkey ⊢
    rw [List.map_cons, List.map_cons, pack, pack, if_neg hne, Nat.zero_add, Nat.zero_add] at hkey
    exact Nat.eq_of_mul_eq_mul_left (Nat.two_pow_pos u) hkey

end Orders

end MixedRadix
