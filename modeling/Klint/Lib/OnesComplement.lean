/-
# Sums in ones' complement

The sum of words in ones' complement arithmetic with the modulus `m`, one
less than a power of two: a carry comes back in at the low end. A sum over
words that are not all zero is all ones (`m`) exactly when the natural sum is
a multiple of `m` (`onesSum_full_iff`), which is how a checksum is verified;
so replacing words keeps a checksum exactly when the replaced words and the
new ones agree modulo `m` (`full_iff_of_replaced`).
-/
import Mathlib.Algebra.BigOperators.Group.Finset.Basic
import Mathlib.Tactic

namespace OnesComplement

/-- Addition with the carry added back. -/
def onesAdd (m a b : ℕ) : ℕ := if a + b ≤ m then a + b else a + b - m

def onesSum (m : ℕ) : List ℕ → ℕ
  | [] => 0
  | w :: ws => onesAdd m w (onesSum m ws)

variable {m : ℕ}

theorem onesSum_le : ∀ {ws : List ℕ}, (∀ w ∈ ws, w ≤ m) → onesSum m ws ≤ m
  | [], _ => Nat.zero_le m
  | w :: ws, h => by
    have hw := h w List.mem_cons_self
    have ih := onesSum_le fun v hv => h v (List.mem_cons_of_mem w hv)
    rw [onesSum, onesAdd]
    split_ifs <;> omega

theorem onesSum_mod : ∀ ws : List ℕ, onesSum m ws % m = ws.sum % m
  | [] => rfl
  | w :: ws => by
    have ih := onesSum_mod ws
    have hadd : (w + onesSum m ws) % m = (w + ws.sum) % m := by
      rw [Nat.add_mod, ih, ← Nat.add_mod]
    rw [onesSum, onesAdd, List.sum_cons]
    split_ifs with h
    · exact hadd
    · rw [← hadd, ← Nat.mod_eq_sub_mod (by omega)]

theorem onesSum_eq_zero : ∀ {ws : List ℕ}, onesSum m ws = 0 ↔ ws.sum = 0
  | [] => by simp [onesSum]
  | w :: ws => by
    have ih : onesSum m ws = 0 ↔ ws.sum = 0 := onesSum_eq_zero
    rw [onesSum, onesAdd, List.sum_cons]
    split_ifs with h <;> omega

/-- The verification of a checksum, on the natural sum. -/
theorem onesSum_full_iff (hm : 0 < m) {ws : List ℕ} (h : ∀ w ∈ ws, w ≤ m) :
    onesSum m ws = m ↔ ws.sum ≠ 0 ∧ ws.sum % m = 0 := by
  have hle := onesSum_le h
  have hmod := onesSum_mod (m := m) ws
  have hzero : onesSum m ws = 0 ↔ ws.sum = 0 := onesSum_eq_zero
  constructor
  · intro hs
    rw [hs, Nat.mod_self] at hmod
    exact ⟨fun hc => by rw [← hzero] at hc; omega, hmod.symm⟩
  · rintro ⟨h1, h2⟩
    rw [h2] at hmod
    have h3 : onesSum m ws ≠ 0 := fun hc => h1 (hzero.mp hc)
    have := Nat.le_of_dvd (Nat.pos_of_ne_zero h3) (Nat.dvd_of_mod_eq_zero hmod)
    omega

/-- Words that sum to a multiple of `m` do so after some of them are replaced
exactly when these agree modulo `m`. -/
theorem sum_mod_iff_of_replaced {s s' old new : ℕ} (h : s' + old = s + new) (hs : s % m = 0) :
    s' % m = 0 ↔ old % m = new % m := by
  have hnew : (s' + old) % m = new % m := by rw [h, Nat.add_mod, hs, Nat.zero_add, Nat.mod_mod]
  constructor
  · intro hs'
    rw [← hnew, Nat.add_mod, hs', Nat.zero_add, Nat.mod_mod]
  · intro he
    rw [← he] at hnew
    have : (s' + old) % m = (0 + old) % m := by rw [hnew, Nat.zero_add]
    have hz : s' % m = 0 % m := Nat.ModEq.add_right_cancel' old this
    rw [hz, Nat.zero_mod]

/-- Replacing words keeps a checksum when they agree modulo `m`. -/
theorem full_iff_of_replaced (hm : 0 < m) {ws ws' : List ℕ} {old new : ℕ} (hw : ∀ w ∈ ws, w ≤ m)
    (hw' : ∀ w ∈ ws', w ≤ m) (h : ws'.sum + old = ws.sum + new) (hpos : ws'.sum ≠ 0)
    (hfull : onesSum m ws = m) : onesSum m ws' = m ↔ old % m = new % m := by
  rw [onesSum_full_iff hm hw] at hfull
  rw [onesSum_full_iff hm hw', sum_mod_iff_of_replaced h hfull.2]
  exact ⟨fun hc => hc.2, fun hc => ⟨hpos, hc⟩⟩

/-- The sum of the words `f 0 .. f (k - 1)` after two of them are replaced. -/
theorem sum_range_two {f g : ℕ → ℕ} {k a b : ℕ} (ha : a < k) (hb : b < k) (hab : a ≠ b)
    (h : ∀ i, i < k → i ≠ a → i ≠ b → g i = f i) :
    ((List.range k).map g).sum + (f a + f b) = ((List.range k).map f).sum + (g a + g b) := by
  have split : ∀ u : ℕ → ℕ, ((List.range k).map u).sum =
      u a + (u b + ∑ i ∈ ((Finset.range k).erase a).erase b, u i) := by
    intro u
    have hb' : b ∈ (Finset.range k).erase a := Finset.mem_erase.mpr ⟨hab.symm, Finset.mem_range.mpr hb⟩
    rw [Finset.add_sum_erase _ u hb', Finset.add_sum_erase _ u (Finset.mem_range.mpr ha)]
    rfl
  have hrest : ∑ i ∈ ((Finset.range k).erase a).erase b, g i = ∑ i ∈ ((Finset.range k).erase a).erase b, f i := by
    refine Finset.sum_congr rfl fun i hi => ?_
    simp only [Finset.mem_erase, Finset.mem_range] at hi
    exact h i hi.2.2 hi.2.1 hi.1
  rw [split f, split g, hrest]
  omega

end OnesComplement
