/-
# Filling the consistent hash table

`cht_alloc` gives backend `j` the places that its progression `offset + shift * i`
reaches, step after step. `bucketAt t` is the bucket of the `t`-th write and
`chtVisits t b` are the backends that have reached bucket `b` before it.

The table is well formed when every write stays inside its array and every row is a
permutation of the backends. `chtAlloc_wellFormed_iff`: it is exactly when the number
of backends is below the least prime factor of the height. Then every shift is coprime
to the height, so every progression visits every bucket once; otherwise some
progression misses the first bucket, or reaches it twice before another's first visit.
-/
import Klint.Structs.Cht
import Mathlib.Data.Nat.Prime.Basic
import Mathlib.Data.List.NodupEquivFin
import Mathlib.Data.List.Perm.Basic

namespace Klint

/-! ### The progressions -/

theorem chtPermut_lt {h : ℕ} (hh : 0 < h) (i j : ℕ) : chtPermut h i j < h := Nat.mod_lt _ hh

/-- `shift` is `i + 1`: there are fewer backends than buckets. -/
theorem chtPermut_eq {h i : ℕ} (hi : i + 1 < h) (j : ℕ) :
    chtPermut h i j = (i * 31 % h + (i + 1) * j) % h := by
  rw [chtPermut, Nat.mod_eq_of_lt (by omega : i < h - 1)]

/-- A progression whose shift is coprime to the height does not repeat. -/
theorem chtPermut_inj {h i j j' : ℕ} (hi : i + 1 < h) (hc : Nat.Coprime (i + 1) h) (hj : j < h) (hj' : j' < h)
    (he : chtPermut h i j = chtPermut h i j') : j = j' := by
  rw [chtPermut_eq hi, chtPermut_eq hi] at he
  have h1 : (i + 1) * j ≡ (i + 1) * j' [MOD h] := Nat.ModEq.add_left_cancel' _ he
  have h2 : j ≡ j' [MOD h] := Nat.ModEq.cancel_left_of_coprime (Nat.coprime_comm.mp hc) h1
  exact Nat.ModEq.eq_of_lt_of_lt h2 hj hj'

/-- And so it reaches every bucket. -/
theorem chtPermut_surj {h i b : ℕ} (hi : i + 1 < h) (hc : Nat.Coprime (i + 1) h) (hb : b < h) :
    ∃ j, j < h ∧ chtPermut h i j = b := by
  have hinj : Set.InjOn (chtPermut h i) (Finset.range h) := fun j hj j' hj' he =>
    chtPermut_inj hi hc (Finset.mem_range.mp hj) (Finset.mem_range.mp hj') he
  have hsub : (Finset.range h).image (chtPermut h i) ⊆ Finset.range h := by
    intro x hx
    obtain ⟨j, -, rfl⟩ := Finset.mem_image.mp hx
    exact Finset.mem_range.mpr (chtPermut_lt (by omega) i j)
  have himg : (Finset.range h).image (chtPermut h i) = Finset.range h :=
    Finset.eq_of_subset_of_card_le hsub (by rw [Finset.card_image_of_injOn hinj])
  obtain ⟨j, hj, he⟩ := Finset.mem_image.mp (himg ▸ Finset.mem_range.mpr hb)
  exact ⟨j, Finset.mem_range.mp hj, he⟩

/-- Below the least prime factor, every shift is coprime to the height. -/
theorem coprime_of_lt_minFac {h i : ℕ} (hi : i + 1 < h.minFac) : Nat.Coprime (i + 1) h := by
  rw [Nat.coprime_iff_gcd_eq_one]
  by_contra hne
  have h1 : h.minFac ≤ (Nat.gcd (i + 1) h).minFac :=
    Nat.minFac_le_of_dvd (Nat.minFac_prime hne).two_le ((Nat.minFac_dvd _).trans (Nat.gcd_dvd_right _ _))
  have h2 : (Nat.gcd (i + 1) h).minFac ≤ i + 1 :=
    Nat.le_of_dvd (by omega) ((Nat.minFac_dvd _).trans (Nat.gcd_dvd_left _ _))
  omega

/-! ### The permutations -/

section Fold

variable {α : Type}

theorem foldl_set_length (f : ℕ → ℕ × α) : ∀ (l : List ℕ) (a : List α),
    (l.foldl (fun a j => a.set (f j).1 (f j).2) a).length = a.length
  | [], _ => rfl
  | j :: l, a => by rw [List.foldl_cons, foldl_set_length f l, List.length_set]

/-- Writing consecutive elements from `base` on. -/
theorem foldl_set_getD (v : ℕ → α) (base : ℕ) (d : α) : ∀ (n : ℕ) (a : List α) (k : ℕ), base + n ≤ a.length →
    ((List.range n).foldl (fun a j => a.set (base + j) (v j)) a).getD k d =
      if base ≤ k ∧ k < base + n then v (k - base) else a.getD k d
  | 0, a, k, _ => by
    rw [if_neg (by omega)]
    rfl
  | n + 1, a, k, hn => by
    rw [List.range_succ, List.foldl_append, List.foldl_cons, List.foldl_nil]
    have hlen : ((List.range n).foldl (fun a j => a.set (base + j) (v j)) a).length = a.length :=
      foldl_set_length (fun j => (base + j, v j)) _ _
    rw [List.getD_eq_getElem?_getD]
    by_cases hk : k = base + n
    · subst hk
      rw [List.getElem?_set_self (by omega), if_pos (by omega), Option.getD_some, Nat.add_sub_cancel_left]
    · rw [List.getElem?_set_ne (Ne.symm hk), ← List.getD_eq_getElem?_getD, foldl_set_getD v base d n a k (by omega)]
      have hiff : (base ≤ k ∧ k < base + n) ↔ (base ≤ k ∧ k < base + (n + 1)) := by omega
      simp only [hiff]

end Fold

/-- The first loop, for the first `n` backends. -/
def chtPermutationsUpTo (height backendCapacity n : ℕ) : List UInt16 :=
  (List.range n).foldl (fun permutations i =>
    (List.range height).foldl (fun permutations j =>
      permutations.set (i * height + j) (UInt16.ofNat (chtPermut height i j))) permutations)
    (List.replicate (height * backendCapacity) 0)

theorem chtPermutationsUpTo_length (height backendCapacity : ℕ) : ∀ n,
    (chtPermutationsUpTo height backendCapacity n).length = height * backendCapacity
  | 0 => by simp [chtPermutationsUpTo]
  | n + 1 => by
    rw [chtPermutationsUpTo, List.range_succ, List.foldl_append, List.foldl_cons, List.foldl_nil]
    exact (foldl_set_length (fun j => (n * height + j, _)) _ _).trans
      (chtPermutationsUpTo_length height backendCapacity n)

theorem chtPermutationsUpTo_getD {height backendCapacity : ℕ} : ∀ {n i j : ℕ}, n ≤ backendCapacity → i < n →
    j < height → (chtPermutationsUpTo height backendCapacity n).getD (i * height + j) 0 =
      UInt16.ofNat (chtPermut height i j)
  | 0, _, _, _, hi, _ => by omega
  | n + 1, i, j, hn, hi, hj => by
    have hlen := chtPermutationsUpTo_length height backendCapacity n
    have hroom : n * height + height ≤ height * backendCapacity := by
      rw [← Nat.succ_mul, Nat.mul_comm height]
      exact Nat.mul_le_mul_right _ hn
    rw [chtPermutationsUpTo, List.range_succ, List.foldl_append, List.foldl_cons, List.foldl_nil]
    change ((List.range height).foldl (fun permutations j =>
      permutations.set (n * height + j) (UInt16.ofNat (chtPermut height n j)))
      (chtPermutationsUpTo height backendCapacity n)).getD (i * height + j) 0 = _
    rw [foldl_set_getD (fun j => UInt16.ofNat (chtPermut height n j)) (n * height) 0 height _ _ (by omega)]
    by_cases hin : i = n
    · subst hin
      rw [if_pos (by omega), Nat.add_sub_cancel_left]
    · have hlt : i * height + j < n * height := by
        have := Nat.mul_le_mul_right height (by omega : i + 1 ≤ n)
        rw [Nat.succ_mul] at this
        omega
      rw [if_neg (by omega), chtPermutationsUpTo_getD (by omega) (by omega) hj]

/-- What the first loop leaves in `permutations`. -/
theorem chtPermutations_getD {height backendCapacity i j : ℕ} (hi : i < backendCapacity) (hj : j < height) :
    (chtPermutations height backendCapacity).getD (i * height + j) 0 = UInt16.ofNat (chtPermut height i j) :=
  chtPermutationsUpTo_getD (le_refl _) hi hj

/-! ### The fill, write by write -/

/-- `next` and `data` before the `t`-th write; the writes are those of step `t / backendCapacity`
of backend `t % backendCapacity`. -/
def chtFillState (height backendCapacity : ℕ) : ℕ → List ℕ × List UInt16
  | 0 => (List.replicate height 0, List.replicate (height * backendCapacity) 0)
  | t + 1 => chtFillStep (chtPermutations height backendCapacity) height backendCapacity
      (t / backendCapacity) (t % backendCapacity) (chtFillState height backendCapacity t)

/-- The nested loops make the writes in this order. -/
theorem chtFill_eq {height backendCapacity : ℕ} (hb : 0 < backendCapacity) : ∀ n,
    (List.range n).foldl (fun s i => (List.range backendCapacity).foldl (fun s j =>
      chtFillStep (chtPermutations height backendCapacity) height backendCapacity i j s) s)
      (chtFillState height backendCapacity 0) = chtFillState height backendCapacity (n * backendCapacity)
  | 0 => by rw [Nat.zero_mul]; rfl
  | n + 1 => by
    have hrow : ∀ m, m ≤ backendCapacity →
        (List.range m).foldl (fun s j =>
          chtFillStep (chtPermutations height backendCapacity) height backendCapacity n j s)
          (chtFillState height backendCapacity (n * backendCapacity)) =
          chtFillState height backendCapacity (n * backendCapacity + m) := by
      intro m
      induction m with
      | zero => intro _; rfl
      | succ m ih =>
        intro hm
        rw [List.range_succ, List.foldl_append, ih (by omega), List.foldl_cons, List.foldl_nil,
          ← Nat.add_assoc, chtFillState]
        have hdiv : (n * backendCapacity + m) / backendCapacity = n := by
          rw [Nat.mul_comm, Nat.mul_add_div hb, Nat.div_eq_of_lt (by omega), Nat.add_zero]
        have hmod : (n * backendCapacity + m) % backendCapacity = m := by
          rw [Nat.mul_comm, Nat.mul_add_mod, Nat.mod_eq_of_lt (by omega)]
        rw [hdiv, hmod]
    rw [List.range_succ, List.foldl_append, chtFill_eq hb n, List.foldl_cons, List.foldl_nil,
      hrow _ (le_refl _), Nat.succ_mul]

theorem chtAlloc_data {height backendCapacity : ℕ} (hb : 0 < backendCapacity) :
    (chtAlloc height backendCapacity).data = (chtFillState height backendCapacity (height * backendCapacity)).2 :=
  congrArg Prod.snd (chtFill_eq hb height)

/-- The bucket of the `t`-th write. -/
def bucketAt (height backendCapacity t : ℕ) : ℕ := chtPermut height (t % backendCapacity) (t / backendCapacity)

/-- The writes that bucket `b` has had before the `t`-th one. -/
def chtSteps (height backendCapacity t b : ℕ) : List ℕ :=
  (List.range t).filter fun s => bucketAt height backendCapacity s = b

/-- The backends that have reached bucket `b` before the `t`-th write. -/
def chtVisits (height backendCapacity t b : ℕ) : List ℕ :=
  (chtSteps height backendCapacity t b).map (· % backendCapacity)

/-- Every write is inside its array. -/
structure ChtWritesInside (height backendCapacity : ℕ) : Prop where
  permutations : ∀ i j, i < backendCapacity → j < height →
    i * height + j < (chtPermutations height backendCapacity).length
  next : ∀ t, t < height * backendCapacity →
    ((chtPermutations height backendCapacity).getD (t % backendCapacity * height + t / backendCapacity) 0).toNat <
      (chtFillState height backendCapacity t).1.length
  data : ∀ t, t < height * backendCapacity →
    let bucketId :=
      ((chtPermutations height backendCapacity).getD (t % backendCapacity * height + t / backendCapacity) 0).toNat
    backendCapacity * bucketId + (chtFillState height backendCapacity t).1.getD bucketId 0 <
      (chtFillState height backendCapacity t).2.length

/-- The row of a bucket. -/
def Cht.row (cht : Cht) (b : ℕ) : List ℕ :=
  (List.range cht.backendCapacity).map fun p => (cht.data.getD (b * cht.backendCapacity + p) 0).toNat

/-- What `cht_alloc` must do: write inside its arrays, and make each row a permutation of the
backends. -/
def ChtWellFormed (height backendCapacity : ℕ) : Prop :=
  ChtWritesInside height backendCapacity ∧
    ∀ b, b < height → ((chtAlloc height backendCapacity).row b).Perm (List.range backendCapacity)

/-! ### What the writes leave -/

section Fill

variable {height backendCapacity : ℕ}

theorem chtVisits_succ (t b : ℕ) : chtVisits height backendCapacity (t + 1) b =
    chtVisits height backendCapacity t b ++
      if bucketAt height backendCapacity t = b then [t % backendCapacity] else [] := by
  rw [chtVisits, chtSteps, List.range_succ, List.filter_append, List.map_append]
  congr 1
  by_cases h : bucketAt height backendCapacity t = b <;> simp [h]

/-- A bucket only gains visits. -/
theorem chtVisits_length_mono {t t' : ℕ} (h : t ≤ t') (b : ℕ) :
    (chtVisits height backendCapacity t b).length ≤ (chtVisits height backendCapacity t' b).length := by
  induction t', h using Nat.le_induction with
  | base => exact le_refl _
  | succ t' _ ih =>
    rw [chtVisits_succ, List.length_append]
    omega

theorem toNat_ofNat_permut (hh : 0 < height) (h16 : height < 2 ^ 16) (i j : ℕ) :
    (UInt16.ofNat (chtPermut height i j)).toNat = chtPermut height i j := by
  rw [UInt16.toNat_ofNat', Nat.mod_eq_of_lt]
  exact lt_trans (chtPermut_lt hh i j) h16

/-- The bucket that the fill reads from `permutations`. -/
theorem permutations_bucketAt (hb : 0 < backendCapacity) (hh : 0 < height) (h16 : height < 2 ^ 16) {t : ℕ}
    (ht : t < height * backendCapacity) :
    ((chtPermutations height backendCapacity).getD (t % backendCapacity * height + t / backendCapacity) 0).toNat =
      bucketAt height backendCapacity t := by
  have hj : t / backendCapacity < height := (Nat.div_lt_iff_lt_mul hb).mpr ht
  rw [chtPermutations_getD (Nat.mod_lt _ hb) hj, toNat_ofNat_permut hh h16]
  rfl

/-- The state after the first `t` writes: `next` counts the visits of each bucket, and the row of a
bucket holds its first visits, provided no bucket before it spills over. -/
structure FillInv (height backendCapacity t : ℕ) : Prop where
  next_length : (chtFillState height backendCapacity t).1.length = height
  data_length : (chtFillState height backendCapacity t).2.length = height * backendCapacity
  next : ∀ b, b < height →
    (chtFillState height backendCapacity t).1.getD b 0 = (chtVisits height backendCapacity t b).length
  row : ∀ b, b < height → (∀ b', b' < b → (chtVisits height backendCapacity t b').length ≤ backendCapacity) →
    ∀ p, p < backendCapacity → (chtFillState height backendCapacity t).2.getD (backendCapacity * b + p) 0 =
      UInt16.ofNat ((chtVisits height backendCapacity t b).getD p 0)

theorem getD_append_singleton (l : List ℕ) (x p : ℕ) :
    (l ++ [x]).getD p 0 = if p = l.length then x else l.getD p 0 := by
  rw [List.getD_eq_getElem?_getD, List.getD_eq_getElem?_getD, List.getElem?_append]
  by_cases hlt : p < l.length
  · rw [if_pos hlt, if_neg (by omega)]
  · rw [if_neg hlt]
    by_cases he : p = l.length
    · subst he
      simp
    · rw [if_neg he, List.getElem?_eq_none (by simp; omega), List.getElem?_eq_none (by omega)]

/-- One write. -/
theorem FillInv.step {t : ℕ} (h : FillInv height backendCapacity t) (hb : 0 < backendCapacity) (hh : 0 < height)
    (h16 : height < 2 ^ 16) (ht : t < height * backendCapacity) : FillInv height backendCapacity (t + 1) := by
  set b₀ := bucketAt height backendCapacity t with hb₀
  have hlt : b₀ < height := chtPermut_lt hh _ _
  have hstate : chtFillState height backendCapacity (t + 1) =
      ((chtFillState height backendCapacity t).1.set b₀ ((chtVisits height backendCapacity t b₀).length + 1),
        (chtFillState height backendCapacity t).2.set
          (backendCapacity * b₀ + (chtVisits height backendCapacity t b₀).length)
          (UInt16.ofNat (t % backendCapacity))) := by
    rw [chtFillState, chtFillStep, permutations_bucketAt hb hh h16 ht, ← hb₀, h.next b₀ hlt]
  refine ⟨?_, ?_, fun b hbh => ?_, fun b hbh hprev p hp => ?_⟩
  · rw [hstate, List.length_set, h.next_length]
  · rw [hstate, List.length_set, h.data_length]
  · rw [hstate, chtVisits_succ, List.getD_eq_getElem?_getD]
    by_cases he : b₀ = b
    · subst he
      rw [List.getElem?_set_self (by rw [h.next_length]; exact hbh), ← hb₀, if_pos rfl]
      simp
    · rw [List.getElem?_set_ne he, ← List.getD_eq_getElem?_getD, h.next b hbh, ← hb₀, if_neg he,
        List.append_nil]
  · have hprev' : ∀ b', b' < b → (chtVisits height backendCapacity t b').length ≤ backendCapacity :=
      fun b' hb' => (chtVisits_length_mono (Nat.le_succ t) b').trans (hprev b' hb')
    have hold := h.row b hbh hprev' p hp
    rw [hstate, chtVisits_succ, ← hb₀, List.getD_eq_getElem?_getD]
    -- the place that is written
    set w := backendCapacity * b₀ + (chtVisits height backendCapacity t b₀).length with hw
    have hroom : backendCapacity * b + p < height * backendCapacity := by
      have := Nat.mul_le_mul_left backendCapacity (by omega : b + 1 ≤ height)
      rw [Nat.mul_succ, Nat.mul_comm backendCapacity height] at this
      omega
    rcases lt_trichotomy b₀ b with hlt' | rfl | hgt
    · -- a bucket before this one does not reach it
      have hvis : (chtVisits height backendCapacity (t + 1) b₀).length ≤ backendCapacity := hprev b₀ hlt'
      rw [chtVisits_succ, ← hb₀, if_pos rfl, List.length_append, List.length_singleton] at hvis
      have := Nat.mul_le_mul_left backendCapacity (by omega : b₀ + 1 ≤ b)
      rw [Nat.mul_succ] at this
      rw [List.getElem?_set_ne (by omega), ← List.getD_eq_getElem?_getD, hold, if_neg (by omega),
        List.append_nil]
    · rw [if_pos rfl, getD_append_singleton]
      by_cases hpl : p = (chtVisits height backendCapacity t b₀).length
      · rw [if_pos hpl, hw, ← hpl, List.getElem?_set_self (by rw [h.data_length]; exact hroom), Option.getD_some]
      · rw [if_neg hpl, List.getElem?_set_ne (by omega), ← List.getD_eq_getElem?_getD, hold]
    · have := Nat.mul_le_mul_left backendCapacity (by omega : b + 1 ≤ b₀)
      rw [Nat.mul_succ] at this
      rw [List.getElem?_set_ne (by omega), ← List.getD_eq_getElem?_getD, hold, if_neg (by omega),
        List.append_nil]

theorem fillInv (hb : 0 < backendCapacity) (hh : 0 < height) (h16 : height < 2 ^ 16) :
    ∀ {t : ℕ}, t ≤ height * backendCapacity → FillInv height backendCapacity t
  | 0, _ => by
    refine ⟨by simp [chtFillState], by simp [chtFillState], fun b hbh => ?_, fun b hbh _ p hp => ?_⟩
    · simp [chtFillState, chtVisits, chtSteps, List.getD_eq_getElem?_getD, hbh]
    · have hroom : backendCapacity * b + p < height * backendCapacity := by
        have := Nat.mul_le_mul_left backendCapacity (by omega : b + 1 ≤ height)
        rw [Nat.mul_succ, Nat.mul_comm backendCapacity height] at this
        omega
      simp [chtFillState, chtVisits, chtSteps, List.getD_eq_getElem?_getD, hroom]
  | t + 1, ht => (fillInv hb hh h16 (by omega)).step hb hh h16 (by omega)

end Fill

/-! ### Heights that every shift is coprime to -/

section WellFormed

variable {height backendCapacity : ℕ}

/-- The row of a bucket, from its visits. -/
theorem row_eq_visits (hb : 0 < backendCapacity) (hh : 0 < height) (h16 : height < 2 ^ 16) {b : ℕ} (hbh : b < height)
    (hprev : ∀ b', b' < b →
      (chtVisits height backendCapacity (height * backendCapacity) b').length ≤ backendCapacity) :
    (chtAlloc height backendCapacity).row b = (List.range backendCapacity).map fun p =>
      (UInt16.ofNat ((chtVisits height backendCapacity (height * backendCapacity) b).getD p 0)).toNat := by
  refine List.map_congr_left fun p hp => ?_
  rw [chtAlloc_data hb, show (chtAlloc height backendCapacity).backendCapacity = backendCapacity from rfl,
    Nat.mul_comm b, (fillInv hb hh h16 (le_refl _)).row b hbh hprev p (List.mem_range.mp hp)]

theorem mem_chtSteps {t b s : ℕ} :
    s ∈ chtSteps height backendCapacity t b ↔ s < t ∧ bucketAt height backendCapacity s = b := by
  simp [chtSteps]

theorem chtSteps_nodup (t b : ℕ) : (chtSteps height backendCapacity t b).Nodup :=
  List.Nodup.filter _ List.nodup_range

/-- Two writes of one backend to one bucket are the same, if its shift is coprime to the height. -/
theorem step_unique (hb : 0 < backendCapacity) (hbh : backendCapacity < height) {s s' : ℕ}
    (hs : s < height * backendCapacity) (hs' : s' < height * backendCapacity)
    (hc : Nat.Coprime (s % backendCapacity + 1) height) (hj : s % backendCapacity = s' % backendCapacity)
    (he : bucketAt height backendCapacity s = bucketAt height backendCapacity s') : s = s' := by
  have hmod := Nat.mod_lt s hb
  have hd : s / backendCapacity = s' / backendCapacity := by
    unfold bucketAt at he
    rw [← hj] at he
    exact chtPermut_inj (by omega) hc ((Nat.div_lt_iff_lt_mul hb).mpr hs) ((Nat.div_lt_iff_lt_mul hb).mpr hs') he
  rw [← Nat.div_add_mod s backendCapacity, ← Nat.div_add_mod s' backendCapacity, hd, hj]

variable (hb : 0 < backendCapacity) (hbh : backendCapacity < height)
  (hc : ∀ i, i < backendCapacity → Nat.Coprime (i + 1) height)

include hb hbh hc

/-- Every backend visits every bucket once. -/
theorem chtVisits_perm {b : ℕ} (hlt : b < height) :
    (chtVisits height backendCapacity (height * backendCapacity) b).Perm (List.range backendCapacity) := by
  have hnodup : (chtVisits height backendCapacity (height * backendCapacity) b).Nodup := by
    refine List.Nodup.map_on (fun s hs s' hs' he => ?_) (chtSteps_nodup _ _)
    rw [mem_chtSteps] at hs hs'
    exact step_unique hb hbh hs.1 hs'.1 (hc _ (Nat.mod_lt s hb)) he (hs.2.trans hs'.2.symm)
  rw [List.perm_ext_iff_of_nodup hnodup List.nodup_range]
  intro j
  rw [chtVisits, List.mem_map, List.mem_range]
  constructor
  · rintro ⟨s, -, rfl⟩
    exact Nat.mod_lt s hb
  · intro hj
    obtain ⟨i, hi, hperm⟩ := chtPermut_surj (by omega) (hc j hj) hlt
    have hdiv : (i * backendCapacity + j) / backendCapacity = i := by
      rw [Nat.mul_comm, Nat.mul_add_div hb, Nat.div_eq_of_lt hj, Nat.add_zero]
    have hmod : (i * backendCapacity + j) % backendCapacity = j := by
      rw [Nat.mul_comm, Nat.mul_add_mod, Nat.mod_eq_of_lt hj]
    refine ⟨i * backendCapacity + j, mem_chtSteps.mpr ⟨?_, ?_⟩, hmod⟩
    · have := Nat.mul_le_mul_right backendCapacity (by omega : i + 1 ≤ height)
      rw [Nat.succ_mul] at this
      omega
    · rw [bucketAt, hdiv, hmod, hperm]

theorem chtVisits_length {b : ℕ} (hlt : b < height) :
    (chtVisits height backendCapacity (height * backendCapacity) b).length = backendCapacity := by
  rw [(chtVisits_perm hb hbh hc hlt).length_eq, List.length_range]

/-- A well-formed table. -/
theorem wellFormed_of_coprime (h16 : height < 2 ^ 16) : ChtWellFormed height backendCapacity := by
  have hh : 0 < height := by omega
  refine ⟨⟨fun i j hi hj => ?_, fun t ht => ?_, fun t ht => ?_⟩, fun b hlt => ?_⟩
  · rw [show (chtPermutations height backendCapacity).length = _ from chtPermutationsUpTo_length _ _ _]
    have := Nat.mul_le_mul_right height (by omega : i + 1 ≤ backendCapacity)
    rw [Nat.succ_mul, Nat.mul_comm backendCapacity] at this
    omega
  · rw [permutations_bucketAt hb hh h16 ht, (fillInv hb hh h16 (by omega)).next_length]
    exact chtPermut_lt hh _ _
  · have hinv := fillInv hb hh h16 (Nat.le_of_lt ht)
    have hlt : bucketAt height backendCapacity t < height := chtPermut_lt hh _ _
    simp only [permutations_bucketAt hb hh h16 ht, hinv.next _ hlt, hinv.data_length]
    -- the bucket still has the visit of this write to come
    have hmore := @chtVisits_length_mono height backendCapacity _ _ (Nat.succ_le_of_lt ht)
      (bucketAt height backendCapacity t)
    rw [Nat.succ_eq_add_one, chtVisits_succ, if_pos rfl, List.length_append, List.length_singleton,
      chtVisits_length hb hbh hc hlt] at hmore
    have := Nat.mul_le_mul_left backendCapacity (by omega : bucketAt height backendCapacity t + 1 ≤ height)
    rw [Nat.mul_succ, Nat.mul_comm backendCapacity height] at this
    omega
  · have hperm := chtVisits_perm hb hbh hc hlt
    have hrow := row_eq_visits hb hh h16 hlt fun b' hb' =>
      (chtVisits_length hb hbh hc (by omega : b' < height)).le
    have heq : (chtAlloc height backendCapacity).row b =
        chtVisits height backendCapacity (height * backendCapacity) b := by
      rw [hrow]
      refine List.ext_getElem (by simp [hperm.length_eq]) fun p h1 h2 => ?_
      have hlt16 : (chtVisits height backendCapacity (height * backendCapacity) b)[p] < backendCapacity :=
        List.mem_range.mp (hperm.mem_iff.mp (List.getElem_mem h2))
      rw [List.getElem_map, List.getElem_range, List.getD_eq_getElem?_getD,
        List.getElem?_eq_getElem h2, Option.getD_some, UInt16.toNat_ofNat',
        Nat.mod_eq_of_lt (by omega)]
    rw [heq]
    exact hperm

end WellFormed

/-! ### Heights that some shift divides -/

section Spill

variable {height backendCapacity : ℕ}

/-- What a well-formed table says of the first row, which no bucket spills into. -/
theorem first_row (hb : 0 < backendCapacity) (hh : 0 < height) (h16 : height < 2 ^ 16)
    (h : ChtWellFormed height backendCapacity) :
    ((List.range backendCapacity).map fun p =>
      (UInt16.ofNat ((chtVisits height backendCapacity (height * backendCapacity) 0).getD p 0)).toNat).Perm
      (List.range backendCapacity) := by
  rw [← row_eq_visits hb hh h16 hh fun b' hb' => absurd hb' (Nat.not_lt_zero b')]
  exact h.2 0 hh

/-- A backend that the first row must have has visited the first bucket, among its first visits. -/
theorem visit_of_first_row (hb : 0 < backendCapacity) (hh : 0 < height) (h16 : height < 2 ^ 16)
    (hbh : backendCapacity < height) (h : ChtWellFormed height backendCapacity) {j : ℕ} (hj : j < backendCapacity)
    (hj0 : j ≠ 0) : ∃ p, p < backendCapacity ∧
      (chtVisits height backendCapacity (height * backendCapacity) 0)[p]? = some j := by
  have hmem := (first_row hb hh h16 h).mem_iff.mpr (List.mem_range.mpr hj)
  obtain ⟨p, hp, he⟩ := List.mem_map.mp hmem
  refine ⟨p, List.mem_range.mp hp, ?_⟩
  rw [List.getD_eq_getElem?_getD] at he
  cases hg : (chtVisits height backendCapacity (height * backendCapacity) 0)[p]? with
  | none => rw [hg] at he; exact absurd he.symm hj0
  | some k =>
    have hk : k < backendCapacity := by
      obtain ⟨s, -, rfl⟩ := List.mem_map.mp (List.mem_of_getElem? hg)
      exact Nat.mod_lt s hb
    rw [hg, Option.getD_some, UInt16.toNat_ofNat', Nat.mod_eq_of_lt (by omega)] at he
    rw [he]

/-- And it is nowhere else among the first visits. -/
theorem visit_once (hb : 0 < backendCapacity) (hh : 0 < height) (h16 : height < 2 ^ 16)
    (h : ChtWellFormed height backendCapacity) {j p q : ℕ} (hp : p < backendCapacity) (hq : q < backendCapacity)
    (hpj : (chtVisits height backendCapacity (height * backendCapacity) 0)[p]? = some j)
    (hqj : (chtVisits height backendCapacity (height * backendCapacity) 0)[q]? = some j) : p = q := by
  have hnodup := (first_row hb hh h16 h).nodup_iff.mpr List.nodup_range
  refine List.inj_on_of_nodup_map hnodup (List.mem_range.mpr hp) (List.mem_range.mpr hq) ?_
  simp only [List.getD_eq_getElem?_getD, hpj, hqj]

/-- Step `i` of backend `j`, as a write. -/
theorem step_of {i j : ℕ} (hj : j < backendCapacity) (hi : i < height) :
    i * backendCapacity + j < height * backendCapacity ∧ (i * backendCapacity + j) % backendCapacity = j ∧
      bucketAt height backendCapacity (i * backendCapacity + j) = chtPermut height j i := by
  have hb : 0 < backendCapacity := by omega
  have hdiv : (i * backendCapacity + j) / backendCapacity = i := by
    rw [Nat.mul_comm, Nat.mul_add_div hb, Nat.div_eq_of_lt hj, Nat.add_zero]
  have hmod : (i * backendCapacity + j) % backendCapacity = j := by
    rw [Nat.mul_comm, Nat.mul_add_mod, Nat.mod_eq_of_lt hj]
  have := Nat.mul_le_mul_right backendCapacity (by omega : i + 1 ≤ height)
  rw [Nat.succ_mul] at this
  exact ⟨by omega, hmod, by rw [bucketAt, hdiv, hmod]⟩

/-- Backend `p - 1`, for a prime factor `p` of the height, only reaches buckets that are the same
modulo `p`; the first bucket is among them for `p = 31` only. -/
theorem prime_factor_reaches {p i : ℕ} (hp : p.Prime) (hd : p ∣ height) (hlt : p < height)
    (he : chtPermut height (p - 1) i = 0) : p = 31 := by
  have hp1 := hp.one_lt
  rw [chtPermut_eq (by omega), Nat.sub_add_cancel hp1.le] at he
  have h1 : height ∣ (p - 1) * 31 % height + p * i := Nat.dvd_of_mod_eq_zero he
  have h2 : p ∣ (p - 1) * 31 % height :=
    (Nat.dvd_add_left (Dvd.intro i rfl)).mp (hd.trans h1)
  have h3 : p ∣ (p - 1) * 31 := (Nat.dvd_mod_iff hd).mp h2
  rcases (Nat.Prime.dvd_mul hp).mp h3 with h4 | h4
  · have := Nat.le_of_dvd (by omega) h4
    omega
  · exact (Nat.prime_dvd_prime_iff_eq hp (by norm_num)).mp h4

/-- Backend `minFac - 1` has to visit the first bucket, so the factor is 31. -/
theorem minFac_of_wellFormed (hb : 0 < backendCapacity) (hbh : backendCapacity < height) (h16 : height < 2 ^ 16)
    (hmin : height.minFac ≤ backendCapacity) (h : ChtWellFormed height backendCapacity) : height.minFac = 31 := by
  have hp : height.minFac.Prime := Nat.minFac_prime (by omega)
  have hp2 := hp.two_le
  obtain ⟨q, -, hq⟩ := visit_of_first_row hb (by omega) h16 hbh h (by omega : height.minFac - 1 < backendCapacity)
    (by omega)
  obtain ⟨s, hs, hsj⟩ := List.mem_map.mp (List.mem_of_getElem? hq)
  have hbucket := (mem_chtSteps.mp hs).2
  rw [bucketAt, hsj] at hbucket
  exact prime_factor_reaches hp (Nat.minFac_dvd height) (by omega) hbucket

/-- The cofactor of the least prime factor is not less than the factor. -/
theorem minFac_le_cofactor {m : ℕ} (hm : height = height.minFac * m) (hlt : height.minFac < height) :
    height.minFac ≤ m := by
  have hm1 : m ≠ 1 := by
    intro h1
    rw [h1, Nat.mul_one] at hm
    omega
  have hm0 : 0 < m := by
    rcases Nat.eq_zero_or_pos m with h0 | h0
    · rw [h0, Nat.mul_zero] at hm
      omega
    · exact h0
  have hle : height.minFac ≤ m.minFac := Nat.minFac_le_of_dvd (Nat.minFac_prime hm1).two_le
    ((Nat.minFac_dvd m).trans (Dvd.intro_left height.minFac hm.symm))
  exact hle.trans (Nat.minFac_le hm0)

/-- Backend 30 reaches the first bucket at every step that is `-30` modulo `height / 31`. -/
theorem permut_thirty {m i : ℕ} (hm : height = 31 * m) (hi : m ∣ i + 30) (hlt : 31 < height) :
    chtPermut height 30 i = 0 := by
  obtain ⟨c, hc⟩ := hi
  rw [chtPermut_eq hlt]
  have hmul : 30 * 31 + (30 + 1) * i = height * c := by
    rw [hm, Nat.mul_assoc, ← hc]
    ring
  rw [Nat.mod_add_mod, hmul, Nat.mul_mod_right]

/-- The visits of a bucket are those before one of its steps, that step's, and others. -/
theorem visits_split {t b : ℕ} (ht : t < height * backendCapacity) (htb : bucketAt height backendCapacity t = b) :
    ∃ rest, chtVisits height backendCapacity (height * backendCapacity) b =
      chtVisits height backendCapacity t b ++ t % backendCapacity :: rest := by
  obtain ⟨n, hn⟩ := Nat.exists_eq_add_of_lt ht
  refine ⟨((((List.range n).map fun k => t + 1 + k).filter fun s =>
    bucketAt height backendCapacity s = b).map (· % backendCapacity)), ?_⟩
  rw [hn, chtVisits, chtSteps, Nat.add_right_comm, List.range_add, List.filter_append, List.map_append]
  change chtVisits height backendCapacity (t + 1) b ++ _ = _
  rw [chtVisits_succ, if_pos htb, List.append_assoc]
  rfl

/-- A step of a bucket before another one is among its visits where it is among the steps before that one. -/
theorem visit_of_step {s t b : ℕ} (hst : s < t) (hsb : bucketAt height backendCapacity s = b)
    (ht : t < height * backendCapacity) (htb : bucketAt height backendCapacity t = b) :
    ∃ r, r < (chtVisits height backendCapacity t b).length ∧ (chtSteps height backendCapacity t b)[r]? = some s ∧
      (chtVisits height backendCapacity (height * backendCapacity) b)[r]? = some (s % backendCapacity) := by
  obtain ⟨rest, hrest⟩ := visits_split ht htb
  obtain ⟨r, hr, he⟩ := List.mem_iff_getElem.mp (mem_chtSteps.mpr ⟨hst, hsb⟩)
  have hlen : r < (chtVisits height backendCapacity t b).length := by
    rw [chtVisits, List.length_map]
    exact hr
  refine ⟨r, hlen, by rw [List.getElem?_eq_getElem hr, he], ?_⟩
  rw [hrest, List.getElem?_append_left hlen, chtVisits, List.getElem?_map, List.getElem?_eq_getElem hr, he,
    Option.map_some]

/-- With the least prime factor among the shifts, the table is not well formed. -/
theorem not_wellFormed (hb : 0 < backendCapacity) (hbh : backendCapacity < height) (h16 : height < 2 ^ 16)
    (hmin : height.minFac ≤ backendCapacity) : ¬ ChtWellFormed height backendCapacity := by
  intro h
  have hh : 0 < height := by omega
  have h31 : height.minFac = 31 := minFac_of_wellFormed hb hbh h16 hmin h
  obtain ⟨m, hm⟩ := Nat.minFac_dvd height
  have hm31 := minFac_le_cofactor hm (by omega)
  rw [h31] at hm hm31 hmin
  have hodd : height % 2 = 1 := by
    by_contra he
    have : height.minFac ≤ 2 := Nat.minFac_le_of_dvd (le_refl 2) (Nat.dvd_of_mod_eq_zero (by omega))
    omega
  -- backend 30 reaches the first bucket at steps `m - 30` and `2 * m - 30`
  obtain ⟨ha1, ha2, ha3⟩ := @step_of height backendCapacity (m - 30) 30 (by omega) (by omega)
  obtain ⟨hb1, hb2, hb3⟩ := @step_of height backendCapacity (2 * m - 30) 30 (by omega) (by omega)
  rw [permut_thirty hm ⟨1, by omega⟩ (by omega)] at ha3
  rw [permut_thirty hm ⟨2, by omega⟩ (by omega)] at hb3
  -- backend 1 reaches it once, later
  obtain ⟨hc1, hc2, hc3⟩ := @step_of height backendCapacity ((height - 31) / 2) 1 (by omega) (by omega)
  have hone : chtPermut height 1 ((height - 31) / 2) = 0 := by
    rw [chtPermut_eq (by omega), Nat.mod_add_mod, show 1 * 31 + (1 + 1) * ((height - 31) / 2) = height by omega,
      Nat.mod_self]
  rw [hone] at hc3
  set sa := (m - 30) * backendCapacity + 30 with hsa
  set sb := (2 * m - 30) * backendCapacity + 30 with hsb
  set sc := (height - 31) / 2 * backendCapacity + 1 with hsc
  have hab : sa < sb := by
    have := Nat.mul_lt_mul_of_pos_right (by omega : m - 30 < 2 * m - 30) hb
    omega
  have hbc : sb < sc := by
    have := Nat.mul_le_mul_right backendCapacity (by omega : 2 * m - 30 + 1 ≤ (height - 31) / 2)
    rw [Nat.succ_mul] at this
    omega
  -- the visits of the first bucket up to the one of backend 1, which is not visited before its only step
  obtain ⟨rest, hrest⟩ := visits_split hc1 hc3
  obtain ⟨q, hq, hq1⟩ := visit_of_first_row hb hh h16 hbh h (by omega : 1 < backendCapacity) one_ne_zero
  have hnotmem : 1 ∉ chtVisits height backendCapacity sc 0 := by
    intro hmem
    obtain ⟨s, hs, hs1⟩ := List.mem_map.mp hmem
    obtain ⟨hslt, hs0⟩ := mem_chtSteps.mp hs
    have := step_unique hb hbh (by omega) hc1
      (by rw [hs1]; exact (Nat.coprime_two_left).mpr (Nat.odd_iff.mpr hodd)) (hs1.trans hc2.symm)
      (hs0.trans hc3.symm)
    omega
  have hqlen : (chtVisits height backendCapacity sc 0).length ≤ q := by
    by_contra hlt
    rw [hrest, List.getElem?_append_left (by omega)] at hq1
    exact hnotmem (List.mem_of_getElem? hq1)
  -- so both visits of backend 30 are in the first row
  obtain ⟨ra, hra, hra1, hra2⟩ := visit_of_step (hab.trans hbc) ha3 hc1 hc3
  obtain ⟨rb, hrb, hrb1, hrb2⟩ := visit_of_step hbc hb3 hc1 hc3
  rw [ha2] at hra2
  rw [hb2] at hrb2
  have hr : ra = rb := visit_once hb hh h16 h (by omega) (by omega) hra2 hrb2
  rw [hr, hrb1, Option.some.injEq] at hra1
  omega

end Spill

/-- **When the consistent hash table is well formed.** For the heights and backend capacities that
`nf_init` lets through, `cht_alloc` writes inside its arrays and makes every row a permutation of the
backends exactly when there are fewer backends than the least prime factor of the height. -/
theorem chtAlloc_wellFormed_iff (height backendCapacity : ℕ) (hb : 0 < backendCapacity)
    (hbh : backendCapacity < height) (hmax : height < maxChtHeight) :
    ChtWellFormed height backendCapacity ↔ backendCapacity < height.minFac := by
  have h16 : height < 2 ^ 16 := by unfold maxChtHeight at hmax; omega
  constructor
  · intro h
    by_contra hmin
    exact not_wellFormed hb hbh h16 (by omega) h
  · intro hmin
    exact wellFormed_of_coprime hb hbh (fun i hi => coprime_of_lt_minFac (by omega)) h16

/-- The theorem at a height of 3 and two backends. -/
theorem chtAlloc_wellFormed_iff_three : ChtWellFormed 3 2 :=
  (chtAlloc_wellFormed_iff 3 2 (by decide) (by decide) (by decide)).mpr (by norm_num)

/-- A height of 4 and two backends: the second one only reaches the odd buckets, and the first row
lists the first one twice. -/
theorem chtAlloc_not_wellFormed : ¬ ChtWellFormed 4 2 := by
  intro h
  have hrow : (chtAlloc 4 2).row 0 = [0, 0] := by decide
  have := h.2 0 (by decide)
  rw [hrow] at this
  exact absurd this (by decide)

end Klint
