/-
# The table of keys is an expiring set

A `KeyedPool` represents the expiring set of the times its keys were last
refreshed (`KeyedPool.Refines`): refreshing the index of a key and inserting
a key are both `touch`, and a key is live exactly when it is found at an
index in use. The network functions over flows take their steps with these.
-/
import Klint.Lib.ExpiringSet
import Klint.Structs.KeyedPool

namespace Klint

open ExpiringSet

/-- A refresh at `r` has not expired at `t`. -/
abbrev young (expirationTime : ℕ) : ℕ → ℕ → Prop := fun t r => poolYoung t expirationTime r

namespace KeyedPool

variable {K : Type} [Inhabited K] [DecidableEq K]

/-- The table, within its invariant, and the set it represents at a time. -/
structure Refines (hash : K → UInt32) (expirationTime maxKeys now : ℕ) (last : K → Option ℕ)
    (t : KeyedPool K) : Prop where
  inv : t.Inv hash maxKeys
  expiration : t.pool.expirationTime = expirationTime
  represents : Represents (young expirationTime) maxKeys t.pool.items t.key now last

omit [DecidableEq K] in
/-- A new table is the empty set. -/
theorem alloc_refines (hash : K → UInt32) (keySize e : ℕ) {capacity : ℕ} (hc : capacity * 64 ≤ sizeMax) :
    ∃ t, keyedPoolAlloc K keySize capacity e = some t ∧ t.Refines hash e capacity 0 fun _ => none := by
  obtain ⟨t, ht, hinv, hitems, hx⟩ := keyedPoolAlloc_inv (K := K) keySize e hc
  exact ⟨t, ht, hinv hash, hx, by rw [hitems]; exact represents_empty capacity t.key 0⟩

namespace Refines

variable {hash : K → UInt32} {E n now : ℕ} {last : K → Option ℕ} {t : KeyedPool K}

omit [DecidableEq K] in
theorem later (h : t.Refines hash E n now last) {time : ℕ} (hle : now ≤ time) : t.Refines hash E n time last where
  inv := h.inv
  expiration := h.expiration
  represents := h.represents.later fun _ hr => hr.anti_time hle

/-- A key is live when its index is used. -/
theorem live_iff (h : t.Refines hash E n now last) (k : K) :
    Live (young E) last now k ↔ ∃ i, t.find hash k = some i ∧ indexPoolUsed t.pool now i = true := by
  rw [h.represents.live_iff]
  constructor
  · rintro ⟨i, r, hi, hk, hy⟩
    exact ⟨i, h.inv.find_iff.mpr ⟨⟨r, hi⟩, hk⟩,
      (IndexPool.used_iff _ _ _).mpr ⟨r, hi, by rw [h.expiration]; exact hy⟩⟩
  · rintro ⟨i, hi, hu⟩
    obtain ⟨r, hr, hy⟩ := (IndexPool.used_iff _ _ _).mp hu
    exact ⟨i, r, hr, (h.inv.find_iff.mp hi).2, by rw [h.expiration] at hy; exact hy⟩

omit [DecidableEq K] in
/-- Refreshing an index in use refreshes its key. -/
theorem refresh_index (h : t.Refines hash E n now last) (ht : now ≠ timeMax) {index r : ℕ}
    (hi : t.pool.items index = some r) :
    RefreshPre t.pool now index ∧ ¬ Full (young E) n last now (t.key index) ∧
      (t.refresh now index).Refines hash E n now (touch (young E) n last now (t.key index)) := by
  classical
  obtain ⟨hinv, hitems⟩ := h.inv.refresh ht (by rw [hi]; rfl)
  obtain ⟨hnf, hrep⟩ := touch_refresh h.represents hi
  rw [← hitems] at hrep
  exact ⟨⟨ht, IndexPool.items_lt hi⟩, hnf, hinv, h.expiration, hrep⟩

/-- Refreshing the index of a key that is found, live or not. -/
theorem refresh_found (h : t.Refines hash E n now last) (ht : now ≠ timeMax) {k : K} {index : ℕ}
    (hf : t.find hash k = some index) :
    RefreshPre t.pool now index ∧ ¬ Full (young E) n last now k ∧
      (t.refresh now index).Refines hash E n now (touch (young E) n last now k) := by
  obtain ⟨⟨r, hr⟩, rfl⟩ := h.inv.find_iff.mp hf
  exact h.refresh_index ht hr

/-- Inserting a key that is not found: it takes an index unless the set is
full. -/
theorem insert_absent (h : t.Refines hash E n now last) (ht : now ≠ timeMax) {k : K}
    (hf : t.find hash k = none) :
    InsertPre hash n t now k ∧
      (t.insert hash now k).2.Refines hash E n now (touch (young E) n last now k) ∧
      ((∃ i, (t.insert hash now k).1 = some i ∧ i < n ∧ (∀ r, t.pool.items i = some r → ¬ poolYoung now E r) ∧
          (t.insert hash now k).2.pool.items = Function.update t.pool.items i (some now) ∧
          (t.insert hash now k).2.key = Function.update t.key i k ∧ ¬ Full (young E) n last now k) ∨
        (t.insert hash now k = (none, t) ∧ Full (young E) n last now k)) := by
  have habs := h.inv.find_none.mp hf
  refine ⟨h.inv.insertPre ht hf, ?_⟩
  rcases h.inv.insert_cases ht hf with ⟨i, t', he, hi, hfree, hinv, hitems, hkey, hx⟩ | ⟨he, hall⟩
  · rw [h.expiration] at hfree
    obtain ⟨hnf, hrep⟩ := touch_insert h.represents hi hfree habs
    rw [← hitems, ← hkey] at hrep
    rw [he]
    exact ⟨⟨hinv, hx.trans h.expiration, hrep⟩, .inl ⟨i, rfl, hi, hfree, hitems, hkey, hnf⟩⟩
  · rw [h.expiration] at hall
    obtain ⟨hfull, htouch⟩ := touch_full h.represents hall habs
    rw [he, htouch]
    exact ⟨h, .inr ⟨rfl, hfull⟩⟩

end Refines

end KeyedPool
end Klint
