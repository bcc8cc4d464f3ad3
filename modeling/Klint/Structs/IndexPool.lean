/-
# The index pool

`index_pool` (`env/src/structs/index_pool.c`) hands out the indexes below a
size, each with the time it was last borrowed or refreshed. The array of
timestamps encodes a finite map from indexes to times: `TIME_MAX` says that
an index is free. `indexPoolBorrow` looks for a free or expired index in two
loops, from the last borrowed index to the end and from zero up to it.

Times and sizes are natural numbers: the only subtraction, `time -
expiration_time`, is guarded by `time >= expiration_time`.

Key definitions: `IndexPool.items`, `poolYoung`, `AbsPool.Run`.
Key theorems: `borrow_cases`, `indexPool_refines`.
-/
import Mathlib.Data.List.Basic
import Mathlib.Logic.Function.Basic
import Mathlib.Order.Basic
import Mathlib.Tactic

namespace Klint

/-- `TIME_MAX`, the time that never is. -/
def timeMax : ℕ := 2 ^ 64 - 1

/-- `pool_young`: a binding last refreshed at `v` has not expired at `time`. -/
def poolYoung (time expirationTime v : ℕ) : Prop :=
  time < expirationTime ∨ time - expirationTime ≤ v

instance (time expirationTime v : ℕ) : Decidable (poolYoung time expirationTime v) := by
  unfold poolYoung; infer_instance

/-- What is young at a time was young before it. -/
theorem poolYoung.anti_time {t t' e v : ℕ} (h : poolYoung t' e v) (ht : t ≤ t') : poolYoung t e v := by
  unfold poolYoung at *; omega

/-- A binding refreshed now is young now. -/
theorem poolYoung_self (t e : ℕ) : poolYoung t e t := by
  unfold poolYoung; omega

structure IndexPool where
  timestamps : List ℕ
  size : ℕ
  expirationTime : ℕ
  lastBorrowedIndex : ℕ
  deriving DecidableEq, Repr

namespace IndexPool

/-- `pool->timestamps[n]`. -/
def timestamp (pool : IndexPool) (n : ℕ) : ℕ := pool.timestamps.getD n timeMax

/-- `pool->timestamps[n] = time`. -/
def setTimestamp (pool : IndexPool) (n time : ℕ) : IndexPool :=
  { pool with timestamps := pool.timestamps.set n time }

/-- The loop of `index_pool_alloc`, from `n` down to 1. -/
def fill : ℕ → List ℕ → List ℕ
  | 0, ts => ts
  | n + 1, ts => fill n (ts.set n timeMax)

end IndexPool

def indexPoolAlloc (size expirationTime : ℕ) : IndexPool where
  timestamps := IndexPool.fill size (List.replicate size 0)
  size := size
  expirationTime := expirationTime
  lastBorrowedIndex := 0

/-- The body of both loops of `index_pool_borrow`, for the `k` indexes from
`n` on: the first one that is free (`false`) or expired (`true`). -/
def IndexPool.scan (pool : IndexPool) (time : ℕ) : ℕ → ℕ → Option (ℕ × Bool)
  | 0, _ => none
  | k + 1, n =>
    if pool.timestamp n = timeMax then some (n, false)
    else if pool.expirationTime ≤ time ∧ pool.timestamp n < time - pool.expirationTime then some (n, true)
    else scan pool time k (n + 1)

/-- `index_pool_borrow`: `some (out_index, out_used)` where the C function
returns true. -/
def indexPoolBorrow (pool : IndexPool) (time : ℕ) : Option (ℕ × Bool) × IndexPool :=
  match pool.scan time (pool.size - pool.lastBorrowedIndex) pool.lastBorrowedIndex with
  | some (n, used) => (some (n, used), { pool.setTimestamp n time with lastBorrowedIndex := n })
  | none =>
    match pool.scan time pool.lastBorrowedIndex 0 with
    | some (n, used) => (some (n, used), { pool.setTimestamp n time with lastBorrowedIndex := n })
    | none => (none, pool)

def indexPoolRefresh (pool : IndexPool) (time index : ℕ) : IndexPool :=
  pool.setTimestamp index time

def indexPoolUsed (pool : IndexPool) (time index : ℕ) : Bool :=
  if pool.size ≤ index then false
  else if pool.timestamp index = timeMax then false
  else if pool.expirationTime ≤ time ∧ pool.timestamp index < time - pool.expirationTime then false
  else true

def indexPoolReturn (pool : IndexPool) (index : ℕ) : IndexPool :=
  pool.setTimestamp index timeMax

namespace IndexPool

/-! ### The map the timestamps encode -/

/-- The finite map of the contracts: the time of each index that is not free. -/
def items (pool : IndexPool) (i : ℕ) : Option ℕ :=
  if i < pool.size ∧ pool.timestamp i ≠ timeMax then some (pool.timestamp i) else none

/-- `poolp`: the array has `size` timestamps and the last borrowed index is
within it. -/
structure Wf (pool : IndexPool) : Prop where
  length : pool.timestamps.length = pool.size
  last_le : pool.lastBorrowedIndex ≤ pool.size

/-- Index `i` can be handed out: it is free or its binding has expired. -/
def Available (pool : IndexPool) (time i : ℕ) : Prop :=
  ∀ t, pool.items i = some t → ¬ poolYoung time pool.expirationTime t

theorem fill_length : ∀ (n : ℕ) (ts : List ℕ), (fill n ts).length = ts.length
  | 0, _ => rfl
  | n + 1, ts => by rw [fill, fill_length n, List.length_set]

theorem fill_getD : ∀ (n : ℕ) (ts : List ℕ) (i : ℕ), n ≤ ts.length →
    (fill n ts).getD i timeMax = if i < n then timeMax else ts.getD i timeMax
  | 0, _, _, _ => by simp [fill]
  | n + 1, ts, i, h => by
    rw [fill, fill_getD n _ i (by rw [List.length_set]; omega)]
    by_cases hi : i = n
    · subst hi
      simp [List.getD_eq_getElem?_getD, List.getElem?_set_self (by omega : i < ts.length)]
    · rw [List.getD_eq_getElem?_getD, List.getElem?_set_ne (Ne.symm hi), ← List.getD_eq_getElem?_getD]
      have : i < n ↔ i < n + 1 := by omega
      simp only [this]

theorem alloc_wf (size e : ℕ) : (indexPoolAlloc size e).Wf where
  length := by simp [indexPoolAlloc, fill_length]
  last_le := Nat.zero_le _

theorem alloc_items (size e : ℕ) : (indexPoolAlloc size e).items = fun _ => none := by
  funext i
  have ht : (indexPoolAlloc size e).timestamp i = timeMax := by
    simp only [timestamp, indexPoolAlloc]
    rw [fill_getD _ _ _ (by simp)]
    split_ifs with h
    · rfl
    · simp [h]
  simp [items, ht]

/-! ### One write -/

@[simp] theorem setTimestamp_size (pool : IndexPool) (n t : ℕ) :
    (pool.setTimestamp n t).size = pool.size := rfl

@[simp] theorem setTimestamp_expirationTime (pool : IndexPool) (n t : ℕ) :
    (pool.setTimestamp n t).expirationTime = pool.expirationTime := rfl

@[simp] theorem setTimestamp_last (pool : IndexPool) (n t : ℕ) :
    (pool.setTimestamp n t).lastBorrowedIndex = pool.lastBorrowedIndex := rfl

/-- The map does not depend on where the next scan starts. -/
@[simp] theorem items_last (pool : IndexPool) (n : ℕ) :
    ({ pool with lastBorrowedIndex := n } : IndexPool).items = pool.items := rfl

theorem setTimestamp_wf {pool : IndexPool} (h : pool.Wf) (n t : ℕ) : (pool.setTimestamp n t).Wf where
  length := by simp [setTimestamp, h.length]
  last_le := h.last_le

theorem timestamp_setTimestamp {pool : IndexPool} (h : pool.Wf) {n : ℕ} (hn : n < pool.size) (t i : ℕ) :
    (pool.setTimestamp n t).timestamp i = if i = n then t else pool.timestamp i := by
  simp only [timestamp, setTimestamp, List.getD_eq_getElem?_getD]
  by_cases hi : i = n
  · subst hi; simp [List.getElem?_set_self (h.length ▸ hn)]
  · simp [List.getElem?_set_ne (Ne.symm hi), hi]

/-- A refresh leaves the timestamps alone exactly at the time stored. -/
theorem timestamps_setTimestamp_iff {pool : IndexPool} (h : pool.Wf) {n : ℕ} (hn : n < pool.size) (t : ℕ) :
    (pool.setTimestamp n t).timestamps = pool.timestamps ↔ pool.timestamp n = t := by
  have hlt : n < pool.timestamps.length := h.length ▸ hn
  have hget : pool.timestamp n = pool.timestamps[n] := by
    rw [timestamp, List.getD_eq_getElem?_getD, List.getElem?_eq_getElem hlt, Option.getD_some]
  rw [hget]
  constructor
  · intro he
    have hn' : (pool.timestamps.set n t)[n]? = pool.timestamps[n]? := congrArg (·[n]?) he
    rw [List.getElem?_set_self hlt, List.getElem?_eq_getElem hlt, Option.some.injEq] at hn'
    exact hn'.symm
  · rintro rfl
    exact List.set_getElem_self hlt

/-- A write binds its index and no other; `TIME_MAX` unbinds it. -/
theorem items_setTimestamp {pool : IndexPool} (h : pool.Wf) {n : ℕ} (hn : n < pool.size) (t : ℕ) :
    (pool.setTimestamp n t).items =
      Function.update pool.items n (if t = timeMax then none else some t) := by
  funext i
  simp only [items, setTimestamp_size, timestamp_setTimestamp h hn]
  by_cases hi : i = n
  · subst hi; by_cases ht : t = timeMax <;> simp [hn, ht]
  · simp [items, hi]

theorem items_lt {pool : IndexPool} {i t : ℕ} (h : pool.items i = some t) : i < pool.size := by
  unfold items at h; split_ifs at h with hc; exact hc.1

theorem items_eq_some {pool : IndexPool} {i t : ℕ} :
    pool.items i = some t ↔ i < pool.size ∧ pool.timestamp i ≠ timeMax ∧ pool.timestamp i = t := by
  unfold items; split_ifs with hc <;> simp_all

/-! ### The scan -/

/-- The two tests of the loop body, as one about the map. -/
theorem available_iff {pool : IndexPool} {time i : ℕ} (hi : i < pool.size) :
    pool.Available time i ↔ pool.timestamp i = timeMax ∨
      (pool.expirationTime ≤ time ∧ pool.timestamp i < time - pool.expirationTime) := by
  unfold Available poolYoung
  simp only [items_eq_some]
  by_cases hm : pool.timestamp i = timeMax
  · simp [hm]
  · simp only [hm, false_or]
    constructor
    · intro h; have := h _ ⟨hi, hm, rfl⟩; omega
    · rintro h t ⟨-, -, rfl⟩; omega

/-- What a scan answers, of an index among the scanned: free or expired. -/
theorem scan_some {pool : IndexPool} {time : ℕ} : ∀ {k n i : ℕ} {used : Bool}, n + k ≤ pool.size →
    pool.scan time k n = some (i, used) →
    n ≤ i ∧ i < n + k ∧ (used = false ∧ pool.items i = none ∨
      used = true ∧ ∃ t, pool.items i = some t ∧ ¬ poolYoung time pool.expirationTime t)
  | 0, _, _, _, _, h => by cases h
  | k + 1, n, i, used, hk, h => by
    rw [scan] at h
    split_ifs at h with h1 h2
    · simp only [Option.some.injEq, Prod.mk.injEq] at h
      obtain ⟨rfl, rfl⟩ := h
      exact ⟨le_refl _, by omega, .inl ⟨rfl, by simp [items, h1]⟩⟩
    · simp only [Option.some.injEq, Prod.mk.injEq] at h
      obtain ⟨rfl, rfl⟩ := h
      refine ⟨le_refl _, by omega, .inr ⟨rfl, pool.timestamp n, ?_, ?_⟩⟩
      · exact items_eq_some.mpr ⟨by omega, h1, rfl⟩
      · unfold poolYoung; omega
    · obtain ⟨h3, h4, h5⟩ := scan_some (by omega) h
      exact ⟨by omega, by omega, h5⟩

/-- A scan that finds nothing saw no available index. -/
theorem scan_none {pool : IndexPool} {time : ℕ} : ∀ {k n : ℕ}, n + k ≤ pool.size →
    pool.scan time k n = none → ∀ i, n ≤ i → i < n + k → ¬ pool.Available time i
  | 0, _, _, _, i, h1, h2 => by omega
  | k + 1, n, hk, h, i, h1, h2 => by
    rw [scan] at h
    split_ifs at h with h3 h4
    by_cases hi : i = n
    · subst hi
      rw [available_iff (by omega)]
      rintro (h5 | h5)
      · exact h3 h5
      · exact h4 h5
    · exact scan_none (by omega) h i (by omega) (by omega)

theorem scan_isSome {pool : IndexPool} {time k n : ℕ} (hk : n + k ≤ pool.size) :
    (pool.scan time k n).isSome ↔ ∃ i, n ≤ i ∧ i < n + k ∧ pool.Available time i := by
  rcases h : pool.scan time k n with _ | ⟨i, used⟩
  · simp only [Option.isSome_none, Bool.false_eq_true, false_iff, not_exists, not_and]
    exact scan_none hk h
  · simp only [Option.isSome_some, true_iff]
    obtain ⟨h1, h2, h3⟩ := scan_some hk h
    refine ⟨i, h1, h2, fun t ht => ?_⟩
    rcases h3 with ⟨-, h3⟩ | ⟨-, t', h3, h4⟩
    · rw [h3] at ht; cases ht
    · rw [h3] at ht; cases ht; exact h4

/-! ### The operations -/

/-- What borrowing does: it binds an available index to the current time and
says whether it was expired, or nothing is available and nothing changes. -/
theorem borrow_cases {pool : IndexPool} (h : pool.Wf) {time : ℕ} (ht : time ≠ timeMax) :
    (∃ i used pool', indexPoolBorrow pool time = (some (i, used), pool') ∧ i < pool.size ∧
      (used = false ∧ pool.items i = none ∨
        used = true ∧ ∃ t, pool.items i = some t ∧ ¬ poolYoung time pool.expirationTime t) ∧
      pool'.items = Function.update pool.items i (some time) ∧
      pool'.size = pool.size ∧ pool'.expirationTime = pool.expirationTime ∧ pool'.Wf) ∨
    (indexPoolBorrow pool time = (none, pool) ∧ ∀ i, i < pool.size → ¬ pool.Available time i) := by
  have hl := h.last_le
  -- both loops bind the index they stop at in the same way
  have found : ∀ i used, i < pool.size → (used = false ∧ pool.items i = none ∨
      used = true ∧ ∃ t, pool.items i = some t ∧ ¬ poolYoung time pool.expirationTime t) →
      indexPoolBorrow pool time = (some (i, used), { pool.setTimestamp i time with lastBorrowedIndex := i }) →
      ∃ i used pool', indexPoolBorrow pool time = (some (i, used), pool') ∧ i < pool.size ∧
        (used = false ∧ pool.items i = none ∨
          used = true ∧ ∃ t, pool.items i = some t ∧ ¬ poolYoung time pool.expirationTime t) ∧
        pool'.items = Function.update pool.items i (some time) ∧
        pool'.size = pool.size ∧ pool'.expirationTime = pool.expirationTime ∧ pool'.Wf := by
    intro i used hi hu he
    refine ⟨i, used, _, he, hi, hu, ?_, rfl, rfl, ⟨(setTimestamp_wf h i time).length, Nat.le_of_lt hi⟩⟩
    rw [items_last, items_setTimestamp h hi, if_neg ht]
  rcases h1 : pool.scan time (pool.size - pool.lastBorrowedIndex) pool.lastBorrowedIndex with _ | ⟨i, used⟩
  · rcases h2 : pool.scan time pool.lastBorrowedIndex 0 with _ | ⟨i, used⟩
    · refine .inr ⟨by simp only [indexPoolBorrow, h1, h2], fun i hi => ?_⟩
      -- every index is before the split point or not
      rcases Nat.lt_or_ge i pool.lastBorrowedIndex with hlt | hge
      · exact scan_none (by omega) h2 i (Nat.zero_le _) (by omega)
      · exact scan_none (by omega) h1 i hge (by omega)
    · obtain ⟨-, hi, hu⟩ := scan_some (by omega) h2
      exact .inl (found i used (by omega) hu (by simp only [indexPoolBorrow, h1, h2]))
  · obtain ⟨-, hi, hu⟩ := scan_some (by omega) h1
    exact .inl (found i used (by omega) hu (by simp only [indexPoolBorrow, h1]))

/-- The rotated scan succeeds exactly when a scan of the whole array does. -/
theorem borrow_isSome_eq_scan {pool : IndexPool} (h : pool.Wf) {time : ℕ} (ht : time ≠ timeMax) :
    (indexPoolBorrow pool time).1.isSome = (pool.scan time pool.size 0).isSome := by
  rw [Bool.eq_iff_iff, scan_isSome (by omega)]
  rcases borrow_cases h ht with ⟨i, used, pool', he, hi, hu, -⟩ | ⟨he, hn⟩
  · rw [he]
    simp only [Option.isSome_some, true_iff]
    refine ⟨i, Nat.zero_le _, by omega, fun t h' => ?_⟩
    rcases hu with ⟨-, hu⟩ | ⟨-, t', hu, hy⟩
    · rw [hu] at h'; cases h'
    · rw [hu] at h'; cases h'; exact hy
  · rw [he]
    simp only [Option.isSome_none, Bool.false_eq_true, false_iff, not_exists, not_and]
    exact fun i _ hi => hn i (by omega)

/-- A borrow starts at the last borrowed index. -/
theorem borrow_at_last {pool : IndexPool} {time : ℕ} (hl : pool.lastBorrowedIndex < pool.size)
    (ha : pool.Available time pool.lastBorrowedIndex) :
    (indexPoolBorrow pool time).1.map Prod.fst = some pool.lastBorrowedIndex := by
  obtain ⟨k, hk⟩ : ∃ k, pool.size - pool.lastBorrowedIndex = k + 1 := ⟨_, (Nat.succ_pred (by omega)).symm⟩
  rw [available_iff hl] at ha
  have hscan : ∃ used, pool.scan time (k + 1) pool.lastBorrowedIndex = some (pool.lastBorrowedIndex, used) := by
    rw [scan]
    split_ifs with h1 h2
    · exact ⟨_, rfl⟩
    · exact ⟨_, rfl⟩
    · exact absurd ha (not_or.mpr ⟨h1, h2⟩)
  obtain ⟨used, hscan⟩ := hscan
  rw [indexPoolBorrow, hk, hscan]
  rfl

/-- A borrow leaves its index as the last borrowed one. -/
theorem borrow_last {pool pool' : IndexPool} {time i : ℕ} {used : Bool}
    (h : indexPoolBorrow pool time = (some (i, used), pool')) : pool'.lastBorrowedIndex = i := by
  unfold indexPoolBorrow at h
  split at h
  · cases h; rfl
  · split at h
    · cases h; rfl
    · cases h

theorem refresh_items {pool : IndexPool} (h : pool.Wf) {time i : ℕ} (ht : time ≠ timeMax)
    (hi : i < pool.size) :
    (indexPoolRefresh pool time i).items = Function.update pool.items i (some time) := by
  rw [indexPoolRefresh, items_setTimestamp h hi, if_neg ht]

theorem return_items {pool : IndexPool} (h : pool.Wf) {i : ℕ} (hi : i < pool.size) :
    (indexPoolReturn pool i).items = Function.update pool.items i none := by
  rw [indexPoolReturn, items_setTimestamp h hi, if_pos rfl]

/-- An index is used if it is bound and its binding is young. -/
theorem used_iff (pool : IndexPool) (time i : ℕ) :
    indexPoolUsed pool time i = true ↔
      ∃ t, pool.items i = some t ∧ poolYoung time pool.expirationTime t := by
  unfold indexPoolUsed poolYoung
  simp only [items_eq_some]
  split_ifs with h1 h2 h3
  · simp only [false_iff, not_exists, not_and]
    rintro t ⟨h, -⟩; omega
  · simp [h2]
  · simp only [false_iff, not_exists, not_and]
    rintro t ⟨-, -, rfl⟩; omega
  · simp only [true_iff]
    exact ⟨_, ⟨by omega, h2, rfl⟩, by omega⟩

end IndexPool

/-! ### The pool as a finite map from indexes to times -/

/-- A call on a pool. -/
inductive PoolOp where
  | borrow (time : ℕ)
  | refresh (time index : ℕ)
  | used (time index : ℕ)
  | ret (index : ℕ)

/-- What a call answers. -/
inductive PoolOut where
  | borrowed (out : Option (ℕ × Bool))
  | isUsed (b : Bool)
  | done
  deriving DecidableEq

/-- The preconditions of the contracts, for a pool of the given size. -/
def PoolOp.Pre (size : ℕ) : PoolOp → Prop
  | .borrow time => time ≠ timeMax
  | .refresh time index => time ≠ timeMax ∧ index < size
  | .used time _ => time ≠ timeMax
  | .ret index => index < size

instance (size : ℕ) (op : PoolOp) : Decidable (op.Pre size) := by
  cases op <;> unfold PoolOp.Pre <;> infer_instance

def IndexPool.exec (pool : IndexPool) : PoolOp → IndexPool × PoolOut
  | .borrow time => ((indexPoolBorrow pool time).2, .borrowed (indexPoolBorrow pool time).1)
  | .refresh time index => (indexPoolRefresh pool time index, .done)
  | .used time index => (pool, .isUsed (indexPoolUsed pool time index))
  | .ret index => (indexPoolReturn pool index, .done)

/-- The pool after a sequence of calls, with their answers. -/
def IndexPool.execAll (pool : IndexPool) : List PoolOp → IndexPool × List PoolOut
  | [] => (pool, [])
  | op :: ops =>
    (((pool.exec op).1.execAll ops).1, (pool.exec op).2 :: ((pool.exec op).1.execAll ops).2)

namespace AbsPool

/-- An index the abstract pool can hand out. -/
def Free (size e : ℕ) (m : ℕ → Option ℕ) (time i : ℕ) : Prop :=
  i < size ∧ ∀ t, m i = some t → ¬ poolYoung time e t

/-- A call on the finite map `m` from the indexes below `size` to times. -/
inductive Step (size e : ℕ) : (ℕ → Option ℕ) → PoolOp → PoolOut → (ℕ → Option ℕ) → Prop where
  | borrowFree {m : ℕ → Option ℕ} {time i : ℕ} (hi : i < size) (h : m i = none) :
      Step size e m (.borrow time) (.borrowed (some (i, false))) (Function.update m i (some time))
  | borrowExpired {m : ℕ → Option ℕ} {time i t : ℕ} (hi : i < size) (h : m i = some t)
      (hy : ¬ poolYoung time e t) :
      Step size e m (.borrow time) (.borrowed (some (i, true))) (Function.update m i (some time))
  | borrowFail {m : ℕ → Option ℕ} {time : ℕ} (h : ∀ i, ¬ Free size e m time i) :
      Step size e m (.borrow time) (.borrowed none) m
  | refresh {m : ℕ → Option ℕ} {time i : ℕ} :
      Step size e m (.refresh time i) .done (Function.update m i (some time))
  | used {m : ℕ → Option ℕ} {time i : ℕ} {b : Bool} (h : b = true ↔ ∃ t, m i = some t ∧ poolYoung time e t) :
      Step size e m (.used time i) (.isUsed b) m
  | ret {m : ℕ → Option ℕ} {i : ℕ} : Step size e m (.ret i) .done (Function.update m i none)

/-- A run of the abstract pool. -/
inductive Run (size e : ℕ) : (ℕ → Option ℕ) → List PoolOp → List PoolOut → (ℕ → Option ℕ) → Prop where
  | nil {m : ℕ → Option ℕ} : Run size e m [] [] m
  | cons {m m' m'' : ℕ → Option ℕ} {op : PoolOp} {ops : List PoolOp} {out : PoolOut} {outs : List PoolOut}
      (hs : Step size e m op out m') (hr : Run size e m' ops outs m'') :
      Run size e m (op :: ops) (out :: outs) m''

end AbsPool

namespace IndexPool

/-- One call keeps the pool well formed and is a call on the map it encodes. -/
theorem exec_step {pool : IndexPool} (h : pool.Wf) {op : PoolOp} (hop : op.Pre pool.size) :
    AbsPool.Step pool.size pool.expirationTime pool.items op (pool.exec op).2 (pool.exec op).1.items ∧
      (pool.exec op).1.Wf ∧ (pool.exec op).1.size = pool.size ∧
      (pool.exec op).1.expirationTime = pool.expirationTime := by
  cases op with
  | borrow time =>
    rcases borrow_cases h hop with ⟨i, used, pool', he, hi, hu, hit, hs, hx, hw⟩ | ⟨he, hn⟩
    · simp only [exec, he]
      refine ⟨?_, hw, hs, hx⟩
      rw [hit]
      rcases hu with ⟨rfl, hu⟩ | ⟨rfl, t, hu, hy⟩
      · exact .borrowFree hi hu
      · exact .borrowExpired hi hu hy
    · simp only [exec, he]
      exact ⟨.borrowFail fun i hf => hn i hf.1 hf.2, h, trivial, trivial⟩
  | refresh time index =>
    refine ⟨?_, setTimestamp_wf h _ _, rfl, rfl⟩
    rw [exec, refresh_items h hop.1 hop.2]
    exact .refresh
  | used time index => exact ⟨.used (used_iff pool time index), h, rfl, rfl⟩
  | ret index =>
    refine ⟨?_, setTimestamp_wf h _ _, rfl, rfl⟩
    rw [exec, return_items h hop]
    exact .ret

theorem execAll_run : ∀ (ops : List PoolOp) {pool : IndexPool}, pool.Wf →
    (∀ op ∈ ops, op.Pre pool.size) →
    AbsPool.Run pool.size pool.expirationTime pool.items ops (pool.execAll ops).2 (pool.execAll ops).1.items ∧
      (pool.execAll ops).1.Wf ∧ (pool.execAll ops).1.size = pool.size
  | [], _, h, _ => ⟨.nil, h, rfl⟩
  | op :: ops, pool, h, hops => by
    obtain ⟨h1, h2, h3, h4⟩ := exec_step h (hops op List.mem_cons_self)
    have ih := execAll_run ops h2 fun o ho => h3.symm ▸ hops o (List.mem_cons_of_mem _ ho)
    rw [h3, h4] at ih
    exact ⟨.cons h1 ih.1, ih.2.1, ih.2.2⟩

/-- **The index pool refines a finite map from indexes to times.** Every
sequence of calls from `index_pool_alloc` is a run of the abstract pool from
the empty map, with the same answers; and at its end a borrow succeeds
exactly when a scan of the whole array finds an index. -/
theorem indexPool_refines (size e : ℕ) (ops : List PoolOp) (hops : ∀ op ∈ ops, op.Pre size) :
    AbsPool.Run size e (fun _ => none) ops ((indexPoolAlloc size e).execAll ops).2
        ((indexPoolAlloc size e).execAll ops).1.items ∧
      ∀ time, time ≠ timeMax →
        (indexPoolBorrow ((indexPoolAlloc size e).execAll ops).1 time).1.isSome =
          (((indexPoolAlloc size e).execAll ops).1.scan time size 0).isSome := by
  obtain ⟨h1, h2, h3⟩ := execAll_run ops (alloc_wf size e) hops
  rw [alloc_items] at h1
  refine ⟨h1, fun time ht => ?_⟩
  rw [borrow_isSome_eq_scan h2 ht, h3]
  rfl

/-- The theorem at a pool of one index: it is borrowed, found expired and
borrowed again, and found taken. -/
theorem indexPool_refines_one :
    AbsPool.Run 1 5 (fun _ => none) [.borrow 0, .used 7 0, .borrow 7, .borrow 8]
        [.borrowed (some (0, false)), .isUsed false, .borrowed (some (0, true)), .borrowed none]
        ((indexPoolAlloc 1 5).execAll [.borrow 0, .used 7 0, .borrow 7, .borrow 8]).1.items :=
  (indexPool_refines 1 5 [.borrow 0, .used 7 0, .borrow 7, .borrow 8] (by decide)).1

end IndexPool
end Klint
