/-
# The allocator

`os_memory_alloc` (`env/src/os/memory_alloc.c`) hands out blocks of the
`OS_MEMORY_SIZE` bytes at `memory`, one after the other, and halts when there is
no room. Pointers and sizes are of 64 bits and wrap.

`osMemoryAlloc_cases`: in every state that can be reached the call is a step of
`Bump`, in unbounded arithmetic, so nothing wraps. `allocs_placed` carries this over
whole runs.
-/
import Klint.Lib.Bump
import Klint.Os.Memory

namespace Klint

open Bump (alignUp)

/-- `OS_MEMORY_SIZE`. -/
def osMemorySize : ℕ := 256 * 1024 * 1024

/-- `CACHE_LINE_SIZE`. -/
def cacheLineSize : ℕ := 64

/-- `os_memory_alloc`, with `memory_used_len` before and after; `none` where it
halts. -/
def osMemoryAlloc (memory memoryUsedLen count size : ℕ) : Option ℕ × ℕ :=
  let fullSize := size * count % 2 ^ 64
  let targetAddr := (memory + memoryUsedLen) % 2 ^ 64
  if sub64 sizeMax cacheLineSize < size then (none, memoryUsedLen)  -- "Object is too big to be alignable"
  else
    let alignDiv := sub64 ((size + cacheLineSize) % 2 ^ 64) (size % cacheLineSize)
    let alignDiff := targetAddr % alignDiv
    let alignPadding := if alignDiff = 0 then 0 else sub64 alignDiv alignDiff
    if sub64 osMemorySize memoryUsedLen < alignPadding then (none, memoryUsedLen)  -- "Not enough memory left to align"
    else
      let alignedAddr := (targetAddr + alignPadding) % 2 ^ 64
      let memoryUsedLen := (memoryUsedLen + alignPadding) % 2 ^ 64
      if sub64 osMemorySize memoryUsedLen < fullSize then
        (none, memoryUsedLen)  -- "Not enough memory left to allocate"
      else (some alignedAddr, (memoryUsedLen + fullSize) % 2 ^ 64)

/-- A call. -/
structure AllocRequest where
  count : UInt64
  size : UInt64

/-- "requires count * size <= SIZE_MAX". -/
def AllocRequest.Pre (r : AllocRequest) : Prop := r.count.toNat * r.size.toNat ≤ sizeMax

/-- The blocks that a sequence of calls returns, until one halts, and
`memory_used_len` after them. -/
def osMemoryAllocs (memory : ℕ) : ℕ → List AllocRequest → List Bump.Block × ℕ
  | used, [] => ([], used)
  | used, r :: rs =>
    match osMemoryAlloc memory used r.count.toNat r.size.toNat with
    | (none, used) => ([], used)
    | (some addr, used) =>
      (⟨addr, r.count.toNat * r.size.toNat⟩ :: (osMemoryAllocs memory used rs).1, (osMemoryAllocs memory used rs).2)

/-! ### One call -/

/-- What a block's address is a multiple of: "aligned to the length rounded up to
the cache line size". -/
def alignDiv (size : ℕ) : ℕ := size + cacheLineSize - size % cacheLineSize

/-- The block that a call asks for. -/
def bumpRequest (count size : ℕ) : Bump.Request := ⟨alignDiv size, size * count % 2 ^ 64⟩

/-- The request fits into what is left, in unbounded arithmetic. -/
def Fits (memory used count size : ℕ) : Prop :=
  size + cacheLineSize ≤ sizeMax ∧ (bumpRequest count size).finish (memory + used) ≤ memory + osMemorySize

instance (memory used count size : ℕ) : Decidable (Fits memory used count size) := by
  unfold Fits; infer_instance

theorem alignDiv_pos (size : ℕ) : 0 < alignDiv size := by
  unfold alignDiv cacheLineSize
  omega

/-- A call that fits is a step of the bump allocator; one that does not halts. -/
theorem osMemoryAlloc_cases {memory used : ℕ} (hmem : memory + osMemorySize ≤ sizeMax) (hused : used ≤ osMemorySize)
    (count size : ℕ) :
    ∃ used', used ≤ used' ∧ used' ≤ osMemorySize ∧
      (Fits memory used count size ∧
          osMemoryAlloc memory used count size = (some (alignUp (memory + used) (alignDiv size)), used') ∧
          memory + used' = (bumpRequest count size).finish (memory + used) ∨
        ¬ Fits memory used count size ∧ osMemoryAlloc memory used count size = (none, used')) := by
  have hlt : ∀ x, x ≤ sizeMax → x % 2 ^ 64 = x := fun x hx => Nat.mod_eq_of_lt (by unfold sizeMax at hx; omega)
  have hosz : osMemorySize ≤ sizeMax := by decide
  have hline : cacheLineSize ≤ sizeMax := by decide
  have hsub : ∀ a b, b ≤ a → a ≤ sizeMax → sub64 a b = a - b := fun a b h ha =>
    sub64_of_le h (by unfold sizeMax at ha; omega)
  unfold osMemoryAlloc
  simp only [hsub sizeMax cacheLineSize hline le_rfl]
  by_cases hbig : sizeMax - cacheLineSize < size
  · rw [if_pos hbig]
    exact ⟨used, le_rfl, hused, .inr ⟨fun h => by have := h.1; omega, rfl⟩⟩
  · have hdle : alignDiv size ≤ sizeMax := by
      unfold alignDiv
      omega
    have hdiv : sub64 ((size + cacheLineSize) % 2 ^ 64) (size % cacheLineSize) = alignDiv size := by
      have hmod : size % cacheLineSize ≤ size := Nat.mod_le _ _
      rw [hlt (size + cacheLineSize) (by omega), hsub _ _ (by omega) (by omega), alignDiv]
    rw [if_neg hbig, hdiv, hlt (memory + used) (by omega)]
    -- the padding is the way to the next multiple
    have hpad : (if (memory + used) % alignDiv size = 0 then 0
        else sub64 (alignDiv size) ((memory + used) % alignDiv size)) =
        alignUp (memory + used) (alignDiv size) - (memory + used) := by
      have hmod := Nat.mod_lt (memory + used) (alignDiv_pos size)
      unfold alignUp
      split_ifs with h0
      · omega
      · rw [hsub _ _ hmod.le hdle]
        omega
    have hle := Bump.le_alignUp (memory + used) (alignDiv size)
    have hfits : Fits memory used count size ↔
        alignUp (memory + used) (alignDiv size) + size * count % 2 ^ 64 ≤ memory + osMemorySize :=
      and_iff_right (by omega)
    simp only [hpad, hfits, bumpRequest, Bump.Request.finish]
    generalize alignUp (memory + used) (alignDiv size) = aligned at hle ⊢
    generalize size * count % 2 ^ 64 = fullSize
    rw [hsub osMemorySize used hused hosz]
    by_cases halign : osMemorySize - used < aligned - (memory + used)
    · rw [if_pos halign]
      exact ⟨used, le_rfl, hused, .inr ⟨by omega, rfl⟩⟩
    · rw [if_neg halign, hlt (used + (aligned - (memory + used))) (by omega), hsub osMemorySize _ (by omega) hosz]
      by_cases hroom : osMemorySize - (used + (aligned - (memory + used))) < fullSize
      · rw [if_pos hroom]
        exact ⟨_, Nat.le_add_right _ _, by omega, .inr ⟨by omega, rfl⟩⟩
      · rw [if_neg hroom, hlt (memory + used + (aligned - (memory + used))) (by omega),
          hlt (used + (aligned - (memory + used)) + fullSize) (by omega)]
        refine ⟨_, by omega, by omega, .inl ⟨by omega, Prod.ext (congrArg some ?_) rfl, by omega⟩⟩
        omega

/-! ### Runs of calls -/

variable {memory used : ℕ}

/-- The block is as long as the contract says. -/
theorem AllocRequest.Pre.length {r : AllocRequest} (h : r.Pre) :
    (bumpRequest r.count.toNat r.size.toNat).length = r.count.toNat * r.size.toNat := by
  unfold AllocRequest.Pre sizeMax at h
  rw [bumpRequest, Nat.mul_comm, Nat.mod_eq_of_lt (by omega)]

def AllocRequest.bump (r : AllocRequest) : Bump.Request := bumpRequest r.count.toNat r.size.toNat

/-- A run places the blocks of its first calls one after the other, within the memory. -/
theorem allocs_placed (hmem : memory + osMemorySize ≤ sizeMax) : ∀ {rs : List AllocRequest} {used : ℕ},
    used ≤ osMemorySize → (∀ r ∈ rs, r.Pre) →
    ∃ k, (osMemoryAllocs memory used rs).1 = Bump.place (memory + used) ((rs.take k).map AllocRequest.bump) ∧
      Bump.finish (memory + used) ((rs.take k).map AllocRequest.bump) ≤ memory + osMemorySize
  | [], used, hused, _ => ⟨0, rfl, Nat.add_le_add_left hused memory⟩
  | r :: rs, used, hused, hpre => by
    unfold osMemoryAllocs
    obtain ⟨used', -, hle, ⟨-, he, hfinish⟩ | ⟨-, he⟩⟩ := osMemoryAlloc_cases hmem hused r.count.toNat r.size.toNat
    · obtain ⟨k, hplace, hend⟩ := allocs_placed hmem hle fun r' hr' => hpre r' (List.mem_cons_of_mem _ hr')
      rw [hfinish] at hplace hend
      rw [he]
      refine ⟨k + 1, ?_, hend⟩
      rw [← (hpre r List.mem_cons_self).length]
      exact congrArg (List.cons _) hplace
    · rw [he]
      exact ⟨0, rfl, Nat.add_le_add_left hused memory⟩

/-- `memory_used_len` stays in the memory and does not decrease. -/
theorem allocs_used (hmem : memory + osMemorySize ≤ sizeMax) : ∀ (rs : List AllocRequest) {used : ℕ},
    used ≤ osMemorySize → used ≤ (osMemoryAllocs memory used rs).2 ∧ (osMemoryAllocs memory used rs).2 ≤ osMemorySize
  | [], _, hused => ⟨le_rfl, hused⟩
  | r :: rs, used, hused => by
    unfold osMemoryAllocs
    obtain ⟨used', hge, hle, ⟨-, he, -⟩ | ⟨-, he⟩⟩ := osMemoryAlloc_cases hmem hused r.count.toNat r.size.toNat
    · rw [he]
      obtain ⟨hge', hle'⟩ := allocs_used hmem rs hle
      exact ⟨hge.trans hge', hle'⟩
    · rw [he]
      exact ⟨hge, hle⟩

theorem allocs_used_append (hmem : memory + osMemorySize ≤ sizeMax) : ∀ (rs ts : List AllocRequest) {used : ℕ},
    used ≤ osMemorySize → (osMemoryAllocs memory used rs).2 ≤ (osMemoryAllocs memory used (rs ++ ts)).2
  | [], ts, _, hused => (allocs_used hmem ts hused).1
  | r :: rs, ts, used, hused => by
    rw [List.cons_append]
    unfold osMemoryAllocs
    obtain ⟨used', -, hle, ⟨-, he, -⟩ | ⟨-, he⟩⟩ := osMemoryAlloc_cases hmem hused r.count.toNat r.size.toNat
    · rw [he]
      exact allocs_used_append hmem rs ts hle
    · rw [he]

/-- **The allocator over whole runs.** For every sequence of calls that meet the contract: each block is the one its
call asked for, in the memory, at a multiple of `alignDiv`; it ends before the later ones start; `memory_used_len`
does not decrease and stays in the memory; and a further call returns a block exactly when it fits, in unbounded
arithmetic. -/
theorem osMemoryAllocs_run (memory : ℕ) (hmem : memory + osMemorySize ≤ sizeMax) (rs : List AllocRequest)
    (hpre : ∀ r ∈ rs, r.Pre) :
    (∀ (i : ℕ) b, (osMemoryAllocs memory 0 rs).1[i]? = some b →
      memory ≤ b.start ∧ b.stop ≤ memory + osMemorySize ∧ ∃ r, rs[i]? = some r ∧
        b.length = r.count.toNat * r.size.toNat ∧ alignDiv r.size.toNat ∣ b.start) ∧
    (osMemoryAllocs memory 0 rs).1.Pairwise (fun b c => b.stop ≤ c.start) ∧
    (∀ ts us, rs = ts ++ us → (osMemoryAllocs memory 0 ts).2 ≤ (osMemoryAllocs memory 0 rs).2) ∧
    (osMemoryAllocs memory 0 rs).2 ≤ osMemorySize ∧
    ∀ r : AllocRequest, r.Pre →
      ((osMemoryAlloc memory (osMemoryAllocs memory 0 rs).2 r.count.toNat r.size.toNat).1.isSome ↔
        r.size.toNat + cacheLineSize ≤ sizeMax ∧
          alignUp (memory + (osMemoryAllocs memory 0 rs).2) (alignDiv r.size.toNat) + r.count.toNat * r.size.toNat ≤
            memory + osMemorySize) := by
  obtain ⟨k, hplace, hfinish⟩ := allocs_placed hmem (Nat.zero_le _) hpre
  have hused := (allocs_used hmem rs (Nat.zero_le _)).2
  refine ⟨fun i b hb => ?_, ?_, ?_, hused, fun r hr => ?_⟩
  · rw [hplace] at hb
    obtain ⟨hstart, hstop⟩ := Bump.mem_place (List.mem_of_getElem? hb)
    have hpos : ∀ q ∈ (rs.take k).map AllocRequest.bump, 0 < q.alignment := fun q hq => by
      obtain ⟨r, -, rfl⟩ := List.mem_map.mp hq
      exact alignDiv_pos _
    obtain ⟨q, hq, hdvd, hlength⟩ := Bump.getElem?_place hpos hb
    rw [List.getElem?_map, Option.map_eq_some_iff] at hq
    obtain ⟨r, hr, rfl⟩ := hq
    have hri : rs[i]? = some r := by
      rw [List.getElem?_take] at hr
      split_ifs at hr
      exact hr
    exact ⟨hstart, hstop.trans hfinish, r, hri, hlength.trans (hpre r (List.mem_of_getElem? hri)).length, hdvd⟩
  · rw [hplace]
    exact Bump.place_pairwise _ _
  · rintro ts us rfl
    exact allocs_used_append hmem ts us (Nat.zero_le _)
  · rw [← hr.length]
    obtain ⟨used', -, -, ⟨hfit, he, -⟩ | ⟨hfit, he⟩⟩ := osMemoryAlloc_cases hmem hused r.count.toNat r.size.toNat
    · rw [he]
      exact iff_of_true rfl hfit
    · rw [he]
      exact iff_of_false Bool.false_ne_true hfit

/-- Two blocks at 4096: 3 structures of 100 bytes and one of 128. -/
theorem osMemoryAllocs_run_two :
    (osMemoryAllocs 4096 0 [⟨3, 100⟩, ⟨1, 128⟩]).1 = [⟨4096, 300⟩, ⟨4416, 128⟩] ∧
      (osMemoryAllocs 4096 0 [⟨3, 100⟩, ⟨1, 128⟩]).1.Pairwise (fun b c => b.stop ≤ c.start) :=
  ⟨by decide, (osMemoryAllocs_run 4096 (by decide) [⟨3, 100⟩, ⟨1, 128⟩] (by unfold AllocRequest.Pre; decide)).2.1⟩

end Klint
