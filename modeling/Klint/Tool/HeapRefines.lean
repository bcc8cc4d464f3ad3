/-
# The heap of an execution

The allocations of a state are the blocks of a heap (`Klint.Tool.Heap`) in each execution that agrees with the
state. `load`, `store` and `take` on the symbolic heap are, where their assertions hold, those of that heap: with the
same value, the same fraction, and the heap of the allocations' new versions.
-/
import Klint.Tool.Preconditions

namespace Klint
namespace Tool
namespace SymHeap

variable {be : Backend} {fuel : ℕ} {x x' : Exec} {st st' : State} {allocs : List Allocation} {maps : List Tool.Mapp}
  {p : Address} {q : Ptr}

/-- The heap that some allocations are in an execution, next to some maps. -/
def heapOf (x : Exec) (allocs : List Allocation) (maps : List Tool.Mapp) : Heap :=
  ⟨allocs.map (Allocation.block x), maps⟩

/-- The pointer that an address is. -/
structure Address.At (x : Exec) (allocs : List Allocation) (p : Address) (q : Ptr) : Prop where
  base : allocs[q.base]? = some p.base
  index : q.added / p.base.size = p.index.eval x.env
  offset : q.added % p.base.size * 8 = p.offset

theorem heapOf_later (ha : ∀ a ∈ allocs, a.Ok x st) (hl : Later x st x' st') :
    heapOf x' allocs maps = heapOf x allocs maps := by
  have hblocks : allocs.map (Allocation.block x') = allocs.map (Allocation.block x) :=
    List.map_congr_left fun a hm => Allocation.block_later hl (ha a hm).countClosed (ha a hm).elems
      fun f hf => ((ha a hm).fractions f hf).1
  rw [heapOf, heapOf, hblocks]

/-- An allocation's new version is the block's. -/
theorem heapOf_set (ha : ∀ a ∈ allocs, a.Ok x st) (hl : Later x st x' st') (i : ℕ) (a : Allocation) :
    heapOf x' (allocs.set i a) maps = (heapOf x allocs maps).setBlock i (a.block x') := by
  rw [← heapOf_later ha hl]
  simp only [heapOf, Heap.setBlock, List.map_set]

theorem Address.At.block (hq : p.At x allocs q) (maps : List Tool.Mapp) :
    (heapOf x allocs maps).blocks[q.base]? = some (p.base.block x) := by
  rw [heapOf, List.getElem?_map, hq.base, Option.map_some]

theorem Address.At.block_index (hq : p.At x allocs q) : (p.base.block x).index q = p.index.eval x.env := hq.index

theorem Address.At.block_offset (hq : p.At x allocs q) : (p.base.block x).offset q = p.offset := hq.offset

/-! ### Accesses -/

/-- **A read that is accepted is one of the heap.** -/
theorem read_load (h : Sound be x st) (hp : p.Ok x st) (hq : p.At x allocs q) {size : ℕ} (hs : 0 < size) :
    replay.wlp (read be fuel p size)
      (fun r x' _ => (heapOf x allocs maps).load q size = some (bits x'.env r)) x st := by
  refine Replay.wlp_mono (wlp_read h hp size) fun r x' st' hr => ?_
  rw [Heap.load, hq.block, Option.bind_some, hq.block_index, hq.block_offset]
  exact hr.concrete hs

/-- **A write that is accepted is one of the heap.** -/
theorem write_store (h : Sound be x st) (ha : ∀ a ∈ allocs, a.Ok x st) (hp : p.Ok x st) (hq : p.At x allocs q)
    {value : BV} (hc : value.Closed st.next) (h0 : 0 < value.size)
    (hcount : ∀ j, j * p.base.writeSize < value.size + p.offset → p.index.eval x.env + j < p.base.count.eval x.env) :
    replay.wlp (write be fuel p value)
      (fun elems x' _ => (heapOf x allocs maps).store q (bits x.env value) false =
        some (heapOf x' (allocs.set q.base { p.base with elems := elems }) maps)) x st := by
  refine Replay.wlp_mono (wlp_write h hp hc h0 hcount) fun elems x' st' ⟨hw, hconcrete⟩ => ?_
  rw [Heap.store, hq.block, Option.bind_some, hq.block_index, hq.block_offset, hconcrete, Option.map_some,
    heapOf_set ha hw.later]

/-- **A take that is accepted is one of the heap.** -/
theorem take_take (h : Sound be x st) (ha : ∀ a ∈ allocs, a.Ok x st) (hp : p.Ok x st) (hq : p.At x allocs q)
    {fraction : Option BV} (ht : ∀ t ∈ fraction, t.Closed st.next) :
    replay.wlp (take be fuel fraction p)
      (fun r x' _ => (heapOf x allocs maps).take (fraction.map fun t => UInt8.ofNat (t.eval x.env)) q =
        some (UInt8.ofNat (r.1.eval x'.env),
          heapOf x' (allocs.set q.base { p.base with fractions := some r.2 }) maps)) x st := by
  refine Replay.wlp_mono (wlp_take h hp ht) fun r x' st' hr => ?_
  have hfraction : (p.base.block x).fractions[p.index.eval x.env]? = some (p.base.owned x (p.index.eval x.env)) :=
    Allocation.block_fractions hr.inside
  have henough := hr.enough
  rw [Address.taken] at henough
  rw [Heap.take, hq.block, Option.bind_some, hq.block_index, hq.block_offset, if_neg (not_not.mpr hr.offset), hfraction,
    Option.bind_some]
  simp only [henough, if_true, Option.some.injEq]
  rw [heapOf_set ha hr.later, hr.block, hr.owned, Address.taken]

/-! ### The key of a map -/

/-- A map of the heap is what the ghost maps of a `mapp` are in an execution. -/
structure MapOf (x : Exec) (mapp : Contracts.Mapp) (m : Tool.Mapp) : Prop where
  keySize : m.keySize = mapp.keySize
  capacity : m.capacity = mapp.capacity.eval x.env
  size : m.values.keys.length = (x.content mapp.values).size (mapp.keySize * 8)
  values : ∀ k < 2 ^ (mapp.keySize * 8), bitsOf (mapp.keySize * 8) k ∈ m.values ↔ (x.content mapp.values k).2 = true
  addrs : ∀ k < 2 ^ (mapp.keySize * 8), bitsOf (mapp.keySize * 8) k ∈ m.addrs ↔ (x.content mapp.addrs k).2 = true

/-- A fraction that is owned can be taken. -/
theorem take_of_le (maps : List Tool.Mapp) (hq : p.At x allocs q) (h0 : p.offset = 0)
    (hk : p.index.eval x.env < p.base.count.eval x.env) {fraction : UInt8}
    (hle : fraction ≤ p.base.owned x (p.index.eval x.env)) :
    ∃ current b, (heapOf x allocs maps).take (some fraction) q =
      some (current, (heapOf x allocs maps).setBlock q.base b) := by
  have hfraction : (p.base.block x).fractions[p.index.eval x.env]? = some (p.base.owned x (p.index.eval x.env)) :=
    Allocation.block_fractions hk
  rw [Heap.take, hq.block, Option.bind_some, hq.block_index, hq.block_offset, if_neg (not_not.mpr h0), hfraction,
    Option.bind_some]
  simp only [Option.getD_some, hle, if_true]
  exact ⟨_, _, rfl⟩

/-- **A `map_set` that passes the checks is one of the heap.** -/
theorem mapSet_mapSet (h : Sound be x st) {mapp : Contracts.Mapp} (hm : mapp.Ok st) (hp : p.Ok x st)
    (hq : p.At x allocs q) {map : ℕ} {m : Tool.Mapp} (hmap : maps[map]? = some m) (hof : MapOf x mapp m)
    (hs : 0 < mapp.keySize) (value : ℕ) :
    replay.wlp (Contracts.mapSet be fuel mapp p)
      (fun _ _ _ => ∃ h', (heapOf x allocs maps).mapSet map q value = some h') x st := by
  refine Replay.wlp_mono (Contracts.wlp_mapSet_checked h hm hp) fun _ _ _ hc => ?_
  have hkey : p.value x mapp.keySize < 2 ^ (mapp.keySize * 8) := Nat.mod_lt _ (Nat.two_pow_pos _)
  have hload : (heapOf x allocs maps).load q m.keySize =
      some (bitsOf (mapp.keySize * 8) (p.value x mapp.keySize)) := by
    rw [Heap.load, hq.block, Option.bind_some, hq.block_index, hq.block_offset, hof.keySize]
    exact hc.read hs
  obtain ⟨f, hf, hpresent, hfirst⟩ := hc.first
  have hcount := hp.base.owned f hf _ (hp.indexSize ▸ p.index.eval_lt x.env) hpresent
  have hquarter : 25 ≤ p.base.owned x (p.index.eval x.env) := by
    have hle := (ofNat_le_sub hfirst (hp.base.fraction_lt h hf hcount)).1
    simp only [Allocation.owned, hf, hpresent, if_true]
    exact hle
  obtain ⟨current, b, htake⟩ := take_of_le maps hq hc.offset hcount hquarter
  have hroom : m.values.keys.length < m.capacity := by
    rw [hof.size, hof.capacity]
    exact hc.room
  have hvalue : bitsOf (mapp.keySize * 8) (p.value x mapp.keySize) ∉ m.values := by
    rw [hof.values _ hkey, hc.newValue]
    exact Bool.false_ne_true
  have haddr : bitsOf (mapp.keySize * 8) (p.value x mapp.keySize) ∉ m.addrs := by
    rw [hof.addrs _ hkey, hc.newAddr]
    exact Bool.false_ne_true
  have hmaps : (heapOf x allocs maps).maps[map]? = some m := hmap
  rw [Heap.mapSet, hmaps, Option.bind_some, hload, Option.bind_some, htake, Option.bind_some]
  exact ⟨_, if_pos ⟨hroom, hvalue, haddr⟩⟩

end SymHeap
end Tool
end Klint
