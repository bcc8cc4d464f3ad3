/-
# The symbolic heap

Reading, writing and taking in `tool/klint/heap.py`, on the ghost maps of a symbolic state: an
allocation has a map of its elements and one of the fractions of them that the program owns, and
each access asserts what it needs. An address is given as `base_index_offset` resolves it.

Each access has a rule for an execution that agrees with the state: what the assertions
say of the elements that the access touches, and that the heap of that execution (`Klint.Tool.Heap`) accepts
the access too, with the same value and the same elements afterwards.
-/
import Klint.Lib.Bits
import Klint.Tool.Heap
import Klint.Tool.LayerSound

namespace Klint
namespace Tool
namespace SymHeap

variable (be : Backend) (fuel : ℕ)

/-- An allocation and its `Metadata`, with the current maps; without fractions it is ephemeral.
`size` is in bytes. -/
structure Allocation where
  addr : BV
  count : BV
  size : ℕ
  elems : Map
  fractions : Option Map

/-- An address in an allocation; `offset` is in bits. -/
structure Address where
  term : BV
  base : Allocation
  index : BV
  offset : ℕ

/-- The size of an element, in bits. -/
def Allocation.writeSize (a : Allocation) : ℕ := a.size * 8

/-! ### Accesses -/

/-- `assert utils.definitely_true(state.solver, cond)` -/
def requireTrue (cond : BoolAst) : GM Unit := do
  let st ← Logged.read
  if definitelyTrue be st.constraints cond then pure () else Logged.fail

/-- "Ensure we can read": an element that is not all someone else's. -/
def requireReadable (a : Allocation) (index : BV) (present : BoolAst) : GM Unit :=
  match a.fractions with
  | none => requireTrue be present
  | some fractions => do
    let fraction ← Map.get be fuel fractions index none (.boolV true)
    requireTrue be (be.and fraction.2 (be.ne fraction.1 (bvv 8 0)))

/-- "Ensure we can actually write". -/
def requireWritable (a : Allocation) (index : BV) : GM Unit :=
  match a.fractions with
  | none => pure ()
  | some fractions => do
    let fraction ← Map.get be fuel fractions index none (.boolV true)
    requireTrue be (be.and fraction.2 (be.eq fraction.1 (bvv 8 100)))

/-- The loop of `_read`, until there are `want` bits. -/
def readLoop (a : Allocation) (want : ℕ) : ℕ → BV → BV → GM BV
  | 0, _, _ => Logged.fail
  | left + 1, index, result =>
    if want ≤ result.size then pure result
    else do
      let chunk ← Map.get be fuel a.elems index none (.boolV true)
      requireReadable be fuel a index chunk.2
      readLoop a want left (be.add index (bvv sizeT 1)) (be.concat chunk.1 result)

/-- `_read`, of `size` bytes, without `reverse_endness`. -/
def read (p : Address) (size : ℕ) : GM BV := do
  let want := size * 8 + p.offset
  let result ← readLoop be fuel p.base want (want + 1) p.index (bvv 0 0)
  let result := if p.offset ≠ 0 then be.extract (result.size - 1) p.offset result else result
  pure (if size * 8 < result.size then be.extract (size * 8 - 1) 0 result else result)

/-- What `_write` takes of the rest for an element. -/
def nextChunk (writeSize offset : ℕ) (rest : BV) : BV :=
  let chunk := be.extract (min rest.size writeSize - 1) 0 rest
  if offset ≠ 0 then be.extract (min chunk.size (writeSize - offset) - 1) 0 chunk else chunk

/-- "Handle partial overwrites": the chunk with what it leaves of the element. -/
def overwrite (writeSize offset : ℕ) (elems : Map) (index chunk : BV) : GM BV :=
  if chunk.size = writeSize then pure chunk
  else do
    let current ← Map.get be fuel elems index none (.boolV true)
    let current := current.1
    let chunk := if offset ≠ 0 then be.concat chunk (be.extract (offset - 1) 0 current) else chunk
    pure (if chunk.size ≠ current.size then be.concat (be.extract (current.size - 1) chunk.size current) chunk else
      chunk)

/-- The loop of `_write`, from `elems` on; it returns the elements' last version. -/
def writeLoop (a : Allocation) : ℕ → Map → BV → ℕ → BV → GM Map
  | 0, _, _, _, _ => Logged.fail
  | left + 1, elems, index, offset, rest =>
    if rest.size = 0 then pure elems
    else do
      requireWritable be fuel a index
      let chunk := nextChunk be a.writeSize offset rest
      let rest := if chunk.size < rest.size then be.extract (rest.size - 1) chunk.size rest else bvv 0 0
      let chunk ← overwrite be fuel a.writeSize offset elems index chunk
      let elems ← Map.set be fuel elems index chunk
      writeLoop a left elems (be.add index (bvv sizeT 1)) 0 rest

/-- `_write`, without `reverse_endness`. -/
def write (p : Address) (value : BV) : GM Map :=
  writeLoop be fuel p.base (value.size + 1) p.base.elems p.index p.offset value

/-- `take`; `none` takes all. The fraction before, and the fractions' new version. -/
def take (fraction : Option BV) (p : Address) : GM (BV × Map) :=
  if p.offset ≠ 0 then Logged.fail  -- "Cannot borrow at an offset"
  else
    match p.base.fractions with
    | none => Logged.fail  -- "Cannot borrow from an ephemeral allocation"
    | some fractions => do
      let current ← Map.get be fuel fractions p.index none (.boolV true)
      let fraction := fraction.getD current.1
      requireTrue be (be.and current.2 (be.ule fraction current.1))
      let fractions ← Map.set be fuel fractions p.index (be.sub current.1 fraction)
      pure (current.1, fractions)

variable {be fuel} {x x' x₀ : Exec} {st st' st₀ : State} {a : Allocation} {p : Address}

/-! ### What a state says of the heap -/

/-- The terms of an allocation are of the state, its elements are those below the count, and its memory is
neither null nor does it overflow, as `allocate` demands. -/
structure Allocation.Ok (x : Exec) (st : State) (a : Allocation) : Prop where
  addrClosed : a.addr.Closed st.next
  countClosed : a.count.Closed st.next
  countSize : a.count.size = sizeT
  elems : a.elems ∈ st.created
  elemsMeta : (st.heap a.elems).mapMeta = ⟨sizeT, a.writeSize⟩
  fractions : ∀ f ∈ a.fractions, f ∈ st.created ∧ (st.heap f).mapMeta = ⟨sizeT, 8⟩
  notNull : a.addr.eval x.env ≠ 0
  fits : a.addr.eval x.env + a.count.eval x.env * a.size < 2 ^ sizeT
  present : ∀ k < 2 ^ sizeT, (x.content a.elems k).2 = true → k < a.count.eval x.env
  owned : ∀ f ∈ a.fractions, ∀ k < 2 ^ sizeT, (x.content f k).2 = true → k < a.count.eval x.env

/-- The address is the one that the parts say. -/
structure Address.Ok (x : Exec) (st : State) (p : Address) : Prop where
  termClosed : p.term.Closed st.next
  termSize : p.term.size = sizeT
  base : p.base.Ok x st
  indexClosed : p.index.Closed st.next
  indexSize : p.index.size = sizeT
  offset : p.offset < p.base.writeSize
  resolved : p.term.eval x.env =
    (p.base.addr.eval x.env + p.index.eval x.env * p.base.size + p.offset / 8) % 2 ^ sizeT

theorem Allocation.Ok.later (h : a.Ok x st) (hl : Later x st x' st') : a.Ok x' st' where
  addrClosed := h.addrClosed.mono hl.next
  countClosed := h.countClosed.mono hl.next
  countSize := h.countSize
  elems := hl.created _ h.elems
  elemsMeta := by rw [hl.mapMeta _ h.elems, h.elemsMeta]
  fractions f hf := ⟨hl.created _ (h.fractions f hf).1, by rw [hl.mapMeta _ (h.fractions f hf).1, (h.fractions f hf).2]⟩
  notNull := by rw [hl.agree.eval_bv h.addrClosed]; exact h.notNull
  fits := by rw [hl.agree.eval_bv h.addrClosed, hl.agree.eval_bv h.countClosed]; exact h.fits
  present := by rw [hl.content _ h.elems, hl.agree.eval_bv h.countClosed]; exact h.present
  owned f hf := by rw [hl.content _ (h.fractions f hf).1, hl.agree.eval_bv h.countClosed]; exact h.owned f hf

theorem Address.Ok.later (h : p.Ok x st) (hl : Later x st x' st') : p.Ok x' st' where
  termClosed := h.termClosed.mono hl.next
  termSize := h.termSize
  base := h.base.later hl
  indexClosed := h.indexClosed.mono hl.next
  indexSize := h.indexSize
  offset := h.offset
  resolved := by
    rw [hl.agree.eval_bv h.termClosed, hl.agree.eval_bv h.base.addrClosed, hl.agree.eval_bv h.indexClosed]
    exact h.resolved

theorem Allocation.Ok.count_lt (h : a.Ok x st) : a.count.eval x.env < 2 ^ sizeT :=
  h.countSize ▸ a.count.eval_lt x.env

/-- An element that is read: it exists, and some of it is owned. -/
def Allocation.Readable (x : Exec) (a : Allocation) (k : ℕ) : Prop :=
  k < a.count.eval x.env ∧ ∀ f ∈ a.fractions, (x.content f k).2 = true ∧ (x.content f k).1 ≠ 0

/-- An element that is written: all of it is owned. -/
def Allocation.Writable (x : Exec) (a : Allocation) (k : ℕ) : Prop :=
  ∀ f ∈ a.fractions, k < a.count.eval x.env ∧ x.content f k = (100, true)

theorem Allocation.Writable.of_later {k : ℕ} (hl : Later x st x' st') (ha : a.Ok x st) (h : a.Writable x' k) :
    a.Writable x k := by
  intro f hf
  rw [← hl.content _ (ha.fractions f hf).1, ← hl.agree.eval_bv ha.countClosed]
  exact h f hf

/-! ### The block of an execution -/

/-- The bits of a term's value. -/
def bits (ι : Env) (e : BV) : Bits := bitsOf e.size (e.eval ι)

@[simp] theorem length_bits (ι : Env) (e : BV) : (bits ι e).length = e.size := length_bitsOf _ _

theorem bits_later (hl : Later x st x' st') {e : BV} (hc : e.Closed st.next) : bits x'.env e = bits x.env e := by
  rw [bits, bits, hl.agree.eval_bv hc]

theorem bits_concat (ι : Env) (a b : BV) : bits ι (be.concat a b) = bits ι b ++ bits ι a := by
  rw [bits, bits, bits, bitsOf_append _ _ (b.eval_lt ι), Claripy.size_concat, Claripy.eval_concat, Nat.add_comm]

theorem bits_extract (ι : Env) {e : BV} {hi : ℕ} (lo : ℕ) (h : hi < e.size) :
    bits ι (be.extract hi lo e) = ((bits ι e).take (hi + 1)).drop lo := by
  rw [bits, bits, take_bitsOf, Nat.min_eq_left h, drop_bitsOf, Claripy.size_extract, Claripy.eval_extract,
    bitsOf_mod _ le_rfl]

/-- How much of an element the program owns. -/
def Allocation.owned (x : Exec) (a : Allocation) (k : ℕ) : UInt8 :=
  match a.fractions with
  | none => 100
  | some f => UInt8.ofNat (if (x.content f k).2 then (x.content f k).1 else 0)

/-- The block that an allocation is in an execution. -/
def Allocation.block (x : Exec) (a : Allocation) : Block where
  count := a.count.eval x.env
  size := a.size
  elems := (List.range (a.count.eval x.env)).map fun k => bitsOf a.writeSize (x.content a.elems k).1
  fractions := (List.range (a.count.eval x.env)).map (a.owned x)

theorem Allocation.owned_later (a : Allocation) (hl : Later x st x' st') (hf : ∀ f ∈ a.fractions, f ∈ st.created) :
    a.owned x' = a.owned x := by
  funext k
  unfold Allocation.owned
  split
  · rfl
  · next f hfr => rw [hl.content f (hf f hfr)]

theorem Allocation.block_later (hl : Later x st x' st') (hc : a.count.Closed st.next) (he : a.elems ∈ st.created)
    (hf : ∀ f ∈ a.fractions, f ∈ st.created) : a.block x' = a.block x := by
  rw [Allocation.block, Allocation.block, a.owned_later hl hf, hl.content _ he, hl.agree.eval_bv hc]

section Elements

variable {k : ℕ} (hk : k < a.count.eval x.env)
include hk

theorem Allocation.block_elems : (a.block x).elems[k]? = some (bitsOf a.writeSize (x.content a.elems k).1) := by
  rw [Allocation.block, List.getElem?_map, List.getElem?_range hk, Option.map_some]

theorem Allocation.block_fractions : (a.block x).fractions[k]? = some (a.owned x k) := by
  rw [Allocation.block, List.getElem?_map, List.getElem?_range hk, Option.map_some]

end Elements

/-- The values of a function, with one of them set. -/
theorem map_range_set {α : Type} {g g' : ℕ → α} {k : ℕ} {v : α} (n : ℕ) (hv : g' k = v) (hne : ∀ i ≠ k, g' i = g i) :
    (List.range n).map g' = ((List.range n).map g).set k v := by
  refine List.ext_getElem? fun i => ?_
  rw [List.getElem?_set, List.length_map, List.length_range, List.getElem?_map, List.getElem?_map]
  by_cases hi : i < n
  · rw [List.getElem?_range hi]
    by_cases hik : k = i
    · simp [← hik, hv, hik ▸ hi]
    · simp [hik, hne i (Ne.symm hik)]
  · rw [List.getElem?_eq_none (by rw [List.length_range]; omega)]
    split
    · next hik => rw [if_neg (by omega)]; rfl
    · rfl

/-- A new version of the elements, with one of them set. -/
theorem Allocation.block_put (hl : Later x st x' st') (hc : a.count.Closed st.next)
    (hf : ∀ f ∈ a.fractions, f ∈ st.created) {elems elems' : Map} {k v : ℕ}
    (hput : x'.content elems' = (x.content elems).put k (v, true)) :
    { a with elems := elems' }.block x' = { { a with elems := elems }.block x with
      elems := ({ a with elems := elems }.block x).elems.set k (bitsOf a.writeSize v) } := by
  have howned : ({ a with elems := elems' } : Allocation).owned x' = ({ a with elems := elems } : Allocation).owned x :=
    a.owned_later hl hf
  simp only [Allocation.block, howned, hl.agree.eval_bv hc, hput, Block.mk.injEq, true_and, and_true]
  refine map_range_set _ ?_ fun i hi => ?_
  · rw [Content.put_apply, if_pos rfl]
    rfl
  · rw [Content.put_apply, if_neg hi]
    rfl

/-- A new version of the fractions, with one of them set. -/
theorem Allocation.block_putFraction (hl : Later x st x' st') (hc : a.count.Closed st.next) (he : a.elems ∈ st.created)
    {f f' : Map} (hf : a.fractions = some f) {k v : ℕ} (hput : x'.content f' = (x.content f).put k (v, true)) :
    { a with fractions := some f' }.block x' =
      { a.block x with fractions := (a.block x).fractions.set k (UInt8.ofNat v) } := by
  simp only [Allocation.block, hl.agree.eval_bv hc, hl.content _ he, Block.mk.injEq, true_and]
  refine ⟨rfl, map_range_set _ ?_ fun i hi => ?_⟩
  · simp only [Allocation.owned, hput, Content.put_apply, if_true]
  · simp only [Allocation.owned, hput, hf, Content.put_apply, if_neg hi]

/-- A fraction has eight bits. -/
theorem Allocation.Ok.fraction_lt (h : Sound be x st) (ha : a.Ok x st) {f : Map} (hf : f ∈ a.fractions) {k : ℕ}
    (hk : k < a.count.eval x.env) : (x.content f k).1 < 2 ^ 8 := by
  obtain ⟨hcreated, hmeta⟩ := ha.fractions f hf
  have hbound := (h.map f hcreated).bound k (by rw [hmeta]; exact hk.trans ha.count_lt)
  rw [hmeta] at hbound
  exact hbound

theorem Allocation.Readable.owned_ne {k : ℕ} (h : Sound be x st) (ha : a.Ok x st) (hr : a.Readable x k) :
    a.owned x k ≠ 0 := by
  unfold Allocation.owned
  split
  · decide
  · next f hf =>
    obtain ⟨hpresent, hne⟩ := hr.2 f hf
    rw [hpresent, if_pos rfl]
    intro h0
    have hzero := congrArg UInt8.toNat h0
    rw [UInt8.toNat_ofNat', Nat.mod_eq_of_lt (ha.fraction_lt h hf hr.1)] at hzero
    exact hne hzero

theorem Allocation.Writable.owned_eq {k : ℕ} (hw : a.Writable x k) : a.owned x k = 100 := by
  unfold Allocation.owned
  split
  · rfl
  · next f hf =>
    rw [(hw f hf).2]
    rfl

/-- The value of `n` elements from the `i`-th on, the first one lowest. -/
def elements (c : Content) (w i : ℕ) : ℕ → ℕ
  | 0 => 0
  | n + 1 => (c (i + n)).1 * 2 ^ (n * w) + elements c w i n

/-! ### Rules -/

theorem wlp_requireTrue (h : Sound be x st) {cond : BoolAst} {Q : Unit → Exec → State → Prop}
    (hq : cond.eval x.env = true → Q () x st) : replay.wlp (requireTrue be cond) Q x st := by
  refine Replay.wlp_bind (Replay.wlp_read ?_)
  split
  · next hd => exact Replay.wlp_pure (hq (eval_of_definitelyTrue be h.constraints hd))
  · exact Replay.wlp_fail

/-- `get` without a condition. -/
theorem wlp_get (h : Sound be x st) {m : Map} (hm : m ∈ st.created) {key : BV} (hc : key.Closed st.next)
    (hk : key.size = (st.heap m).mapMeta.keySize) {Q : BV × BoolAst → Exec → State → Prop}
    (hq : ∀ r x' st', Sound be x' st' → Later x st x' st' → r.1.Closed st'.next → r.2.Closed st'.next →
      r.1.size = (st.heap m).mapMeta.valueSize → r.1.eval x'.env = (x.content m (key.eval x.env)).1 →
      r.2.eval x'.env = (x.content m (key.eval x.env)).2 → Q r x' st') :
    replay.wlp (Map.get be fuel m key none (.boolV true)) Q x st := by
  refine Replay.wlp_mono (getterSpec_get be fuel m key none (.boolV true) x st h hm hc hk (fun t ht => by cases ht)
    (Claripy.closed_boolV true)) fun r x' st' ha => ?_
  have hright := ha.right (Claripy.eval_boolV _ _)
  exact hq r x' st' ha.sound ha.later ha.value ha.present ha.size (congrArg Prod.fst hright) (congrArg Prod.snd hright)

/-- The next index. -/
theorem eval_succ {index : BV} {k count : ℕ} (hs : index.size = sizeT) (hi : index.eval x.env = k) (hk : k < count)
    (hcount : count < 2 ^ sizeT) : (be.add index (bvv sizeT 1)).eval x.env = k + 1 := by
  rw [Claripy.eval_add, Claripy.eval_bvv, hs, hi, Nat.mod_eq_of_lt (Nat.one_lt_two_pow (by decide)),
    Nat.mod_eq_of_lt (by omega)]

/-- What the assertions of one round of `_read` say. -/
theorem wlp_requireReadable (h : Sound be x st) (ha : a.Ok x st) {index : BV} (hc : index.Closed st.next)
    (hs : index.size = sizeT) {present : BoolAst} {Q : Unit → Exec → State → Prop}
    (hchunk : present.eval x.env = (x.content a.elems (index.eval x.env)).2)
    (hq : ∀ x' st', Sound be x' st' → Later x st x' st' → a.Readable x (index.eval x.env) → Q () x' st') :
    replay.wlp (requireReadable be fuel a index present) Q x st := by
  unfold requireReadable
  have hlt : index.eval x.env < 2 ^ sizeT := hs ▸ index.eval_lt x.env
  rcases hf : a.fractions with _ | f
  · refine wlp_requireTrue h fun hpresent => hq x st h (Later.refl x st) ⟨?_, fun f hf' => ?_⟩
    · exact ha.present _ hlt (hchunk ▸ hpresent)
    · rw [hf] at hf'
      cases hf'
  · have hfr := ha.fractions f hf
    refine Replay.wlp_bind (wlp_get h hfr.1 hc (by rw [hfr.2, hs]) fun r x₁ st₁ h₁ hl₁ _ _ _ hvalue hpresent => ?_)
    refine wlp_requireTrue h₁ fun hcond => hq x₁ st₁ h₁ hl₁ ?_
    rw [Claripy.eval_and, Bool.and_eq_true, Claripy.eval_ne, bne_iff_ne, Claripy.eval_bvv, Nat.zero_mod, hvalue,
      hpresent] at hcond
    refine ⟨ha.owned f hf _ hlt hcond.1, fun f' hf' => ?_⟩
    rw [hf] at hf'
    cases hf'
    exact hcond

/-- What `_read`'s loop leaves: the value of the elements it read, each of which is readable. -/
structure ReadTo (be : Backend) (x₀ : Exec) (st₀ : State) (a : Allocation) (i want : ℕ) (r : BV) (x : Exec)
    (st : State) :
    Prop where
  sound : Sound be x st
  later : Later x₀ st₀ x st
  closed : r.Closed st.next
  enough : want ≤ r.size
  concrete : Tool.readLoop (a.block x₀) want want i [] = some (bits x.env r)
  value : ∃ n, r.size = n * a.writeSize ∧ r.eval x.env = elements (x₀.content a.elems) a.writeSize i n ∧
    ∀ j < n, a.Readable x₀ (i + j) ∧ j * a.writeSize < want

theorem readLoop_of_le {b : Block} {want index : ℕ} {result : Bits} (h : want ≤ result.length) :
    ∀ k, Tool.readLoop b want k index result = some result
  | 0 => rfl
  | k + 1 => by rw [Tool.readLoop, if_pos h]

theorem wlp_readLoop (h₀ : Sound be x₀ st₀) (ha : a.Ok x₀ st₀) (hw : 0 < a.writeSize) {i want : ℕ} :
    ∀ (left n k : ℕ) {x : Exec} {st : State} {index result : BV},
    Sound be x st → Later x₀ st₀ x st → index.Closed st.next → index.size = sizeT → index.eval x.env = i + n →
    result.Closed st.next → result.size = n * a.writeSize →
    result.eval x.env = elements (x₀.content a.elems) a.writeSize i n →
    (∀ j < n, a.Readable x₀ (i + j) ∧ j * a.writeSize < want) → want ≤ result.size + k →
    Tool.readLoop (a.block x₀) want want i [] = Tool.readLoop (a.block x₀) want k (i + n) (bits x.env result) →
    replay.wlp (readLoop be fuel a want left index result) (ReadTo be x₀ st₀ a i want) x st
  | 0, _, _, _, _, _, _, _, _, _, _, _, _, _, _, _, _, _ => Replay.wlp_fail
  | left + 1, n, k, x, st, index, result, h, hl, hc, hs, hi, hrc, hrs, hrv, hn, hk, hsofar => by
    unfold readLoop
    split
    · next hdone =>
      refine Replay.wlp_pure ⟨h, hl, hrc, hdone, ?_, n, hrs, hrv, hn⟩
      rw [hsofar, readLoop_of_le (by rw [length_bits]; exact hdone)]
    · next hmore =>
      have ha' := ha.later hl
      refine Replay.wlp_bind (wlp_get h ha'.elems hc (by rw [ha'.elemsMeta, hs])
        fun chunk x₁ st₁ h₁ hl₁ hcc _ hcs hcv hcp => ?_)
      rw [ha'.elemsMeta] at hcs
      have hkey : index.eval x₁.env = index.eval x.env := hl₁.agree.eval_bv hc
      refine Replay.wlp_bind (wlp_requireReadable h₁ (ha'.later hl₁) (hc.mono hl₁.next) hs
        (by rw [hkey, hl₁.content _ ha'.elems]; exact hcp) fun x₂ st₂ h₂ hl₂ hreadable => ?_)
      have hl' := hl.trans hl₁
      have hl'' := hl'.trans hl₂
      have hreadable₀ : a.Readable x₀ (i + n) := by
        rw [hkey, hi] at hreadable
        refine ⟨hl'.agree.eval_bv ha.countClosed ▸ hreadable.1, fun f hf => ?_⟩
        rw [← hl'.content _ (ha.fractions f hf).1]
        exact hreadable.2 f hf
      have hindex₂ : index.eval x₂.env = i + n := by rw [hl₂.agree.eval_bv (hc.mono hl₁.next), hkey, hi]
      have hnext := hl₁.next.trans hl₂.next
      obtain ⟨k, rfl⟩ : ∃ k', k = k' + 1 := ⟨k - 1, by omega⟩
      have hchunk : bits x₂.env chunk.1 = bitsOf a.writeSize (x₀.content a.elems (i + n)).1 := by
        rw [bits, hcs, hl₂.agree.eval_bv hcc, hcv, hi, hl.content _ ha.elems]
      have hstep : Tool.readLoop (a.block x₀) want (k + 1) (i + n) (bits x.env result) =
          Tool.readLoop (a.block x₀) want k (i + n + 1) (bits x.env result ++ bits x₂.env chunk.1) := by
        rw [Tool.readLoop, if_neg (by rw [length_bits]; exact hmore), Allocation.block_elems hreadable₀.1,
          Allocation.block_fractions hreadable₀.1, hchunk]
        exact if_neg (hreadable₀.owned_ne h₀ ha)
      refine wlp_readLoop h₀ ha hw left (n + 1) k h₂ hl'' (Claripy.closed_add (hc.mono hnext) (Claripy.closed_bvv _ _))
        (by rw [Claripy.size_add, hs]) (eval_succ hs hindex₂ hreadable₀.1 ha.count_lt)
        (Claripy.closed_concat (hcc.mono hl₂.next) (hrc.mono hnext)) ?_ ?_ ?_ ?_ ?_
      · rw [Claripy.size_concat, hcs, hrs, Nat.succ_mul, Nat.add_comm]
      · rw [Claripy.eval_concat, hrs, hl₂.agree.eval_bv hcc, hcv, hl₂.agree.eval_bv (hrc.mono hl₁.next),
          hl₁.agree.eval_bv hrc, hrv, hi, hl.content _ ha.elems, elements]
      · intro j hj
        rcases Nat.lt_succ_iff_lt_or_eq.mp hj with hj | rfl
        · exact hn j hj
        · exact ⟨hreadable₀, by rw [← hrs]; omega⟩
      · rw [Claripy.size_concat, hcs]
        show want ≤ a.writeSize + result.size + k
        omega
      · rw [hsofar, hstep, bits_concat, bits_later (hl₁.trans hl₂) hrc]
        rfl

/-- The value of the `size` bytes at an address. -/
def Address.value (x : Exec) (p : Address) (size : ℕ) : ℕ :=
  elements (x.content p.base.elems) p.base.writeSize (p.index.eval x.env)
    ((size * 8 + p.offset + p.base.writeSize - 1) / p.base.writeSize) / 2 ^ p.offset % 2 ^ (size * 8)

/-- What `_read` leaves. -/
structure ReadFrom (be : Backend) (x : Exec) (st : State) (p : Address) (size : ℕ) (r : BV) (x' : Exec) (st' : State) :
    Prop where
  sound : Sound be x' st'
  later : Later x st x' st'
  readable : ∀ j, j * p.base.writeSize < size * 8 + p.offset → p.base.Readable x (p.index.eval x.env + j)
  value : p.offset = 0 → r.Closed st'.next ∧ r.size = size * 8 ∧ r.eval x'.env = p.value x size
  concrete : 0 < size →
    (p.base.block x).read (p.index.eval x.env) p.offset size false = some (bits x'.env r)

/-- What `_read` cuts from the elements. -/
theorem bits_trimmed {ι : Env} {r : BV} {size offset : ℕ} (henough : size * 8 + offset ≤ r.size)
    (hpos : 0 < size) :
    let result := if offset ≠ 0 then be.extract (r.size - 1) offset r else r
    bits ι (if size * 8 < result.size then be.extract (size * 8 - 1) 0 result else result) =
      ((bits ι r).drop offset).take (size * 8) := by
  intro result
  have hresult : bits ι result = (bits ι r).drop offset := by
    by_cases h0 : offset = 0
    · simp [result, h0]
    · have hlast : r.size - 1 + 1 = r.size := by omega
      simp only [result, ne_eq, h0, not_false_eq_true, if_true]
      rw [bits_extract ι offset (by omega), hlast, List.take_of_length_le (by rw [length_bits])]
  have hsize : result.size = r.size - offset := by
    rw [← length_bits ι, hresult, List.length_drop, length_bits]
  rw [← hresult]
  split
  · next hlong =>
    have hlast : size * 8 - 1 + 1 = size * 8 := by omega
    rw [bits_extract ι 0 (by omega), hlast, List.drop_zero]
  · next hshort => rw [List.take_of_length_le (by rw [length_bits]; omega)]

theorem wlp_read (h : Sound be x st) (hp : p.Ok x st) (size : ℕ) :
    replay.wlp (read be fuel p size) (ReadFrom be x st p size) x st := by
  have hw : 0 < p.base.writeSize := Nat.zero_lt_of_lt hp.offset
  refine Replay.wlp_bind (Replay.wlp_mono (wlp_readLoop h hp.base hw (i := p.index.eval x.env) _ 0 _ h (Later.refl x st)
    hp.indexClosed hp.indexSize rfl (Claripy.closed_bvv 0 0) (Nat.zero_mul _).symm (Nat.mod_one _)
    (fun j hj => absurd hj (Nat.not_lt_zero j)) (Nat.zero_add _).ge rfl) fun r x' st' hr => Replay.wlp_pure ?_)
  obtain ⟨n, hn, hv, hj⟩ := hr.value
  refine ⟨hr.sound, hr.later, fun j hlt => ?_, fun h0 => ?_, fun hpos => ?_⟩
  · refine (hj j (Nat.lt_of_mul_lt_mul_right (hlt.trans_le (hn ▸ hr.enough)))).1
  · have hcount : n = (size * 8 + p.base.writeSize - 1) / p.base.writeSize := by
      have henough := hr.enough
      rw [hn, h0, Nat.add_zero] at henough
      refine (Nat.div_eq_of_lt_le ?_ ?_).symm
      · rcases n with _ | n
        · omega
        · have hlast := (hj n (Nat.lt_succ_self n)).2
          rw [Nat.succ_mul]
          omega
      · rw [Nat.succ_mul]
        omega
    simp only [h0, ne_eq, not_true_eq_false, if_false]
    rw [Address.value, h0, Nat.add_zero, ← hcount, ← hv, pow_zero, Nat.div_one]
    split
    · next hlong =>
      have hsize : 0 < size := by
        rcases Nat.eq_zero_or_pos size with rfl | hpos
        · rw [Nat.zero_mul, Nat.zero_add, Nat.div_eq_of_lt (Nat.sub_one_lt_of_lt hw)] at hcount
          rw [hn, hcount, Nat.zero_mul, Nat.zero_mul] at hlong
          exact absurd hlong (Nat.not_lt_zero _)
        · exact hpos
      have hbits : size * 8 - 1 + 1 - 0 = size * 8 := by omega
      refine ⟨Claripy.closed_extract _ _ hr.closed, ?_, ?_⟩
      · rw [Claripy.size_extract, hbits]
      · rw [Claripy.eval_extract, hbits, pow_zero, Nat.div_one]
    · next hshort =>
      have henough := hr.enough
      rw [h0, Nat.add_zero] at henough
      have hexact : r.size = size * 8 := le_antisymm (not_lt.mp hshort) henough
      exact ⟨hr.closed, hexact, (Nat.mod_eq_of_lt (hexact ▸ r.eval_lt x'.env)).symm⟩
  · rw [Block.read, hr.concrete, Option.map_some, bits_trimmed hr.enough hpos]
    rfl

/-- The fraction that a `take` takes. -/
def Address.taken (x : Exec) (p : Address) (fraction : Option BV) : UInt8 :=
  (fraction.map fun t => UInt8.ofNat (t.eval x.env)).getD (p.base.owned x (p.index.eval x.env))

/-- What `take` leaves. -/
structure TakenFrom (be : Backend) (x : Exec) (st : State) (p : Address) (fraction : Option BV) (r : BV × Map)
    (x' : Exec)
    (st' : State) : Prop where
  sound : Sound be x' st'
  later : Later x st x' st'
  offset : p.offset = 0
  closed : r.1.Closed st'.next
  current : ∃ f, p.base.fractions = some f ∧ (x.content f (p.index.eval x.env)).2 = true ∧
    r.1.eval x'.env = (x.content f (p.index.eval x.env)).1 ∧
    ∀ t ∈ fraction, t.eval x.env ≤ (x.content f (p.index.eval x.env)).1
  inside : p.index.eval x.env < p.base.count.eval x.env
  owned : UInt8.ofNat (r.1.eval x'.env) = p.base.owned x (p.index.eval x.env)
  enough : p.taken x fraction ≤ p.base.owned x (p.index.eval x.env)
  block : { p.base with fractions := some r.2 }.block x' = { p.base.block x with
    fractions := (p.base.block x).fractions.set (p.index.eval x.env)
      (p.base.owned x (p.index.eval x.env) - p.taken x fraction) }

/-- Fractions of eight bits that do not wrap. -/
theorem ofNat_le_sub {t c : ℕ} (hle : t ≤ c) (hc : c < 2 ^ 8) :
    UInt8.ofNat t ≤ UInt8.ofNat c ∧ UInt8.ofNat c - UInt8.ofNat t = UInt8.ofNat (c - t) := by
  have hnat : ∀ {n}, n ≤ c → (UInt8.ofNat n).toNat = n := fun hn => by
    rw [UInt8.toNat_ofNat', Nat.mod_eq_of_lt (hn.trans_lt hc)]
  have hlt : UInt8.ofNat t ≤ UInt8.ofNat c := by
    rw [UInt8.le_iff_toNat_le, hnat hle, hnat le_rfl]
    exact hle
  refine ⟨hlt, UInt8.toNat_inj.mp ?_⟩
  rw [UInt8.toNat_sub_of_le _ _ hlt, hnat hle, hnat le_rfl, hnat (Nat.sub_le _ _)]

theorem wlp_take (h : Sound be x st) (hp : p.Ok x st) {fraction : Option BV}
    (ht : ∀ t ∈ fraction, t.Closed st.next) :
    replay.wlp (take be fuel fraction p) (TakenFrom be x st p fraction) x st := by
  unfold take
  split
  · exact Replay.wlp_fail
  · next h0 =>
    rcases hf : p.base.fractions with _ | f
    · exact Replay.wlp_fail
    · have hfr := hp.base.fractions f hf
      refine Replay.wlp_bind (wlp_get h hfr.1 hp.indexClosed (by rw [hfr.2, hp.indexSize])
        fun current x₁ st₁ h₁ hl₁ hc _ hs hv hpr => ?_)
      rw [hfr.2] at hs
      have hclosed : (fraction.getD current.1).Closed st₁.next := by
        rcases fraction with _ | t
        · exact hc
        · exact (ht t rfl).mono hl₁.next
      refine Replay.wlp_bind (wlp_requireTrue h₁ fun hcond => ?_)
      rw [Claripy.eval_and, Bool.and_eq_true, Claripy.eval_ule, decide_eq_true_eq, hpr] at hcond
      have hfr₁ := (hp.base.later hl₁).fractions f hf
      refine Replay.wlp_bind (Replay.wlp_mono (wlp_set be fuel h₁ hfr₁.1 (hp.indexClosed.mono hl₁.next)
        (by rw [hfr₁.2, hp.indexSize]) (Claripy.closed_sub hc hclosed) (by rw [hfr₁.2, Claripy.size_sub, hs]))
        fun f' x₂ st₂ hset => Replay.wlp_pure ?_)
      have hcurrent : current.1.eval x₂.env = (x.content f (p.index.eval x.env)).1 := by
        rw [hset.later.agree.eval_bv hc, hv]
      have howned : p.base.owned x (p.index.eval x.env) = UInt8.ofNat (current.1.eval x₁.env) := by
        simp only [Allocation.owned, hf, hcond.1, if_true, hv]
      have htaken : p.taken x fraction = UInt8.ofNat ((fraction.getD current.1).eval x₁.env) := by
        rcases fraction with _ | t
        · exact howned
        · rw [Option.getD_some, hl₁.agree.eval_bv (ht t rfl)]
          rfl
      have hlt := current.1.eval_lt x₁.env
      rw [hs] at hlt
      have hle := ofNat_le_sub hcond.2 hlt
      refine ⟨hset.sound, hl₁.trans hset.later, not_not.mp h0, hc.mono hset.later.next, ⟨f, hf, hcond.1, hcurrent,
        fun t hft => ?_⟩, ?_, ?_, ?_, ?_⟩
      · obtain rfl := Option.mem_def.mp hft
        rw [← hl₁.agree.eval_bv (ht t rfl), ← hv]
        exact hcond.2
      · exact hp.base.owned f hf _ (hp.indexSize ▸ p.index.eval_lt x.env) hcond.1
      · rw [hset.later.agree.eval_bv hc, howned]
      · rw [htaken, howned]
        exact hle.1
      · have hput : x₂.content f' = (x.content f).put (p.index.eval x.env)
            (current.1.eval x₁.env - (fraction.getD current.1).eval x₁.env, true) := by
          rw [hset.content, hl₁.content _ hfr.1, hl₁.agree.eval_bv hp.indexClosed,
            Claripy.eval_sub_of_le _ _ _ _ hcond.2]
        rw [Allocation.block_putFraction (hl₁.trans hset.later) hp.base.countClosed hp.base.elems hf hput, htaken,
          howned, hle.2]

theorem wlp_requireWritable (h : Sound be x st) (ha : a.Ok x st) {index : BV} (hc : index.Closed st.next)
    (hs : index.size = sizeT) {Q : Unit → Exec → State → Prop}
    (hq : ∀ x' st', Sound be x' st' → Later x st x' st' →
      (∀ f ∈ a.fractions, x.content f (index.eval x.env) = (100, true)) → Q () x' st') :
    replay.wlp (requireWritable be fuel a index) Q x st := by
  unfold requireWritable
  rcases hf : a.fractions with _ | f
  · exact Replay.wlp_pure (hq x st h (Later.refl x st) fun f hf' => by rw [hf] at hf'; cases hf')
  · have hfr := ha.fractions f hf
    refine Replay.wlp_bind (wlp_get h hfr.1 hc (by rw [hfr.2, hs]) fun r x₁ st₁ h₁ hl₁ _ _ _ hvalue hpresent => ?_)
    refine wlp_requireTrue h₁ fun hcond => hq x₁ st₁ h₁ hl₁ fun f' hf' => ?_
    rw [hf] at hf'
    cases hf'
    rw [Claripy.eval_and, Bool.and_eq_true, Claripy.eval_eq, beq_iff_eq, Claripy.eval_bvv, hvalue, hpresent] at hcond
    exact Prod.ext hcond.2 hcond.1

section Chunks

variable {w offset : ℕ} {rest chunk : BV}

theorem size_nextChunk (hr : 0 < rest.size) (ho : offset < w) :
    (nextChunk be w offset rest).size = min rest.size (w - offset) := by
  unfold nextChunk
  simp only [ne_eq, ite_not]
  split_ifs with h0
  · rw [Claripy.size_extract, h0]
    omega
  · rw [Claripy.size_extract, Claripy.size_extract]
    omega

theorem closed_nextChunk {n : ℕ} (hr : rest.Closed n) : (nextChunk be w offset rest).Closed n := by
  unfold nextChunk
  simp only [ne_eq, ite_not]
  split_ifs
  · exact Claripy.closed_extract _ _ hr
  · exact Claripy.closed_extract _ _ (Claripy.closed_extract _ _ hr)

theorem bits_nextChunk (ι : Env) (hr : 0 < rest.size) (ho : offset < w) :
    bits ι (nextChunk be w offset rest) = Tool.nextChunk w offset (bits ι rest) := by
  have hlast : min rest.size w - 1 + 1 = min rest.size w := by omega
  have hfirst : bits ι (be.extract (min rest.size w - 1) 0 rest) = (bits ι rest).take (min rest.size w) := by
    rw [bits_extract ι 0 (by omega), hlast, List.drop_zero]
  unfold nextChunk Tool.nextChunk
  simp only [length_bits, ← hfirst]
  split
  · have hlast' : ∀ n, 0 < n → n - 1 + 1 = n := fun n hn => by omega
    rw [bits_extract ι 0 (by rw [Claripy.size_extract]; omega), hlast' _ (by rw [Claripy.size_extract]; omega),
      List.drop_zero]
  · rfl

/-- The high bits of the element that a chunk leaves. -/
theorem padded_ok {n : ℕ} {current : BV} (hcur : current.Closed n) (hc : chunk.Closed n) (hle : chunk.size ≤ w)
    (h0 : 0 < chunk.size) (hsize : current.size = w) (ι : Env) :
    let r := if chunk.size ≠ w then be.concat (be.extract (w - 1) chunk.size current) chunk else chunk
    r.Closed n ∧ r.size = w ∧
      bits ι r = if chunk.size ≠ w then bits ι chunk ++ (bits ι current).drop chunk.size else bits ι chunk := by
  intro r
  by_cases hw : chunk.size ≠ w
  · simp only [r, if_pos hw]
    have hlast : w - 1 + 1 = w := by omega
    refine ⟨Claripy.closed_concat (Claripy.closed_extract _ _ hcur) hc, ?_, ?_⟩
    · rw [Claripy.size_concat, Claripy.size_extract]
      omega
    · rw [bits_concat, bits_extract ι _ (by omega), hlast, List.take_of_length_le (by rw [length_bits, hsize])]
  · simp only [r, if_neg hw]
    exact ⟨hc, not_not.mp hw, trivial⟩

/-- What `overwrite` leaves: an element, and that of the block. -/
structure Overwritten (be : Backend) (x : Exec) (st : State) (w offset : ℕ) (current : Bits) (chunk r : BV) (x' : Exec)
    (st' : State) : Prop where
  sound : Sound be x' st'
  later : Later x st x' st'
  closed : r.Closed st'.next
  size : r.size = w
  concrete : bits x'.env r = Tool.overwrite w false offset current (bits x.env chunk)

/-- The element that is written has an element's size. -/
theorem wlp_overwrite (h : Sound be x st) {elems : Map} (hm : elems ∈ st.created)
    (hmm : (st.heap elems).mapMeta = ⟨sizeT, w⟩) {index : BV} (hc : index.Closed st.next) (hs : index.size = sizeT)
    (hcc : chunk.Closed st.next) (hcs : chunk.size + offset ≤ w) (h0 : 0 < chunk.size) :
    replay.wlp (overwrite be fuel w offset elems index chunk)
      (Overwritten be x st w offset (bitsOf w (x.content elems (index.eval x.env)).1) chunk) x st := by
  unfold overwrite
  split
  · next hfull =>
    refine Replay.wlp_pure ⟨h, Later.refl x st, hcc, hfull, ?_⟩
    simp [Tool.overwrite, hfull]
  · next hpart =>
    refine Replay.wlp_bind (wlp_get h hm hc (by rw [hmm, hs]) fun current x₁ st₁ h₁ hl₁ hcur _ hsize hv _ =>
      Replay.wlp_pure ?_)
    have hsize : current.1.size = w := hsize.trans (by rw [hmm])
    have hchunk := hcc.mono hl₁.next
    have hcurrent : bits x₁.env current.1 = bitsOf w (x.content elems (index.eval x.env)).1 := by
      rw [bits, hsize, hv]
    have hbits := bits_later hl₁ hcc
    simp only [hsize]
    by_cases ho : offset ≠ 0
    · rw [if_pos ho]
      have hlast : offset - 1 + 1 = offset := by omega
      have hjoined : (be.concat chunk (be.extract (offset - 1) 0 current.1)).Closed st₁.next :=
        Claripy.closed_concat hchunk (Claripy.closed_extract _ _ hcur)
      have hpadded := @padded_ok be w _ _ _ hcur hjoined (by rw [Claripy.size_concat, Claripy.size_extract]; omega)
        (by rw [Claripy.size_concat]; omega) hsize x₁.env
      refine ⟨h₁, hl₁, hpadded.1, hpadded.2.1, ?_⟩
      rw [hpadded.2.2, Claripy.size_concat, bits_concat, bits_extract _ _ (by omega), hlast, List.drop_zero, hcurrent,
        hbits, Claripy.size_extract, hlast]
      simp [Tool.overwrite, hpart, ho, Nat.min_eq_left (show offset ≤ w by omega), Nat.add_comm]
    · rw [if_neg ho]
      have hpadded := @padded_ok be w _ _ _ hcur hchunk (by omega) h0 hsize x₁.env
      refine ⟨h₁, hl₁, hpadded.1, hpadded.2.1, ?_⟩
      rw [hpadded.2.2, hcurrent, hbits]
      simp [Tool.overwrite, hpart, not_not.mp ho]

end Chunks

/-- What `_write`'s loop leaves: all of each element it touched is owned. -/
structure Wrote (be : Backend) (x₀ : Exec) (st₀ : State) (a : Allocation) (i total : ℕ) (elems : Map) (x : Exec)
    (st : State) :
    Prop where
  sound : Sound be x st
  later : Later x₀ st₀ x st
  created : elems ∈ st.created
  mapMeta : (st.heap elems).mapMeta = ⟨sizeT, a.writeSize⟩
  present : ∀ k < 2 ^ sizeT, (x.content elems k).2 = true → k < a.count.eval x₀.env
  writable : ∀ j, j * a.writeSize < total → a.Writable x₀ (i + j)

/-- One round of the loop on a block. -/
theorem writeLoop_round {b : Block} {left index offset : ℕ} {rest current chunk : Bits} (hr : rest ≠ [])
    (he : b.elems[index]? = some current) (hf : b.fractions[index]? = some 100)
    (hchunk : Tool.nextChunk b.writeSize offset rest = chunk) :
    Tool.writeLoop false (left + 1) b index offset rest =
      Tool.writeLoop false left
        { b with elems := b.elems.set index (Tool.overwrite b.writeSize false offset current chunk) } (index + 1) 0
        (rest.drop chunk.length) := by
  rw [Tool.writeLoop, if_neg hr, he, hf, ← hchunk]
  rfl

/-- A round that sets an element of the elements is one on the block. -/
theorem block_round (hl : Later x st x' st') (ha : a.Ok x st) {elems elems' : Map} {left k v offset : ℕ}
    (hlt : k < a.count.eval x.env) (hw : a.Writable x k)
    (hput : x'.content elems' = (x.content elems).put k (v, true)) {rest chunk : Bits} (hr : rest ≠ [])
    (hchunk : Tool.nextChunk a.writeSize offset rest = chunk)
    (hv : bitsOf a.writeSize v =
      Tool.overwrite a.writeSize false offset (bitsOf a.writeSize (x.content elems k).1) chunk) :
    Tool.writeLoop false (left + 1) ({ a with elems := elems }.block x) k offset rest =
      Tool.writeLoop false left ({ a with elems := elems' }.block x') (k + 1) 0 (rest.drop chunk.length) := by
  have helem : ({ a with elems := elems }.block x).elems[k]? = some (bitsOf a.writeSize (x.content elems k).1) :=
    Allocation.block_elems hlt
  have hfraction : ({ a with elems := elems }.block x).fractions[k]? = some 100 :=
    (Allocation.block_fractions hlt).trans (congrArg some hw.owned_eq)
  have hset := Allocation.block_put hl ha.countClosed (fun f hf => (ha.fractions f hf).1) hput
  rw [hset, hv]
  exact writeLoop_round hr helem hfraction hchunk

section Leftover

variable {chunk rest : BV}

/-- What is left to write. -/
theorem bits_leftover (ι : Env) :
    bits ι (if chunk.size < rest.size then be.extract (rest.size - 1) chunk.size rest else bvv 0 0) =
      (bits ι rest).drop chunk.size := by
  split
  · next hlt =>
    have hlast : rest.size - 1 + 1 = rest.size := by omega
    rw [bits_extract ι _ (by omega), hlast, List.take_of_length_le (by rw [length_bits])]
  · next hge =>
    rw [List.drop_eq_nil_of_le (by rw [length_bits]; omega)]
    rfl

theorem size_leftover : (if chunk.size < rest.size then be.extract (rest.size - 1) chunk.size rest else bvv 0 0).size =
    rest.size - chunk.size := by
  rw [← length_bits ⟨fun _ => 0, fun _ => true⟩, bits_leftover, List.length_drop, length_bits]

theorem closed_leftover {n : ℕ} (hr : rest.Closed n) :
    (if chunk.size < rest.size then be.extract (rest.size - 1) chunk.size rest else bvv 0 0).Closed n := by
  split
  · exact Claripy.closed_extract _ _ hr
  · exact Claripy.closed_bvv _ _

end Leftover

/-- A round of `_write`'s loop, on the next element. -/
theorem Wrote.put {i n : ℕ} {elems elems' : Map} (h : Wrote be x₀ st₀ a i (n * a.writeSize) elems x st)
    (hw : 0 < a.writeSize) (ha : a.Ok x₀ st₀) {v : ℕ × Bool} (hput : Layered be x st elems (i + n) v elems' x' st')
    (howned : a.Writable x (i + n)) (hlt : i + n < a.count.eval x₀.env) :
    Wrote be x₀ st₀ a i ((n + 1) * a.writeSize) elems' x' st' where
  sound := hput.sound
  later := h.later.trans hput.later
  created := hput.created
  mapMeta := by rw [hput.mapMeta, h.mapMeta]
  present k hk hpresent := by
    rw [hput.content, Content.put_apply] at hpresent
    split at hpresent
    · next he => exact he ▸ hlt
    · exact h.present k hk hpresent
  writable j hj := by
    rcases Nat.lt_succ_iff_lt_or_eq.mp (Nat.lt_of_mul_lt_mul_right hj) with hj | rfl
    · exact h.writable j (Nat.mul_lt_mul_of_pos_right hj hw)
    · exact howned.of_later h.later ha

/-- The elements are those of an earlier state too. -/
theorem Wrote.later_trans {i total : ℕ} {elems : Map} (h : Wrote be x₀ st₀ a i total elems x st)
    (hs : Sound be x' st') (hl : Later x st x' st') : Wrote be x₀ st₀ a i total elems x' st' where
  sound := hs
  later := h.later.trans hl
  created := hl.created _ h.created
  mapMeta := by rw [hl.mapMeta _ h.created, h.mapMeta]
  present k hk hpresent := h.present k hk (by rwa [hl.content _ h.created] at hpresent)
  writable := h.writable

theorem wlp_writeLoop (ha : a.Ok x₀ st₀) {i total : ℕ} {target : Option Block}
    (hcount : ∀ j, j * a.writeSize < total → i + j < a.count.eval x₀.env) : ∀ (left n k : ℕ) {x : Exec} {st : State}
    {elems : Map} {index rest : BV} {offset : ℕ}, Wrote be x₀ st₀ a i (n * a.writeSize) elems x st →
    index.Closed st.next → index.size = sizeT → (0 < rest.size → index.eval x.env = i + n) → rest.Closed st.next →
    offset < a.writeSize → (rest.size = 0 → total ≤ n * a.writeSize) →
    (0 < rest.size → total = n * a.writeSize + (rest.size + offset)) → rest.size ≤ k →
    target = Tool.writeLoop false k ({ a with elems := elems }.block x) (i + n) offset (bits x.env rest) →
    replay.wlp (writeLoop be fuel a left elems index offset rest) (fun elems' x' st' =>
      Wrote be x₀ st₀ a i total elems' x' st' ∧ target = some ({ a with elems := elems' }.block x')) x st
  | 0, _, _, _, _, _, _, _, _, _, _, _, _, _, _, _, _, _, _ => Replay.wlp_fail
  | left + 1, n, k, x, st, elems, index, rest, offset, h, hc, hs, hi, hrc, ho, hdone, htotal, hk, hsofar => by
    unfold writeLoop
    split
    · next hz =>
      have hnil : bits x.env rest = [] := by
        rw [← List.length_eq_zero_iff, length_bits, hz]
      refine Replay.wlp_pure ⟨⟨h.sound, h.later, h.created, h.mapMeta, h.present, fun j hj => h.writable j ?_⟩, ?_⟩
      · exact hj.trans_le (hdone hz)
      · rw [hsofar, hnil]
        cases k <;> rfl
    · next hnz =>
      have hpos := Nat.pos_of_ne_zero hnz
      have hlt : i + n < a.count.eval x₀.env := hcount n (by rw [htotal hpos]; omega)
      have ha' := ha.later h.later
      have hlt' : i + n < a.count.eval x.env := by rw [h.later.agree.eval_bv ha.countClosed]; exact hlt
      refine Replay.wlp_bind (wlp_requireWritable h.sound ha' hc hs fun x₁ st₁ h₁ hl₁ hwritable => ?_)
      rw [hi hpos] at hwritable
      have howned : a.Writable x (i + n) := fun f hf => ⟨hlt', hwritable f hf⟩
      have hsize : (nextChunk be a.writeSize offset rest).size = min rest.size (a.writeSize - offset) :=
        size_nextChunk hpos ho
      have hw₁ := h.later_trans h₁ hl₁
      have hi₁ : index.eval x₁.env = i + n := by rw [hl₁.agree.eval_bv hc, hi hpos]
      refine Replay.wlp_bind (Replay.wlp_mono (wlp_overwrite h₁ hw₁.created hw₁.mapMeta (hc.mono hl₁.next) hs
        (closed_nextChunk (hrc.mono hl₁.next)) (by omega) (by omega)) fun chunk x₂ st₂ hover => ?_)
      have hl₁₂ := hl₁.trans hover.later
      have hw₂ := hw₁.later_trans hover.sound hover.later
      have hi₂ : index.eval x₂.env = i + n := by rw [hl₁₂.agree.eval_bv hc, hi hpos]
      refine Replay.wlp_bind (Replay.wlp_mono (wlp_set be fuel hover.sound hw₂.created (hc.mono hl₁₂.next)
        (by rw [hw₂.mapMeta, hs]) hover.closed (by rw [hw₂.mapMeta, hover.size])) fun elems' x₃ st₃ hset => ?_)
      rw [hi₂] at hset
      have hl := hl₁₂.trans hset.later
      have hi₃ : index.eval x₃.env = i + n := by rw [hl.agree.eval_bv hc, hi hpos]
      obtain ⟨k, rfl⟩ : ∃ k', k = k' + 1 := ⟨k - 1, by omega⟩
      -- the same round on the block
      have hne : bits x.env rest ≠ [] := by
        rw [ne_eq, ← List.length_eq_zero_iff, length_bits]
        exact hnz
      have hput : x₃.content elems' = (x.content elems).put (i + n) (chunk.eval x₂.env, true) := by
        rw [hset.content, hl₁₂.content _ h.created]
      have hwritten : bitsOf a.writeSize (chunk.eval x₂.env) = Tool.overwrite a.writeSize false offset
          (bitsOf a.writeSize (x.content elems (i + n)).1) (bits x.env (nextChunk be a.writeSize offset rest)) := by
        rw [← bits_later hl₁ (closed_nextChunk hrc), ← hi₁, ← hl₁.content _ h.created, ← hover.concrete, bits,
          hover.size]
      have hround : Tool.writeLoop false (k + 1) ({ a with elems := elems }.block x) (i + n) offset (bits x.env rest) =
          _ := block_round hl ha' hlt' howned hput hne (bits_nextChunk x.env hpos ho).symm hwritten
      have ht := htotal hpos
      refine wlp_writeLoop ha hcount left (n + 1) k
        (hw₂.put (Nat.zero_lt_of_lt ho) ha hset (fun f hf => ?_) hlt)
        (Claripy.closed_add (hc.mono hl.next) (Claripy.closed_bvv _ _)) (by rw [Claripy.size_add, hs])
        (fun _ => eval_succ hs hi₃ hlt ha.count_lt) (closed_leftover (hrc.mono hl.next)) (Nat.zero_lt_of_lt ho)
        ?_ ?_ ?_ ?_
      · rw [hl₁₂.agree.eval_bv ha'.countClosed, hl₁₂.content _ (ha'.fractions f hf).1]
        exact howned f hf
      · rw [size_leftover, hsize, Nat.succ_mul]
        omega
      · rw [size_leftover, hsize, Nat.succ_mul]
        omega
      · rw [size_leftover, hsize]
        omega
      · rw [hsofar, hround, bits_leftover, bits_later hl hrc, length_bits, Nat.add_assoc]

/-- What `_write` leaves: what its loop does, and the block that it leaves. -/
structure WrittenTo (be : Backend) (x : Exec) (st : State) (p : Address) (value : BV) (elems : Map) (x' : Exec)
    (st' : State) : Prop where
  wrote : Wrote be x st p.base (p.index.eval x.env) (value.size + p.offset) elems x' st'
  concrete : (p.base.block x).write (p.index.eval x.env) p.offset (bits x.env value) false =
    some ({ p.base with elems := elems }.block x')

theorem wlp_write (h : Sound be x st) (hp : p.Ok x st) {value : BV} (hc : value.Closed st.next) (h0 : 0 < value.size)
    (hcount : ∀ j, j * p.base.writeSize < value.size + p.offset → p.index.eval x.env + j < p.base.count.eval x.env) :
    replay.wlp (write be fuel p value) (WrittenTo be x st p value) x st := by
  refine Replay.wlp_mono (wlp_writeLoop hp.base hcount _ 0 value.size ⟨h, Later.refl x st, hp.base.elems,
    hp.base.elemsMeta, hp.base.present, ?_⟩ hp.indexClosed hp.indexSize (fun _ => rfl) hc hp.offset
    (fun hz => absurd hz h0.ne') (fun _ => ?_) le_rfl rfl) fun elems x' st' ⟨hw, htarget⟩ => ⟨hw, ?_⟩
  · intro j hj
    rw [Nat.zero_mul] at hj
    exact absurd hj (Nat.not_lt_zero _)
  · rw [Nat.zero_mul, Nat.zero_add]
  · rw [Block.write, length_bits]
    exact htarget

end SymHeap
end Tool
end Klint
