/-
# Preconditions

The checks that the procedures of `externals/structs/map.py`, `externals/structs/index_pool.py` and
`externals/os/memory.py` make of a call, next to the preconditions in the C headers. A
check is over terms of a fixed width, whose products wrap; a precondition is over integers.

`accepted_pre_iff` says of an accepted call, in every execution that agrees with the state, when
the precondition holds: the capacity of `map_alloc` and the size of `index_pool_alloc` are
not checked at all, as a product of 64 bits is never above `SIZE_MAX`, and `map_set` takes a quarter of
the first element of the key only.
-/
import Klint.Os.Memory
import Klint.Structs.IndexPool
import Klint.Tool.Runs
import Klint.Tool.SymHeap

namespace Klint
namespace Tool
namespace Contracts

open SymHeap

variable (be : Backend) (fuel : ℕ)

/-- `mapp`, with the current maps; `key_size` is in bytes. -/
structure Mapp where
  keySize : ℕ
  capacity : BV
  values : Map
  addrs : Map

/-- `poolp` -/
structure Poolp where
  size : BV
  expirationTime : BV
  items : Map

/-! ### The checks -/

def mapAlloc (keySize capacity : BV) : GM Unit :=
  if keySize.symbolic then Logged.fail  -- "key_size cannot be symbolic"
  else requireTrue be (be.ule (be.mul capacity (bvv sizeT 64)) (bvv sizeT (2 ^ sizeT - 1)))

def mapSet (mapp : Mapp) (keyPtr : Address) : GM Unit := do
  let key ← read be fuel keyPtr mapp.keySize
  let _ ← take be fuel (some (bvv 8 25)) keyPtr
  let values ← object mapp.values
  let value ← Map.get be fuel mapp.values key none (.boolV true)
  let addr ← Map.get be fuel mapp.addrs key none (.boolV true)
  requireTrue be (be.conj [be.ult values.length mapp.capacity, be.not value.2, be.not addr.2])

def mapRemove (mapp : Mapp) (keyPtr : Address) : GM Unit := do
  let key ← read be fuel keyPtr mapp.keySize
  let frac ← take be fuel none keyPtr
  let value ← Map.get be fuel mapp.values key none (.boolV true)
  let addr ← Map.get be fuel mapp.addrs key none (.boolV true)
  let addr' ← Map.get be fuel mapp.addrs key none (.boolV true)
  requireTrue be (be.conj [be.ne frac.1 (bvv 8 0), value.2, addr.2, be.eq addr'.1 keyPtr.term])

/-- `state.sizes.uint64_t`, in bits. -/
def uint64T : ℕ := 64

def indexPoolAlloc (size : BV) : GM Unit :=
  requireTrue be (be.ule (be.mul size (bvv sizeT uint64T)) (bvv sizeT (2 ^ sizeT - 1)))

/-- `memory.load` of an out parameter, in the heap or not. -/
def loadOut (out : Option Address) (size : ℕ) : GM Unit :=
  match out with
  | none => pure ()
  | some p => do
    let _ ← read be fuel p size

/-- An address when the elements of another one's array have a new version. -/
def rebased (p : Address) (elems : Map) (q : Address) : Address :=
  { q with base := { q.base with elems := if q.base.addr = p.base.addr then elems else q.base.elems } }

/-- `memory.store` to an out parameter; the other one may be in the same array. -/
def storeOut (out : Option Address) (value : BV) (other : Option Address) : GM (Option Address) :=
  match out with
  | none => pure other
  | some p => do
    let elems ← write be fuel p value
    pure (other.map (rebased p elems))

def indexPoolBorrow (time : BV) (outIndex outUsed : Option Address) : GM Unit := do
  requireTrue be (be.ne time (bvv uint64T (2 ^ 64 - 1)))
  loadOut be fuel outIndex (sizeT / 8)
  loadOut be fuel outUsed 1
  let index ← freshSym
  let used ← freshSym
  let outUsed ← storeOut be fuel outIndex (.bvs (.sym index) sizeT) outUsed
  let _ ← storeOut be fuel outUsed (.bvs (.sym used) 8) none

def indexPoolRefresh (poolp : Poolp) (time index : BV) : GM Unit :=
  requireTrue be (be.conj [be.ne time (bvv uint64T (2 ^ 64 - 1)), be.ult index poolp.size])

def indexPoolReturn (poolp : Poolp) (index : BV) : GM Unit := requireTrue be (be.ult index poolp.size)

def osMemoryAlloc (count size : BV) : GM Unit :=
  if size.symbolic then Logged.fail  -- "size cannot be symbolic"
  else requireTrue be (be.or (be.eq count (bvv sizeT 1))
    (be.ule (be.mul (be.zeroExt sizeT count) (be.zeroExt sizeT size)) (bvv (sizeT + sizeT) (2 ^ sizeT - 1))))

/-- A call of one of the procedures. -/
inductive Procedure
  | mapAlloc (keySize capacity : BV)
  | mapSet (mapp : Mapp) (keyPtr : Address)
  | mapRemove (mapp : Mapp) (keyPtr : Address)
  | indexPoolAlloc (size expirationTime : BV)
  | indexPoolBorrow (poolp : Poolp) (time : BV) (outIndex outUsed : Option Address)
  | indexPoolRefresh (poolp : Poolp) (time index : BV)
  | indexPoolReturn (poolp : Poolp) (index : BV)
  | osMemoryAlloc (count size : BV)

/-- The checks of a call: it returns if they pass. -/
def Procedure.check : Procedure → GM Unit
  | .mapAlloc keySize capacity => Contracts.mapAlloc be keySize capacity
  | .mapSet mapp keyPtr => Contracts.mapSet be fuel mapp keyPtr
  | .mapRemove mapp keyPtr => Contracts.mapRemove be fuel mapp keyPtr
  | .indexPoolAlloc size _ => Contracts.indexPoolAlloc be size
  | .indexPoolBorrow _ time outIndex outUsed => Contracts.indexPoolBorrow be fuel time outIndex outUsed
  | .indexPoolRefresh poolp time index => Contracts.indexPoolRefresh be poolp time index
  | .indexPoolReturn poolp index => Contracts.indexPoolReturn be poolp index
  | .osMemoryAlloc count size => Contracts.osMemoryAlloc be count size

/-! ### The preconditions -/

section Pre

variable (x : Exec)

/-- `[frac]chars(p, size, _)`, of a part of the heap and in hundredths. -/
def Chars (frac : ℕ) (p : Address) (size : ℕ) : Prop := ∀ j, j * p.base.writeSize < size * 8 + p.offset →
  p.index.eval x.env + j < p.base.count.eval x.env ∧
    ∃ f ∈ p.base.fractions, (x.content f (p.index.eval x.env + j)).2 = true ∧
      frac ≤ (x.content f (p.index.eval x.env + j)).1

/-- `*out |-> _`, of an out parameter of some bytes; one that is not in the heap is the caller's variable. -/
def PointsTo (out : Option Address) (size : ℕ) : Prop := ∀ p ∈ out, ∀ j, j * p.base.writeSize < size * 8 + p.offset →
  p.index.eval x.env + j < p.base.count.eval x.env ∧ p.base.Writable x (p.index.eval x.env + j)

/-- The `requires` of the C function, of the call in an execution. -/
def Procedure.Pre : Procedure → Prop
  | .mapAlloc _ capacity => capacity.eval x.env * 64 ≤ sizeMax
  | .mapSet mapp keyPtr =>
    keyPtr.term.eval x.env ≠ 0 ∧ Chars x 25 keyPtr mapp.keySize ∧
      (x.content mapp.values).size (mapp.keySize * 8) < mapp.capacity.eval x.env ∧
      (x.content mapp.values (keyPtr.value x mapp.keySize)).2 = false ∧
      (x.content mapp.addrs (keyPtr.value x mapp.keySize)).2 = false
  | .mapRemove mapp keyPtr =>
    keyPtr.term.eval x.env ≠ 0 ∧ (∃ frac ≠ 0, Chars x frac keyPtr mapp.keySize) ∧
      (x.content mapp.values (keyPtr.value x mapp.keySize)).2 = true ∧
      x.content mapp.addrs (keyPtr.value x mapp.keySize) = (keyPtr.term.eval x.env, true)
  | .indexPoolAlloc size _ => size.eval x.env * 8 ≤ sizeMax
  | .indexPoolBorrow _ time outIndex outUsed =>
    time.eval x.env ≠ timeMax ∧ PointsTo x outIndex 8 ∧ PointsTo x outUsed 1
  | .indexPoolRefresh poolp time index => time.eval x.env ≠ timeMax ∧ index.eval x.env < poolp.size.eval x.env
  | .indexPoolReturn poolp index => index.eval x.env < poolp.size.eval x.env
  | .osMemoryAlloc count size => count.eval x.env * size.eval x.env ≤ sizeMax

/-- When an accepted call meets the precondition: the capacity and the size are below a bound, and a quarter of
the elements that the key goes on into, after the one it starts in, is owned. -/
def Procedure.Within : Procedure → Prop
  | .mapAlloc _ capacity => capacity.eval x.env < 2 ^ 58
  | .mapSet mapp keyPtr => ∀ j, 0 < j → j * keyPtr.base.writeSize < mapp.keySize * 8 →
    ∀ f ∈ keyPtr.base.fractions, 25 ≤ (x.content f (keyPtr.index.eval x.env + j)).1
  | .indexPoolAlloc size _ => size.eval x.env < 2 ^ 61
  | _ => True

end Pre

/-! ### What a state says of a call -/

variable {be fuel} {x x' : Exec} {st st' : State}

structure Mapp.Ok (st : State) (mapp : Mapp) : Prop where
  capacity : mapp.capacity.Closed st.next
  values : mapp.values ∈ st.created
  valuesMeta : (st.heap mapp.values).mapMeta = ⟨mapp.keySize * 8, sizeT⟩
  addrs : mapp.addrs ∈ st.created
  addrsMeta : (st.heap mapp.addrs).mapMeta = ⟨mapp.keySize * 8, sizeT⟩

/-- The terms and the maps of a call are of the state, with the sizes of their C types. -/
def Procedure.Described (x : Exec) (st : State) : Procedure → Prop
  | .mapSet mapp keyPtr => mapp.Ok st ∧ keyPtr.Ok x st
  | .mapRemove mapp keyPtr => mapp.Ok st ∧ keyPtr.Ok x st
  | .indexPoolBorrow _ _ outIndex outUsed => (∀ p ∈ outIndex, p.Ok x st) ∧ (∀ p ∈ outUsed, p.Ok x st) ∧
    ∀ p ∈ outIndex, ∀ q ∈ outUsed, q.base.addr = p.base.addr → q.base = p.base
  | .osMemoryAlloc count size => count.size = sizeT ∧ size.size = sizeT
  | _ => True

/-- What the program holds of the key's memory, after the checks of `map_set` and `map_remove`. -/
theorem key_chars {keyPtr : Address} {size frac : ℕ} (h0 : keyPtr.offset = 0)
    (hread : ∀ j, j * keyPtr.base.writeSize < size * 8 + keyPtr.offset →
      keyPtr.base.Readable x (keyPtr.index.eval x.env + j)) {f : Map} (hf : keyPtr.base.fractions = some f) :
    Chars x frac keyPtr size ↔ ∀ j, j * keyPtr.base.writeSize < size * 8 →
      frac ≤ (x.content f (keyPtr.index.eval x.env + j)).1 := by
  rw [Chars, h0, Nat.add_zero]
  rw [h0, Nat.add_zero] at hread
  constructor
  · intro h j hj
    obtain ⟨-, f', hf', -, hle⟩ := h j hj
    rw [hf] at hf'
    cases hf'
    exact hle
  · intro h j hj
    obtain ⟨hcount, howned⟩ := hread j hj
    exact ⟨hcount, f, hf, (howned f hf).1, h j hj⟩

/-- "There can never be something at NULL". -/
theorem notNull {keyPtr : Address} (hp : keyPtr.Ok x st) {f : Map} (hf : f ∈ keyPtr.base.fractions)
    (hpresent : (x.content f (keyPtr.index.eval x.env)).2 = true) (h0 : keyPtr.offset = 0) :
    keyPtr.term.eval x.env ≠ 0 := by
  have hlt : keyPtr.index.eval x.env < 2 ^ sizeT := hp.indexSize ▸ keyPtr.index.eval_lt x.env
  have hcount := hp.base.owned f hf _ hlt hpresent
  have hmul := Nat.mul_le_mul_right keyPtr.base.size hcount.le
  have hfits := hp.base.fits
  have hpos := hp.base.notNull
  rw [hp.resolved, h0, Nat.zero_div, Nat.add_zero, Nat.mod_eq_of_lt (by omega)]
  omega

/-- What `map_set` and `map_remove` know of the key when they have read it and taken a fraction of it. -/
structure KeyTaken (be : Backend) (x : Exec) (st : State) (keyPtr : Address) (size : ℕ) (fraction : Option BV)
    (key : BV)
    (frac : BV × Map) (f : Map) (x' : Exec) (st' : State) : Prop where
  sound : Sound be x' st'
  later : Later x st x' st'
  offset : keyPtr.offset = 0
  closed : key.Closed st'.next
  keySize : key.size = size * 8
  value : key.eval x'.env = keyPtr.value x size
  read : 0 < size → (keyPtr.base.block x).read (keyPtr.index.eval x.env) keyPtr.offset size false =
    some (bitsOf (size * 8) (keyPtr.value x size))
  readable : ∀ j, j * keyPtr.base.writeSize < size * 8 + keyPtr.offset →
    keyPtr.base.Readable x (keyPtr.index.eval x.env + j)
  fractions : keyPtr.base.fractions = some f
  present : (x.content f (keyPtr.index.eval x.env)).2 = true
  fracClosed : frac.1.Closed st'.next
  current : frac.1.eval x'.env = (x.content f (keyPtr.index.eval x.env)).1
  taken : ∀ t ∈ fraction, t.eval x.env ≤ (x.content f (keyPtr.index.eval x.env)).1

theorem wlp_keyTaken (h : Sound be x st) {keyPtr : Address} (hp : keyPtr.Ok x st) (size : ℕ) {fraction : Option BV}
    (hf : ∀ t ∈ fraction, t.Closed st.next) {k : BV → BV × Map → GM Unit} {Q : Unit → Exec → State → Prop}
    (hq : ∀ key frac f x' st', KeyTaken be x st keyPtr size fraction key frac f x' st' →
      replay.wlp (k key frac) Q x' st') :
    replay.wlp (do
      let key ← read be fuel keyPtr size
      let frac ← take be fuel fraction keyPtr
      k key frac) Q x st := by
  refine Replay.wlp_bind (Replay.wlp_mono (wlp_read h hp size) fun key x₁ st₁ hr => ?_)
  have hl₁ := hr.later
  refine Replay.wlp_bind (Replay.wlp_mono (wlp_take hr.sound (hp.later hl₁) fun t ht => (hf t ht).mono hl₁.next)
    fun frac x₂ st₂ ht => ?_)
  obtain ⟨hc, hs, hv⟩ := hr.value ht.offset
  obtain ⟨f, hfr, hpresent, hcurrent, htaken⟩ := ht.current
  have hcontent := hl₁.content _ (hp.base.fractions f hfr).1
  rw [hcontent, hl₁.agree.eval_bv hp.indexClosed] at hpresent hcurrent htaken
  refine hq key frac f x₂ st₂ ⟨ht.sound, hl₁.trans ht.later, ht.offset, hc.mono ht.later.next, hs, ?_, fun hpos => ?_,
    hr.readable, hfr, hpresent, ht.closed, hcurrent, fun t ht' => ?_⟩
  · rw [ht.later.agree.eval_bv hc, hv]
  · rw [hr.concrete hpos, bits, hs, hv]
  · rw [← hl₁.agree.eval_bv (hf t ht')]
    exact htaken t ht'

/-- A get of the key that was taken. -/
theorem KeyTaken.wlp_get {keyPtr : Address} {size : ℕ} {fraction : Option BV} {key : BV} {frac : BV × Map} {f : Map}
    (hk : KeyTaken be x st keyPtr size fraction key frac f x' st') {m : Map} (hm : m ∈ st.created)
    (hmm : (st.heap m).mapMeta = ⟨size * 8, sizeT⟩) {Q : BV × BoolAst → Exec → State → Prop}
    (hq : ∀ r x'' st'', KeyTaken be x st keyPtr size fraction key frac f x'' st'' → Later x' st' x'' st'' →
      r.1.Closed st''.next → r.2.Closed st''.next →
      r.1.eval x''.env = (x.content m (keyPtr.value x size)).1 →
        r.2.eval x''.env = (x.content m (keyPtr.value x size)).2 →
      Q r x'' st'') : replay.wlp (Map.get be fuel m key none (.boolV true)) Q x' st' := by
  refine SymHeap.wlp_get hk.sound (hk.later.created m hm) hk.closed (by rw [hk.later.mapMeta m hm, hmm, hk.keySize])
    fun r x'' st'' h hl hc₁ hc₂ _ hv hp => hq r x'' st'' ?_ hl hc₁ hc₂ ?_ ?_
  · refine ⟨h, hk.later.trans hl, hk.offset, hk.closed.mono hl.next, hk.keySize, ?_, hk.read, hk.readable, hk.fractions,
      hk.present, hk.fracClosed.mono hl.next, ?_, hk.taken⟩
    · rw [hl.agree.eval_bv hk.closed, hk.value]
    · rw [hl.agree.eval_bv hk.fracClosed, hk.current]
  · rw [hv, hk.value, hk.later.content m hm]
  · rw [hp, hk.value, hk.later.content m hm]

/-- What the checks of `map_set` say: the key can be read, a quarter of its first element is owned, there is
room, and it is in neither map. -/
structure MapSetChecked (x : Exec) (mapp : Mapp) (keyPtr : Address) : Prop where
  notNull : keyPtr.term.eval x.env ≠ 0
  offset : keyPtr.offset = 0
  read : 0 < mapp.keySize → (keyPtr.base.block x).read (keyPtr.index.eval x.env) keyPtr.offset mapp.keySize false =
    some (bitsOf (mapp.keySize * 8) (keyPtr.value x mapp.keySize))
  readable : ∀ j, j * keyPtr.base.writeSize < mapp.keySize * 8 + keyPtr.offset →
    keyPtr.base.Readable x (keyPtr.index.eval x.env + j)
  first : ∃ f, keyPtr.base.fractions = some f ∧ (x.content f (keyPtr.index.eval x.env)).2 = true ∧
    25 ≤ (x.content f (keyPtr.index.eval x.env)).1
  room : (x.content mapp.values).size (mapp.keySize * 8) < mapp.capacity.eval x.env
  newValue : (x.content mapp.values (keyPtr.value x mapp.keySize)).2 = false
  newAddr : (x.content mapp.addrs (keyPtr.value x mapp.keySize)).2 = false

theorem wlp_mapSet_checked (h : Sound be x st) {mapp : Mapp} (hm : mapp.Ok st) {keyPtr : Address}
    (hp : keyPtr.Ok x st) :
    replay.wlp (mapSet be fuel mapp keyPtr) (fun _ _ _ => MapSetChecked x mapp keyPtr) x st := by
  refine wlp_keyTaken h hp mapp.keySize (fun t ht => ?_) fun key frac f x₁ st₁ hk => ?_
  · cases ht
    exact Claripy.closed_bvv _ _
  refine Replay.wlp_bind (wlp_object ?_)
  refine Replay.wlp_bind (hk.wlp_get hm.values hm.valuesMeta fun value x₂ st₂ hk₂ hl₂ _ hc₂ _ hvalue => ?_)
  refine Replay.wlp_bind (hk₂.wlp_get hm.addrs hm.addrsMeta fun addr x₃ st₃ hk₃ hl₃ _ _ _ haddr => ?_)
  refine wlp_requireTrue hk₃.sound fun hcond => ?_
  have hlength : (st₁.heap mapp.values).length.eval x₃.env = (x.content mapp.values).size (mapp.keySize * 8) := by
    rw [hk.later.length _ hm.values, hk₃.later.agree.eval_bv (h.map _ hm.values).lengthClosed,
      (h.map _ hm.values).size, hm.valuesMeta]
  simp only [Claripy.eval_conj, List.mem_cons, List.not_mem_nil, or_false, forall_eq_or_imp, forall_eq,
    Claripy.eval_ult,
    Claripy.eval_not, decide_eq_true_eq, Bool.not_eq_true', hlength, hk₃.later.agree.eval_bv hm.capacity, haddr,
    hl₃.agree.eval_bool hc₂, hvalue] at hcond
  have hfirst : 25 ≤ (x.content f (keyPtr.index.eval x.env)).1 := hk.taken (bvv 8 25) rfl
  exact ⟨notNull hp hk.fractions hk.present hk.offset, hk.offset, hk.read, hk.readable,
    ⟨f, hk.fractions, hk.present, hfirst⟩, hcond.1, hcond.2.1, hcond.2.2⟩

/-- The checks are the precondition, where the elements that the key goes on into are owned. -/
theorem MapSetChecked.pre_iff {mapp : Mapp} {keyPtr : Address} (hc : MapSetChecked x mapp keyPtr) :
    (Procedure.mapSet mapp keyPtr).Pre x ↔ (Procedure.mapSet mapp keyPtr).Within x := by
  obtain ⟨f, hf, -, hfirst⟩ := hc.first
  simp only [Procedure.Pre, Procedure.Within, key_chars hc.offset hc.readable hf]
  constructor
  · rintro ⟨-, hchars, -⟩ j - hj f' hf'
    rw [hf] at hf'
    cases hf'
    exact hchars j hj
  · intro hwithin
    refine ⟨hc.notNull, fun j hj => ?_, hc.room, hc.newValue, hc.newAddr⟩
    rcases Nat.eq_zero_or_pos j with rfl | hpos
    · exact hfirst
    · exact hwithin j hpos hj f hf

theorem wlp_mapSet (h : Sound be x st) {mapp : Mapp} (hm : mapp.Ok st) {keyPtr : Address} (hp : keyPtr.Ok x st) :
    replay.wlp (mapSet be fuel mapp keyPtr)
      (fun _ _ _ => (Procedure.mapSet mapp keyPtr).Pre x ↔ (Procedure.mapSet mapp keyPtr).Within x) x st :=
  Replay.wlp_mono (wlp_mapSet_checked h hm hp) fun _ _ _ hc => hc.pre_iff

theorem wlp_mapRemove (h : Sound be x st) {mapp : Mapp} (hm : mapp.Ok st) {keyPtr : Address} (hp : keyPtr.Ok x st) :
    replay.wlp (mapRemove be fuel mapp keyPtr) (fun _ _ _ => (Procedure.mapRemove mapp keyPtr).Pre x) x st := by
  refine wlp_keyTaken h hp mapp.keySize (fun t ht => by cases ht) fun key frac f x₁ st₁ hk => ?_
  refine Replay.wlp_bind (hk.wlp_get hm.values hm.valuesMeta fun value x₂ st₂ hk₂ hl₂ _ hc₂ _ hvalue => ?_)
  refine Replay.wlp_bind (hk₂.wlp_get hm.addrs hm.addrsMeta fun addr x₃ st₃ hk₃ hl₃ _ hc₃ _ haddr => ?_)
  refine Replay.wlp_bind (hk₃.wlp_get hm.addrs hm.addrsMeta fun addr' x₄ st₄ hk₄ hl₄ _ _ haddr' _ => ?_)
  refine wlp_requireTrue hk₄.sound fun hcond => ?_
  simp only [Claripy.eval_conj, List.mem_cons, List.not_mem_nil, or_false, forall_eq_or_imp, forall_eq, Claripy.eval_ne,
    Claripy.eval_eq, beq_iff_eq, (hl₃.trans hl₄).agree.eval_bool hc₂, hvalue, hl₄.agree.eval_bool hc₃, haddr, haddr',
    hk₄.later.agree.eval_bv hp.termClosed] at hcond
  obtain ⟨-, hpresent, hbound, haddr⟩ := hcond
  refine ⟨notNull hp hk.fractions hk.present hk.offset, ⟨1, Nat.one_ne_zero, ?_⟩, hpresent, Prod.ext haddr hbound⟩
  rw [key_chars hk.offset hk.readable hk.fractions]
  intro j hj
  rw [← Nat.add_zero (mapp.keySize * 8), ← hk.offset] at hj
  exact Nat.one_le_iff_ne_zero.mpr ((hk.readable j hj).2 f hk.fractions).2

/-! ### The out parameters -/

theorem wlp_loadOut (h : Sound be x st) {out : Option Address} (hout : ∀ p ∈ out, p.Ok x st) {size : ℕ}
    {Q : Unit → Exec → State → Prop} (hq : ∀ x' st', Sound be x' st' → Later x st x' st' →
      (∀ p ∈ out, ∀ j, j * p.base.writeSize < size * 8 + p.offset → p.index.eval x.env + j < p.base.count.eval x.env) →
      Q () x' st') : replay.wlp (loadOut be fuel out size) Q x st := by
  rcases out with _ | p
  · exact Replay.wlp_pure (hq x st h (Later.refl x st) fun p hp => by cases hp)
  · refine Replay.wlp_bind (Replay.wlp_mono (wlp_read h (hout p rfl) size) fun r x' st' hr => Replay.wlp_pure ?_)
    refine hq x' st' hr.sound hr.later fun p' hp j hj => ?_
    cases hp
    exact (hr.readable j hj).1

/-- The other parameter is still an address when one has been written. -/
theorem rebased_ok {p q : Address} (hp : p.Ok x st) (hq : q.Ok x st)
    (hsame : q.base.addr = p.base.addr → q.base = p.base)
    {elems : Map} {i total : ℕ} (hw : Wrote be x st p.base i total elems x' st') : (rebased p elems q).Ok x' st' := by
  have hq' := hq.later hw.later
  by_cases ha : q.base.addr = p.base.addr
  · have hb := hsame ha
    have hbase : (rebased p elems q).base = { q.base with elems := elems } := by rw [rebased, if_pos ha]
    refine ⟨hq'.termClosed, hq'.termSize, ?_, hq'.indexClosed, hq'.indexSize, hq'.offset, hq'.resolved⟩
    rw [hbase]
    refine ⟨hq'.base.addrClosed, hq'.base.countClosed, hq'.base.countSize, hw.created, ?_, hq'.base.fractions,
      hq'.base.notNull, hq'.base.fits, ?_, hq'.base.owned⟩
    · rw [hw.mapMeta, ← hb]
      rfl
    · intro k hk hpresent
      have hlt := hw.present k hk hpresent
      rw [← hw.later.agree.eval_bv hp.base.countClosed, ← hb] at hlt
      exact hlt
  · have hbase : rebased p elems q = q := by rw [rebased, if_neg ha]
    rw [hbase]
    exact hq'

theorem wlp_storeOut (h : Sound be x st) {out other : Option Address} (hout : ∀ p ∈ out, p.Ok x st)
    (hother : ∀ q ∈ other, q.Ok x st) (hsame : ∀ p ∈ out, ∀ q ∈ other, q.base.addr = p.base.addr → q.base = p.base)
    {value : BV} (hc : value.Closed st.next) (h0 : 0 < value.size)
    (hcount : ∀ p ∈ out, ∀ j, j * p.base.writeSize < value.size + p.offset →
      p.index.eval x.env + j < p.base.count.eval x.env) {Q : Option Address → Exec → State → Prop}
    (hq : ∀ f x' st', Sound be x' st' → Later x st x' st' → (∀ q ∈ other, (f q).Ok x' st') →
      (∀ q : Address, f q = { q with base := { q.base with elems := (f q).base.elems } }) →
      (∀ p ∈ out, ∀ j, j * p.base.writeSize < value.size + p.offset → p.base.Writable x (p.index.eval x.env + j)) →
      Q (other.map f) x' st') : replay.wlp (storeOut be fuel out value other) Q x st := by
  rcases out with _ | p
  · have hid : other = other.map fun q => q := Option.map_id'.symm
    rw [hid]
    exact Replay.wlp_pure (hq (fun q => q) x st h (Later.refl x st) hother (fun _ => rfl) fun p hp => by cases hp)
  · refine Replay.wlp_bind (Replay.wlp_mono (wlp_write h (hout p rfl) hc h0 (hcount p rfl)) fun elems x' st' ⟨hw, _⟩ =>
      Replay.wlp_pure ?_)
    refine hq (rebased p elems) x' st' hw.sound hw.later (fun q hq' => rebased_ok (hout p rfl) (hother q hq')
      (hsame p rfl q hq') hw) (fun _ => rfl) fun p' hp j hj => ?_
    cases hp
    exact hw.writable j hj

theorem quiet_freshSym : Quiet be x st x { st with next := st.next + 1 } where
  next := Nat.le_succ _
  agree := Exec.Agree.refl _ x
  content := rfl
  execMaps := rfl
  created := rfl
  table := rfl
  heap := SameList.refl st.heap
  constraints _ hc := Or.inl hc

theorem closed_sym {k n s : ℕ} (h : k < n) : (BV.bvs (.sym k) s).Closed n := h

theorem wlp_indexPoolBorrow (h : Sound be x st) {time : BV} {outIndex outUsed : Option Address}
    (hi : ∀ p ∈ outIndex, p.Ok x st) (hu : ∀ p ∈ outUsed, p.Ok x st)
    (hsame : ∀ p ∈ outIndex, ∀ q ∈ outUsed, q.base.addr = p.base.addr → q.base = p.base) :
    replay.wlp (indexPoolBorrow be fuel time outIndex outUsed)
      (fun _ _ _ => time.eval x.env ≠ timeMax ∧ PointsTo x outIndex 8 ∧ PointsTo x outUsed 1) x st := by
  refine Replay.wlp_bind (wlp_requireTrue h fun htime => ?_)
  refine Replay.wlp_bind (wlp_loadOut h hi fun x₁ st₁ h₁ hl₁ hicount => ?_)
  have hu₁ := fun p hp => (hu p hp).later hl₁
  refine Replay.wlp_bind (wlp_loadOut h₁ hu₁ fun x₂ st₂ h₂ hl₂ hucount => ?_)
  refine Replay.wlp_bind (wlp_freshSym (Replay.wlp_bind (wlp_freshSym ?_)))
  have hq₁ := @quiet_freshSym be x₂ st₂
  have hq₂ := @quiet_freshSym be x₂ { st₂ with next := st₂.next + 1 }
  have h₄ := hq₂.sound (hq₁.sound h₂)
  have hl₄ := (hl₁.trans hl₂).trans (hq₁.later.trans hq₂.later)
  have hl₁₄ := hl₂.trans (hq₁.later.trans hq₂.later)
  refine Replay.wlp_bind (wlp_storeOut h₄ (fun p hp => (hi p hp).later hl₄) (fun q hq => (hu q hq).later hl₄) hsame
    (closed_sym (Nat.lt_succ_of_lt (Nat.lt_succ_self st₂.next))) (show 0 < sizeT by decide) (fun p hp j hj => ?_)
    fun f x₅ st₅ h₅ hl₅ hok hsames hwi => ?_)
  · rw [hl₄.agree.eval_bv (hi p hp).indexClosed, hl₄.agree.eval_bv (hi p hp).base.countClosed]
    exact hicount p hp j hj
  have hl := hl₄.trans hl₅
  refine Replay.wlp_bind (wlp_storeOut h₅ (fun p hp => ?_) (fun q hq => by cases hq) (fun p _ q hq => by cases hq)
    ((closed_sym (Nat.lt_succ_self (st₂.next + 1))).mono hl₅.next) (show 0 < 8 by decide) (fun p hp j hj => ?_)
    fun f' x₆ st₆ h₆ hl₆ _ _ hwu => Replay.wlp_pure ?_)
  · obtain ⟨q, hq, rfl⟩ := Option.map_eq_some_iff.mp hp
    exact hok q hq
  · obtain ⟨q, hq, rfl⟩ := Option.map_eq_some_iff.mp hp
    rw [hsames q] at hj ⊢
    rw [hl.agree.eval_bv (hu q hq).indexClosed, hl.agree.eval_bv (hu q hq).base.countClosed,
      ← hl₁.agree.eval_bv (hu q hq).indexClosed, ← hl₁.agree.eval_bv (hu q hq).base.countClosed]
    exact hucount q hq j hj
  · refine ⟨?_, fun p hp j hj => ⟨hicount p hp j hj, ?_⟩, fun q hq j hj => ⟨?_, ?_⟩⟩
    · rw [Claripy.eval_ne, bne_iff_ne] at htime
      exact htime
    · have hw := hwi p hp j hj
      rw [hl₄.agree.eval_bv (hi p hp).indexClosed] at hw
      exact hw.of_later hl₄ (hi p hp).base
    · rw [← hl₁.agree.eval_bv (hu q hq).indexClosed, ← hl₁.agree.eval_bv (hu q hq).base.countClosed]
      exact hucount q hq j hj
    · have hw := hwu (f q) (Option.map_eq_some_iff.mpr ⟨q, hq, rfl⟩) j (by rw [hsames q]; exact hj)
      rw [hsames q] at hw
      rw [← hl.agree.eval_bv (hu q hq).indexClosed]
      exact Allocation.Writable.of_later hl (hu q hq).base hw

/-! ### Accepted calls -/

/-- The product is of 128 bits, so it does not wrap. -/
theorem wlp_osMemoryAlloc (h : Sound be x st) {count size : BV} (hcount : count.size = sizeT)
    (hsize : size.size = sizeT) :
    replay.wlp (osMemoryAlloc be count size) (fun _ _ _ => count.eval x.env * size.eval x.env ≤ sizeMax) x st := by
  have hc : count.eval x.env < 2 ^ sizeT := hcount ▸ count.eval_lt x.env
  have hs : size.eval x.env < 2 ^ sizeT := hsize ▸ size.eval_lt x.env
  have hproduct : count.eval x.env * size.eval x.env < 2 ^ (sizeT + sizeT) := by
    rw [pow_add]
    exact Nat.mul_lt_mul'' hc hs
  have hmax : 2 ^ sizeT - 1 < 2 ^ (sizeT + sizeT) :=
    (Nat.sub_one_lt (Nat.two_pow_pos _).ne').trans (Nat.pow_lt_pow_right Nat.one_lt_two (by decide))
  unfold osMemoryAlloc
  split
  · exact Replay.wlp_fail
  · refine wlp_requireTrue h fun hcond => ?_
    rw [Claripy.eval_or, Bool.or_eq_true, Claripy.eval_eq, beq_iff_eq, Claripy.eval_ule, decide_eq_true_eq,
      Claripy.eval_mul, Claripy.eval_zeroExt, Claripy.eval_zeroExt, Claripy.size_zeroExt, hcount, Claripy.eval_bvv,
      Claripy.eval_bvv, Nat.mod_eq_of_lt hproduct, Nat.mod_eq_of_lt hmax,
        Nat.mod_eq_of_lt (Nat.one_lt_two_pow (by decide))]
      at hcond
    rcases hcond with hone | hle
    · rw [hone, Nat.one_mul]
      exact Nat.le_sub_one_of_lt hs
    · exact hle

theorem wlp_check (h : Sound be x st) : ∀ {call : Procedure}, call.Described x st →
    replay.wlp (call.check be fuel) (fun _ _ _ => call.Pre x ↔ call.Within x) x st
  | .mapAlloc _ capacity, _ => fun _ _ _ _ _ => by
    simp only [Procedure.Pre, Procedure.Within, sizeMax]
    omega
  | .mapSet _ _, hc => wlp_mapSet h hc.1 hc.2
  | .mapRemove _ _, hc => Replay.wlp_mono (wlp_mapRemove h hc.1 hc.2) fun _ _ _ hpre => iff_of_true hpre trivial
  | .indexPoolAlloc size _, _ => fun _ _ _ _ _ => by
    simp only [Procedure.Pre, Procedure.Within, sizeMax]
    omega
  | .indexPoolBorrow _ _ _ _, hc => Replay.wlp_mono (wlp_indexPoolBorrow h hc.1 hc.2.1 hc.2.2)
    fun _ _ _ hpre => iff_of_true hpre trivial
  | .indexPoolRefresh poolp time index, _ => wlp_requireTrue h fun hcond => by
    simp only [Claripy.eval_conj, List.mem_cons, List.not_mem_nil, or_false, forall_eq_or_imp, forall_eq,
      Claripy.eval_ult, decide_eq_true_eq, Claripy.eval_ne, bne_iff_ne] at hcond
    exact iff_of_true hcond trivial
  | .indexPoolReturn _ _, _ => wlp_requireTrue h fun hcond => by
    rw [Claripy.eval_ult, decide_eq_true_eq] at hcond
    exact iff_of_true hcond trivial
  | .osMemoryAlloc _ _, hc => Replay.wlp_mono (wlp_osMemoryAlloc h hc.1 hc.2) fun _ _ _ hpre => iff_of_true hpre trivial

/-- **Preconditions.** For every state and every call that its procedure accepts, in every execution that agrees with
the state and with the gets of the check: the precondition of the C function holds exactly when the
capacity of `map_alloc` is below 2^58, the size of `index_pool_alloc` below 2^61, and, for `map_set`, a quarter of
every further element of the key is owned; for the other five procedures always. -/
theorem accepted_pre_iff (be : Backend) (fuel : ℕ) (x : Exec) (st : State) (h : Sound be x st) (call : Procedure)
    (hcall : call.Described x st) (st' : State) (l : List Event) (haccepted : call.check be fuel st = some ((), st', l))
    (hok : replay.Ok x l) : call.Pre x ↔ call.Within x :=
  wlp_check h hcall () st' l haccepted hok

namespace Borrowing

/-- What the calls ask the solver. -/
def conditions : List BoolAst := [.cmp .ule (bvv 64 1) (bvv 64 1), .cmp .ne (bvv 64 5) (bvv 64 (2 ^ 64 - 1)),
  .boolV true, .and (.boolV true) (.cmp .ne (bvv 8 100) (bvv 8 0)),
  .and (.boolV true) (.cmp .eq (bvv 8 100) (bvv 8 100))]

theorem not_conditions : ∀ c ∈ conditions.map BoolAst.not, ∀ ι, c.eval ι = false := by
  intro c hc ι
  simp only [conditions, List.map_cons, List.map_nil, List.mem_cons, List.not_mem_nil, or_false] at hc
  rcases hc with rfl | rfl | rfl | rfl | rfl <;> rfl

def solver : Backend := refuting (conditions.map .not) not_conditions

/-- An array of one element of 8 bytes that the program owns. -/
def elems : Map := .layer 1 (.oldest 0)
def fractions : Map := .layer 3 (.oldest 2)

def s₁ : State := after (Map.new solver 2 ⟨64, 64⟩ (some (bvv 64 1, [.boolV true])) (State.initial 0 []))
def s₂ : State := after (Map.set solver 2 (.oldest 0) (bvv 64 0) (bvv 64 7) s₁)
def s₃ : State := after (Map.new solver 2 ⟨64, 8⟩ (some (bvv 64 1, [.boolV true])) s₂)
def s₄ : State := after (Map.set solver 2 (.oldest 2) (bvv 64 0) (bvv 8 100) s₃)

def inv (valueSize : ℕ) : MapInvariant := ⟨.boolV true, .bvs .KEY 64, .bvs .VALUE valueSize, .boolS .PRESENT⟩

/-- A map made and its item 0 set. -/
def log (m : Map) (id valueSize sym : ℕ) (value : BV) : List Event :=
  [.new m sym (sym + 1) (sym + 2) ⟨64, valueSize⟩ (bvv 64 1),
   .given m (inv valueSize) ⟨.bvs (.sym sym) 64, .bvs (.sym (sym + 1)) valueSize, .boolS (.sym (sym + 2))⟩ 64,
   .fresh m (bvv 64 0) (sym + 3) (sym + 4) [] none (.boolV true) [inv valueSize],
   .layer (.layer id m) m ⟨bvv 64 0, value, .boolV true⟩ [] 64 64]

def calls : List Call :=
  [.new ⟨64, 64⟩ (some (bvv 64 1, [.boolV true])) (.oldest 0), .set (.oldest 0) (bvv 64 0) (bvv 64 7) elems,
   .new ⟨64, 8⟩ (some (bvv 64 1, [.boolV true])) (.oldest 2), .set (.oldest 2) (bvv 64 0) (bvv 8 100) fractions]

def events : List Event := log (.oldest 0) 1 64 0 (bvv 64 7) ++ log (.oldest 2) 3 8 5 (bvv 8 100)

theorem run : Tool.Run solver (State.initial 0 []) s₄ calls events := by
  have h₀ : Tool.Run solver (State.initial 0 []) (State.initial 0 []) [] [] := Run.nil
  have h₁ := h₀.extend (.new ⟨64, 64⟩ (some (bvv 64 1, [.boolV true])) (.oldest 0)) s₁ (events.take 2) ?_
    (eq_after (by decide))
  have h₂ := h₁.extend (.set (.oldest 0) (bvv 64 0) (bvv 64 7) elems) s₂ ((events.drop 2).take 2) ?_
    (eq_after (by decide))
  have h₃ := h₂.extend (.new ⟨64, 8⟩ (some (bvv 64 1, [.boolV true])) (.oldest 2)) s₃ ((events.drop 4).take 2) ?_
    (eq_after (by decide))
  have h₄ := h₃.extend (.set (.oldest 2) (bvv 64 0) (bvv 8 100) fractions) s₄ (events.drop 6) ?_
    (eq_after (by decide))
  · exact h₄
  · exact ⟨by decide, trivial, by decide, trivial, by decide⟩
  · exact legal_new_free (Claripy.closed_bvv _ _) _
  · exact ⟨by decide, trivial, by decide, trivial, by decide⟩
  · exact legal_new_free (Claripy.closed_bvv _ _) _

/-- A content of one item. -/
def single (v : ℕ) : Content := fun k => (v, decide (k < 1))

theorem size_single (v : ℕ) : (single v).size 64 = 1 := by
  have hfilter : (Finset.range (2 ^ 64)).filter (fun k => (single v k).2 = true) = {0} := by
    ext k
    simp only [single, Finset.mem_filter, Finset.mem_range, decide_eq_true_eq, Finset.mem_singleton]
    omega
  rw [Content.size, hfilter, Finset.card_singleton]

theorem size_put_le (c : Content) (a : ℕ × Bool) : (c.put 0 a).size 64 ≤ c.size 64 + 1 := by
  have hput := c.size_put 64 0 a (by decide)
  have ha := Bool.toNat_le a.2
  omega

theorem log_ok {x : Exec} {i id valueSize sym v : ℕ} {value : BV} (hx : x.content (.oldest i) = single v)
    (hv : v < 2 ^ valueSize) : replay.Ok x (log (.oldest i) id valueSize sym value) := by
  refine ⟨⟨fun _ _ => by rw [hx]; exact hv, ?_⟩, given_free rfl _ _, fresh_free rfl (sym + 3) (sym + 4) rfl ?_,
    ⟨?_, fun _ hi => (by cases hi)⟩, trivial⟩
  · rw [hx, size_single]
    rfl
  · exact fun _ hi => by cases hi
  · refine (size_put_le (x.content (.oldest i)) _).trans_lt ?_
    rw [hx, size_single]
    decide

/-- The execution in which the element is 7. -/
def exec : Exec := ⟨fun _ => 0, fun _ => true, fun m => single (if m = .oldest 0 then 7 else 100), [], fun _ => 0⟩

theorem ok : replay.Ok exec events := by
  rw [events, Replay.ok_append]
  exact ⟨log_ok rfl (by decide), log_ok rfl (by decide)⟩

theorem lt_of_single_put {v w k : ℕ} (h : ((single v).put 0 (w, true) k).2 = true) : k < 1 := by
  rw [Content.put_apply] at h
  split at h
  · omega
  · exact of_decide_eq_true h

/-- Where the pool's index goes. -/
def outIndex : Address := ⟨bvv 64 4096, ⟨bvv 64 4096, bvv 64 1, 8, elems, some fractions⟩, bvv 64 0, 0⟩

/-- At time 5, from a pool of 16. -/
def call : Procedure := .indexPoolBorrow ⟨bvv 64 16, bvv 64 10, .oldest 0⟩ (bvv 64 5) (some outIndex) none

/-- What the call writes. -/
def written : Event := .layer (.layer 4 elems) elems
  ⟨bvv 64 0, .extract 63 0 (.bvs (.sym 10) 64), .boolV true⟩ [] 64 64

theorem outIndex_ok {x : Exec} (helems : x.content elems = (single 7).put 0 (7, true))
    (hfractions : x.content fractions = (single 100).put 0 (100, true)) : outIndex.Ok x s₄ where
  termClosed := Claripy.closed_bvv _ _
  termSize := rfl
  base := {
    addrClosed := Claripy.closed_bvv _ _
    countClosed := Claripy.closed_bvv _ _
    countSize := rfl
    elems := by decide
    elemsMeta := by decide
    fractions := fun f hf => by
      cases hf
      decide
    notNull := show 4096 ≠ 0 by decide
    fits := show 4096 + 1 * 8 < 2 ^ 64 by decide
    present := fun k _ hk => by
      rw [show outIndex.base.elems = elems from rfl, helems] at hk
      exact lt_of_single_put hk
    owned := fun f hf k _ hk => by
      cases hf
      rw [hfractions] at hk
      exact lt_of_single_put hk }
  indexClosed := Claripy.closed_bvv _ _
  indexSize := rfl
  offset := by decide
  resolved := rfl

end Borrowing

open Borrowing in
/-- The pool's index is written to the array. -/
theorem accepted_pre_iff_borrowed : ∃ st' l, call.check solver 2 s₄ = some ((), st', l) ∧
    call.Pre (replay.run exec events) := by
  obtain ⟨hsound, -, hcalls⟩ := run.sound (sound_initial solver exec 0) ok
  have helems : (replay.run exec events).content elems = (single 7).put 0 (7, true) :=
    (hcalls (.set (.oldest 0) (bvv 64 0) (bvv 64 7) elems) (by simp [calls])).2
  have hfractions : (replay.run exec events).content fractions = (single 100).put 0 (100, true) :=
    (hcalls (.set (.oldest 2) (bvv 64 0) (bvv 8 100) fractions) (by simp [calls])).2
  have haccepted : call.check solver 2 s₄ = some ((), after (call.check solver 2 s₄), [written]) := eq_after (by decide)
  refine ⟨_, _, haccepted, (accepted_pre_iff solver 2 _ s₄ hsound call ⟨?_, ?_, ?_⟩ _ _ haccepted
    ⟨⟨?_, ?_⟩, trivial⟩).mpr trivial⟩
  · intro p hp
    cases hp
    exact outIndex_ok helems hfractions
  · exact fun p hp => by cases hp
  · exact fun p _ q hq => by cases hq
  · refine (size_put_le _ _).trans_lt ?_
    rw [helems]
    refine (Nat.add_le_add_right (size_put_le _ _) 1).trans_lt ?_
    rw [size_single]
    decide
  · exact fun _ hi => by cases hi

/-- An execution in which every symbol is a number, without maps. -/
def valued (n : ℕ) : Exec where
  bv := fun _ => n
  bool := fun _ => false
  content := fun _ _ => (0, false)
  maps := []
  unknown := fun _ => 0

/-- The capacity of the call that `map_alloc` should refuse. -/
def capacity : BV := .bvs (.sym 0) sizeT

/-- What `map_alloc` asserts of it. -/
def capacityFits : BoolAst := plain.ule (plain.mul capacity (bvv sizeT 64)) (bvv sizeT (2 ^ sizeT - 1))

theorem not_capacityFits : ∀ c ∈ [plain.not capacityFits], ∀ ι, c.eval ι = false := by
  intro c hc ι
  rw [List.mem_singleton.mp hc, Claripy.eval_not, capacityFits, Claripy.eval_ule, Claripy.eval_mul, Claripy.eval_bvv,
    Claripy.eval_bvv, Bool.not_eq_false', decide_eq_true_eq,
      Nat.mod_eq_of_lt (Nat.sub_one_lt (Nat.two_pow_pos sizeT).ne')]
  exact Nat.le_sub_one_of_lt (Nat.mod_lt _ (Nat.two_pow_pos _))

/-- A capacity of 2^58 is accepted. -/
theorem accepted_not_pre : ¬ ∀ (be : Backend) (fuel : ℕ) (x : Exec) (st : State), Sound be x st → ∀ call : Procedure,
    call.Described x st → ∀ st' l, call.check be fuel st = some ((), st', l) → replay.Ok x l → call.Pre x := by
  intro h
  have hpre := h (refuting [plain.not capacityFits] not_capacityFits) 0 (valued (2 ^ 58)) (State.initial 1 [])
    (sound_initial _ (valued (2 ^ 58)) 1) (.mapAlloc (bvv sizeT 16) capacity) trivial
      (State.initial 1 []) [] rfl trivial
  have hvalue : capacity.eval (valued (2 ^ 58)).env = 2 ^ 58 := by
    rw [capacity, eval_sym]
    rfl
  rw [Procedure.Pre, hvalue, sizeMax] at hpre
  omega

end Contracts
end Tool
end Klint
