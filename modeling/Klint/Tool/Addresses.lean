/-
# Addresses

`base_index_offset` of `tool/kalm/utils.py`. Of an address that is a sum it takes the addend that is a known
pointer as the base, and divides the rest by the size of an element. Both the remainder and the quotient are taken
term by term: `_modulo_simplify` leaves out the terms that are multiples of the size, and `_div_simplify` divides each
term alone, where it takes any coefficient that is a multiple of the size for the size itself. `baseIndexOffset_iff`
says when the address comes back.
-/
import Klint.Tool.MultAdd

namespace Klint
namespace Tool
namespace Evaluator

variable (ev : Evaluator) (constraints : List BoolAst)

/-! ### Remainders and quotients -/

/-- `(m % b == 0).is_true()` -/
def divides (b : BV) (m : Coeff) : Option Bool := do
  let r ← ev.checked .urem (m.toBV b.size) b
  pure (ev.isTrue (ev.eq r (bvv b.size 0)))

/-- Whether `_modulo_simplify` leaves a term out. -/
def leftOut (b : BV) (p : BV × Coeff) : Option Bool := do
  if ← ev.divides b (.bv p.1) then pure true else ev.divides b p.2

/-- `e * m` -/
def times (p : BV × Coeff) : Option BV := ev.checked .mul p.1 (p.2.toBV p.1.size)

/-- The loop of `_modulo_simplify`. -/
def keptSum (b : BV) : Terms → Coeff → Option Coeff
  | [], result => some result
  | p :: terms, result => do
    if ← ev.leftOut b p then keptSum b terms result
    else
      let t ← ev.times p
      let result ← ev.addC result (.bv t)
      keptSum b terms result

/-- `_modulo_simplify` -/
def moduloSimplify (a b : BV) : Option BV := do
  let terms ← ev.asMultAddOuter constraints a
  let result ← ev.keptSum b terms (.int 0)
  ev.checked .urem (result.toBV b.size) b

/-- `make_term` -/
def makeTerm (b : BV) (p : BV × Coeff) : Option BV := do
  if ← ev.divides b p.2 then pure p.1
  else
    let t ← ev.times p
    ev.checked .udiv t b

/-- `_div_simplify` -/
def divSimplify (a b : BV) : Option BV :=
  if ev.isTrue (ev.eq a (bvv a.size 0)) then some a
  else if ev.isTrue (ev.eq b (bvv b.size 1)) then some a
  else do
    let decomposed ← ev.asMultAddOuter constraints a
    let terms ← decomposed.mapM (ev.makeTerm b)
    pure (ev.sum terms)

/-! ### Base, index and offset -/

/-- `state.metadata.find`, in the metadata of one type: pointers, with the size of an element. -/
def find (metas : List (BV × BV)) (keys : List BV) : Option (Option (BV × BV)) :=
  match keys.flatMap fun key => metas.filter fun kv => decide (key = kv.1) with
  | [] => some none
  | [kv] => some (some kv)
  | _ => none

/-- Whether a concrete argument is in the first element of a concrete key. -/
def within (k size : BV) : List BV → Option Bool
  | [] => some false
  | arg :: args =>
    if arg.symbolic then within k size args
    else do
      let d ← ev.checked .sub arg k
      if d.size = size.size then
        if definitelyTrue ev.toBackend constraints (ev.ult d size) then pure true else within k size args
      else none

/-- "when we symbex JITed BPF code, the "arrays" are at fixed offsets" -/
def concreteBase (args : List BV) : List (BV × BV) → Option (Option (BV × BV))
  | [] => some none
  | (k, size) :: metas =>
    if k.symbolic then concreteBase args metas
    else do
      if ← ev.within constraints k size args then pure (some (k, size)) else concreteBase args metas

/-- The base in a sum with the size of its elements, and the address that the rest is taken of. -/
def locate (metas : List (BV × BV)) (addr : BV) : Option (Option (BV × BV × BV)) := do
  match ← find metas addr.addArgs with
  | some (base, size) => pure (some (base, size, addr))
  | none =>
    match ← ev.concreteBase constraints addr.addArgs metas with
    | some (base, size) =>
      let addr ← ev.checked .sub addr base
      let args ← addr.args
      -- "oops, my trick failed, need more complex handling"
      if base ∈ args then none else pure (some (base, size, addr))
    | none => pure none

/-- `sum((a for a in addr.args if not a.structurally_match(base)), claripy.BVV(0, addr.size()))` -/
def sumOthers (size : ℕ) (args : List BV) (base : BV) : BV :=
  ev.sumFrom (bvv size 0) (args.filter fun a => decide (a ≠ base))

/-- `added` -/
def added (addr base : BV) : Option BV := do
  let args ← addr.args
  if ∀ a ∈ args, a ≠ base → a.size = addr.size then some (ev.sumOthers addr.size args base) else none

/-- `base_index_offset`; the offset is in bits. -/
def baseIndexOffset (metas : List (BV × BV)) (fuel : ℕ) (addr : BV) (allowFailure : Bool) :
    Option (Option (BV × BV × ℕ)) := do
  let failure : Option (Option (BV × BV × ℕ)) := if allowFailure then some none else none
  let addr ← (ev.simplify constraints fuel addr (.boolV true)).toOption
  if addr.isAdd then
    match ← ev.locate constraints metas addr with
    | some (base, size, addr) =>
      let added ← ev.added addr base
      let remainder ← ev.moduloSimplify constraints added size
      let offset ← ev.evalOne constraints remainder
      let index ← ev.divSimplify constraints (ev.sub added (bvv added.size offset)) size
      pure (some (base, index, offset * 8))
    | none => failure
  else
    match metas.lookup addr with
    | some _ => pure (some (addr, bvv addr.size 0, 0))
    | none => failure

/-! ### What is computed -/

variable {ev constraints} {n : ℕ} {x r : Coeff} {d : Terms} {b : BV} {p : BV × Coeff}

/-- What a term amounts to, modulo the size. -/
def amount (ι : Env) (p : BV × Coeff) : ℕ := p.1.eval ι * (p.2.toBV p.1.size).eval ι % 2 ^ p.1.size

theorem times_spec {t : BV} (h : ev.times p = some t) (hsize : p.1.size = n) :
    t.size = n ∧ p.2.Fits n ∧ ∀ ι, t.eval ι = amount ι p := by
  obtain ⟨hsz, rfl⟩ := checked_eq_some.mp h
  refine ⟨?_, ?_, fun ι => ?_⟩
  · rw [ev.size_bv, BV.size, BinOp.size, hsize]
    decide
  · rw [hsize] at hsz
    cases hm : p.2 with
    | int z => trivial
    | bv m =>
      rw [hm] at hsz
      exact hsz.symm
  · rw [ev.eval_bv, BV.eval, amount]
    simp [BinOp.apply, BinOp.size]

theorem amount_modEq (ι : Env) (hsize : p.1.size = n) :
    (amount ι p : ℤ) ≡ p.1.eval ι * p.2.val ι [ZMOD 2 ^ n] := by
  unfold amount
  push_cast
  rw [hsize]
  exact (Int.mod_modEq _ _).trans ((Coeff.toBV_val ι n p.2).mul_left _)

/-- The sum of the terms' amounts is the term that they stand for. -/
theorem amounts_modEq (ι : Env) (hd : d.Shape n) : ((d.map (amount ι)).sum : ℤ) ≡ d.value ι [ZMOD 2 ^ n] := by
  induction d with
  | nil => rfl
  | cons p d ih =>
    rw [List.map_cons, List.sum_cons, Terms.value_cons, Nat.cast_add]
    exact (amount_modEq ι (hd.sizes p List.mem_cons_self)).add (ih hd.tail)

/-- The terms that `_modulo_simplify` adds up. -/
def kept (ev : Evaluator) (b : BV) (d : Terms) : Terms := d.filter fun p => decide (ev.leftOut b p ≠ some true)

theorem divides_fits {t : Bool} {m : Coeff} (h : ev.divides b m = some t) : m.Fits b.size := by
  obtain ⟨r, hr, -⟩ := Option.bind_eq_some_iff.mp h
  obtain ⟨hsize, -⟩ := checked_eq_some.mp hr
  cases m with
  | int z => trivial
  | bv m => exact hsize

theorem keptSum_spec (h : ev.keptSum b d x = some r) (hsizes : ∀ p ∈ d, p.1.size = n) (hr : r.Fits n) :
    x.Fits n ∧ (ev.kept b d).Fit n ∧
      ∀ ι, r.val ι ≡ x.val ι + ((ev.kept b d).map (amount ι)).sum [ZMOD 2 ^ n] := by
  induction d generalizing x with
  | nil =>
    cases h
    exact ⟨hr, nofun, fun ι => by simp [kept]⟩
  | cons p d ih =>
    rw [List.forall_mem_cons] at hsizes
    rw [keptSum] at h
    obtain ⟨t, ht, h⟩ := Option.bind_eq_some_iff.mp h
    cases t with
    | true =>
      have hkept : ev.kept b (p :: d) = ev.kept b d := by simp [kept, ht]
      rw [hkept]
      exact ih h hsizes.2
    | false =>
      have hkept : ev.kept b (p :: d) = p :: ev.kept b d := by simp [kept, ht]
      obtain ⟨t, ht, h⟩ := Option.bind_eq_some_iff.mp h
      obtain ⟨next, hnext, h⟩ := Option.bind_eq_some_iff.mp h
      obtain ⟨-, hpfits, heval⟩ := times_spec ht hsizes.1
      obtain ⟨hnextfits, hfit, hval⟩ := ih h hsizes.2
      obtain ⟨hx, -, hval'⟩ := addC_val hnext hnextfits
      rw [hkept]
      refine ⟨hx, Terms.fit_cons.mpr ⟨hpfits, hfit⟩, fun ι => ?_⟩
      have hterm : (Coeff.bv t).val ι = amount ι p := by rw [Coeff.val, heval]
      rw [List.map_cons, List.sum_cons, Nat.cast_add, ← add_assoc, ← hterm]
      exact (hval ι).trans ((hval' ι).add_right _)

/-- A number below the modulus, from its residue. -/
theorem eq_mod_of_modEq {a c : ℕ} (h : (a : ℤ) ≡ c [ZMOD 2 ^ n]) (ha : a < 2 ^ n) : a = c % 2 ^ n := by
  have hnat : a ≡ c [MOD 2 ^ n] := (Int.natCast_modEq_iff).mp (by push_cast; exact h)
  rw [← hnat, Nat.mod_eq_of_lt ha]

/-- The terms are of the size that they are divided by. -/
theorem size_of_keptSum (h : ev.keptSum b (p :: d) x = some r) : p.1.size = b.size := by
  rw [keptSum] at h
  obtain ⟨t, ht, -⟩ := Option.bind_eq_some_iff.mp h
  obtain ⟨t', ht', -⟩ := Option.bind_eq_some_iff.mp ht
  exact divides_fits ht'

/-- **What `_modulo_simplify` computes**: the remainder of the sum of the terms that it keeps. -/
theorem moduloSimplify_spec {a rem : BV} (ha : a.Sized) (h : ev.moduloSimplify constraints a b = some rem) :
    ∃ d, ev.asMultAddOuter constraints a = some d ∧ ∀ ι, 0 < b.eval ι →
      rem.eval ι = ((ev.kept b d).map (amount ι)).sum % 2 ^ a.size % b.eval ι := by
  obtain ⟨d, hd, h⟩ := Option.bind_eq_some_iff.mp h
  obtain ⟨result, hresult, h⟩ := Option.bind_eq_some_iff.mp h
  obtain ⟨hsize, rfl⟩ := checked_eq_some.mp h
  obtain ⟨hshape, -⟩ := asMultAddOuter_spec ha hd
  refine ⟨d, hd, fun ι hb => ?_⟩
  have hrem : ∀ a' : BV, (ev.bv (.bin .urem a' b)).eval ι = a'.eval ι % b.eval ι % 2 ^ a'.size := by
    intro a'
    rw [ev.eval_bv, BV.eval]
    simp [BinOp.apply, BinOp.size, hb.ne']
  have hlt : (result.toBV b.size).eval ι % b.eval ι < 2 ^ (result.toBV b.size).size :=
    (Nat.mod_le _ _).trans_lt (BV.eval_lt ι _)
  rw [hrem, Nat.mod_eq_of_lt hlt]
  cases d with
  | nil =>
    cases hresult
    simp [kept, Coeff.toBV, BV.eval]
  | cons p d =>
    have hbsize : b.size = a.size := (size_of_keptSum hresult).symm.trans (hshape.sizes p List.mem_cons_self)
    have hfits : result.Fits a.size := by
      cases result with
      | int z => trivial
      | bv m => exact (show m.size = b.size from hsize).trans hbsize
    obtain ⟨-, -, hval⟩ := keptSum_spec hresult hshape.sizes hfits
    have hres : ((result.toBV b.size).eval ι : ℤ) ≡ ((ev.kept b (p :: d)).map (amount ι)).sum [ZMOD 2 ^ a.size] := by
      rw [hbsize]
      refine (Coeff.toBV_val ι a.size result).trans ((hval ι).trans ?_)
      simp [Coeff.val]
    have hlt : (result.toBV b.size).eval ι < 2 ^ a.size :=
      calc (result.toBV b.size).eval ι < 2 ^ (result.toBV b.size).size := BV.eval_lt ι _
        _ = 2 ^ a.size := by rw [hsize, hbsize]
    rw [eq_mod_of_modEq hres hlt]

/-! ### Quotients -/

/-- What `make_term` makes of a term. -/
def quotient (ev : Evaluator) (b : BV) (ι : Env) (p : BV × Coeff) : ℕ :=
  if ev.divides b p.2 = some true then p.1.eval ι else amount ι p / b.eval ι

/-- What a term loses in the division: its remainder, or, where `make_term` takes the coefficient for the size, what
it is more than that. -/
def lost (ev : Evaluator) (b : BV) (ι : Env) (p : BV × Coeff) : ℤ :=
  if ev.divides b p.2 = some true then amount ι p - b.eval ι * p.1.eval ι else (amount ι p % b.eval ι : ℕ)

theorem lost_eq (ι : Env) : ev.lost b ι p = amount ι p - b.eval ι * ev.quotient b ι p := by
  unfold lost quotient
  split
  · rfl
  · push_cast
    rw [← Int.emod_def]

theorem makeTerm_spec {t : BV} (h : ev.makeTerm b p = some t) (hsize : p.1.size = n) :
    t.size = n ∧ p.2.Fits b.size ∧ ∀ ι, 0 < b.eval ι → t.eval ι = ev.quotient b ι p := by
  obtain ⟨divides, hdivides, h⟩ := Option.bind_eq_some_iff.mp h
  refine ⟨?_, divides_fits hdivides, fun ι hb => ?_⟩
  · cases divides with
    | true =>
      cases h
      exact hsize
    | false =>
      obtain ⟨u, hu, h⟩ := Option.bind_eq_some_iff.mp h
      obtain ⟨-, rfl⟩ := checked_eq_some.mp h
      rw [ev.size_bv, BV.size, BinOp.size]
      · exact (times_spec hu hsize).1
      · decide
  · cases divides with
    | true =>
      cases h
      rw [quotient, if_pos hdivides]
    | false =>
      obtain ⟨u, hu, h⟩ := Option.bind_eq_some_iff.mp h
      obtain ⟨-, rfl⟩ := checked_eq_some.mp h
      have hlt : u.eval ι / b.eval ι < 2 ^ u.size := (Nat.div_le_self _ _).trans_lt (BV.eval_lt ι u)
      rw [quotient, if_neg (by rw [hdivides]; decide), ← (times_spec hu hsize).2.2 ι, ev.eval_bv, BV.eval]
      simp only [BinOp.apply, BinOp.size, if_neg hb.ne']
      exact Nat.mod_eq_of_lt hlt

theorem mapM_makeTerm {terms : List BV} (h : d.mapM (ev.makeTerm b) = some terms) (hsizes : ∀ p ∈ d, p.1.size = n) :
    (∀ t ∈ terms, t.size = n) ∧ d.Fit b.size ∧
      ∀ ι, 0 < b.eval ι → Rewriter.total ι terms = (d.map (ev.quotient b ι)).sum := by
  induction d generalizing terms with
  | nil =>
    cases h
    exact ⟨nofun, nofun, fun ι _ => rfl⟩
  | cons p d ih =>
    rw [List.forall_mem_cons] at hsizes
    rw [List.mapM_cons] at h
    obtain ⟨t, ht, h⟩ := Option.bind_eq_some_iff.mp h
    obtain ⟨rest, hrest, h⟩ := Option.bind_eq_some_iff.mp h
    cases h
    obtain ⟨htsize, hpfits, heval⟩ := makeTerm_spec ht hsizes.1
    obtain ⟨hrestsizes, hfit, htotal⟩ := ih hrest hsizes.2
    refine ⟨List.forall_mem_cons.mpr ⟨htsize, hrestsizes⟩, Terms.fit_cons.mpr ⟨hpfits, hfit⟩, fun ι hb => ?_⟩
    simp only [Rewriter.total, List.map_cons, List.sum_cons] at htotal ⊢
    rw [heval ι hb, htotal ι hb]

theorem eval_sum (ι : Env) {terms : List BV} (h : ∀ t ∈ terms, t.size = n) :
    (ev.sum terms).eval ι = Rewriter.total ι terms % 2 ^ n := by
  cases terms with
  | nil => simp [Rewriter.sum, Rewriter.total]
  | cons t terms =>
    have ht : t.size = n := h t List.mem_cons_self
    have hstart : (ev.add (bvv t.size 0) t).size = n := (Claripy.size_add _ _ _).trans ht
    rw [Rewriter.sum, Rewriter.eval_sumFrom, hstart, Claripy.eval_add, Claripy.eval_bvv]
    simp [Rewriter.total, bvv, BV.size, ht]

/-- Where `_div_simplify` returns at once. -/
def atOnce (ev : Evaluator) (a b : BV) : Bool :=
  ev.isTrue (ev.eq a (bvv a.size 0)) || ev.isTrue (ev.eq b (bvv b.size 1))

/-- **What `_div_simplify` computes**: the term, where it is 0 or divided by 1, else the sum of the quotients. -/
theorem divSimplify_spec {a index : BV} (ha : a.Sized) (hsize : b.size = a.size)
    (h : ev.divSimplify constraints a b = some index) :
    (ev.atOnce a b = true ∧ index = a ∧ ∀ ι, a.eval ι = 0 ∨ b.eval ι = 1 % 2 ^ b.size) ∨
      ∃ d, ev.atOnce a b = false ∧ ev.asMultAddOuter constraints a = some d ∧ d.Shape a.size ∧ d.Fit a.size ∧
        ∀ ι, 0 < b.eval ι → index.eval ι = (d.map (ev.quotient b ι)).sum % 2 ^ a.size := by
  unfold divSimplify at h
  split at h
  · next hzero =>
    cases h
    refine Or.inl ⟨by rw [atOnce, hzero]; rfl, rfl, fun ι => Or.inl ?_⟩
    simpa using ev.eval_isTrue _ hzero ι
  · next hzero =>
    split at h
    · next hone =>
      cases h
      refine Or.inl ⟨by rw [atOnce, hone, Bool.or_true], rfl, fun ι => Or.inr ?_⟩
      simpa using ev.eval_isTrue _ hone ι
    · next hone =>
      obtain ⟨d, hd, h⟩ := Option.bind_eq_some_iff.mp h
      obtain ⟨terms, hterms, h⟩ := Option.bind_eq_some_iff.mp h
      cases h
      obtain ⟨hshape, -⟩ := asMultAddOuter_spec ha hd
      obtain ⟨hsizes, hfit, htotal⟩ := mapM_makeTerm hterms hshape.sizes
      rw [hsize] at hfit
      refine Or.inr ⟨d, by simp [atOnce, hzero, hone], hd, hshape, hfit, fun ι hb => ?_⟩
      rw [eval_sum ι hsizes, htotal ι hb]

/-- What the terms lose in all. -/
theorem sum_lost (ι : Env) (d : Terms) :
    (d.map (ev.lost b ι)).sum = (d.map (amount ι)).sum - b.eval ι * (d.map (ev.quotient b ι)).sum := by
  induction d with
  | nil => simp
  | cons p d ih =>
    simp only [List.map_cons, List.sum_cons, ih, lost_eq]
    push_cast
    ring

/-- A sum of quotients is the true quotient if what is lost in the division is what the sum of the terms wraps by. -/
theorem quotient_iff {N b P Q : ℕ} (hN : 0 < N) (hb : 0 < b) :
    Q % N * b = P % N ↔ (P : ℤ) - b * Q ≡ N * (P / N : ℕ) [ZMOD b * N] := by
  have hlt : P % N < N * b := (Nat.mod_lt P hN).trans_le (Nat.le_mul_of_pos_right N hb)
  have hmod : ((P % N : ℕ) : ℤ) = P - N * (P / N : ℕ) := by
    push_cast
    rw [← Int.emod_def]
  calc Q % N * b = P % N ↔ Q * b % (N * b) = P % N % (N * b) := by rw [Nat.mul_mod_mul_right, Nat.mod_eq_of_lt hlt]
    _ ↔ ((Q * b : ℕ) : ℤ) ≡ (P % N : ℕ) [ZMOD (N * b : ℕ)] := Int.natCast_modEq_iff.symm
    _ ↔ (P : ℤ) - b * Q ≡ N * (P / N : ℕ) [ZMOD b * N] := by
      rw [Int.modEq_iff_dvd, Int.modEq_iff_dvd, hmod, ← Int.dvd_neg]
      push_cast
      rw [mul_comm (N : ℤ) b]
      ring_nf

/-- The address of an element: the parts add up to it, and the index and the offset to what follows the base. -/
structure Exact (ι : Env) (addr base size index : BV) (offset : ℕ) : Prop where
  address : addr.eval ι = (base.eval ι + (index.eval ι * size.eval ι + offset / 8)) % 2 ^ addr.size
  inside : index.eval ι * size.eval ι + offset / 8 < 2 ^ addr.size
  offset : offset / 8 < size.eval ι

theorem exact_iff {ι : Env} {addr base size index : BV} {rest off : ℕ}
    (haddr : addr.eval ι = (base.eval ι + rest) % 2 ^ addr.size)
    (hrest : rest < 2 ^ addr.size) :
    Exact ι addr base size index (off * 8) ↔ index.eval ι * size.eval ι + off = rest ∧ off < size.eval ι := by
  have hoff : off * 8 / 8 = off := Nat.mul_div_cancel off (by decide)
  constructor
  · rintro ⟨heq, hlt, ho⟩
    rw [hoff] at heq hlt ho
    rw [haddr] at heq
    have hmod : rest ≡ index.eval ι * size.eval ι + off [MOD 2 ^ addr.size] := Nat.ModEq.add_left_cancel' _ heq
    exact ⟨(hmod.eq_of_lt_of_lt hrest hlt).symm, ho⟩
  · rintro ⟨heq, ho⟩
    rw [← heq] at haddr hrest
    exact ⟨by rw [hoff]; exact haddr, by rw [hoff]; exact hrest, by rw [hoff]; exact ho⟩

/-- What is left without the offset. -/
theorem eval_sub_offset {ι : Env} {rest : BV} {off : ℕ} (h : off ≤ rest.eval ι) :
    (ev.sub rest (bvv rest.size off)).eval ι = rest.eval ι - off := by
  have hoff : (bvv rest.size off).eval ι = off := by
    rw [Claripy.eval_bvv, Nat.mod_eq_of_lt (h.trans_lt (BV.eval_lt ι rest))]
  rw [Claripy.eval_sub_of_le _ _ _ _ (by rw [hoff]; exact h), hoff]

theorem sub_offset_modEq (ι : Env) {rest : BV} (h : rest.size = n) (off : ℕ) :
    ((ev.sub rest (bvv n off)).eval ι : ℤ) ≡ rest.eval ι - off [ZMOD 2 ^ rest.size] := by
  have hbin := eval_bin_sub ι (show rest.size = (bvv n off).size from h)
  rw [Claripy.sub, ev.eval_bv]
  refine hbin.trans (Int.ModEq.rfl.sub ?_)
  rw [Claripy.eval_bvv, h]
  push_cast
  exact Int.mod_modEq _ _

/-- The terms that `_modulo_simplify` leaves out do not matter to the remainder. -/
def KeepsRemainder (ev : Evaluator) (constraints : List BoolAst) (a b : BV) (ι : Env) : Prop :=
  ∀ d, ev.asMultAddOuter constraints a = some d →
    ((ev.kept b d).map (amount ι)).sum % 2 ^ a.size % b.eval ι = a.eval ι % b.eval ι

/-- Term by term, the division loses what the sum of the terms wraps by. -/
def AddsUp (ev : Evaluator) (constraints : List BoolAst) (a b : BV) (ι : Env) : Prop :=
  ev.atOnce a b = true ∨ ∀ d, ev.asMultAddOuter constraints a = some d →
    (d.map (ev.lost b ι)).sum ≡ 2 ^ a.size * ((d.map (amount ι)).sum / 2 ^ a.size : ℕ) [ZMOD b.eval ι * 2 ^ a.size]

/-- Where every coefficient that is taken for the size is the size, and every other term a multiple of it, and nothing
wraps. -/
theorem addsUp_of_multiples {a : BV} {ι : Env}
    (h : ∀ d, ev.asMultAddOuter constraints a = some d → (d.map (amount ι)).sum < 2 ^ a.size ∧ ∀ p ∈ d,
      if ev.divides b p.2 = some true then amount ι p = b.eval ι * p.1.eval ι else b.eval ι ∣ amount ι p) :
    ev.AddsUp constraints a b ι := by
  refine Or.inr fun d hd => ?_
  obtain ⟨hsmall, hmultiples⟩ := h d hd
  have hlost : ∀ p ∈ d, ev.lost b ι p = 0 := by
    intro p hp
    have hmultiple := hmultiples p hp
    unfold lost
    split at hmultiple
    · next hdivides => rw [if_pos hdivides, hmultiple, Nat.cast_mul, sub_self]
    · next hdivides => rw [if_neg hdivides, Nat.mod_eq_zero_of_dvd hmultiple, Nat.cast_zero]
  have hsum : (d.map (ev.lost b ι)).sum = 0 := by
    rw [List.map_congr_left hlost]
    simp
  rw [hsum, Nat.div_eq_of_lt hsmall, Nat.cast_zero, mul_zero]

/-- The index is the term itself, or the sum of the quotients of terms that add up to it. -/
theorem divSimplify_cases {ι : Env} (hc : ∀ c ∈ constraints, c.eval ι = true) {a index : BV} (ha : a.Sized)
    (hsize : b.size = a.size) (hb : 0 < b.eval ι) (h : ev.divSimplify constraints a b = some index) :
    (ev.atOnce a b = true ∧ index.eval ι * b.eval ι = a.eval ι) ∨ ∃ d, ev.atOnce a b ≠ true ∧
      ev.asMultAddOuter constraints a = some d ∧ ((d.map (amount ι)).sum : ℤ) ≡ a.eval ι [ZMOD 2 ^ a.size] ∧
        index.eval ι = (d.map (ev.quotient b ι)).sum % 2 ^ a.size := by
  rcases divSimplify_spec ha hsize h with ⟨honce, rfl, hval⟩ | ⟨d, honce, hd, hshape, hfit, hindex⟩
  · refine Or.inl ⟨honce, ?_⟩
    rcases hval ι with hzero | hone
    · rw [hzero, Nat.zero_mul]
    · have hle : b.eval ι = 1 := by
        have : 1 % 2 ^ b.size ≤ 1 := Nat.mod_le _ _
        omega
      rw [hle, Nat.mul_one]
  · refine Or.inr ⟨d, Bool.eq_false_iff.mp honce, hd, ?_, hindex ι hb⟩
    exact (amounts_modEq ι hshape).trans ((asMultAddOuter_spec ha hd).2 hfit ι hc)

/-- The index of a multiple of the size is the quotient if the terms add up. -/
theorem index_iff {ι : Env} (hc : ∀ c ∈ constraints, c.eval ι = true) {a index : BV} (ha : a.Sized)
    (hsize : b.size = a.size) (hb : 0 < b.eval ι) (h : ev.divSimplify constraints a b = some index) :
    index.eval ι * b.eval ι = a.eval ι ↔ ev.AddsUp constraints a b ι := by
  rcases divSimplify_cases hc ha hsize hb h with ⟨honce, heq⟩ | ⟨d, honce, hd, hmod, hindex⟩
  · exact iff_of_true heq (Or.inl honce)
  · rw [AddsUp, or_iff_right honce, hd]
    simp only [Option.some_inj, forall_eq']
    rw [eq_mod_of_modEq hmod.symm (BV.eval_lt ι a), hindex, quotient_iff (Nat.two_pow_pos _) hb, ← sum_lost]
    push_cast
    rfl

/-- And it is the quotient of bit vectors, that wrap, if nothing is lost. -/
theorem index_modEq {ι : Env} (hc : ∀ c ∈ constraints, c.eval ι = true) {a index : BV} (ha : a.Sized)
    (hsize : b.size = a.size) (hb : 0 < b.eval ι) (h : ev.divSimplify constraints a b = some index) :
    (index.eval ι * b.eval ι : ℤ) ≡ a.eval ι [ZMOD 2 ^ a.size] ↔ ev.atOnce a b = true ∨
      ∀ d, ev.asMultAddOuter constraints a = some d → (d.map (ev.lost b ι)).sum ≡ 0 [ZMOD 2 ^ a.size] := by
  rcases divSimplify_cases hc ha hsize hb h with ⟨honce, heq⟩ | ⟨d, honce, hd, hmod, hindex⟩
  · exact iff_of_true (by rw [← heq]; rfl) (Or.inl honce)
  · rw [or_iff_right honce, hd]
    simp only [Option.some_inj, forall_eq']
    have hquot : (index.eval ι * b.eval ι : ℤ) ≡ (d.map (amount ι)).sum -
      (d.map (ev.lost b ι)).sum [ZMOD 2 ^ a.size] := by
      rw [sum_lost, sub_sub_cancel, mul_comm (b.eval ι : ℤ), hindex]
      push_cast
      exact (Int.mod_modEq _ _).mul_right _
    constructor
    · intro heq
      have := hmod.sub (hquot.symm.trans heq)
      rwa [sub_sub_cancel, sub_self] at this
    · intro hzero
      have := hmod.sub hzero
      rw [sub_zero] at this
      exact hquot.trans this

/-! ### The address -/

theorem find_total (ι : Env) {metas : List (BV × BV)} {base size : BV} : ∀ {keys : List BV},
    find metas keys = some (some (base, size)) →
      Rewriter.total ι keys = base.eval ι + Rewriter.total ι (keys.filter fun a => decide (a ≠ base)) := by
  intro keys h
  have hmatch : (keys.flatMap fun key => metas.filter fun kv => decide (key = kv.1)) = [(base, size)] := by
    unfold find at h
    split at h
    · cases h
    · next kv heq =>
      cases h
      exact heq
    · cases h
  clear h
  have hmem : (base, size) ∈ metas := by
    have := List.mem_flatMap.mp (hmatch ▸ List.mem_singleton_self (base, size))
    obtain ⟨key, -, hkey⟩ := this
    exact (List.mem_filter.mp hkey).1
  -- a key that matches nothing is not the base
  have hne : ∀ {keys : List BV}, (keys.flatMap fun key => metas.filter fun kv => decide (key = kv.1)) = [] →
      keys.filter (fun a => decide (a ≠ base)) = keys := by
    intro keys hnone
    refine List.filter_eq_self.mpr fun a ha => decide_eq_true ?_
    rintro rfl
    have := List.flatMap_eq_nil_iff.mp hnone a ha
    exact List.not_mem_nil (this ▸ List.mem_filter.mpr ⟨hmem, decide_eq_true rfl⟩)
  induction keys with
  | nil => cases hmatch
  | cons key keys ih =>
    rw [List.flatMap_cons] at hmatch
    rcases List.append_eq_singleton_iff.mp hmatch with ⟨hkey, hrest⟩ | ⟨hkey, hrest⟩
    · have hkeyne : key ≠ base := by
        rintro rfl
        exact List.not_mem_nil (hkey ▸ List.mem_filter.mpr ⟨hmem, decide_eq_true rfl⟩)
      rw [List.filter_cons_of_pos (by simp [hkeyne])]
      simp only [Rewriter.total, List.map_cons, List.sum_cons] at ih ⊢
      rw [ih hrest]
      exact Nat.add_left_comm _ _ _
    · have hbase : key = base := by
        have : (base, size) ∈ metas.filter fun kv => decide (key = kv.1) := hkey ▸ List.mem_singleton_self _
        exact of_decide_eq_true (List.mem_filter.mp this).2
      rw [List.filter_cons_of_neg (by simp [hbase]), hne hrest, hbase]
      simp [Rewriter.total]

section Result

variable {metas : List (BV × BV)} {fuel : ℕ} {addr sum base base' size index : BV} {offset : ℕ} {allowFailure : Bool}

/-- The calls where the sum contains a known base. -/
theorem baseIndexOffset_eq (hsum : ev.simplify constraints fuel addr (.boolV true) = .ok sum) (hadd : sum.isAdd = true)
    (hbase : find metas sum.addArgs = some (some (base, size)))
    (h : ev.baseIndexOffset constraints metas fuel addr allowFailure = some (some (base', index, offset))) :
    base' = base ∧ ∃ rem off, ev.moduloSimplify constraints (ev.sumOthers sum.size sum.addArgs base) size = some rem ∧
      ev.evalOne constraints rem = some off ∧ offset = off * 8 ∧
      ev.divSimplify constraints (ev.sub (ev.sumOthers sum.size sum.addArgs base) (bvv sum.size off)) size =
        some index := by
  have hargs : sum.args = some sum.addArgs := by
    unfold BV.isAdd at hadd
    split at hadd
    · rfl
    · cases hadd
  have hsize : ∀ a, (ev.sumOthers sum.size a base).size = sum.size := fun a => Rewriter.size_sumFrom _ _
  have hlocate : ev.locate constraints metas sum = some (some (base, size, sum)) := by
    rw [locate, hbase]
    rfl
  unfold baseIndexOffset at h
  rw [hsum] at h
  obtain ⟨addr', haddr', h⟩ := Option.bind_eq_some_iff.mp h
  cases haddr'
  rw [if_pos hadd, hlocate] at h
  obtain ⟨found, hfound, h⟩ := Option.bind_eq_some_iff.mp h
  cases hfound
  obtain ⟨rest, hrest, h⟩ := Option.bind_eq_some_iff.mp h
  obtain ⟨rem, hrem, h⟩ := Option.bind_eq_some_iff.mp h
  obtain ⟨off, hoff, h⟩ := Option.bind_eq_some_iff.mp h
  obtain ⟨quot, hquot, h⟩ := Option.bind_eq_some_iff.mp h
  cases h
  have hrest' : ev.sumOthers sum.size sum.addArgs base = rest := by
    rw [added, hargs] at hrest
    obtain ⟨args, hargs', hrest⟩ := Option.bind_eq_some_iff.mp hrest
    cases hargs'
    split at hrest
    · exact Option.some_inj.mp hrest
    · cases hrest
  subst hrest'
  rw [hsize] at hquot
  exact ⟨rfl, rem, off, hrem, hoff, rfl, hquot⟩

variable (haddr : addr.Sized) (hsum : ev.simplify constraints fuel addr (.boolV true) = .ok sum)
    (hadd : sum.isAdd = true)
  (hbase : find metas sum.addArgs = some (some (base, size))) (hwidth : size.size = addr.size)
  (hret : ev.baseIndexOffset constraints metas fuel addr allowFailure = some (some (base', index, offset)))
include haddr hsum hbase

/-- The address is the base and what is added to it. -/
theorem eval_sumOthers {ι : Env} (hc : ∀ c ∈ constraints, c.eval ι = true) :
    sum.size = addr.size ∧ (ev.sumOthers sum.size sum.addArgs base).Sized ∧
      (ev.sumOthers sum.size sum.addArgs base).size = addr.size ∧
      addr.eval ι = (base.eval ι + (ev.sumOthers sum.size sum.addArgs base).eval ι) % 2 ^ addr.size := by
  have hsame := (Rewriter.simplify_same fuel).1 haddr hsum
  have hargs := Rewriter.addArgs_sized sum hsame.sized
  have hothers := @Rewriter.sumFrom_spec ev.toRewriter ι
    (sum.addArgs.filter fun a => decide (a ≠ base)) (bvv sum.size 0) trivial
    fun a ha => hargs a (List.mem_filter.mp ha).1
  obtain ⟨hsized, hsize, heval⟩ := hothers
  refine ⟨hsame.size, hsized, hsize.trans hsame.size, ?_⟩
  have hrest : (ev.sumOthers sum.size sum.addArgs base).eval ι =
      Rewriter.total ι (sum.addArgs.filter fun a => decide (a ≠ base)) % 2 ^ addr.size := by
    rw [sumOthers, heval, Claripy.eval_bvv, Nat.zero_mod, Nat.zero_add, ← hsame.size]
    rfl
  rw [← hsame.eval ι hc rfl, Rewriter.eval_addArgs, find_total ι hbase, hrest, hsame.size, Nat.add_mod_mod]

/-- What the offset leaves of the other addends. -/
theorem sized_left {ι : Env} (hc : ∀ c ∈ constraints, c.eval ι = true) (off : ℕ) :
    (ev.sub (ev.sumOthers sum.size sum.addArgs base) (bvv sum.size off)).Sized ∧
      (ev.sub (ev.sumOthers sum.size sum.addArgs base) (bvv sum.size off)).size = addr.size := by
  obtain ⟨hsumsize, hsized, hothers, -⟩ := eval_sumOthers haddr hsum hbase hc
  refine ⟨ev.sized_bv _ ⟨fun _ => ?_, hsized, trivial⟩, by rw [Claripy.size_sub, hothers]⟩
  rw [hothers, ← hsumsize]
  rfl

include hadd hwidth hret

/-- As bit vectors, that wrap, the parts add up to the address if nothing is lost in the division. -/
theorem address_iff {ι : Env} (hc : ∀ c ∈ constraints, c.eval ι = true) (hsize : 0 < size.eval ι) :
    addr.eval ι = (base'.eval ι + (index.eval ι * size.eval ι + offset / 8)) % 2 ^ addr.size ↔
      ev.atOnce (ev.sub (ev.sumOthers sum.size sum.addArgs base) (bvv sum.size (offset / 8))) size = true ∨
        ∀ d, ev.asMultAddOuter constraints (ev.sub (ev.sumOthers sum.size sum.addArgs base)
          (bvv sum.size (offset / 8))) = some d → (d.map (ev.lost size ι)).sum ≡ 0 [ZMOD 2 ^ addr.size] := by
  obtain ⟨rfl, rem, off, hmod, hoff, rfl, hdiv⟩ := baseIndexOffset_eq hsum hadd hbase hret
  obtain ⟨hsumsize, hsized, hothers, heval⟩ := eval_sumOthers haddr hsum hbase hc
  obtain ⟨hleft, hleftsize⟩ := sized_left haddr hsum hbase hc off
  have hindex := index_modEq hc hleft (hwidth.trans hleftsize.symm) hsize hdiv
  set rest := ev.sumOthers sum.size sum.addArgs base'
  have hsub := @sub_offset_modEq ev _ ι _ (hothers.trans hsumsize.symm) off
  rw [hothers] at hsub
  rw [hleftsize] at hindex
  rw [Nat.mul_div_cancel off (by decide), ← hindex, heval]
  constructor
  · intro heq
    have hmod : rest.eval ι ≡ index.eval ι * size.eval ι + off [MOD 2 ^ addr.size] := Nat.ModEq.add_left_cancel' _ heq
    have hint := (Int.natCast_modEq_iff.mpr hmod).sub_right off
    push_cast at hint
    rw [add_sub_cancel_right] at hint
    exact hint.symm.trans hsub.symm
  · intro heq
    have hint := (heq.trans hsub).add_right off
    rw [sub_add_cancel] at hint
    have hmod : rest.eval ι ≡ index.eval ι * size.eval ι + off [MOD 2 ^ addr.size] :=
      Int.natCast_modEq_iff.mp (by push_cast; exact hint.symm)
    exact hmod.add_left _

/-- **Addresses**, of any size and with elements of any size, as sums of anything: what comes back is exactly the
address if leaving out terms keeps the remainder, and the rest, less the remainder, adds up term by term. -/
theorem baseIndexOffset_iff (hsize : ∀ ι : Env, (∀ c ∈ constraints, c.eval ι = true) → 0 < size.eval ι) {r : ℕ}
    (hrem : ∀ ι : Env, (∀ c ∈ constraints, c.eval ι = true) →
      (ev.sumOthers sum.size sum.addArgs base).eval ι % size.eval ι = r) :
    (∀ ι : Env, (∀ c ∈ constraints, c.eval ι = true) → Exact ι addr base' size index offset) ↔
      ∀ ι : Env, (∀ c ∈ constraints, c.eval ι = true) →
        ev.KeepsRemainder constraints (ev.sumOthers sum.size sum.addArgs base) size ι ∧
          ev.AddsUp constraints (ev.sub (ev.sumOthers sum.size sum.addArgs base) (bvv sum.size r)) size ι := by
  obtain ⟨rfl, rem, off, hmod, hoff, rfl, hdiv⟩ := baseIndexOffset_eq hsum hadd hbase hret
  refine forall_congr' fun ι => forall_congr' fun hc => ?_
  obtain ⟨hsumsize, hsized, hothers, heval⟩ := eval_sumOthers haddr hsum hbase hc
  set rest := ev.sumOthers sum.size sum.addArgs base' with hrest
  have hpos := hsize ι hc
  have hlt : rest.eval ι < 2 ^ addr.size := hothers ▸ BV.eval_lt ι rest
  rw [exact_iff heval hlt]
  -- the offset, from the terms that are kept
  obtain ⟨d, hd, hval⟩ := moduloSimplify_spec hsized hmod
  have hoffset : off = ((ev.kept size d).map (amount ι)).sum % 2 ^ rest.size % size.eval ι :=
    (ev.eval_evalOne _ _ _ hoff ι hc).symm.trans (hval ι hpos)
  have hkeeps : ev.KeepsRemainder constraints rest size ι ↔ off = r := by
    rw [hoffset, ← hrem ι hc]
    constructor
    · exact fun h => h d hd
    · intro h d' hd'
      cases hd.symm.trans hd'
      exact h
  -- the index, from the terms of what the offset leaves
  obtain ⟨hleft, hleftsize⟩ := sized_left haddr hsum hbase hc off
  have hindex := index_iff hc hleft (hwidth.trans hleftsize.symm) hpos hdiv
  have hrest : off ≤ rest.eval ι → (ev.sub rest (bvv sum.size off)).eval ι = rest.eval ι - off := by
    rw [hsumsize, ← hothers]
    exact eval_sub_offset
  have hr := hrem ι hc
  rw [hkeeps]
  constructor
  · rintro ⟨heq, hofflt⟩
    have hoffr : off = r := by rw [← hr, ← heq, Nat.mul_add_mod_self_right, Nat.mod_eq_of_lt hofflt]
    rw [← hoffr]
    exact ⟨rfl, hindex.mp (by rw [hrest (by omega)]; omega)⟩
  · rintro ⟨rfl, hadds⟩
    have hle : off ≤ rest.eval ι := hr ▸ Nat.mod_le _ _
    have heq := hindex.mpr hadds
    rw [hrest hle] at heq
    exact ⟨by omega, hr ▸ Nat.mod_lt _ hpos⟩

end Result

/-! ### Two addresses -/

/-- The value of a constant, or of an operation on two. -/
def literal : BV → Option ℕ
  | .bvv _ v => some v.toNat
  | .bin op (.bvv s v) (.bvv s' v') => some (op.apply s s' v.toNat v'.toNat % 2 ^ op.size s s')
  | _ => none

theorem eval_literal {e : BV} {v : ℕ} (h : literal e = some v) (ι : Env) : e.eval ι = v := by
  unfold literal at h
  split at h
  · cases h
    rw [BV.eval]
  · cases h
    simp [BV.eval, BV.size]
  · cases h

/-- "is_true just performs basic checks" -/
def literallyTrue : BoolAst → Bool
  | .cmp .eq a b => (literal a).isSome && literal a == literal b
  | _ => false

/-- A claripy and a solver that know constants only. -/
def basic : Evaluator where
  toRewriter := Rewriter.idle
  isTrue := literallyTrue
  evalOne _ := literal
  eval_isTrue c hc ι := by
    unfold literallyTrue at hc
    split at hc
    · next a b =>
      rw [Bool.and_eq_true, Option.isSome_iff_exists, beq_iff_eq] at hc
      obtain ⟨⟨v, hv⟩, heq⟩ := hc
      rw [BoolAst.eval, eval_literal hv, eval_literal (heq ▸ hv)]
      simp [CmpOp.apply]
    · cases hc
  eval_evalOne _ _ _ h ι _ := eval_literal h ι
  zeroExt_injective k a b _ h := by
    cases h
    rfl

def pointer : BV := .bvs (.sym 0) 64
def position : BV := .bvs (.sym 1) 64

/-- `pointer + position * k`, where the product does not overflow. -/
def strided (k : ℕ) : BV := .bin .add pointer (.bin .mul position (bvv 64 k))
def bounded (k : ℕ) : List BoolAst := [.cmp .ule position (bvv 64 ((2 ^ 64 - 1) / k))]

/-- A product with a number is a multiple. -/
theorem asMultAdd_strided {k : ℕ} (hk : k < 2 ^ 64) :
    basic.asMultAdd (.bin .mul position (bvv 64 k)) = some [(position, .int k)] := by
  have hpos : basic.asMultAdd position = some [(position, .int 1)] := by
    rw [position, asMultAdd]
    all_goals
      intros
      contradiction
  have hlone : loneSym ((BV.bin .mul position (bvv 64 k)).opArgs .mul) none none =
      some (some position, some (k : ℤ)) := by
    simp [BV.opArgs, loneSym, position, bvv]
    omega
  rw [asMultAdd]
  split
  · next h => cases hlone.symm.trans h
  · next h => cases hlone.symm.trans h
  · next h => cases hlone.symm.trans h
  · next x con h =>
    cases hlone.symm.trans h
    rw [hpos]
    simp [Terms.mapCoeff, mulC, lift]

/-- What is left of `strided k` without an offset of 0. -/
def rest (k : ℕ) : BV := .bin .sub (.bin .mul position (bvv 64 k)) (bvv 64 0)

theorem asMultAdd_rest {k : ℕ} (hk : k < 2 ^ 64) :
    basic.asMultAdd (rest k) = some [(position, .int k), (bvv 64 0, .int (-1))] := by
  have hzero : basic.asMultAdd (bvv 64 0) = some [(bvv 64 0, .int 1)] := by
    rw [bvv, asMultAdd]
    all_goals
      intros
      contradiction
  rw [rest, asMultAdd, asMultAdd_strided hk, hzero]
  simp [accumulate, addTo, mulC, addC, lift, Terms.setDefault, position, bvv]

theorem asMultAddOuter_strided {k : ℕ} (hk : k < 2 ^ 64) :
    basic.asMultAddOuter (bounded k) (.bin .mul position (bvv 64 k)) = some [(position, .int k)] := by
  rw [asMultAddOuter, asMultAdd_strided hk]
  rfl

theorem asMultAddOuter_rest {k : ℕ} (hk : k < 2 ^ 64) :
    basic.asMultAddOuter (bounded k) (rest k) = some [(position, .int k), (bvv 64 0, .int (-1))] := by
  rw [asMultAddOuter, asMultAdd_rest hk]
  rfl

/-- The index that the code finds where the elements are of four bytes and `k` is a multiple of that. -/
def found : BV :=
  .bin .add position (.bin .udiv (.bin .mul (bvv 64 0) (.bvv 64 (BitVec.ofInt 64 (-1)))) (bvv 64 4))

theorem baseIndexOffset_strided {k : ℕ} (hk : k < 2 ^ 64) (hdivides : basic.divides (bvv 64 4) (.int k) = some true) :
    basic.baseIndexOffset (bounded k) [(pointer, bvv 64 4)] 4 (strided k) false = some (some (pointer, found, 0)) := by
  have hposition : basic.divides (bvv 64 4) (.bv position) = some false := rfl
  have hminus : basic.makeTerm (bvv 64 4) (bvv 64 0, .int (-1)) =
      some (.bin .udiv (.bin .mul (bvv 64 0) (.bvv 64 (BitVec.ofInt 64 (-1)))) (bvv 64 4)) := rfl
  have hmod : basic.moduloSimplify (bounded k) (.bin .mul position (bvv 64 k)) (bvv 64 4) =
      some (.bin .urem (bvv 64 0) (bvv 64 4)) := by
    have hkept : basic.keptSum (bvv 64 4) [(position, .int k)] (.int 0) = some (.int 0) := by
      simp [keptSum, leftOut, hposition, hdivides]
    rw [moduloSimplify, asMultAddOuter_strided hk]
    change (basic.keptSum (bvv 64 4) [(position, .int k)] (.int 0)).bind _ = _
    rw [hkept]
    rfl
  have hdiv : basic.divSimplify (bounded k) (rest k) (bvv 64 4) = some found := by
    have hterm : basic.makeTerm (bvv 64 4) (position, .int k) = some position := by
      simp [makeTerm, hdivides]
    have hsmall : basic.isTrue (basic.eq (rest k) (bvv (rest k).size 0)) = false := rfl
    have hfour : basic.isTrue (basic.eq (bvv 64 4) (bvv (bvv 64 4).size 1)) = false := rfl
    rw [divSimplify, if_neg (Bool.eq_false_iff.mp hsmall), if_neg (Bool.eq_false_iff.mp hfour), asMultAddOuter_rest hk]
    simp only [List.mapM_cons, List.mapM_nil, hterm, hminus, Option.bind_eq_bind, Option.bind_some, Option.pure_def]
    rfl
  have hsimp : basic.simplify (bounded k) 4 (strided k) (.boolV true) = .ok (strided k) := rfl
  unfold baseIndexOffset
  rw [hsimp]
  change (basic.moduloSimplify (bounded k) (.bin .mul position (bvv 64 k)) (bvv 64 4)).bind _ = _
  rw [hmod]
  change (basic.divSimplify (bounded k) (rest k) (bvv 64 4)).bind _ = _
  rw [hdiv]
  rfl

theorem eval_position {ι : Env} {k : ℕ} (h : ∀ c ∈ bounded k, c.eval ι = true) :
    position.eval ι ≤ (2 ^ 64 - 1) / k % 2 ^ 64 := by
  have hle := h _ List.mem_cons_self
  rw [BoolAst.eval, CmpOp.apply, decide_eq_true_eq] at hle
  simpa [bvv, BV.eval] using hle

theorem eval_product (ι : Env) (k : ℕ) :
    (BV.bin .mul position (bvv 64 k)).eval ι = position.eval ι * (k % 2 ^ 64) % 2 ^ 64 := by
  simp [BV.eval, BinOp.apply, BinOp.size, bvv, position, BV.size]

/-- A stride of four, with elements of four bytes. -/
theorem exact_strided :
    basic.baseIndexOffset (bounded 4) [(pointer, bvv 64 4)] 4 (strided 4) false = some (some (pointer, found, 0)) ∧
      ∀ ι : Env, (∀ c ∈ bounded 4, c.eval ι = true) → Exact ι (strided 4) pointer (bvv 64 4) found 0 := by
  have haddr : (strided 4).Sized := by simp [strided, pointer, position, BV.Sized, BV.size, bvv, BinOp.size]
  have hsum : basic.simplify (bounded 4) 4 (strided 4) (.boolV true) = .ok (strided 4) := rfl
  have hbase : find [(pointer, bvv 64 4)] (strided 4).addArgs = some (some (pointer, bvv 64 4)) := rfl
  have hwidth : (bvv 64 4).size = (strided 4).size := rfl
  have hfour : ∀ ι : Env, (bvv 64 4).eval ι = 4 := fun ι => by simp [bvv, BV.eval]
  have hrem : ∀ ι : Env, (BV.bin .mul position (bvv 64 4)).eval ι % (bvv 64 4).eval ι = 0 := by
    intro ι
    rw [eval_product, hfour]
    omega
  have hfound : basic.baseIndexOffset (bounded 4) [(pointer, bvv 64 4)] 4 (strided 4) false =
      some (some (pointer, found, 0)) := baseIndexOffset_strided (by decide) rfl
  refine ⟨hfound, (baseIndexOffset_iff haddr hsum rfl hbase hwidth hfound (r := 0) (fun ι _ => by simp [hfour])
    fun ι _ => hrem ι).mpr fun ι hc => ⟨fun d hd => ?_, addsUp_of_multiples fun d hd => ?_⟩⟩
  · cases (asMultAddOuter_strided (by decide)).symm.trans hd
    exact (hrem ι).symm
  · cases (asMultAddOuter_rest (by decide)).symm.trans hd
    have hle := eval_position hc
    have hposition : amount ι (position, .int (4 : ℕ)) = position.eval ι * 4 := by
      change position.eval ι * 4 % 2 ^ 64 = _
      omega
    have hzero : amount ι (bvv 64 0, .int (-1)) = 0 := by
      simp [amount, bvv, BV.eval]
    have hdivides : basic.divides (bvv 64 4) (.int (4 : ℕ)) = some true := rfl
    have hminus : basic.divides (bvv 64 4) (.int (-1)) = some false := rfl
    refine ⟨?_, ?_⟩
    · change amount ι (position, .int (4 : ℕ)) + (amount ι (bvv 64 0, .int (-1)) + 0) < 2 ^ 64
      rw [hposition, hzero]
      omega
    · intro p hp
      rcases List.mem_cons.mp hp with rfl | hp
      · rw [if_pos hdivides, hposition, hfour, Nat.mul_comm]
      · rw [List.mem_singleton.mp hp, if_neg (by rw [hminus]; decide), hzero]
        exact Nat.dvd_zero _

/-- Elements of four bytes and a stride of eight: the index is half of what it should be, although the product does not
overflow and is a multiple of four. -/
theorem not_exact_strided :
    basic.baseIndexOffset (bounded 8) [(pointer, bvv 64 4)] 4 (strided 8) false = some (some (pointer, found, 0)) ∧
      (∀ ι : Env, (∀ c ∈ bounded 8, c.eval ι = true) →
        position.eval ι * 8 < 2 ^ 64 ∧ (BV.bin .mul position (bvv 64 8)).eval ι % 4 = 0) ∧
      ¬∀ ι : Env, (∀ c ∈ bounded 8, c.eval ι = true) →
        (strided 8).eval ι = (pointer.eval ι + (found.eval ι * (bvv 64 4).eval ι + 0 / 8)) % 2 ^ (strided 8).size := by
  refine ⟨baseIndexOffset_strided (by decide) rfl, fun ι hc => ⟨?_, ?_⟩, fun h => ?_⟩
  · have hle := eval_position hc
    omega
  · rw [eval_product]
    omega
  · have hwrong := h ⟨fun e => if e = position then 1 else 0, fun _ => false⟩ (by decide)
    exact absurd hwrong (by decide)

end Evaluator
end Tool
end Klint
