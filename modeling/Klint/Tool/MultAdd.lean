/-
# Sums of multiples

`_as_mult_add` of `tool/kalm/utils.py` makes of a term a dictionary of terms with coefficients, whose sum it is, and
`_as_mult_add_outer` groups terms that the solver knows to be equal. A coefficient is a Python number, or a term
where something is shifted by a term.
-/
import Klint.Tool.Simplify
import Mathlib.Data.Int.ModEq
import Mathlib.Tactic.Ring

namespace Klint
namespace Tool

/-! ### Operands -/

/-- The `args` of an operation that claripy flattens. -/
def BV.opArgs (op : BinOp) : BV → List BV
  | .bin op' a b => if op' = op then a.opArgs op ++ [b] else [.bin op' a b]
  | e => [e]

/-- The `args` of a term, where all of them are terms. -/
def BV.args : BV → Option (List BV)
  | .bin .add a b => some (BV.bin .add a b).addArgs
  | .bin op a b => some (if op ∈ [.mul, .and, .or, .xor, .concat] then (BV.bin op a b).opArgs op else [a, b])
  | _ => none

def BV.isConcat : BV → Bool
  | .bin .concat _ _ => true
  | _ => false

/-- `lone_sym` and `con` after the loop over the `args` of a product, unless it meets a second symbol. -/
def loneSym : List BV → Option BV → Option ℤ → Option (Option BV × Option ℤ)
  | [], lone, con => some (lone, con)
  | .bvv _ v :: args, lone, con => loneSym args lone (some ((con.elim 1 id) * v.toNat))
  | arg :: args, lone, con => if lone.isSome then none else loneSym args (some arg) con

theorem mem_of_loneSym {x : BV} {con : Option ℤ} : ∀ {args : List BV} {lone : Option BV} {c : Option ℤ},
    loneSym args lone c = some (some x, con) → x ∈ args ∨ lone = some x
  | [], lone, c, h => by
    cases h
    exact Or.inr rfl
  | arg :: args, lone, c, h => by
    unfold loneSym at h
    split at h
    · next heq => cases heq
    · next heq =>
      cases heq
      exact (mem_of_loneSym h).imp_left (List.mem_cons_of_mem _)
    · next heq =>
      cases heq
      split at h
      · cases h
      · exact Or.inl ((mem_of_loneSym h).elim (List.mem_cons_of_mem _) fun hx =>
          Option.some_inj.mp hx ▸ List.mem_cons_self)

theorem opArgs_le {op : BinOp} (e : BV) : ∀ a ∈ e.opArgs op, sizeOf a ≤ sizeOf e := by
  fun_induction BV.opArgs op e with
  | case1 a b ih =>
    intro x hx
    simp only [BV.bin.sizeOf_spec]
    rcases List.mem_append.mp hx with hx | hx
    · have := ih x hx
      omega
    · rw [List.mem_singleton.mp hx]
      omega
  | case2 | case3 =>
    intro x hx
    rw [List.mem_singleton.mp hx]

/-- The arguments of a product are smaller terms. -/
theorem opArgs_lt {op : BinOp} {a b x : BV} (h : x ∈ (BV.bin op a b).opArgs op) :
    sizeOf x < sizeOf (BV.bin op a b) := by
  rw [BV.opArgs, if_pos rfl] at h
  simp only [BV.bin.sizeOf_spec]
  rcases List.mem_append.mp h with h | h
  · have := opArgs_le a x h
    omega
  · rw [List.mem_singleton.mp h]
    omega

/-! ### Coefficients -/

/-- A Python number or a term. -/
inductive Coeff
  | int (z : ℤ)
  | bv (m : BV)
deriving DecidableEq, Repr

/-- A number next to a term becomes one of its size. -/
def Coeff.toBV (size : ℕ) : Coeff → BV
  | .int z => .bvv size (BitVec.ofInt size z)
  | .bv m => m

/-- `_as_mult_add`'s dictionary, in the order of its keys. -/
abbrev Terms := List (BV × Coeff)

/-- `result.setdefault(e, 0)` -/
def Terms.setDefault (result : Terms) (e : BV) : Terms :=
  if e ∈ result.map Prod.fst then result else result ++ [(e, .int 0)]

/-- `result[e] = m` -/
def Terms.set : Terms → BV → Coeff → Terms
  | [], e, m => [(e, m)]
  | (e', m') :: rest, e, m => if e' = e then (e', m) :: rest else (e', m') :: Terms.set rest e m

/-- `{e: f(m) for (e, m) in d.items()}` -/
def Terms.mapCoeff (f : Coeff → Option Coeff) : Terms → Option Terms
  | [] => some []
  | (e, m) :: rest => do
    let m ← f m
    let rest ← Terms.mapCoeff f rest
    pure ((e, m) :: rest)

/-- Claripy and the solver as `base_index_offset` uses them: `is_true` "just performs basic checks", and `eval_one`
finds the only value of a term, if it has one. Claripy keeps different terms of one size different when it extends
them. -/
structure Evaluator extends Rewriter where
  isTrue : BoolAst → Bool
  evalOne : List BoolAst → BV → Option ℕ
  eval_isTrue : ∀ c, isTrue c = true → ∀ ι, c.eval ι = true
  eval_evalOne : ∀ cs e v, evalOne cs e = some v → ∀ ι, (∀ c ∈ cs, c.eval ι = true) → e.eval ι = v
  zeroExt_injective : ∀ k a b, a.size = b.size → bv (.zeroExt k a) = bv (.zeroExt k b) → a = b

namespace Evaluator

variable (ev : Evaluator)

/-- An operation of claripy, which raises for operands of different sizes. -/
def checked (op : BinOp) (a b : BV) : Option BV := if a.size = b.size then some (ev.bv (.bin op a b)) else none

/-- An operator on coefficients; `f` is that on numbers. -/
def lift (op : BinOp) (f : ℤ → ℤ → ℤ) : Coeff → Coeff → Option Coeff
  | .int x, .int y => some (.int (f x y))
  | .int x, .bv b => (ev.checked op ((Coeff.int x).toBV b.size) b).map .bv
  | .bv a, m => (ev.checked op a (m.toBV a.size)).map .bv

def addC : Coeff → Coeff → Option Coeff := ev.lift .add (· + ·)
def mulC : Coeff → Coeff → Option Coeff := ev.lift .mul (· * ·)
def shlC : Coeff → Coeff → Option Coeff := ev.lift .shl fun x y => x * 2 ^ y.toNat

/-- `result[e] += m`, or `result[e] = m` for a new term. -/
def addTo : Terms → BV → Coeff → Option Terms
  | [], e, m => some [(e, m)]
  | (e', m') :: rest, e, m =>
    if e' = e then do
      let m ← ev.addC m' m
      pure ((e', m) :: rest)
    else do
      let rest ← addTo rest e m
      pure ((e', m') :: rest)

/-! ### Sums of multiples -/

/-- The terms of one argument: `result[e] += coeff * m`. -/
def accumulate (coeff : ℤ) : Terms → Terms → Option Terms
  | [], result => some result
  | (e, m) :: nested, result => do
    let m ← ev.mulC (.int coeff) m
    let result ← ev.addTo (result.setDefault e) e m
    accumulate coeff nested result

/-- The terms of a sum before its last argument: `args` of the first operand, where it is a sum itself, come first. -/
def startSum (a : BV) (nested : Terms) : Option Terms := if a.isAdd then some nested else ev.accumulate 1 nested []

/-- `{e.ast.zero_extend(size).cache_key: m << size for (e, m) in nested.items()}` -/
def extended (size : ℕ) : Terms → Terms → Option Terms
  | [], result => some result
  | (e, m) :: nested, result => do
    let m ← ev.shlC m (.int size)
    extended size nested (result.set (ev.zeroExt size e) m)

/-- `_as_mult_add` -/
def asMultAdd : BV → Option Terms
  | .bin .concat a (.bvv s v) =>
    if v = 0 ∧ a.isConcat = false then do
      let nested ← asMultAdd a
      ev.extended s nested []
    else some [(.bin .concat a (.bvv s v), .int 1)]
  | .bin .shl a s => do
    let nested ← asMultAdd a
    nested.mapCoeff fun m => ev.shlC m (.bv s)
  | .bin .add a b => do
    let nested ← asMultAdd a
    let result ← ev.startSum a nested
    let nested ← asMultAdd b
    ev.accumulate 1 nested result
  | .bin .sub a b => do
    let nested ← asMultAdd a
    let result ← ev.accumulate 1 nested []
    let nested ← asMultAdd b
    ev.accumulate (-1) nested result
  | .bin .mul a b =>
    match h : loneSym ((BV.bin .mul a b).opArgs .mul) none none with
    | none => some [(.bin .mul a b, .int 1)]
    | some (none, _) => none
    | some (some x, none) =>
      have := opArgs_lt ((mem_of_loneSym h).resolve_right nofun)
      asMultAdd x
    | some (some x, some con) =>
      have := opArgs_lt ((mem_of_loneSym h).resolve_right nofun)
      do
        let nested ← asMultAdd x
        nested.mapCoeff fun m => ev.mulC m (.int con)
  | .ite c a b => do
    let left ← asMultAdd a
    let right ← asMultAdd b
    match left, right with
    | [(l, .int x)], [(r, .int y)] =>
      if x = y then pure [(ev.ite c l r, .int x)] else pure [(.ite c a b, .int 1)]
    -- the truth of a comparison of terms raises
    | [_], [_] => none
    | _, _ => pure [(.ite c a b, .int 1)]
  | e => some [(e, .int 1)]
termination_by e => sizeOf e

variable (constraints : List BoolAst)

/-- "group things together, e.g. if we end up with '(0 .. x[62:0])' and 'x', group them iff x[63] == 0" -/
def grouped : BV → Option BV
  | .zeroExt n (.extract hi 0 x) =>
    let e : BV := .zeroExt n (.extract hi 0 x)
    if x.size = e.size then some (if definitelyTrue ev.toBackend constraints (ev.eq x e) then x else e) else none
  | e => some e

/-- The loop of `_as_mult_add_outer`. -/
def groupAll : Terms → Terms → Option Terms
  | [], result => some result
  | (e, m) :: terms, result => do
    let e ← ev.grouped constraints e
    let result ← ev.addTo result e m
    groupAll terms result

/-- `_as_mult_add_outer` -/
def asMultAddOuter (ast : BV) : Option Terms := do
  let terms ← ev.asMultAdd ast
  ev.groupAll constraints terms []

end Evaluator

/-! ### Values -/

/-- The number that a coefficient stands for. -/
def Coeff.val (ι : Env) : Coeff → ℤ
  | .int z => z
  | .bv m => m.eval ι

/-- A coefficient of terms of a size. -/
def Coeff.Fits (n : ℕ) : Coeff → Prop
  | .int _ => True
  | .bv m => m.size = n

def Coeff.AtMost (n : ℕ) : Coeff → Prop
  | .int _ => True
  | .bv m => m.size ≤ n

def Terms.Fit (n : ℕ) (d : Terms) : Prop := ∀ p ∈ d, p.2.Fits n

/-- What a dictionary stands for. -/
def Terms.value (ι : Env) (d : Terms) : ℤ := (d.map fun p => (p.1.eval ι : ℤ) * p.2.val ι).sum

/-- A dictionary of terms of a size. A coefficient can be a smaller term: `Concat` extends the terms and shifts the
coefficients. -/
structure Terms.Shape (n : ℕ) (d : Terms) : Prop where
  sizes : ∀ p ∈ d, p.1.size = n
  atMost : ∀ p ∈ d, p.2.AtMost n
  nodup : (d.map Prod.fst).Nodup

theorem eval_bin_add (ι : Env) (a b : BV) : ((BV.bin .add a b).eval ι : ℤ) ≡ a.eval ι + b.eval ι [ZMOD 2 ^ a.size] := by
  rw [BV.eval]
  push_cast [BinOp.apply, BinOp.size]
  exact Int.mod_modEq _ _

theorem eval_bin_mul (ι : Env) (a b : BV) : ((BV.bin .mul a b).eval ι : ℤ) ≡ a.eval ι * b.eval ι [ZMOD 2 ^ a.size] := by
  rw [BV.eval]
  push_cast [BinOp.apply, BinOp.size]
  exact Int.mod_modEq _ _

theorem eval_bin_sub {a b : BV} (ι : Env) (h : a.size = b.size) :
    ((BV.bin .sub a b).eval ι : ℤ) ≡ a.eval ι - b.eval ι [ZMOD 2 ^ a.size] := by
  have hlt := BV.eval_lt ι b
  rw [← h] at hlt
  rw [BV.eval]
  simp only [BinOp.apply, BinOp.size]
  push_cast [Nat.cast_sub (show b.eval ι ≤ a.eval ι + 2 ^ a.size by omega)]
  refine (Int.mod_modEq _ _).trans ?_
  rw [add_sub_right_comm]
  exact Int.add_modEq_right

theorem eval_bin_shl (ι : Env) (a b : BV) :
    ((BV.bin .shl a b).eval ι : ℤ) ≡ a.eval ι * 2 ^ b.eval ι [ZMOD 2 ^ a.size] := by
  rw [BV.eval]
  simp only [BinOp.apply, BinOp.size]
  split
  · next hle =>
    rw [Nat.zero_mod, Nat.cast_zero]
    exact (Int.modEq_zero_iff_dvd.mpr (Dvd.dvd.mul_left (pow_dvd_pow 2 hle) _)).symm
  · push_cast
    exact Int.mod_modEq _ _

theorem Coeff.toBV_size {n : ℕ} {m : Coeff} (h : m.Fits n) : (m.toBV n).size = n := by
  cases m with
  | int z => rfl
  | bv m => exact h

theorem Coeff.toBV_val (ι : Env) (n : ℕ) (m : Coeff) : ((m.toBV n).eval ι : ℤ) ≡ m.val ι [ZMOD 2 ^ n] := by
  cases m with
  | int z =>
    have hnonneg : 0 ≤ z % 2 ^ n := Int.emod_nonneg _ (pow_ne_zero n two_ne_zero)
    simp only [Coeff.toBV, Coeff.val, BV.eval, BitVec.toNat_ofInt]
    push_cast
    rw [Int.toNat_of_nonneg hnonneg]
    exact Int.mod_modEq _ _
  | bv m => rfl

theorem Coeff.Fits.atMost {n : ℕ} {m : Coeff} (h : m.Fits n) : m.AtMost n := by
  cases m with
  | int z => trivial
  | bv m => exact le_of_eq h

theorem Coeff.AtMost.mono {n n' : ℕ} {m : Coeff} (h : m.AtMost n) (hle : n ≤ n') : m.AtMost n' := by
  cases m with
  | int z => trivial
  | bv m => exact Nat.le_trans h hle

theorem Terms.value_cons (ι : Env) (p : BV × Coeff) (d : Terms) :
    Terms.value ι (p :: d) = p.1.eval ι * p.2.val ι + Terms.value ι d := by
  simp [Terms.value]

theorem Terms.value_singleton (ι : Env) (e : BV) (m : Coeff) : Terms.value ι [(e, m)] = e.eval ι * m.val ι := by
  simp [Terms.value]

theorem Terms.value_append (ι : Env) (d d' : Terms) : Terms.value ι (d ++ d') = Terms.value ι d + Terms.value ι d' := by
  simp [Terms.value]

theorem Terms.fit_cons {n : ℕ} {p : BV × Coeff} {d : Terms} : Terms.Fit n (p :: d) ↔ p.2.Fits n ∧ Terms.Fit n d :=
  List.forall_mem_cons

theorem Terms.Shape.tail {n : ℕ} {p : BV × Coeff} {d : Terms} (h : Terms.Shape n (p :: d)) : Terms.Shape n d :=
  ⟨fun q hq => h.sizes q (List.mem_cons_of_mem _ hq), fun q hq => h.atMost q (List.mem_cons_of_mem _ hq),
    (List.nodup_cons.mp h.nodup).2⟩

theorem Terms.shape_nil (n : ℕ) : Terms.Shape n [] := ⟨nofun, nofun, List.nodup_nil⟩

namespace Evaluator

variable {ev : Evaluator} {n : ℕ} {x y r : Coeff}

theorem checked_eq_some {op : BinOp} {a b r : BV} :
    ev.checked op a b = some r ↔ a.size = b.size ∧ ev.bv (.bin op a b) = r := by
  unfold checked
  split
  · next h => simp [h]
  · next h => simp [h]

/-- The result of an operator, where it can be a coefficient. -/
theorem lift_spec {op : BinOp} {f : ℤ → ℤ → ℤ} (hop : op ≠ .concat) (h : ev.lift op f x y = some r) (hr : r.Fits n) :
    x.Fits n ∧ y.Fits n ∧ ((∃ a b, x = .int a ∧ y = .int b ∧ r = .int (f a b)) ∨
      r = .bv (ev.bv (.bin op (x.toBV n) (y.toBV n)))) := by
  have hsize : ∀ a b : BV, (ev.bv (.bin op a b)).size = a.size := by
    intro a b
    rw [ev.size_bv, BV.size]
    cases op <;> first | rfl | exact absurd rfl hop
  unfold lift at h
  split at h
  · cases h
    exact ⟨trivial, trivial, Or.inl ⟨_, _, rfl, rfl, rfl⟩⟩
  · next z b =>
    obtain ⟨c, hc, rfl⟩ := Option.map_eq_some_iff.mp h
    obtain ⟨-, rfl⟩ := checked_eq_some.mp hc
    have hb : b.size = n := (hsize ((Coeff.int z).toBV b.size) b).symm.trans hr
    exact ⟨trivial, hb, Or.inr (by rw [hb]; rfl)⟩
  · next a =>
    obtain ⟨c, hc, rfl⟩ := Option.map_eq_some_iff.mp h
    obtain ⟨hsz, rfl⟩ := checked_eq_some.mp hc
    have ha : a.size = n := (hsize a (y.toBV a.size)).symm.trans hr
    rw [ha] at hsz
    refine ⟨ha, ?_, Or.inr (by rw [ha]; rfl)⟩
    cases y with
    | int z => trivial
    | bv b => exact hsz.symm

theorem lift_atMost {op : BinOp} {f : ℤ → ℤ → ℤ} (hop : op ≠ .concat) (h : ev.lift op f x y = some r)
    (hx : x.AtMost n) (hy : y.AtMost n) : r.AtMost n := by
  cases r with
  | int z => trivial
  | bv m =>
    obtain ⟨hx', hy', hr⟩ := lift_spec (n := m.size) hop h rfl
    cases x with
    | bv a => exact (show m.size = a.size from hx'.symm).trans_le hx
    | int a =>
      cases y with
      | bv b => exact (show m.size = b.size from hy'.symm).trans_le hy
      | int b =>
        unfold lift at h
        cases h

theorem addC_val (h : ev.addC x y = some r) (hr : r.Fits n) :
    x.Fits n ∧ y.Fits n ∧ ∀ ι, r.val ι ≡ x.val ι + y.val ι [ZMOD 2 ^ n] := by
  obtain ⟨hx, hy, hval⟩ := lift_spec (by decide) h hr
  refine ⟨hx, hy, fun ι => ?_⟩
  rcases hval with ⟨a, b, rfl, rfl, rfl⟩ | rfl
  · rfl
  · have hbin := eval_bin_add ι (x.toBV n) (y.toBV n)
    rw [Coeff.toBV_size hx] at hbin
    rw [Coeff.val, ev.eval_bv]
    exact hbin.trans ((Coeff.toBV_val ι n x).add (Coeff.toBV_val ι n y))

theorem mulC_val (h : ev.mulC x y = some r) (hr : r.Fits n) :
    x.Fits n ∧ y.Fits n ∧ ∀ ι, r.val ι ≡ x.val ι * y.val ι [ZMOD 2 ^ n] := by
  obtain ⟨hx, hy, hval⟩ := lift_spec (by decide) h hr
  refine ⟨hx, hy, fun ι => ?_⟩
  rcases hval with ⟨a, b, rfl, rfl, rfl⟩ | rfl
  · rfl
  · have hbin := eval_bin_mul ι (x.toBV n) (y.toBV n)
    rw [Coeff.toBV_size hx] at hbin
    rw [Coeff.val, ev.eval_bv]
    exact hbin.trans ((Coeff.toBV_val ι n x).mul (Coeff.toBV_val ι n y))

/-- A shift by a term. -/
theorem shlC_val {s : BV} (h : ev.shlC x (.bv s) = some r) (hr : r.Fits n) :
    x.Fits n ∧ ∀ ι, r.val ι ≡ x.val ι * 2 ^ s.eval ι [ZMOD 2 ^ n] := by
  obtain ⟨hx, hy, hval⟩ := lift_spec (by decide) h hr
  refine ⟨hx, fun ι => ?_⟩
  rcases hval with ⟨a, b, -, hs, -⟩ | rfl
  · cases hs
  · have hbin := eval_bin_shl ι (x.toBV n) s
    rw [Coeff.toBV_size hx] at hbin
    rw [Coeff.val, ev.eval_bv]
    exact hbin.trans ((Coeff.toBV_val ι n x).mul_right _)

/-- A shift by the zeros that `Concat` appends: a coefficient that is a term does not grow with the terms. -/
theorem shlC_const {k : ℕ} (h : ev.shlC x (.int k) = some r) (hx : x.AtMost n) (hr : r.Fits (n + k)) :
    x.Fits n ∧ ∀ ι, r.val ι ≡ x.val ι * 2 ^ k [ZMOD 2 ^ (n + k)] := by
  obtain ⟨hfits, -, hval⟩ := lift_spec (by decide) h hr
  rcases hval with ⟨a, b, rfl, hk, rfl⟩ | rfl
  · cases hk
    exact ⟨trivial, fun ι => by simp [Coeff.val]⟩
  · cases x with
    | int z =>
      unfold shlC lift at h
      cases h
    | bv a =>
      -- then nothing is appended
      have hsize : a.size = n + k := hfits
      have hle : a.size ≤ n := hx
      obtain rfl : k = 0 := by omega
      refine ⟨hsize, fun ι => ?_⟩
      have hbin := eval_bin_shl ι a ((Coeff.int (0 : ℕ)).toBV (n + 0))
      rw [hsize] at hbin
      simpa [Coeff.val, ev.eval_bv, Coeff.toBV, BV.eval] using hbin

/-! ### Dictionaries -/

variable {d d' result nested : Terms} {e : BV} {m : Coeff}

theorem addTo_keys (h : ev.addTo d e m = some d') :
    d'.map Prod.fst = if e ∈ d.map Prod.fst then d.map Prod.fst else d.map Prod.fst ++ [e] := by
  induction d generalizing d' with
  | nil =>
    cases h
    simp
  | cons p d ih =>
    rw [addTo] at h
    split at h
    · next heq =>
      obtain ⟨r, -, h⟩ := Option.bind_eq_some_iff.mp h
      cases h
      rw [if_pos (by simp [heq])]
      rfl
    · next hne =>
      obtain ⟨rest, hrest, h⟩ := Option.bind_eq_some_iff.mp h
      cases h
      rw [List.map_cons, ih hrest, List.map_cons]
      by_cases hmem : e ∈ d.map Prod.fst
      · rw [if_pos hmem, if_pos (List.mem_cons_of_mem _ hmem)]
      · rw [if_neg hmem, if_neg (by simpa [Ne.symm hne] using hmem)]
        rfl

theorem addTo_atMost (h : ev.addTo d e m = some d') (hd : ∀ p ∈ d, p.2.AtMost n) (hm : m.AtMost n) :
    ∀ p ∈ d', p.2.AtMost n := by
  induction d generalizing d' with
  | nil =>
    cases h
    simpa using hm
  | cons p d ih =>
    rw [List.forall_mem_cons] at hd
    rw [addTo] at h
    split at h
    · obtain ⟨r, hr, h⟩ := Option.bind_eq_some_iff.mp h
      cases h
      exact List.forall_mem_cons.mpr ⟨lift_atMost (by decide) hr hd.1 hm, hd.2⟩
    · obtain ⟨rest, hrest, h⟩ := Option.bind_eq_some_iff.mp h
      cases h
      exact List.forall_mem_cons.mpr ⟨hd.1, ih hrest hd.2⟩

theorem addTo_shape (h : ev.addTo d e m = some d') (hd : d.Shape n) (he : e.size = n) (hm : m.AtMost n) :
    d'.Shape n := by
  have hkeys := addTo_keys h
  refine ⟨fun p hp => ?_, addTo_atMost h hd.atMost hm, ?_⟩
  · have hmem : p.1 ∈ d'.map Prod.fst := List.mem_map_of_mem hp
    have hold : p.1 ∈ d.map Prod.fst → p.1.size = n := by
      intro hmem
      obtain ⟨q, hq, heq⟩ := List.mem_map.mp hmem
      exact heq ▸ hd.sizes q hq
    rw [hkeys] at hmem
    split at hmem
    · exact hold hmem
    · rcases List.mem_append.mp hmem with hmem | hmem
      · exact hold hmem
      · rw [List.mem_singleton.mp hmem]
        exact he
  · rw [hkeys]
    split
    · exact hd.nodup
    · next hnew =>
      refine List.nodup_append.mpr ⟨hd.nodup, List.nodup_singleton e, fun a ha b hb => ?_⟩
      rw [List.mem_singleton.mp hb]
      rintro rfl
      exact hnew ha

theorem addTo_value (h : ev.addTo d e m = some d') (hfit : d'.Fit n) :
    d.Fit n ∧ m.Fits n ∧ ∀ ι, d'.value ι ≡ d.value ι + e.eval ι * m.val ι [ZMOD 2 ^ n] := by
  induction d generalizing d' with
  | nil =>
    cases h
    exact ⟨nofun, hfit _ List.mem_cons_self, fun ι => by simp [Terms.value]⟩
  | cons p d ih =>
    rw [addTo] at h
    split at h
    · next heq =>
      obtain ⟨r, hr, h⟩ := Option.bind_eq_some_iff.mp h
      cases h
      obtain ⟨hfit, hrest⟩ := Terms.fit_cons.mp hfit
      obtain ⟨hp, hm, hval⟩ := addC_val hr hfit
      refine ⟨Terms.fit_cons.mpr ⟨hp, hrest⟩, hm, fun ι => ?_⟩
      rw [Terms.value_cons, Terms.value_cons, ← heq]
      calc (p.1.eval ι : ℤ) * r.val ι + Terms.value ι d
          ≡ p.1.eval ι * (p.2.val ι + m.val ι) + Terms.value ι d [ZMOD 2 ^ n] := ((hval ι).mul_left _).add_right _
        _ = p.1.eval ι * p.2.val ι + Terms.value ι d + p.1.eval ι * m.val ι := by ring
    · obtain ⟨rest, hrest, h⟩ := Option.bind_eq_some_iff.mp h
      cases h
      obtain ⟨hp, hfit⟩ := Terms.fit_cons.mp hfit
      obtain ⟨hd, hm, hval⟩ := ih hrest hfit
      refine ⟨Terms.fit_cons.mpr ⟨hp, hd⟩, hm, fun ι => ?_⟩
      rw [Terms.value_cons, Terms.value_cons, add_assoc]
      exact (hval ι).add_left _

theorem setDefault_shape (hd : d.Shape n) (he : e.size = n) : (d.setDefault e).Shape n := by
  unfold Terms.setDefault
  split
  · exact hd
  · next hnew =>
    refine ⟨?_, ?_, ?_⟩
    · simpa [or_imp, forall_and] using ⟨fun a b h => hd.sizes (a, b) h, he⟩
    · intro p hp
      rcases List.mem_append.mp hp with hp | hp
      · exact hd.atMost p hp
      · rw [List.mem_singleton.mp hp]
        trivial
    · rw [List.map_append]
      refine List.nodup_append.mpr ⟨hd.nodup, List.nodup_singleton e, fun a ha b hb => ?_⟩
      rw [List.mem_singleton.mp hb]
      rintro rfl
      exact hnew ha

theorem setDefault_value (ι : Env) (d : Terms) (e : BV) : (d.setDefault e).value ι = d.value ι := by
  unfold Terms.setDefault
  split
  · rfl
  · rw [Terms.value_append]
    simp [Terms.value, Coeff.val]

theorem setDefault_fit (h : (d.setDefault e).Fit n) : d.Fit n := by
  unfold Terms.setDefault at h
  split at h
  · exact h
  · exact fun p hp => h p (List.mem_append_left _ hp)

/-- Adding the multiples of an argument. -/
theorem accumulate_spec {coeff : ℤ} (h : ev.accumulate coeff nested result = some d) (hr : result.Shape n)
    (hn : nested.Shape n) : d.Shape n ∧ (d.Fit n → result.Fit n ∧ nested.Fit n ∧
      ∀ ι, d.value ι ≡ result.value ι + coeff * nested.value ι [ZMOD 2 ^ n]) := by
  induction nested generalizing result with
  | nil =>
    cases h
    exact ⟨hr, fun hfit => ⟨hfit, nofun, fun ι => by simp [Terms.value]⟩⟩
  | cons p nested ih =>
    rw [accumulate] at h
    obtain ⟨m, hm, h⟩ := Option.bind_eq_some_iff.mp h
    obtain ⟨added, hadd, h⟩ := Option.bind_eq_some_iff.mp h
    have hsize := hn.sizes p List.mem_cons_self
    have hp : p.2.AtMost n := hn.atMost p List.mem_cons_self
    have hm' : m.AtMost n := lift_atMost (by decide) hm trivial hp
    have hshape := addTo_shape hadd (setDefault_shape hr hsize) hsize hm'
    obtain ⟨hd, hval⟩ := ih h hshape hn.tail
    refine ⟨hd, fun hfit => ?_⟩
    obtain ⟨hadded, hnested, hval⟩ := hval hfit
    obtain ⟨hres, hmfits, hval'⟩ := addTo_value hadd hadded
    obtain ⟨-, hpfits, hmval⟩ := mulC_val hm hmfits
    refine ⟨setDefault_fit hres, Terms.fit_cons.mpr ⟨hpfits, hnested⟩, fun ι => ?_⟩
    rw [Terms.value_cons]
    calc d.value ι ≡ added.value ι + coeff * Terms.value ι nested [ZMOD 2 ^ n] := hval ι
      _ ≡ result.value ι + p.1.eval ι * m.val ι + coeff * Terms.value ι nested [ZMOD 2 ^ n] := by
        have := hval' ι
        rw [setDefault_value] at this
        exact this.add_right _
      _ ≡ result.value ι + p.1.eval ι * (coeff * p.2.val ι) + coeff * Terms.value ι nested [ZMOD 2 ^ n] :=
        (((hmval ι).mul_left _).add_left _).add_right _
      _ = result.value ι + coeff * (p.1.eval ι * p.2.val ι + Terms.value ι nested) := by ring

theorem set_of_not_mem (h : e ∉ d.map Prod.fst) : d.set e m = d ++ [(e, m)] := by
  induction d with
  | nil => rfl
  | cons p d ih =>
    rw [List.map_cons, List.mem_cons, not_or] at h
    rw [Terms.set, if_neg (Ne.symm h.1), ih h.2]
    rfl

/-- Extending the terms, which stay different, and shifting their coefficients. -/
theorem extended_spec {k : ℕ} (h : ev.extended k nested result = some d) (hn : nested.Shape n)
    (hr : result.Shape (n + k)) (hnew : ∀ p ∈ nested, ev.zeroExt k p.1 ∉ result.map Prod.fst) :
    d.Shape (n + k) ∧ (d.Fit (n + k) → result.Fit (n + k) ∧ nested.Fit n ∧
      ∀ ι, d.value ι ≡ result.value ι + 2 ^ k * nested.value ι [ZMOD 2 ^ (n + k)]) := by
  induction nested generalizing result with
  | nil =>
    cases h
    exact ⟨hr, fun hfit => ⟨hfit, nofun, fun ι => by simp [Terms.value]⟩⟩
  | cons p nested ih =>
    rw [extended] at h
    obtain ⟨m, hm, h⟩ := Option.bind_eq_some_iff.mp h
    have hp : p.2.AtMost n := hn.atMost p List.mem_cons_self
    have hpsize : p.1.size = n := hn.sizes p List.mem_cons_self
    have hsize : (ev.zeroExt k p.1).size = n + k := by
      rw [Claripy.zeroExt, ev.size_bv, BV.size, hpsize, Nat.add_comm]
    have hm' : m.AtMost n := lift_atMost (by decide) hm hp trivial
    have hfresh := hnew p List.mem_cons_self
    rw [set_of_not_mem hfresh] at h
    have hshape : Terms.Shape (n + k) (result ++ [(ev.zeroExt k p.1, m)]) := by
      refine ⟨fun q hq => ?_, fun q hq => ?_, ?_⟩
      · rcases List.mem_append.mp hq with hq | hq
        · exact hr.sizes q hq
        · rw [List.mem_singleton.mp hq]
          exact hsize
      · rcases List.mem_append.mp hq with hq | hq
        · exact hr.atMost q hq
        · rw [List.mem_singleton.mp hq]
          exact hm'.mono (Nat.le_add_right n k)
      · rw [List.map_append]
        refine List.nodup_append.mpr ⟨hr.nodup, List.nodup_singleton _, fun a ha b hb => ?_⟩
        rw [List.mem_singleton.mp hb]
        rintro rfl
        exact hfresh ha
    have hnext : ∀ q ∈ nested, ev.zeroExt k q.1 ∉ (result ++ [(ev.zeroExt k p.1, m)]).map Prod.fst := by
      intro q hq hmem
      rw [List.map_append] at hmem
      rcases List.mem_append.mp hmem with hmem | hmem
      · exact hnew q (List.mem_cons_of_mem _ hq) hmem
      · have hqsize : q.1.size = p.1.size := (hn.sizes q (List.mem_cons_of_mem _ hq)).trans hpsize.symm
        have heq : q.1 = p.1 := ev.zeroExt_injective k q.1 p.1 hqsize (List.mem_singleton.mp hmem)
        exact (List.nodup_cons.mp hn.nodup).1 (heq ▸ List.mem_map_of_mem hq)
    obtain ⟨hd, hval⟩ := ih h hn.tail hshape hnext
    refine ⟨hd, fun hfit => ?_⟩
    obtain ⟨hres, hnested, hval⟩ := hval hfit
    obtain ⟨hpfits, hmval⟩ := shlC_const hm hp (hres _ (List.mem_append_right _ List.mem_cons_self))
    refine ⟨fun q hq => hres q (List.mem_append_left _ hq), Terms.fit_cons.mpr ⟨hpfits, hnested⟩, fun ι => ?_⟩
    have hzero : (ev.zeroExt k p.1).eval ι = p.1.eval ι := ev.eval_zeroExt ι p.1 k
    rw [Terms.value_cons]
    calc d.value ι
        ≡ Terms.value ι (result ++ [(ev.zeroExt k p.1, m)]) + 2 ^ k * Terms.value ι nested [ZMOD 2 ^ (n + k)] := hval ι
      _ = result.value ι + p.1.eval ι * m.val ι + 2 ^ k * Terms.value ι nested := by
        rw [Terms.value_append, ← hzero]
        simp [Terms.value]
      _ ≡ result.value ι + p.1.eval ι * (p.2.val ι * 2 ^ k) + 2 ^ k * Terms.value ι nested [ZMOD 2 ^ (n + k)] :=
        (((hmval ι).mul_left _).add_left _).add_right _
      _ = result.value ι + 2 ^ k * (p.1.eval ι * p.2.val ι + Terms.value ι nested) := by ring

/-- Changing the coefficients alone. -/
theorem mapCoeff_spec {f : Coeff → Option Coeff} {c : Env → ℤ} (hf : ∀ m r, f m = some r → m.AtMost n → r.AtMost n)
    (hval : ∀ m r, f m = some r → r.Fits n → m.Fits n ∧ ∀ ι, r.val ι ≡ m.val ι * c ι [ZMOD 2 ^ n])
    (h : d.mapCoeff f = some d') (hd : d.Shape n) : d'.Shape n ∧ d'.map Prod.fst = d.map Prod.fst ∧
      (d'.Fit n → d.Fit n ∧ ∀ ι, d'.value ι ≡ d.value ι * c ι [ZMOD 2 ^ n]) := by
  induction d generalizing d' with
  | nil =>
    cases h
    exact ⟨hd, rfl, fun hfit => ⟨hfit, fun ι => by simp [Terms.value]⟩⟩
  | cons p d ih =>
    rw [Terms.mapCoeff] at h
    obtain ⟨m, hm, h⟩ := Option.bind_eq_some_iff.mp h
    obtain ⟨rest, hrest, h⟩ := Option.bind_eq_some_iff.mp h
    cases h
    obtain ⟨hshape, hkeys, hvalue⟩ := ih hrest hd.tail
    have hkeys' : List.map Prod.fst ((p.1, m) :: rest) = List.map Prod.fst (p :: d) := by
      rw [List.map_cons, List.map_cons, hkeys]
    refine ⟨⟨?_, ?_, ?_⟩, hkeys', fun hfit => ?_⟩
    · exact List.forall_mem_cons.mpr ⟨hd.sizes p List.mem_cons_self, hshape.sizes⟩
    · exact List.forall_mem_cons.mpr ⟨hf _ _ hm (hd.atMost p List.mem_cons_self), hshape.atMost⟩
    · exact hkeys' ▸ hd.nodup
    · obtain ⟨hmfits, hrestfits⟩ := Terms.fit_cons.mp hfit
      obtain ⟨hpfits, hmval⟩ := hval _ _ hm hmfits
      obtain ⟨hdfits, hvalue⟩ := hvalue hrestfits
      refine ⟨Terms.fit_cons.mpr ⟨hpfits, hdfits⟩, fun ι => ?_⟩
      rw [Terms.value_cons, Terms.value_cons, add_mul, mul_assoc]
      exact ((hmval ι).mul_left _).add (hvalue ι)

/-! ### The decomposition -/

/-- A dictionary that stands for a term, where its coefficients fit. -/
structure Decomposes (d : Terms) (e : BV) : Prop where
  shape : d.Shape e.size
  value : d.Fit e.size → ∀ ι, d.value ι ≡ e.eval ι [ZMOD 2 ^ e.size]

theorem decomposes_self (e : BV) : Decomposes [(e, .int 1)] e where
  shape := ⟨by simp, by simp [Coeff.AtMost], by simp⟩
  value _ ι := by simp [Terms.value, Coeff.val]

/-- Starting with the terms of one argument. -/
theorem decomposes_accumulate {a : BV} (h : ev.accumulate 1 nested [] = some d) (ha : Decomposes nested a) :
    Decomposes d a := by
  obtain ⟨hd, hvalue⟩ := accumulate_spec h (Terms.shape_nil _) ha.shape
  refine ⟨hd, fun hfit ι => ?_⟩
  obtain ⟨-, hfit, hvalue⟩ := hvalue hfit
  refine (hvalue ι).trans ?_
  simpa [Terms.value] using ha.value hfit ι

/-- The values of the arguments of a product. -/
def factors (ι : Env) (l : List BV) : ℤ := (l.map fun a => (a.eval ι : ℤ)).prod

theorem eval_opArgs_mul (ι : Env) (e : BV) (h : e.Sized) : (∀ a ∈ e.opArgs .mul, a.Sized ∧ a.size = e.size) ∧
    (e.eval ι : ℤ) ≡ factors ι (e.opArgs .mul) [ZMOD 2 ^ e.size] := by
  fun_induction BV.opArgs .mul e with
  | case1 a b ih =>
    obtain ⟨hsize, ha, hb⟩ := h
    have hab : a.size = b.size := hsize (by decide)
    obtain ⟨hargs, hval⟩ := ih ha
    refine ⟨fun x hx => ?_, ?_⟩
    · rcases List.mem_append.mp hx with hx | hx
      · exact hargs x hx
      · rw [List.mem_singleton.mp hx]
        exact ⟨hb, hab.symm⟩
    · refine (eval_bin_mul ι a b).trans ?_
      simpa [factors] using hval.mul_right _
  | case2 op' a b hne =>
    exact ⟨by simpa using h, by simp [factors]⟩
  | case3 e _ => exact ⟨by simpa using h, by simp [factors]⟩

theorem loneSym_spec (ι : Env) {lone' : Option BV} {con' : Option ℤ} :
    ∀ {args : List BV} {lone : Option BV} {con : Option ℤ},
    loneSym args lone con = some (lone', con') →
      (lone'.elim 1 fun x => (x.eval ι : ℤ)) * con'.elim 1 id =
        (lone.elim 1 fun x => (x.eval ι : ℤ)) * con.elim 1 id * factors ι args
  | [], lone, con, h => by
    cases h
    simp [factors]
  | arg :: args, lone, con, h => by
    unfold loneSym at h
    split at h
    · next heq => cases heq
    · next s v args' _ _ heq =>
      cases heq
      rw [loneSym_spec ι h]
      simp only [factors, List.map_cons, List.prod_cons, Option.elim_some, BV.eval, id]
      ring
    · next heq =>
      cases heq
      split at h
      · cases h
      · next hlone =>
        rw [Option.not_isSome_iff_eq_none] at hlone
        rw [loneSym_spec ι h, hlone]
        simp only [factors, List.map_cons, List.prod_cons, Option.elim_some, Option.elim_none]
        ring

/-- A product of one term with numbers. -/
theorem decomposes_product {a b x : BV} {con : Option ℤ} (hs : (BV.bin .mul a b).Sized)
    (h : loneSym ((BV.bin .mul a b).opArgs .mul) none none = some (some x, con)) : x.Sized ∧ x.size = a.size ∧
      ∀ ι, ((BV.bin .mul a b).eval ι : ℤ) ≡ x.eval ι * con.elim 1 id [ZMOD 2 ^ a.size] := by
  have hargs := fun ι => eval_opArgs_mul ι (.bin .mul a b) hs
  obtain ⟨hx, hxsize⟩ := (hargs ⟨fun _ => 0, fun _ => false⟩).1 x ((mem_of_loneSym h).resolve_right nofun)
  refine ⟨hx, hxsize, fun ι => (hargs ι).2.trans ?_⟩
  have hlone := loneSym_spec ι h
  simp only [Option.elim_some, Option.elim_none, mul_one, one_mul] at hlone
  rw [← hlone]

/-- Zero bits at the right: the terms are extended and their coefficients shifted. -/
theorem decomposes_concat {a : BV} {s : ℕ} (h : ev.extended s nested [] = some d) (ha : Decomposes nested a) :
    Decomposes d (.bin .concat a (.bvv s 0)) := by
  obtain ⟨hd, hvalue⟩ := extended_spec h ha.shape (Terms.shape_nil _) fun p _ => List.not_mem_nil
  refine ⟨hd, fun hfit ι => ?_⟩
  obtain ⟨-, hfit, hvalue⟩ := hvalue hfit
  have heval : (BV.bin .concat a (.bvv s 0)).eval ι = a.eval ι * 2 ^ s := by
    have hconcat := ev.eval_concat ι a (.bvv s 0)
    rw [Claripy.concat, ev.eval_bv] at hconcat
    rw [hconcat]
    simp [BV.eval, BV.size]
  have hscaled := (ha.value hfit ι).mul_left' (c := 2 ^ s)
  rw [← pow_add, Nat.add_comm s] at hscaled
  rw [heval, Nat.cast_mul, Nat.cast_pow, mul_comm]
  refine (hvalue ι).trans ?_
  simpa [Terms.value] using hscaled

/-- A shift by a term shifts every coefficient. -/
theorem decomposes_shl {a s : BV} (hsize : a.size = s.size) (h : nested.mapCoeff (fun m => ev.shlC m (.bv s)) = some d)
    (ha : Decomposes nested a) : Decomposes d (.bin .shl a s) := by
  obtain ⟨hd, -, hvalue⟩ := mapCoeff_spec (c := fun ι => 2 ^ s.eval ι)
    (fun m r hm hle => lift_atMost (by decide) hm hle (Coeff.Fits.atMost (m := .bv s) hsize.symm)) (fun m r => shlC_val)
    h ha.shape
  refine ⟨hd, fun hfit ι => ?_⟩
  obtain ⟨hfit, hvalue⟩ := hvalue hfit
  exact (hvalue ι).trans (((ha.value hfit ι).mul_right _).trans (eval_bin_shl ι a s).symm)

theorem decomposes_startSum {a : BV} (h : ev.startSum a nested = some d) (ha : Decomposes nested a) :
    Decomposes d a := by
  unfold startSum at h
  split at h
  · cases h
    exact ha
  · exact decomposes_accumulate h ha

/-- The terms of the second argument, added to those of the first one. -/
theorem decomposes_add {a b : BV} (hsize : a.size = b.size) (h : ev.accumulate 1 nested result = some d)
    (ha : Decomposes result a) (hb : Decomposes nested b) : Decomposes d (.bin .add a b) := by
  obtain ⟨hshape, hval⟩ := hb
  rw [← hsize] at hshape hval
  obtain ⟨hd, hvalue⟩ := accumulate_spec h ha.shape hshape
  refine ⟨hd, fun hfit ι => ?_⟩
  obtain ⟨hfit, hfit', hvalue⟩ := hvalue hfit
  refine (hvalue ι).trans (.trans ?_ (eval_bin_add ι a b).symm)
  rw [one_mul]
  exact (ha.value hfit ι).add (hval hfit' ι)

theorem decomposes_sub {a b : BV} (hsize : a.size = b.size) (h : ev.accumulate (-1) nested result = some d)
    (ha : Decomposes result a) (hb : Decomposes nested b) : Decomposes d (.bin .sub a b) := by
  obtain ⟨hshape, hval⟩ := hb
  rw [← hsize] at hshape hval
  obtain ⟨hd, hvalue⟩ := accumulate_spec h ha.shape hshape
  refine ⟨hd, fun hfit ι => ?_⟩
  obtain ⟨hfit, hfit', hvalue⟩ := hvalue hfit
  refine (hvalue ι).trans (.trans ?_ (eval_bin_sub ι hsize).symm)
  rw [neg_one_mul, ← sub_eq_add_neg]
  exact (ha.value hfit ι).sub (hval hfit' ι)

/-- What has a term's value stands for it as well. -/
theorem decomposes_congr {x e : BV} (hsize : x.size = e.size)
    (heval : ∀ ι, (e.eval ι : ℤ) ≡ x.eval ι [ZMOD 2 ^ e.size]) (hx : Decomposes d x) : Decomposes d e := by
  obtain ⟨hshape, hval⟩ := hx
  rw [hsize] at hshape hval
  exact ⟨hshape, fun hfit ι => (hval hfit ι).trans (heval ι).symm⟩

theorem decomposes_scaled {x e : BV} {con : ℤ} (hsize : x.size = e.size)
    (heval : ∀ ι, (e.eval ι : ℤ) ≡ x.eval ι * con [ZMOD 2 ^ e.size])
    (h : nested.mapCoeff (fun m => ev.mulC m (.int con)) = some d) (hx : Decomposes nested x) : Decomposes d e := by
  obtain ⟨hshape, hval⟩ := hx
  rw [hsize] at hshape hval
  obtain ⟨hd, -, hvalue⟩ := mapCoeff_spec (c := fun _ => con)
    (fun m r hm hle => lift_atMost (by decide) hm hle (Coeff.Fits.atMost (m := .int con) trivial))
    (fun m r hm hr => (mulC_val hm hr).imp_right And.right) h hshape
  refine ⟨hd, fun hfit ι => ?_⟩
  obtain ⟨hfit, hvalue⟩ := hvalue hfit
  exact (hvalue ι).trans (((hval hfit ι).mul_right _).trans (heval ι).symm)

/-- Two branches that are single terms with one coefficient. -/
theorem decomposes_ite {c : BoolAst} {a b l r : BV} {x : ℤ} (hsize : a.size = b.size)
    (ha : Decomposes [(l, .int x)] a) (hb : Decomposes [(r, .int x)] b) :
    Decomposes [(ev.ite c l r, .int x)] (.ite c a b) := by
  have hl : l.size = a.size := ha.shape.sizes _ List.mem_cons_self
  have hr : r.size = b.size := hb.shape.sizes _ List.mem_cons_self
  refine ⟨⟨?_, by simp [Coeff.AtMost], by simp⟩, fun _ ι => ?_⟩
  · simp [Claripy.ite, ev.size_bv, BV.size, hl, hr]
  · have hleft := ha.value (by simp [Terms.Fit, Coeff.Fits]) ι
    have hright := hb.value (by simp [Terms.Fit, Coeff.Fits]) ι
    have hmax : (BV.ite c a b).size = a.size := by rw [BV.size, ← hsize, max_self]
    rw [← hsize] at hright
    rw [Terms.value_singleton] at hleft hright ⊢
    rw [hmax, BV.eval, Claripy.eval_ite]
    split
    · exact hleft
    · exact hright

/-- **`_as_mult_add`**: "Returns a dictionary such that ast == sum(e.ast * m for (e, m) in result.items())". -/
theorem asMultAdd_spec (e : BV) (hs : e.Sized) : ∀ {d : Terms}, ev.asMultAdd e = some d → Decomposes d e := by
  fun_induction asMultAdd ev e with
  | case1 a s v hcond ih =>
    intro d h
    obtain ⟨rfl, -⟩ := hcond
    obtain ⟨nested, hnested, h⟩ := Option.bind_eq_some_iff.mp h
    exact decomposes_concat h (ih hs.2.1 hnested)
  | case2 a s v hcond =>
    intro d h
    cases h
    exact decomposes_self _
  | case3 a s ih =>
    intro d h
    obtain ⟨nested, hnested, h⟩ := Option.bind_eq_some_iff.mp h
    exact decomposes_shl (hs.1 (by decide)) h (ih hs.2.1 hnested)
  | case4 a b ha hb =>
    intro d h
    obtain ⟨left, hleft, h⟩ := Option.bind_eq_some_iff.mp h
    obtain ⟨result, hresult, h⟩ := Option.bind_eq_some_iff.mp h
    obtain ⟨right, hright, h⟩ := Option.bind_eq_some_iff.mp h
    have hres : Decomposes result a := decomposes_startSum hresult (ha hs.2.1 hleft)
    exact decomposes_add (hs.1 (by decide)) h hres (hb hs.2.2 hright)
  | case5 a b ha hb =>
    intro d h
    obtain ⟨left, hleft, h⟩ := Option.bind_eq_some_iff.mp h
    obtain ⟨result, hresult, h⟩ := Option.bind_eq_some_iff.mp h
    obtain ⟨right, hright, h⟩ := Option.bind_eq_some_iff.mp h
    have hres : Decomposes result a := decomposes_accumulate hresult (ha hs.2.1 hleft)
    exact decomposes_sub (hs.1 (by decide)) h hres (hb hs.2.2 hright)
  | case6 a b hnone =>
    intro d h
    cases h
    exact decomposes_self _
  | case7 =>
    intro d h
    cases h
  | case8 a b x hx hlt ih =>
    intro d h
    obtain ⟨hxs, hxsize, heval⟩ := decomposes_product hs hx
    refine decomposes_congr hxsize (fun ι => ?_) (ih hxs h)
    have hval := heval ι
    rw [Option.elim_none, mul_one] at hval
    exact hval
  | case9 a b x con hx hlt ih =>
    intro d h
    obtain ⟨hxs, hxsize, heval⟩ := decomposes_product hs hx
    obtain ⟨nested, hnested, h⟩ := Option.bind_eq_some_iff.mp h
    exact decomposes_scaled hxsize heval h (ih hxs hnested)
  | case10 c a b ha hb =>
    intro d h
    obtain ⟨left, hleft, h⟩ := Option.bind_eq_some_iff.mp h
    obtain ⟨right, hright, h⟩ := Option.bind_eq_some_iff.mp h
    obtain ⟨hsize, has, hbs⟩ := hs
    have hl := ha has hleft
    have hr := hb hbs hright
    split at h
    · split at h
      · next hxy =>
        cases h
        subst hxy
        exact decomposes_ite hsize hl hr
      · cases h
        exact decomposes_self _
    · cases h
    · cases h
      exact decomposes_self _
  | case11 e _ _ _ _ _ _ =>
    intro d h
    cases h
    exact decomposes_self _

/-! ### Grouping -/

variable {constraints : List BoolAst}

theorem grouped_spec {e' : BV} (h : ev.grouped constraints e = some e') : e'.size = e.size ∧
    ∀ ι, (∀ c ∈ constraints, c.eval ι = true) → e'.eval ι = e.eval ι := by
  unfold grouped at h
  split at h
  · next k hi x =>
    dsimp only at h
    split at h
    · next hsize =>
      split at h
      · next hd =>
        cases h
        refine ⟨hsize, fun ι hc => ?_⟩
        simpa using eval_of_definitely ev.toBackend hc hd
      · cases h
        exact ⟨rfl, fun _ _ => rfl⟩
    · cases h
  · cases h
    exact ⟨rfl, fun _ _ => rfl⟩

theorem groupAll_spec {terms : Terms} (h : ev.groupAll constraints terms result = some d) (hr : result.Shape n)
    (hsizes : ∀ p ∈ terms, p.1.size = n) (hatMost : ∀ p ∈ terms, p.2.AtMost n) :
    d.Shape n ∧ (d.Fit n → result.Fit n ∧ terms.Fit n ∧ ∀ ι, (∀ c ∈ constraints, c.eval ι = true) →
      d.value ι ≡ result.value ι + terms.value ι [ZMOD 2 ^ n]) := by
  induction terms generalizing result with
  | nil =>
    cases h
    exact ⟨hr, fun hfit => ⟨hfit, nofun, fun ι _ => by simp [Terms.value]⟩⟩
  | cons p terms ih =>
    rw [List.forall_mem_cons] at hsizes hatMost
    rw [groupAll] at h
    obtain ⟨e, he, h⟩ := Option.bind_eq_some_iff.mp h
    obtain ⟨added, hadd, h⟩ := Option.bind_eq_some_iff.mp h
    obtain ⟨hsize, heval⟩ := grouped_spec he
    obtain ⟨hd, hval⟩ := ih h (addTo_shape hadd hr (hsize.trans hsizes.1) hatMost.1) hsizes.2 hatMost.2
    refine ⟨hd, fun hfit => ?_⟩
    obtain ⟨hadded, hterms, hval⟩ := hval hfit
    obtain ⟨hres, hpfits, hval'⟩ := addTo_value hadd hadded
    refine ⟨hres, Terms.fit_cons.mpr ⟨hpfits, hterms⟩, fun ι hc => ?_⟩
    rw [Terms.value_cons, ← heval ι hc, ← add_assoc]
    exact (hval ι hc).trans ((hval' ι).add_right _)

/-- What `_as_mult_add_outer` returns stands for the term wherever the constraints hold. -/
theorem asMultAddOuter_spec (hs : e.Sized) (h : ev.asMultAddOuter constraints e = some d) : d.Shape e.size ∧
    (d.Fit e.size → ∀ ι, (∀ c ∈ constraints, c.eval ι = true) → d.value ι ≡ e.eval ι [ZMOD 2 ^ e.size]) := by
  obtain ⟨terms, hterms, h⟩ := Option.bind_eq_some_iff.mp h
  obtain ⟨hshape, hval⟩ := asMultAdd_spec e hs hterms
  obtain ⟨hd, hvalue⟩ := groupAll_spec h (Terms.shape_nil _) hshape.sizes hshape.atMost
  refine ⟨hd, fun hfit ι hc => ?_⟩
  obtain ⟨-, hfit, hvalue⟩ := hvalue hfit
  refine (hvalue ι hc).trans ?_
  simpa [Terms.value] using hval hfit ι

end Evaluator
end Tool
end Klint
