/-
# Simplifying expressions

`simplify` of `tool/kalm/utils.py`. It drops the arms of conditionals that the path condition
excludes, simplifies the others under the condition of each, and takes a common addend of two arms
out of the conditional. Of claripy's `ite_excavated` and `ite_burrowed` and of the solver's
`simplify` it is used that they keep the meaning and the size of a term, and of the first
also that it makes no more cases (`cases`), which is why `simplify` ends.

A sum of many terms is a left-leaning tree of sums of two, as claripy flattens sums.
-/
import Klint.Tool.GhostMaps

namespace Klint
namespace Tool

/-! ### Terms -/

/-- Operands have the sizes that claripy insists on. -/
def BV.Sized : BV → Prop
  | .bvs _ _ => True
  | .bvv _ _ => True
  | .bin op a b => (op ≠ .concat → a.size = b.size) ∧ a.Sized ∧ b.Sized
  | .extract hi lo a => lo ≤ hi ∧ hi < a.size ∧ a.Sized
  | .zeroExt _ a => a.Sized
  | .ite _ a b => a.size = b.size ∧ a.Sized ∧ b.Sized
  | .mapGet _ _ _ _ => True

/-- The cases that conditionals split a term into, apart from those inside conditions. -/
def BV.cases : BV → ℕ
  | .bvs _ _ => 1
  | .bvv _ _ => 1
  | .bin _ a b => a.cases * b.cases
  | .extract _ _ a => a.cases
  | .zeroExt _ a => a.cases
  | .ite _ a b => a.cases + b.cases
  | .mapGet _ _ _ _ => 1

/-- `op == '__add__'` -/
def BV.isAdd : BV → Bool
  | .bin .add _ _ => true
  | _ => false

/-- The `args` of a sum. -/
def BV.addArgs : BV → List BV
  | .bin .add a b => a.addArgs ++ [b]
  | e => [e]

/-- Claripy with its rewriting of conditionals, and the solver with its own `simplify`. -/
structure Rewriter extends Backend where
  iteExcavated : BV → BV
  iteBurrowed : BV → BV
  solverSimplify : List BoolAst → BV → BV
  sized_bv : ∀ e, e.Sized → (bv e).Sized
  sized_excavated : ∀ e, e.Sized → (iteExcavated e).Sized
  size_excavated : ∀ e, (iteExcavated e).size = e.size
  eval_excavated : ∀ ι e, (iteExcavated e).eval ι = e.eval ι
  cases_excavated : ∀ e, (iteExcavated e).cases ≤ e.cases
  sized_burrowed : ∀ e, e.Sized → (iteBurrowed e).Sized
  size_burrowed : ∀ e, (iteBurrowed e).size = e.size
  eval_burrowed : ∀ ι e, (iteBurrowed e).eval ι = e.eval ι
  size_simplify : ∀ cs e, (solverSimplify cs e).size = e.size
  sized_simplify : ∀ cs e, e.Sized → (solverSimplify cs e).Sized
  eval_simplify : ∀ cs ι e, (∀ c ∈ cs, c.eval ι = true) → (solverSimplify cs e).eval ι = e.eval ι

namespace Rewriter

variable (rw : Rewriter)

/-! ### The code -/

/-- `sum(l, start)` -/
def sumFrom (start : BV) (l : List BV) : BV := l.foldl rw.add start

/-- `sum(l)`, which begins with 0. -/
def sum : List BV → BV
  | [] => bvv 0 0
  | a :: l => rw.sumFrom (rw.add (bvv a.size 0) a) l

def forceBurrowIte : BV → BV
  | .ite c a b => rw.iteBurrowed (rw.ite c (forceBurrowIte a) (forceBurrowIte b))
  | e => e

/-- Why there is no result: `get_if_constant` raises, or the model's count of calls is used up. -/
inductive Failure
  | noSolution
  | outOfFuel
deriving DecidableEq, Repr

/-- `get_if_constant` of a Boolean. -/
def ifConstant (constraints : List BoolAst) (cond : BoolAst) : Except Failure (Option Bool) :=
  match canBeTrue rw.toBackend constraints cond, canBeFalse rw.toBackend constraints cond with
  | true, true => pure none
  | true, false => pure (some true)
  | false, true => pure (some false)
  | false, false => throw .noSolution

/-- `common + claripy.If(cond, sum(xs, BVV(0)), sum(ys, BVV(0)))` -/
def factor (size : ℕ) (common : BV) (c : BoolAst) (xs ys : List BV) : BV :=
  rw.add common (rw.ite c (rw.sumFrom (bvv size 0) xs) (rw.sumFrom (bvv size 0) ys))

/-- "this is seriously ridiculous, the constant can be at the beginning or end so we have to handle all 4 cases" -/
def factorAddend (c : BoolAst) (x y : BV) : BV :=
  let value : BV := .ite c x y
  let xs := x.addArgs
  let ys := y.addArgs
  if x.isAdd && y.isAdd then
    if xs.headD x = ys.headD y then rw.factor value.size (xs.headD x) c xs.tail ys.tail
    else if xs.headD x = ys.getLastD y then rw.factor value.size (xs.headD x) c xs.tail ys.dropLast
    else if xs.getLastD x = ys.headD y then rw.factor value.size (xs.getLastD x) c xs.dropLast ys.tail
    else if xs.getLastD x = ys.getLastD y then rw.factor value.size (xs.getLastD x) c xs.dropLast ys.dropLast
    else value
  else value

variable (constraints : List BoolAst)

mutual
/-- `simplify` -/
def simplify : ℕ → BV → BoolAst → Except Failure BV
  | 0, _, _ => throw .outOfFuel
  | fuel + 1, value, cond =>
    if value.isAdd then do
      let args ← value.addArgs.mapM fun a => simplify fuel a cond
      pure (rw.sum args)
    else do
      let value ← simplifyLoop fuel (rw.iteExcavated value) cond
      pure (rw.solverSimplify constraints (rw.forceBurrowIte value))

/-- `while value.op == 'If'` -/
def simplifyLoop : ℕ → BV → BoolAst → Except Failure BV
  | 0, _, _ => throw .outOfFuel
  | fuel + 1, .ite c a b, cond => do
    match ← rw.ifConstant constraints (rw.and cond c) with
    | some true => simplifyLoop fuel (rw.iteExcavated a) cond
    | some false => simplifyLoop fuel (rw.iteExcavated b) cond
    | none =>
      let x ← simplify fuel a (rw.and cond c)
      let y ← simplify fuel b (rw.and cond (rw.not c))
      -- "just in case claripy simplified the if we just put"
      match rw.ite c x y with
      | .ite c x y => pure (rw.factorAddend c x y)
      | value => pure value
  | _ + 1, value, _ => pure value
end

/-! ### Sums -/

variable {rw} {ι : Env}

def total (ι : Env) (l : List BV) : ℕ := (l.map (BV.eval ι)).sum

theorem total_append (l l' : List BV) : total ι (l ++ l') = total ι l + total ι l' := by
  simp [total]

/-- A sum's value is the sum of its arguments, and a term is a sum of one argument otherwise. -/
theorem eval_addArgs (e : BV) : e.eval ι = total ι e.addArgs % 2 ^ e.size := by
  fun_induction BV.addArgs e with
  | case1 a b ih =>
    rw [total_append, BV.eval, BV.size]
    simp only [BinOp.apply, BinOp.size]
    rw [ih, Nat.mod_add_mod]
    simp [total]
  | case2 e _ => simp [total, Nat.mod_eq_of_lt (BV.eval_lt ι e)]

theorem addArgs_sized (e : BV) (h : e.Sized) : ∀ a ∈ e.addArgs, a.Sized ∧ a.size = e.size := by
  fun_induction BV.addArgs e with
  | case1 a b ih =>
    obtain ⟨hsize, ha, hb⟩ := h
    intro x hx
    rcases List.mem_append.mp hx with hx | hx
    · exact ih ha x hx
    · rw [List.mem_singleton.mp hx]
      exact ⟨hb, (hsize (by decide)).symm⟩
  | case2 e _ =>
    intro x hx
    rw [List.mem_singleton.mp hx]
    exact ⟨h, rfl⟩

theorem addArgs_ne_nil (e : BV) : e.addArgs ≠ [] := by
  fun_induction BV.addArgs e with
  | case1 a b ih => simp
  | case2 e _ => simp

theorem cases_pos (e : BV) : 0 < e.cases := by
  fun_induction BV.cases e with
  | case1 | case2 | case7 => exact Nat.one_pos
  | case3 _ a b ha hb => exact Nat.mul_pos ha hb
  | case4 _ _ a ha | case5 _ a ha => exact ha
  | case6 _ a b ha hb => omega

theorem addArgs_cases (e : BV) : ∀ a ∈ e.addArgs, a.cases ≤ e.cases := by
  fun_induction BV.addArgs e with
  | case1 a b ih =>
    intro x hx
    rcases List.mem_append.mp hx with hx | hx
    · exact (ih x hx).trans (Nat.le_mul_of_pos_right _ (cases_pos b))
    · rw [List.mem_singleton.mp hx]
      exact Nat.le_mul_of_pos_left _ (cases_pos a)
  | case2 e _ =>
    intro x hx
    rw [List.mem_singleton.mp hx]

theorem addArgs_le (e : BV) : ∀ a ∈ e.addArgs, sizeOf a ≤ sizeOf e := by
  fun_induction BV.addArgs e with
  | case1 a b ih =>
    intro x hx
    rcases List.mem_append.mp hx with hx | hx
    · have := ih x hx
      simp only [BV.bin.sizeOf_spec]
      omega
    · rw [List.mem_singleton.mp hx]
      simp only [BV.bin.sizeOf_spec]
      omega
  | case2 e _ =>
    intro x hx
    rw [List.mem_singleton.mp hx]

/-- The arguments of a sum are smaller terms. -/
theorem addArgs_lt {e : BV} (h : e.isAdd = true) : ∀ a ∈ e.addArgs, sizeOf a < sizeOf e := by
  unfold BV.isAdd at h
  split at h
  · next a b =>
    intro x hx
    rw [BV.addArgs] at hx
    rcases List.mem_append.mp hx with hx | hx
    · have := addArgs_le a x hx
      simp only [BV.bin.sizeOf_spec]
      omega
    · rw [List.mem_singleton.mp hx]
      simp only [BV.bin.sizeOf_spec]
      omega
  · exact absurd h Bool.false_ne_true

theorem sized_add (a b : BV) (hs : a.size = b.size) (ha : a.Sized) (hb : b.Sized) : (rw.add a b).Sized :=
  rw.sized_bv _ ⟨fun _ => hs, ha, hb⟩

theorem sized_ite (c : BoolAst) (a b : BV) (hs : a.size = b.size) (ha : a.Sized) (hb : b.Sized) :
    (rw.ite c a b).Sized :=
  rw.sized_bv _ ⟨hs, ha, hb⟩

theorem size_sumFrom (l : List BV) : ∀ start : BV, (rw.sumFrom start l).size = start.size := by
  induction l with
  | nil => exact fun _ => rfl
  | cons a l ih => exact fun start => (ih (rw.add start a)).trans (Claripy.size_add _ _ _)

theorem eval_sumFrom (l : List BV) : ∀ start : BV,
    (rw.sumFrom start l).eval ι = (start.eval ι + total ι l) % 2 ^ start.size := by
  induction l with
  | nil => exact fun start => by simp [sumFrom, total, Nat.mod_eq_of_lt (BV.eval_lt ι start)]
  | cons a l ih =>
    intro start
    refine (ih (rw.add start a)).trans ?_
    rw [Claripy.size_add, Claripy.eval_add, Nat.mod_add_mod, Nat.add_assoc]
    simp [total]

/-- What `sum` makes of terms of one size. -/
theorem sumFrom_spec (l : List BV) (start : BV) (hs : start.Sized) (hl : ∀ a ∈ l, a.Sized ∧ a.size = start.size) :
    (rw.sumFrom start l).Sized ∧ (rw.sumFrom start l).size = start.size ∧
      (rw.sumFrom start l).eval ι = (start.eval ι + total ι l) % 2 ^ start.size := by
  refine ⟨?_, size_sumFrom l start, eval_sumFrom l start⟩
  induction l generalizing start with
  | nil => exact hs
  | cons a l ih =>
    rw [List.forall_mem_cons] at hl
    have hsize : (rw.add start a).size = start.size := Claripy.size_add _ _ _
    exact ih _ (sized_add _ _ hl.1.2.symm hs hl.1.1) fun x hx => hsize.symm ▸ hl.2 x hx

/-! ### What each part keeps -/

/-- The second term is of the first one's size, and has its value where the condition holds. -/
structure Same (constraints : List BoolAst) (cond : BoolAst) (value r : BV) : Prop where
  sized : r.Sized
  size : r.size = value.size
  eval : ∀ ι : Env, (∀ c ∈ constraints, c.eval ι = true) → cond.eval ι = true → r.eval ι = value.eval ι

variable {constraints : List BoolAst} {cond : BoolAst}

theorem Same.refl {value : BV} (h : value.Sized) : Same constraints cond value value := ⟨h, rfl, fun _ _ _ => rfl⟩

theorem Same.trans {a b c : BV} (h : Same constraints cond a b) (h' : Same constraints cond b c) :
    Same constraints cond a c where
  sized := h'.sized
  size := h'.size.trans h.size
  eval := fun ι hc hcond => (h'.eval ι hc hcond).trans (h.eval ι hc hcond)

theorem same_excavated {value : BV} (h : value.Sized) : Same constraints cond value (rw.iteExcavated value) :=
  ⟨rw.sized_excavated _ h, rw.size_excavated _, fun _ _ _ => rw.eval_excavated _ _⟩

theorem forceBurrowIte_spec (value : BV) (h : value.Sized) : (rw.forceBurrowIte value).Sized ∧
    (rw.forceBurrowIte value).size = value.size ∧ ∀ ι, (rw.forceBurrowIte value).eval ι = value.eval ι := by
  fun_induction forceBurrowIte rw value with
  | case1 c a b iha ihb =>
    obtain ⟨hs, ha, hb⟩ := h
    obtain ⟨ha, hsa, hea⟩ := iha ha
    obtain ⟨hb, hsb, heb⟩ := ihb hb
    refine ⟨rw.sized_burrowed _ (sized_ite _ _ _ (by rw [hsa, hsb, hs]) ha hb), ?_, fun ι => ?_⟩
    · rw [rw.size_burrowed, Claripy.size_ite, hsa, hsb, BV.size]
    · rw [rw.eval_burrowed, Claripy.eval_ite, hea, heb, BV.eval]
  | case2 e _ => exact ⟨h, rfl, fun _ => rfl⟩

/-- The sum of the arguments, each simplified. -/
theorem sum_same {l l' : List BV} {size : ℕ} (h : List.Forall₂ (Same constraints cond) l l') (hne : l ≠ [])
    (hl : ∀ a ∈ l, a.size = size) : (rw.sum l').Sized ∧ (rw.sum l').size = size ∧
      ∀ ι : Env, (∀ c ∈ constraints, c.eval ι = true) → cond.eval ι = true →
        (rw.sum l').eval ι = total ι l % 2 ^ size := by
  have htotal : ∀ ι : Env, (∀ c ∈ constraints, c.eval ι = true) → cond.eval ι = true → total ι l' = total ι l := by
    intro ι hc hcond
    clear hne hl
    induction h with
    | nil => rfl
    | cons hab _ ih =>
      unfold total at ih ⊢
      rw [List.map_cons, List.map_cons, List.sum_cons, List.sum_cons, hab.eval ι hc hcond, ih]
  have hall : ∀ a ∈ l', a.Sized ∧ a.size = size := by
    clear hne htotal
    induction h with
    | nil => simp
    | cons hab _ ih =>
      rw [List.forall_mem_cons] at hl ⊢
      exact ⟨⟨hab.sized, hab.size.trans hl.1⟩, ih hl.2⟩
  cases h with
  | nil => exact absurd rfl hne
  | @cons a b l l' hab hrest =>
    rw [List.forall_mem_cons] at hall
    obtain ⟨⟨hb, hsb⟩, hall⟩ := hall
    subst hsb
    have hstart : (rw.add (bvv b.size 0) b).size = b.size := Claripy.size_add _ _ _
    have hzero : (rw.add (bvv b.size 0) b).Sized := sized_add _ _ rfl trivial hb
    refine ⟨?_, ?_, fun ι hc hcond => ?_⟩
    · exact (sumFrom_spec (ι := ⟨fun _ => 0, fun _ => false⟩) l' _ hzero fun x hx => hstart.symm ▸ hall x hx).1
    · exact (sumFrom_spec (ι := ⟨fun _ => 0, fun _ => false⟩) l' _ hzero
        fun x hx => hstart.symm ▸ hall x hx).2.1.trans hstart
    · have hsum := (@sumFrom_spec rw ι l' _ hzero fun x hx => hstart.symm ▸ hall x hx).2.2
      rw [sum, hsum, hstart, Claripy.eval_add, Claripy.eval_bvv, ← htotal ι hc hcond]
      simp [total]

/-- A common addend is taken out of two sums. -/
theorem factor_spec {c : BoolAst} {x y common : BV} {xs ys : List BV} (hxy : x.size = y.size)
    (hcommon : common.Sized ∧ common.size = x.size) (hxs : ∀ a ∈ xs, a.Sized ∧ a.size = x.size)
    (hys : ∀ a ∈ ys, a.Sized ∧ a.size = x.size)
    (hx : ∀ ι, x.eval ι = (common.eval ι + total ι xs) % 2 ^ x.size)
    (hy : ∀ ι, y.eval ι = (common.eval ι + total ι ys) % 2 ^ x.size) :
    Same constraints cond (.ite c x y) (rw.factor (BV.ite c x y).size common c xs ys) := by
  have hsize : (BV.ite c x y).size = x.size := by rw [BV.size, hxy, max_self]
  have hleft := fun ι => @sumFrom_spec rw ι xs (bvv x.size 0) trivial hxs
  have hright := fun ι => @sumFrom_spec rw ι ys (bvv x.size 0) trivial hys
  let ι₀ : Env := ⟨fun _ => 0, fun _ => false⟩
  rw [hsize]
  unfold factor
  refine ⟨?_, ?_, fun ι _ _ => ?_⟩
  · apply sized_add _ _ _ hcommon.1
    · exact sized_ite _ _ _ ((hleft ι₀).2.1.trans (hright ι₀).2.1.symm) (hleft ι₀).1 (hright ι₀).1
    · rw [Claripy.size_ite, (hleft ι₀).2.1, (hright ι₀).2.1, max_self, Claripy.size_bvv, hcommon.2]
  · rw [Claripy.size_add, hcommon.2, hsize]
  · rw [Claripy.eval_add, Claripy.eval_ite, hcommon.2, (hleft ι).2.2, (hright ι).2.2, BV.eval, hx, hy,
      Claripy.eval_bvv, Claripy.size_bvv, Nat.zero_mod, Nat.zero_add, Nat.zero_add]
    split_ifs
    · rw [Nat.add_mod_mod]
    · rw [Nat.add_mod_mod]

/-- The arguments of a sum, from one of its two ends. -/
theorem headD_add_tail (e : BV) : total ι e.addArgs = (e.addArgs.headD e).eval ι + total ι e.addArgs.tail := by
  cases h : e.addArgs with
  | nil => exact absurd h (addArgs_ne_nil e)
  | cons a l => simp [total]

theorem getLastD_add_dropLast (e : BV) :
    total ι e.addArgs = (e.addArgs.getLastD e).eval ι + total ι e.addArgs.dropLast := by
  have hne := addArgs_ne_nil e
  have hsplit : e.addArgs = e.addArgs.dropLast ++ [e.addArgs.getLast hne] := (List.dropLast_append_getLast hne).symm
  have hlast : e.addArgs.getLastD e = e.addArgs.getLast hne := by
    rw [List.getLastD_eq_getLast?, List.getLast?_eq_some_getLast hne, Option.getD_some]
  rw [hlast]
  conv_lhs => rw [hsplit, total_append]
  simp [total, Nat.add_comm]

theorem headD_mem (e : BV) : e.addArgs.headD e ∈ e.addArgs := by
  cases h : e.addArgs with
  | nil => exact absurd h (addArgs_ne_nil e)
  | cons a l => exact List.mem_cons_self

theorem getLastD_mem (e : BV) : e.addArgs.getLastD e ∈ e.addArgs := by
  rw [List.getLastD_eq_getLast?, List.getLast?_eq_some_getLast (addArgs_ne_nil e), Option.getD_some]
  exact List.getLast_mem _

/-- All four cases. -/
theorem factorAddend_same {c : BoolAst} {x y : BV} (h : (BV.ite c x y).Sized) :
    Same constraints cond (.ite c x y) (rw.factorAddend c x y) := by
  obtain ⟨hxy, hx, hy⟩ := h
  have hxs := addArgs_sized x hx
  have hys := addArgs_sized y hy
  rw [← hxy] at hys
  have htail : ∀ {l : List BV}, (∀ a ∈ l, a.Sized ∧ a.size = x.size) → ∀ a ∈ l.tail, a.Sized ∧ a.size = x.size :=
    fun hl a ha => hl a (List.mem_of_mem_tail ha)
  have hdrop : ∀ {l : List BV}, (∀ a ∈ l, a.Sized ∧ a.size = x.size) → ∀ a ∈ l.dropLast, a.Sized ∧ a.size = x.size :=
    fun hl a ha => hl a (List.mem_of_mem_dropLast ha)
  have hx' := fun ι => eval_addArgs (ι := ι) x
  have hy' := fun ι => eval_addArgs (ι := ι) y
  rw [← hxy] at hy'
  unfold factorAddend
  dsimp only
  split_ifs with _ h1 h2 h3 h4
  · exact factor_spec hxy (hxs _ (headD_mem x)) (htail hxs) (htail hys)
      (fun ι => by rw [hx', headD_add_tail]) (fun ι => by rw [hy', headD_add_tail, h1])
  · exact factor_spec hxy (hxs _ (headD_mem x)) (htail hxs) (hdrop hys)
      (fun ι => by rw [hx', headD_add_tail]) (fun ι => by rw [hy', getLastD_add_dropLast, h2])
  · exact factor_spec hxy (hxs _ (getLastD_mem x)) (hdrop hxs) (htail hys)
      (fun ι => by rw [hx', getLastD_add_dropLast]) (fun ι => by rw [hy', headD_add_tail, h3])
  · exact factor_spec hxy (hxs _ (getLastD_mem x)) (hdrop hxs) (hdrop hys)
      (fun ι => by rw [hx', getLastD_add_dropLast]) (fun ι => by rw [hy', getLastD_add_dropLast, h4])
  · exact Same.refl ⟨hxy, hx, hy⟩
  · exact Same.refl ⟨hxy, hx, hy⟩

/-! ### The solver -/

/-- Where the constraints have a solution, one of the two answers is possible. -/
theorem satisfiable_of_holds {ι : Env} (hc : ∀ c ∈ constraints, c.eval ι = true) {e : BoolAst}
    (he : e.eval ι = true) : rw.satisfiable (constraints ++ [e]) = true := by
  refine rw.satisfiable_of_eval _ ι fun c hmem => ?_
  rcases List.mem_append.mp hmem with hmem | hmem
  · exact hc c hmem
  · rw [List.mem_singleton.mp hmem]
    exact he

theorem canBe_of_holds {ι : Env} (hc : ∀ c ∈ constraints, c.eval ι = true) :
    if cond.eval ι then canBeTrue rw.toBackend constraints cond = true
    else canBeFalse rw.toBackend constraints cond = true := by
  split_ifs with h
  · exact satisfiable_of_holds hc h
  · exact satisfiable_of_holds hc (by rw [Claripy.eval_not, Bool.eq_false_of_not_eq_true h]; rfl)

theorem ifConstant_some {b : Bool} (h : rw.ifConstant constraints cond = .ok (some b)) {ι : Env}
    (hc : ∀ c ∈ constraints, c.eval ι = true) : cond.eval ι = b := by
  have hbe := @canBe_of_holds rw _ cond _ hc
  unfold ifConstant at h
  split at h <;> simp_all [pure, Except.pure]

/-- `get_if_constant` raises only where the constraints have no solution. -/
theorem ifConstant_ok {ι : Env} (hc : ∀ c ∈ constraints, c.eval ι = true) :
    ∃ b, rw.ifConstant constraints cond = .ok b := by
  have hbe := @canBe_of_holds rw _ cond _ hc
  unfold ifConstant
  split
  · exact ⟨_, rfl⟩
  · exact ⟨_, rfl⟩
  · exact ⟨_, rfl⟩
  · simp_all

/-! ### All calls -/

theorem mapM_ok {α β ε : Type} {f : α → Except ε β} : ∀ {l : List α} {l' : List β}, l.mapM f = .ok l' →
    List.Forall₂ (fun a b => f a = .ok b) l l'
  | [], _, h => by
    cases h
    exact List.Forall₂.nil
  | a :: l, l', h => by
    rw [List.mapM_cons] at h
    cases ha : f a with
    | error e =>
      rw [ha] at h
      cases h
    | ok b =>
      rw [ha] at h
      cases hl : l.mapM f with
      | error e =>
        rw [hl] at h
        cases h
      | ok bs =>
        rw [hl] at h
        cases h
        exact List.Forall₂.cons ha (mapM_ok hl)

theorem mapM_error {α β ε : Type} {f : α → Except ε β} {e : ε} : ∀ {l : List α}, l.mapM f = .error e →
    ∃ a ∈ l, f a = .error e
  | [], h => by cases h
  | a :: l, h => by
    rw [List.mapM_cons] at h
    cases ha : f a with
    | error e' =>
      rw [ha] at h
      cases h
      exact ⟨a, List.mem_cons_self, ha⟩
    | ok b =>
      rw [ha] at h
      cases hl : l.mapM f with
      | error e' =>
        rw [hl] at h
        cases h
        obtain ⟨x, hx, he⟩ := mapM_error hl
        exact ⟨x, List.mem_cons_of_mem a hx, he⟩
      | ok bs =>
        rw [hl] at h
        cases h

variable {fuel : ℕ} {value r : BV} {c : BoolAst} {a b : BV}

/-- A sum, given what its arguments become. -/
theorem simplify_add (hv : value.Sized) (hadd : value.isAdd = true)
    (hargs : ∀ x ∈ value.addArgs, ∀ y, x.Sized → rw.simplify constraints fuel x cond = .ok y →
      Same constraints cond x y)
    (h : rw.simplify constraints (fuel + 1) value cond = .ok r) : Same constraints cond value r := by
  unfold simplify at h
  rw [if_pos hadd] at h
  cases hm : value.addArgs.mapM fun x => rw.simplify constraints fuel x cond with
  | error e =>
    rw [hm] at h
    cases h
  | ok args =>
    rw [hm] at h
    cases h
    have hsized := addArgs_sized value hv
    have hboth := (List.forall₂_and_left value.addArgs args).mpr ⟨hargs, mapM_ok hm⟩
    have hsame : List.Forall₂ (Same constraints cond) value.addArgs args := by
      have hmem := (List.forall₂_and_left value.addArgs args).mpr ⟨fun x hx => (hsized x hx).1, hboth⟩
      exact hmem.imp fun x y hxy => hxy.2.1 y hxy.1 hxy.2.2
    obtain ⟨hr, hs, he⟩ := @sum_same rw _ _ _ _ _ hsame (addArgs_ne_nil value) fun x hx => (hsized x hx).2
    exact ⟨hr, hs, fun ι hc hcond => (he ι hc hcond).trans (eval_addArgs value).symm⟩

/-- A conditional whose arms are simplified under their own conditions. -/
theorem ite_same {c : BoolAst} {a b x y : BV} (hv : (BV.ite c a b).Sized) (hx : Same constraints (rw.and cond c) a x)
    (hy : Same constraints (rw.and cond (rw.not c)) b y) : Same constraints cond (.ite c a b) (rw.ite c x y) := by
  refine ⟨sized_ite _ _ _ ?_ hx.sized hy.sized, ?_, fun ι hc hcond => ?_⟩
  · rw [hx.size, hy.size, hv.1]
  · rw [Claripy.size_ite, hx.size, hy.size, BV.size]
  · rw [Claripy.eval_ite, BV.eval]
    split_ifs with hce
    · exact hx.eval ι hc (by rw [Claripy.eval_and, hcond, hce]; rfl)
    · exact hy.eval ι hc (by rw [Claripy.eval_and, Claripy.eval_not, hcond, Bool.eq_false_of_not_eq_true hce]; rfl)

theorem simplifyLoop_other (h : ∀ c a b, value ≠ .ite c a b) :
    rw.simplifyLoop constraints (fuel + 1) value cond = .ok value := by
  cases value with
  | ite c a b => exact absurd rfl (h c a b)
  | _ => rfl

theorem simplifyLoop_const {const : Bool} (hif : rw.ifConstant constraints (rw.and cond c) = .ok (some const)) :
    rw.simplifyLoop constraints (fuel + 1) (.ite c a b) cond =
      rw.simplifyLoop constraints fuel (rw.iteExcavated (if const then a else b)) cond := by
  rw [simplifyLoop, hif]
  cases const <;> rfl

theorem simplifyLoop_arms (hif : rw.ifConstant constraints (rw.and cond c) = .ok none) :
    rw.simplifyLoop constraints (fuel + 1) (.ite c a b) cond = (do
      let x ← rw.simplify constraints fuel a (rw.and cond c)
      let y ← rw.simplify constraints fuel b (rw.and cond (rw.not c))
      match rw.ite c x y with
      | .ite c x y => pure (rw.factorAddend c x y)
      | value => pure value) := by
  rw [simplifyLoop, hif]
  rfl

theorem simplifyLoop_error {e : Failure} (hif : rw.ifConstant constraints (rw.and cond c) = .error e) :
    rw.simplifyLoop constraints (fuel + 1) (.ite c a b) cond = .error e := by
  rw [simplifyLoop, hif]
  rfl

/-- The arm that a constant condition leaves. -/
theorem const_same {const : Bool} (hv : (BV.ite c a b).Sized)
    (hif : rw.ifConstant constraints (rw.and cond c) = .ok (some const)) :
    Same constraints cond (.ite c a b) (rw.iteExcavated (if const then a else b)) := by
  have harm : (if const then a else b).Sized ∧ (if const then a else b).size = (BV.ite c a b).size := by
    rw [BV.size, hv.1, max_self]
    cases const with
    | true => exact ⟨hv.2.1, hv.1⟩
    | false => exact ⟨hv.2.2, rfl⟩
  refine ⟨rw.sized_excavated _ harm.1, (rw.size_excavated _).trans harm.2, fun ι hc hcond => ?_⟩
  have hconst := ifConstant_some hif hc
  rw [Claripy.eval_and, hcond, Bool.true_and] at hconst
  rw [rw.eval_excavated, BV.eval, hconst]
  cases const <;> rfl

/-- One round of the loop, given what the calls it makes keep. -/
theorem simplifyLoop_step (hv : value.Sized)
    (hloop : ∀ {value r cond}, value.Sized → rw.simplifyLoop constraints fuel value cond = .ok r →
      Same constraints cond value r)
    (hsimp : ∀ {value r cond}, value.Sized → rw.simplify constraints fuel value cond = .ok r →
      Same constraints cond value r)
    (h : rw.simplifyLoop constraints (fuel + 1) value cond = .ok r) : Same constraints cond value r := by
  by_cases hite : ∃ c a b, value = .ite c a b
  · obtain ⟨c, a, b, rfl⟩ := hite
    rcases hif : rw.ifConstant constraints (rw.and cond c) with e | (_ | const)
    · rw [simplifyLoop_error hif] at h
      cases h
    · rw [simplifyLoop_arms hif] at h
      cases hx : rw.simplify constraints fuel a (rw.and cond c) with
      | error e =>
        rw [hx] at h
        cases h
      | ok x =>
        cases hy : rw.simplify constraints fuel b (rw.and cond (rw.not c)) with
        | error e =>
          rw [hx, hy] at h
          cases h
        | ok y =>
          have hsame := ite_same hv (hsimp hv.2.1 hx) (hsimp hv.2.2 hy)
          rw [hx, hy] at h
          change (match rw.ite c x y with
            | .ite c x y => pure (rw.factorAddend c x y)
            | value => pure value) = Except.ok r at h
          split at h
          · next c' x' y' he =>
            cases h
            rw [he] at hsame
            exact hsame.trans (factorAddend_same hsame.sized)
          · cases h
            exact hsame
    · rw [simplifyLoop_const hif] at h
      have hconst := const_same hv hif
      exact hconst.trans (hloop hconst.sized h)
  · push Not at hite
    rw [simplifyLoop_other hite] at h
    cases h
    exact Same.refl hv

/-- What is returned has the value of what was given. -/
theorem simplify_same : ∀ fuel : ℕ,
    (∀ {value r cond}, value.Sized → rw.simplify constraints fuel value cond = .ok r → Same constraints cond value r) ∧
    ∀ {value r cond}, value.Sized → rw.simplifyLoop constraints fuel value cond = .ok r → Same constraints cond value r
  | 0 => by
    constructor
    · intro value r cond _ h
      unfold simplify at h
      cases h
    · intro value r cond _ h
      unfold simplifyLoop at h
      cases h
  | fuel + 1 => by
    obtain ⟨ihs, ihl⟩ := simplify_same fuel
    refine ⟨fun {value r cond} hv h => ?_, fun hv h => simplifyLoop_step hv ihl ihs h⟩
    by_cases hadd : value.isAdd = true
    · exact simplify_add hv hadd (fun x _ y hx hy => ihs hx hy) h
    · unfold simplify at h
      rw [if_neg hadd] at h
      cases hl : rw.simplifyLoop constraints fuel (rw.iteExcavated value) cond with
      | error e =>
        rw [hl] at h
        cases h
      | ok v =>
        rw [hl] at h
        cases h
        have hsame := (same_excavated hv).trans (ihl (rw.sized_excavated value hv) hl)
        obtain ⟨hsized, hsize, heval⟩ := @forceBurrowIte_spec rw v hsame.sized
        refine ⟨rw.sized_simplify _ _ hsized, ?_, fun ι hc hcond => ?_⟩
        · rw [rw.size_simplify, hsize, hsame.size]
        · rw [rw.eval_simplify _ _ _ hc, heval, hsame.eval ι hc hcond]

/-! ### It ends -/

/-- Where a failure comes from. -/
theorem simplify_error {e : Failure} (h : rw.simplify constraints (fuel + 1) value cond = .error e) :
    (value.isAdd = true ∧ ∃ x ∈ value.addArgs, rw.simplify constraints fuel x cond = .error e) ∨
      rw.simplifyLoop constraints fuel (rw.iteExcavated value) cond = .error e := by
  unfold simplify at h
  split_ifs at h with hadd
  · left
    cases hm : value.addArgs.mapM fun x => rw.simplify constraints fuel x cond with
    | error e' =>
      rw [hm] at h
      cases h
      exact ⟨hadd, mapM_error hm⟩
    | ok args =>
      rw [hm] at h
      cases h
  · right
    cases hv : rw.simplifyLoop constraints fuel (rw.iteExcavated value) cond with
    | error e' =>
      rw [hv] at h
      cases h
      rfl
    | ok v =>
      rw [hv] at h
      cases h

theorem simplifyLoop_failure {e : Failure} (h : rw.simplifyLoop constraints (fuel + 1) value cond = .error e) :
    ∃ c a b, value = .ite c a b ∧ (rw.ifConstant constraints (rw.and cond c) = .error e ∨
      (∃ const : Bool, rw.simplifyLoop constraints fuel (rw.iteExcavated (if const then a else b)) cond = .error e) ∨
      rw.simplify constraints fuel a (rw.and cond c) = .error e ∨
      rw.simplify constraints fuel b (rw.and cond (rw.not c)) = .error e) := by
  by_cases hite : ∃ c a b, value = .ite c a b
  · obtain ⟨c, a, b, rfl⟩ := hite
    refine ⟨c, a, b, rfl, ?_⟩
    rcases hif : rw.ifConstant constraints (rw.and cond c) with e' | (_ | const)
    · rw [simplifyLoop_error hif] at h
      cases h
      exact .inl rfl
    · rw [simplifyLoop_arms hif] at h
      cases hx : rw.simplify constraints fuel a (rw.and cond c) with
      | error e' =>
        rw [hx] at h
        exact .inr (.inr (.inl h))
      | ok x =>
        cases hy : rw.simplify constraints fuel b (rw.and cond (rw.not c)) with
        | error e' =>
          rw [hx, hy] at h
          exact .inr (.inr (.inr h))
        | ok y =>
          rw [hx, hy] at h
          change (match rw.ite c x y with
            | .ite c x y => pure (rw.factorAddend c x y)
            | value => pure value) = Except.error e at h
          split at h <;> cases h
    · rw [simplifyLoop_const hif] at h
      exact .inr (.inl ⟨const, h⟩)
  · push Not at hite
    rw [simplifyLoop_other hite] at h
    cases h

/-- Fuel that is enough under any condition. -/
def Ends (rw : Rewriter) (constraints : List BoolAst) (value : BV) : Prop :=
  ∃ enough, ∀ fuel ≥ enough, ∀ cond, rw.simplify constraints fuel value cond ≠ .error .outOfFuel

def LoopEnds (rw : Rewriter) (constraints : List BoolAst) (value : BV) : Prop :=
  ∃ enough, ∀ fuel ≥ enough, ∀ cond, rw.simplifyLoop constraints fuel value cond ≠ .error .outOfFuel

theorem Ends.all {l : List BV} (h : ∀ x ∈ l, Ends rw constraints x) :
    ∃ enough, ∀ fuel ≥ enough, ∀ x ∈ l, ∀ cond, rw.simplify constraints fuel x cond ≠ .error .outOfFuel := by
  induction l with
  | nil => exact ⟨0, fun _ _ x hx => absurd hx List.not_mem_nil⟩
  | cons x l ih =>
    rw [List.forall_mem_cons] at h
    obtain ⟨⟨n, hn⟩, hl⟩ := h
    obtain ⟨m, hm⟩ := ih hl
    refine ⟨n + m, fun fuel hfuel y hy cond => ?_⟩
    rcases List.mem_cons.mp hy with rfl | hy
    · exact hn fuel (by omega) cond
    · exact hm fuel (by omega) y hy cond

theorem ifConstant_ne_outOfFuel : rw.ifConstant constraints cond ≠ .error .outOfFuel := by
  unfold ifConstant
  split <;> simp [pure, Except.pure, throw, throwThe, MonadExceptOf.throw]

/-- A conditional has more cases than each of its arms. -/
theorem loopEnds_of_arms {n : ℕ} (hsimp : ∀ value : BV, value.cases ≤ n → Ends rw constraints value)
    (hloop : ∀ value : BV, value.cases ≤ n → LoopEnds rw constraints value) {value : BV} (hle : value.cases ≤ n + 1) :
    LoopEnds rw constraints value := by
  by_cases hite : ∃ c a b, value = .ite c a b
  · obtain ⟨c, a, b, rfl⟩ := hite
    have ha := cases_pos a
    have hb := cases_pos b
    rw [BV.cases] at hle
    obtain ⟨n₁, h₁⟩ := hsimp a (by omega)
    obtain ⟨n₂, h₂⟩ := hsimp b (by omega)
    obtain ⟨n₃, h₃⟩ := hloop _ ((rw.cases_excavated a).trans (by omega))
    obtain ⟨n₄, h₄⟩ := hloop _ ((rw.cases_excavated b).trans (by omega))
    refine ⟨n₁ + n₂ + n₃ + n₄ + 1, fun fuel hfuel cond h => ?_⟩
    obtain ⟨fuel, rfl⟩ : ∃ k, fuel = k + 1 := ⟨fuel - 1, by omega⟩
    obtain ⟨c', a', b', heq, hfail⟩ := simplifyLoop_failure h
    cases heq
    rcases hfail with hif | ⟨const, hl⟩ | hx | hy
    · exact ifConstant_ne_outOfFuel hif
    · cases const with
      | true => exact h₃ fuel (by omega) _ hl
      | false => exact h₄ fuel (by omega) _ hl
    · exact h₁ fuel (by omega) _ hx
    · exact h₂ fuel (by omega) _ hy
  · push Not at hite
    refine ⟨1, fun fuel hfuel cond h => ?_⟩
    obtain ⟨fuel, rfl⟩ : ∃ k, fuel = k + 1 := ⟨fuel - 1, by omega⟩
    rw [simplifyLoop_other hite] at h
    cases h

/-- The arguments of a sum are smaller and have no more cases. -/
theorem ends_of_loop {n : ℕ} (hloop : ∀ value : BV, value.cases ≤ n → LoopEnds rw constraints value) (size : ℕ) :
    ∀ value : BV, sizeOf value ≤ size → value.cases ≤ n → Ends rw constraints value := by
  induction size with
  | zero =>
    intro value hsize
    cases value <;> simp at hsize
  | succ size ih =>
    intro value hsize hle
    obtain ⟨m, hm⟩ := hloop _ ((rw.cases_excavated value).trans hle)
    have hargs : value.isAdd = true → ∀ x ∈ value.addArgs, Ends rw constraints x := by
      intro hadd x hx
      have hlt := addArgs_lt hadd x hx
      exact ih x (by omega) ((addArgs_cases value x hx).trans hle)
    have hall : ∃ enough, ∀ fuel ≥ enough, value.isAdd = true → ∀ x ∈ value.addArgs, ∀ cond,
        rw.simplify constraints fuel x cond ≠ .error .outOfFuel := by
      by_cases hadd : value.isAdd = true
      · obtain ⟨k, hk⟩ := Ends.all (hargs hadd)
        exact ⟨k, fun fuel hfuel _ => hk fuel hfuel⟩
      · exact ⟨0, fun _ _ h => absurd h hadd⟩
    obtain ⟨k, hk⟩ := hall
    refine ⟨m + k + 1, fun fuel hfuel cond h => ?_⟩
    obtain ⟨fuel, rfl⟩ : ∃ k, fuel = k + 1 := ⟨fuel - 1, by omega⟩
    rcases simplify_error h with ⟨hadd, x, hx, he⟩ | hl
    · exact hk fuel (by omega) hadd x hx cond he
    · exact hm fuel (by omega) cond hl

theorem simplify_ends (n : ℕ) : (∀ value : BV, value.cases ≤ n → Ends rw constraints value) ∧
    ∀ value : BV, value.cases ≤ n → LoopEnds rw constraints value := by
  induction n with
  | zero =>
    have hnone : ∀ value : BV, ¬ value.cases ≤ 0 := fun value hle => (cases_pos value).not_ge hle
    exact ⟨fun value hle => absurd hle (hnone value), fun value hle => absurd hle (hnone value)⟩
  | succ n ih =>
    have hloop : ∀ value : BV, value.cases ≤ n + 1 → LoopEnds rw constraints value :=
      fun value hle => loopEnds_of_arms ih.1 ih.2 hle
    exact ⟨fun value hle => ends_of_loop hloop _ value le_rfl hle, hloop⟩

/-- Where the constraints have a solution nothing raises. -/
theorem simplify_raises {ι : Env} (hc : ∀ c ∈ constraints, c.eval ι = true) :
    ∀ (fuel : ℕ) (value : BV) (cond : BoolAst),
    rw.simplify constraints fuel value cond ≠ .error .noSolution ∧
      rw.simplifyLoop constraints fuel value cond ≠ .error .noSolution
  | 0, value, cond => by
    unfold simplify simplifyLoop
    exact ⟨nofun, nofun⟩
  | fuel + 1, value, cond => by
    constructor
    · intro h
      rcases simplify_error h with ⟨-, x, -, he⟩ | hl
      · exact (simplify_raises hc fuel x cond).1 he
      · exact (simplify_raises hc fuel _ cond).2 hl
    · intro h
      obtain ⟨c, a, b, -, hif | ⟨const, hl⟩ | hx | hy⟩ := simplifyLoop_failure h
      · obtain ⟨b, hb⟩ := @ifConstant_ok rw _ (rw.and cond c) _ hc
        rw [hb] at hif
        cases hif
      · exact (simplify_raises hc fuel _ cond).2 hl
      · exact (simplify_raises hc fuel a _).1 hx
      · exact (simplify_raises hc fuel b _).1 hy

/-- **Simplification preserves meaning.** It ends, in a state that is possible with a result, and
the result is the same number wherever the state's constraints and the condition hold. -/
theorem simplify_preserves (rw : Rewriter) (constraints : List BoolAst) (value : BV) (hv : value.Sized)
    (cond : BoolAst) :
    (∃ enough, ∀ fuel ≥ enough, rw.simplify constraints fuel value cond ≠ .error .outOfFuel) ∧
    (∀ ι : Env, (∀ c ∈ constraints, c.eval ι = true) →
      ∀ fuel, rw.simplify constraints fuel value cond ≠ .error .noSolution) ∧
    ∀ fuel r, rw.simplify constraints fuel value cond = .ok r → r.size = value.size ∧
      ∀ ι : Env, (∀ c ∈ constraints, c.eval ι = true) → cond.eval ι = true → r.eval ι = value.eval ι := by
  refine ⟨?_, fun ι hc fuel => (simplify_raises hc fuel value cond).1, fun fuel r h => ?_⟩
  · obtain ⟨enough, hends⟩ := (simplify_ends value.cases).1 value le_rfl
    exact ⟨enough, fun fuel hfuel => hends fuel hfuel cond⟩
  · have hsame := (simplify_same fuel).1 hv h
    exact ⟨hsame.size, hsame.eval⟩

/-- Claripy's `0 + b`. -/
def dropZero : BV → BV
  | .bin .add (.bvv s v) b => if v = 0#s ∧ b.size = s then b else .bin .add (.bvv s v) b
  | e => e

theorem dropZero_cases (e : BV) : dropZero e = e ∨ ∃ b, e = .bin .add (.bvv b.size 0#b.size) b ∧ dropZero e = b := by
  unfold dropZero
  split
  · split_ifs with h
    · obtain ⟨rfl, rfl⟩ := h
      exact .inr ⟨_, rfl, rfl⟩
    · exact .inl rfl
  · exact .inl rfl

theorem eval_dropZero (ι : Env) (e : BV) : (dropZero e).eval ι = e.eval ι := by
  rcases dropZero_cases e with h | ⟨b, rfl, h⟩
  · rw [h]
  · rw [h, BV.eval]
    simp [BinOp.apply, BinOp.size, BV.size, BV.eval, Nat.mod_eq_of_lt (BV.eval_lt ι b)]

theorem size_dropZero (e : BV) : (dropZero e).size = e.size := by
  rcases dropZero_cases e with h | ⟨b, rfl, h⟩
  · rw [h]
  · rw [h, BV.size, BinOp.size]
    · rfl
    · decide

theorem eval_id (ι : Env) (e : BV) : (id e).eval ι = e.eval ι := rfl

theorem eval_id_bool (ι : Env) (b : BoolAst) : (id b).eval ι = b.eval ι := rfl

theorem size_id (e : BV) : (id e).size = e.size := rfl

/-- A claripy that does not add zeros and rewrites nothing else, with a solver that excludes nothing. -/
def idle : Rewriter where
  bv := dropZero
  bool := id
  eval_bv := eval_dropZero
  eval_bool := eval_id_bool
  size_bv := size_dropZero
  all_bv P Q e he := by
    rcases dropZero_cases e with h | ⟨b, rfl, h⟩
    · rwa [h]
    · rw [h]
      exact he.2
  all_bool _ _ _ h := h
  satisfiable _ := true
  satisfiable_of_eval _ _ _ := rfl
  iteExcavated := id
  iteBurrowed := id
  solverSimplify _ := id
  sized_bv e he := by
    rcases dropZero_cases e with h | ⟨b, rfl, h⟩
    · rwa [h]
    · rw [h]
      exact he.2.2
  sized_excavated _ h := h
  size_excavated := size_id
  eval_excavated := eval_id
  cases_excavated _ := Nat.le_refl _
  sized_burrowed _ h := h
  size_burrowed := size_id
  eval_burrowed := eval_id
  size_simplify _ := size_id
  sized_simplify _ _ h := h
  eval_simplify _ _ _ _ := rfl

/-- `claripy.If(b, z + 8 * x, z + 8 * y)`, as `test_simplify` has it. -/
def expr2 : BV :=
  .ite (.boolS (.sym 0)) (.bin .add (.bvs (.sym 1) 64) (.bin .mul (bvv 64 8) (.bvs (.sym 2) 64)))
    (.bin .add (.bvs (.sym 1) 64) (.bin .mul (bvv 64 8) (.bvs (.sym 3) 64)))

/-- `z + claripy.If(b, 8 * x, 8 * y)` -/
def factored2 : BV :=
  .bin .add (.bvs (.sym 1) 64) (.ite (.boolS (.sym 0)) (.bin .mul (bvv 64 8) (.bvs (.sym 2) 64))
    (.bin .mul (bvv 64 8) (.bvs (.sym 3) 64)))

theorem simplify_preserves_expr2 : idle.simplify [] 5 expr2 (.boolV true) = .ok factored2 ∧
    factored2.size = expr2.size ∧ ∀ ι : Env, factored2.eval ι = expr2.eval ι := by
  have hv : expr2.Sized := by simp [expr2, BV.Sized, BV.size, BinOp.size, bvv]
  have hrun : idle.simplify [] 5 expr2 (.boolV true) = .ok factored2 := by rfl
  obtain ⟨hsize, heval⟩ := (simplify_preserves idle [] expr2 hv (.boolV true)).2.2 5 factored2 hrun
  exact ⟨hrun, hsize, fun ι => heval ι (fun c hc => absurd hc List.not_mem_nil) rfl⟩

end Rewriter
end Tool
end Klint
