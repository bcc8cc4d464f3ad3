/-
# Operators of specifications

`ValueProxy._op` (`tool/klint/verif/value_proxy.py`) on bit vectors: a specification's values
are proxies, and every operator between them goes through one wrapper that makes the sizes
equal. It extends the other operand, or truncates it to the size of the one that the operator
is called on.

A comparison therefore sees the other operand modulo the size of the first one
(`truth_op`), and says the truth of two operands of different sizes exactly when the wider
value fits, or is cut to something that is still greater (`compares_iff`).
-/
import Klint.Tool.Claripy
import Mathlib.Data.Rat.Floor

namespace Klint
namespace Tool

/-! ### The wrapper -/

/-- What a proxy holds, and what the other operand can be. -/
inductive Value
  | bv (e : BV)
  | bool (b : BoolAst)
  | int (n : ℤ)
  | float (q : ℚ)

/-- The operators of bit vectors. -/
inductive Operator
  | and | rand | or | ror | eq | ne | lt | le | gt | ge | add | radd | sub | rsub | mul | rmul
  | floordiv | rfloordiv | LShR | lshift
deriving DecidableEq, Repr

variable (cl : Claripy)

/-- `getattr(self_value, op)(other_value)`: claripy raises if the sizes differ. -/
def Operator.apply (op : Operator) (a b : BV) : Option Value :=
  if a.size ≠ b.size then none
  else some (match op with
    | .and => .bv (cl.bv (.bin .and a b))
    | .rand => .bv (cl.bv (.bin .and b a))
    | .or => .bv (cl.bv (.bin .or a b))
    | .ror => .bv (cl.bv (.bin .or b a))
    | .eq => .bool (cl.eq a b)
    | .ne => .bool (cl.ne a b)
    | .lt => .bool (cl.ult a b)
    | .le => .bool (cl.ule a b)
    | .gt => .bool (cl.ult b a)
    | .ge => .bool (cl.ule b a)
    | .add => .bv (cl.add a b)
    | .radd => .bv (cl.add b a)
    | .sub => .bv (cl.sub a b)
    | .rsub => .bv (cl.sub b a)
    | .mul => .bv (cl.mul a b)
    | .rmul => .bv (cl.mul b a)
    | .floordiv => .bv (cl.bv (.bin .udiv a b))
    | .rfloordiv => .bv (cl.bv (.bin .udiv b a))
    | .LShR => .bv (cl.bv (.bin .lshr a b))
    | .lshift => .bv (cl.bv (.bin .shl a b)))

/-- `value[size-1:0]`; from `-1` on it is the whole value. -/
def lowBits (size : ℕ) (value : BV) : BV := if size = 0 then value else cl.extract (size - 1) 0 value

/-- "Convert if needed": the other operand, for one of the given size. -/
def Value.convert (size : ℕ) : Value → Value
  | .float q => if q = ⌊q⌋ then .bv (.bvv (max 8 size) (BitVec.ofInt (max 8 size) ⌊q⌋)) else .float q
  | .int n => .bv (.bvv (max 8 size) (BitVec.ofInt (max 8 size) n))
  | v => v

/-- `_op`, of a proxy of a bit vector. -/
def valueProxyOp (selfValue : BV) (other : Value) (op : Operator) : Option Value :=
  match other.convert selfValue.size with
  | .bv other =>
    if other.size < selfValue.size then
      op.apply cl selfValue (cl.zeroExt (selfValue.size - other.size) other)
    else if selfValue.size < other.size then
      (op.apply cl selfValue (lowBits cl selfValue.size other)).map fun r =>
        match r with
        | .bv r => .bv (cl.zeroExt (other.size - r.size) r)
        | r => r
    else op.apply cl selfValue other
  | _ => none

/-! ### Comparisons -/

/-- The truth of a comparison's result, if there is one. -/
def truth (ι : Env) : Option Value → Option Bool
  | some (.bool b) => some (b.eval ι)
  | _ => none

/-- What a comparison says of two numbers. -/
def Operator.compare : Operator → ℕ → ℕ → Option Bool
  | .eq, a, b => some (a == b)
  | .ne, a, b => some (a != b)
  | .lt, a, b => some (decide (a < b))
  | .le, a, b => some (decide (a ≤ b))
  | .gt, a, b => some (decide (b < a))
  | .ge, a, b => some (decide (b ≤ a))
  | _, _, _ => none

variable {cl} {ι : Env}

theorem truth_apply (cl : Claripy) (ι : Env) (op : Operator) {a b : BV} (h : a.size = b.size) :
    truth ι (op.apply cl a b) = op.compare (a.eval ι) (b.eval ι) := by
  unfold Operator.apply
  rw [if_neg (not_not.mpr h)]
  cases op <;> simp [truth, Operator.compare]

theorem size_lowBits (cl : Claripy) {s : ℕ} (hs : 0 < s) (e : BV) : (lowBits cl s e).size = s := by
  rw [lowBits, if_neg hs.ne', Claripy.size_extract]
  omega

theorem eval_lowBits {s : ℕ} (hs : 0 < s) (e : BV) : (lowBits cl s e).eval ι = e.eval ι % 2 ^ s := by
  rw [lowBits, if_neg hs.ne', Claripy.eval_extract]
  simp [Nat.sub_add_cancel hs]

theorem mod_of_size_le {x y : BV} (h : y.size ≤ x.size) : y.eval ι % 2 ^ x.size = y.eval ι :=
  Nat.mod_eq_of_lt (lt_of_lt_of_le (y.eval_lt ι) (Nat.pow_le_pow_right (by decide) h))

/-- **A comparison sees the other operand modulo the size of the first one.** -/
theorem truth_op (op : Operator) {x y : BV} (h : x.size = 0 → y.size = 0) :
    truth ι (valueProxyOp cl x (.bv y) op) = op.compare (x.eval ι) (y.eval ι % 2 ^ x.size) := by
  unfold valueProxyOp Value.convert
  dsimp only
  split
  · next hlt =>
    rw [truth_apply cl ι op, Claripy.eval_zeroExt, mod_of_size_le hlt.le]
    rw [Claripy.size_zeroExt]
    omega
  · next hge =>
    split
    · next hlt =>
      have hx : 0 < x.size := by
        by_contra h0
        have := h (by omega)
        omega
      have happly := truth_apply cl ι op (size_lowBits cl hx y).symm
      rw [eval_lowBits hx] at happly
      rw [← happly]
      unfold Operator.apply
      rw [if_neg (not_not.mpr (size_lowBits cl hx y).symm)]
      cases op <;> rfl
    · next hle =>
      rw [truth_apply cl ι op (by omega), mod_of_size_le (by omega)]

/-- An operand without bits cannot be compared to a wider one. -/
theorem truth_op_empty (op : Operator) {x y : BV} (hx : x.size = 0) (hy : y.size ≠ 0) :
    truth ι (valueProxyOp cl x (.bv y) op) = none := by
  unfold valueProxyOp Value.convert
  dsimp only
  have hne : x.size ≠ y.size := by omega
  have happly : op.apply cl x y = none := by
    unfold Operator.apply
    rw [if_pos hne]
  rw [if_neg (by omega), if_pos (by omega), lowBits, if_pos hx, happly]
  rfl

/-! ### Operand order and width -/

/-- The comparisons of two proxies, in both orders, say how the values compare. -/
structure Compares (cl : Claripy) (ι : Env) (x y : BV) : Prop where
  eq : truth ι (valueProxyOp cl x (.bv y) .eq) = some (decide (x.eval ι = y.eval ι))
  eq' : truth ι (valueProxyOp cl y (.bv x) .eq) = some (decide (x.eval ι = y.eval ι))
  lt : truth ι (valueProxyOp cl x (.bv y) .lt) = some (decide (x.eval ι < y.eval ι))
  gt : truth ι (valueProxyOp cl y (.bv x) .gt) = some (decide (x.eval ι < y.eval ι))
  le : truth ι (valueProxyOp cl x (.bv y) .le) = some (decide (x.eval ι ≤ y.eval ι))
  ge : truth ι (valueProxyOp cl y (.bv x) .ge) = some (decide (x.eval ι ≤ y.eval ι))

/-- The wider value fits in the narrow size, or what is left of it is greater than the narrow value. -/
def KeptByTruncation (ι : Env) (narrow wide : BV) : Prop :=
  0 < narrow.size ∧ wide.eval ι < 2 ^ narrow.size ∨ narrow.eval ι < wide.eval ι % 2 ^ narrow.size

/-- Comparing with the remainder of a number says the same as comparing with the number, exactly
when it is the number or is still greater. -/
theorem lt_mod_iff {n m w : ℕ} (hn : n < m) :
    (n = w % m ↔ n = w) ∧ (n < w % m ↔ n < w) ∧ (n ≤ w % m ↔ n ≤ w) ↔ w < m ∨ n < w % m := by
  rcases Nat.lt_or_ge w m with hw | hw
  · simp [Nat.mod_eq_of_lt hw, hw]
  · have hlt : n < w := lt_of_lt_of_le hn hw
    have hnot : ¬ w < m := not_lt.mpr hw
    constructor
    · intro h
      exact Or.inr (h.2.1.mpr hlt)
    · intro h
      have hmod := h.resolve_left hnot
      omega

theorem mod_lt_iff {n m w : ℕ} (hn : n < m) :
    (n = w % m ↔ w = n) ∧ (w % m < n ↔ w < n) ∧ (w % m ≤ n ↔ w ≤ n) ↔ w < m ∨ n < w % m := by
  rw [← lt_mod_iff hn]
  generalize w % m = r
  constructor <;> rintro ⟨heq, hlt, hle⟩ <;> exact ⟨by omega, by omega, by omega⟩

/-- The comparisons with the lesser value as the first operand. -/
theorem first_iff (cl : Claripy) (ι : Env) (x y : BV) :
    truth ι (valueProxyOp cl x (.bv y) .eq) = some (decide (x.eval ι = y.eval ι)) ∧
      truth ι (valueProxyOp cl x (.bv y) .lt) = some (decide (x.eval ι < y.eval ι)) ∧
      truth ι (valueProxyOp cl x (.bv y) .le) = some (decide (x.eval ι ≤ y.eval ι)) ↔
    (x.size < y.size → KeptByTruncation ι x y) := by
  by_cases h0 : x.size = 0 ∧ y.size ≠ 0
  · have hnot : ¬ KeptByTruncation ι x y := by simp [KeptByTruncation, h0.1, Nat.mod_one]
    simp [truth_op_empty _ h0.1 h0.2, hnot, h0.1, Nat.pos_of_ne_zero h0.2]
  · have hx : x.size = 0 → y.size = 0 := fun hx => by_contra fun hy => h0 ⟨hx, hy⟩
    rw [truth_op _ hx, truth_op _ hx, truth_op _ hx]
    simp only [Operator.compare, Option.some.injEq, beq_eq_decide, decide_eq_decide]
    rcases Nat.lt_or_ge x.size y.size with hlt | hge
    · have hpos : 0 < x.size := Nat.pos_of_ne_zero fun hx0 => by have := hx hx0; omega
      rw [lt_mod_iff (x.eval_lt ι)]
      simp [KeptByTruncation, hlt, hpos]
    · simp [mod_of_size_le hge, hge]

/-- The comparisons with the greater value as the first operand. -/
theorem second_iff (cl : Claripy) (ι : Env) (x y : BV) :
    truth ι (valueProxyOp cl y (.bv x) .eq) = some (decide (x.eval ι = y.eval ι)) ∧
      truth ι (valueProxyOp cl y (.bv x) .gt) = some (decide (x.eval ι < y.eval ι)) ∧
      truth ι (valueProxyOp cl y (.bv x) .ge) = some (decide (x.eval ι ≤ y.eval ι)) ↔
    (y.size < x.size → KeptByTruncation ι y x) := by
  by_cases h0 : y.size = 0 ∧ x.size ≠ 0
  · have hnot : ¬ KeptByTruncation ι y x := by simp [KeptByTruncation, h0.1, Nat.mod_one]
    simp [truth_op_empty _ h0.1 h0.2, hnot, h0.1, Nat.pos_of_ne_zero h0.2]
  · have hy : y.size = 0 → x.size = 0 := fun hy => by_contra fun hx => h0 ⟨hy, hx⟩
    rw [truth_op _ hy, truth_op _ hy, truth_op _ hy]
    simp only [Operator.compare, Option.some.injEq, beq_eq_decide, decide_eq_decide]
    rcases Nat.lt_or_ge y.size x.size with hlt | hge
    · have hpos : 0 < y.size := Nat.pos_of_ne_zero fun hy0 => by have := hy hy0; omega
      rw [mod_lt_iff (y.eval_lt ι)]
      simp [KeptByTruncation, hlt, hpos]
    · simp [mod_of_size_le hge, hge, eq_comm]

/-- **Comparisons of proxies.** In both operand orders they say how the values compare exactly
when truncation to the narrow size keeps this. -/
theorem compares_iff (cl : Claripy) (ι : Env) (x y : BV) : Compares cl ι x y ↔
    (x.size < y.size → KeptByTruncation ι x y) ∧ (y.size < x.size → KeptByTruncation ι y x) := by
  rw [← first_iff cl ι x y, ← second_iff cl ι x y]
  constructor
  · intro h
    exact ⟨⟨h.eq, h.lt, h.le⟩, h.eq', h.gt, h.ge⟩
  · rintro ⟨⟨heq, hlt, hle⟩, heq', hgt, hge⟩
    exact ⟨heq, heq', hlt, hgt, hle, hge⟩

/-- An 8-bit proxy with the value 1 and a 16-bit one with the value 257: the first one says that
they are equal. -/
theorem not_compares : ¬ ∀ (cl : Claripy) (ι : Env) (x y : BV), Compares cl ι x y := by
  intro h
  have heq := (h plain ⟨fun _ => 0, fun _ => false⟩ (bvv 8 1) (bvv 16 257)).eq
  exact absurd heq (by decide)

end Tool
end Klint
