/-
# The values of specifications

What the proxies of a specification stand for when the symbols have values: numbers with a
size in bits. `Operator.value` is the arithmetic that a specification's author gets, the
operation modulo the size of the first operand and then zeros up to the size of the wider
one. `valueProxyOp_value`: the wrapper of `value_proxy.py` computes it, for every operator
and all sizes.
-/
import Klint.Tool.ValueProxy

namespace Klint
namespace Tool

/-- The value of a bit vector. -/
structure SpecNum where
  size : ℕ
  bits : BitVec size
  deriving DecidableEq, Repr

namespace SpecNum

/-- The other operand at the size of the first one: cut, or with zeros above it. -/
def fit (a b : SpecNum) : BitVec a.size := b.bits.setWidth a.size

/-- A result at the size of the wider operand. -/
def widen (a b : SpecNum) (r : BitVec a.size) : SpecNum := ⟨max a.size b.size, r.setWidth _⟩

def add (a b : SpecNum) : SpecNum := a.widen b (a.bits + a.fit b)
def sub (a b : SpecNum) : SpecNum := a.widen b (a.bits - a.fit b)
def rsub (a b : SpecNum) : SpecNum := a.widen b (a.fit b - a.bits)
def floordiv (a b : SpecNum) : SpecNum := a.widen b (a.bits.smtUDiv (a.fit b))
def shr (a b : SpecNum) : SpecNum := a.widen b (a.bits >>> a.fit b)
def eq (a b : SpecNum) : Bool := a.bits == a.fit b
def ne (a b : SpecNum) : Bool := a.bits != a.fit b
def lt (a b : SpecNum) : Bool := a.bits.ult (a.fit b)
def le (a b : SpecNum) : Bool := a.bits.ule (a.fit b)
def gt (a b : SpecNum) : Bool := (a.fit b).ult a.bits
def ge (a b : SpecNum) : Bool := (a.fit b).ule a.bits

/-- A Python integer, as the other operand of this number. -/
def int (a : SpecNum) (n : ℤ) : SpecNum := ⟨max 8 a.size, BitVec.ofInt _ n⟩

/-- `a.concat(b)`. -/
def concat (a b : SpecNum) : SpecNum := ⟨a.size + b.size, a.bits ++ b.bits⟩

/-- A number of type `size_t` or `uint64_t`. -/
def nat64 (n : ℕ) : SpecNum := ⟨64, BitVec.ofNat 64 n⟩
def u8 (v : UInt8) : SpecNum := ⟨8, v.toBitVec⟩
def u16 (v : UInt16) : SpecNum := ⟨16, v.toBitVec⟩
def u32 (v : UInt32) : SpecNum := ⟨32, v.toBitVec⟩

end SpecNum

/-! ### The operators -/

/-- An operator on two bit vectors of one size. -/
def Operator.compute {n : ℕ} (a b : BitVec n) : Operator → BitVec n ⊕ Bool
  | .and => .inl (a &&& b)
  | .rand => .inl (b &&& a)
  | .or => .inl (a ||| b)
  | .ror => .inl (b ||| a)
  | .eq => .inr (a == b)
  | .ne => .inr (a != b)
  | .lt => .inr (a.ult b)
  | .le => .inr (a.ule b)
  | .gt => .inr (b.ult a)
  | .ge => .inr (b.ule a)
  | .add => .inl (a + b)
  | .radd => .inl (b + a)
  | .sub => .inl (a - b)
  | .rsub => .inl (b - a)
  | .mul => .inl (a * b)
  | .rmul => .inl (b * a)
  | .floordiv => .inl (a.smtUDiv b)
  | .rfloordiv => .inl (b.smtUDiv a)
  | .LShR => .inl (a >>> b)
  | .lshift => .inl (a <<< b)

/-- What an operator of specifications means. -/
def Operator.value (a b : SpecNum) (op : Operator) : SpecNum ⊕ Bool :=
  (op.compute a.bits (a.fit b)).map (a.widen b) id

/-- The value of a term. -/
def BV.num (ι : Env) (e : BV) : SpecNum := ⟨e.size, BitVec.ofNat _ (e.eval ι)⟩

/-- The value of what a proxy holds, if it is a term. -/
def Value.value (ι : Env) : Value → Option (SpecNum ⊕ Bool)
  | .bv e => some (.inl (e.num ι))
  | .bool b => some (.inr (b.eval ι))
  | _ => none

variable {cl : Claripy} {ι : Env}

theorem SpecNum.ext_toNat {a b : SpecNum} (hs : a.size = b.size) (hv : a.bits.toNat = b.bits.toNat) : a = b := by
  obtain ⟨n, x⟩ := a
  obtain ⟨m, y⟩ := b
  obtain rfl : n = m := hs
  rw [SpecNum.mk.injEq]
  exact ⟨rfl, heq_of_eq (BitVec.eq_of_toNat_eq hv)⟩

/-- Numbers of one size are compared as they are. -/
theorem SpecNum.eq_of_size {a b : SpecNum} (h : a.size = b.size) : a.eq b = decide (a = b) := by
  obtain ⟨n, x⟩ := a
  obtain ⟨m, y⟩ := b
  obtain rfl : n = m := h
  unfold SpecNum.eq SpecNum.fit
  rw [BitVec.setWidth_eq, beq_eq_decide, decide_eq_decide, SpecNum.mk.injEq]
  exact ⟨fun he => ⟨rfl, heq_of_eq he⟩, fun he => eq_of_heq he.2⟩

@[simp] theorem BV.num_size (e : BV) : (e.num ι).size = e.size := rfl

@[simp] theorem BV.num_toNat (e : BV) : (e.num ι).bits.toNat = e.eval ι := by
  rw [BV.num, BitVec.toNat_ofNat, Nat.mod_eq_of_lt (e.eval_lt ι)]

/-- A term of the given size and value. -/
theorem BV.num_eq {e : BV} {a : SpecNum} (hs : e.size = a.size) (hv : e.eval ι = a.bits.toNat) : e.num ι = a :=
  SpecNum.ext_toNat hs ((e.num_toNat).trans hv)

/-- An operation on two terms, by its value. -/
theorem num_bin {op : BinOp} {x y : BV} {n : ℕ} {r : BitVec n} (hs : op.size x.size y.size = n)
    (hv : op.apply x.size y.size (x.eval ι) (y.eval ι) % 2 ^ n = r.toNat) :
    (cl.bv (.bin op x y)).num ι = ⟨n, r⟩ := by
  refine BV.num_eq ?_ ?_
  · rw [cl.size_bv, BV.size, hs]
  · rw [cl.eval_bv, BV.eval, hs, hv]

theorem mod_toNat {n : ℕ} (r : BitVec n) : r.toNat % 2 ^ n = r.toNat := Nat.mod_eq_of_lt r.isLt

section

variable {n : ℕ} {x y : BV} {a b : BitVec n} (hx : x.size = n) (hy : y.size = n) (ha : x.eval ι = a.toNat)
  (hb : y.eval ι = b.toNat)

include hx ha hb

theorem num_and : (cl.bv (.bin .and x y)).num ι = ⟨n, a &&& b⟩ :=
  num_bin hx (by rw [BinOp.apply, ha, hb, ← BitVec.toNat_and, mod_toNat])

theorem num_or : (cl.bv (.bin .or x y)).num ι = ⟨n, a ||| b⟩ :=
  num_bin hx (by rw [BinOp.apply, ha, hb, ← BitVec.toNat_or, mod_toNat])

theorem num_add : (cl.bv (.bin .add x y)).num ι = ⟨n, a + b⟩ :=
  num_bin hx (by rw [BinOp.apply, ha, hb, BitVec.toNat_add])

theorem num_sub : (cl.bv (.bin .sub x y)).num ι = ⟨n, a - b⟩ := by
  refine num_bin hx ?_
  have hlt := b.isLt
  rw [BinOp.apply, ha, hb, hx, BitVec.toNat_sub]
  congr 1
  omega

theorem num_mul : (cl.bv (.bin .mul x y)).num ι = ⟨n, a * b⟩ :=
  num_bin hx (by rw [BinOp.apply, ha, hb, BitVec.toNat_mul])

theorem num_udiv : (cl.bv (.bin .udiv x y)).num ι = ⟨n, a.smtUDiv b⟩ := by
  refine num_bin hx ?_
  rw [BinOp.apply, ha, hb, hx, BitVec.smtUDiv_eq]
  by_cases h0 : b = 0#n
  · rw [if_pos h0, if_pos (by rw [h0]; rfl), BitVec.toNat_allOnes]
    exact Nat.mod_eq_of_lt (by have := Nat.two_pow_pos n; omega)
  · rw [if_neg h0, if_neg fun hz => h0 (BitVec.eq_of_toNat_eq (hz.trans BitVec.toNat_zero.symm)),
      ← BitVec.toNat_udiv, mod_toNat]

theorem num_lshr : (cl.bv (.bin .lshr x y)).num ι = ⟨n, a >>> b⟩ := by
  refine num_bin hx ?_
  rw [BinOp.apply, ha, hb, hx, BitVec.ushiftRight_eq', BitVec.toNat_ushiftRight, Nat.shiftRight_eq_div_pow]
  split_ifs with hn
  · rw [Nat.zero_mod, Nat.div_eq_of_lt (lt_of_lt_of_le a.isLt (Nat.pow_le_pow_right Nat.two_pos hn))]
  · exact Nat.mod_eq_of_lt (lt_of_le_of_lt (Nat.div_le_self _ _) a.isLt)

theorem num_shl : (cl.bv (.bin .shl x y)).num ι = ⟨n, a <<< b⟩ := by
  refine num_bin hx ?_
  rw [BinOp.apply, ha, hb, hx, BitVec.shiftLeft_eq', BitVec.toNat_shiftLeft, Nat.shiftLeft_eq]
  split_ifs with hn
  · obtain ⟨k, hk⟩ := Nat.exists_eq_add_of_le hn
    rw [hk, pow_add, Nat.mul_left_comm, Nat.mul_mod_right, Nat.zero_mod]
  · rfl

end

/-- The operators on two terms of one size. -/
theorem value_apply (op : Operator) {x y : BV} (h : x.size = y.size) :
    (op.apply cl x y).bind (Value.value ι) =
      some ((op.compute (x.num ι).bits ((x.num ι).fit (y.num ι))).map (SpecNum.mk x.size) id) := by
  have hfit : y.eval ι = ((x.num ι).fit (y.num ι)).toNat := by
    rw [SpecNum.fit, BitVec.toNat_setWidth, BV.num_toNat, BV.num_size, h]
    exact (Nat.mod_eq_of_lt (y.eval_lt ι)).symm
  have hx := (@BV.num_toNat ι x).symm
  generalize (x.num ι).fit (y.num ι) = b at hfit ⊢
  generalize (x.num ι).bits = a at hx ⊢
  have hbeq : (a == b) = decide (a.toNat = b.toNat) := by
    rw [beq_eq_decide, decide_eq_decide]
    exact BitVec.toNat_inj.symm
  unfold Operator.apply
  rw [if_neg (not_not.mpr h)]
  cases op with
  | and => exact congrArg (some ∘ Sum.inl) (num_and rfl hx hfit)
  | rand => exact congrArg (some ∘ Sum.inl) (num_and h.symm hfit hx)
  | or => exact congrArg (some ∘ Sum.inl) (num_or rfl hx hfit)
  | ror => exact congrArg (some ∘ Sum.inl) (num_or h.symm hfit hx)
  | add => exact congrArg (some ∘ Sum.inl) (num_add rfl hx hfit)
  | radd => exact congrArg (some ∘ Sum.inl) (num_add h.symm hfit hx)
  | sub => exact congrArg (some ∘ Sum.inl) (num_sub rfl hx hfit)
  | rsub => exact congrArg (some ∘ Sum.inl) (num_sub h.symm hfit hx)
  | mul => exact congrArg (some ∘ Sum.inl) (num_mul rfl hx hfit)
  | rmul => exact congrArg (some ∘ Sum.inl) (num_mul h.symm hfit hx)
  | floordiv => exact congrArg (some ∘ Sum.inl) (num_udiv rfl hx hfit)
  | rfloordiv => exact congrArg (some ∘ Sum.inl) (num_udiv h.symm hfit hx)
  | LShR => exact congrArg (some ∘ Sum.inl) (num_lshr rfl hx hfit)
  | lshift => exact congrArg (some ∘ Sum.inl) (num_shl rfl hx hfit)
  | eq =>
    refine congrArg (some ∘ Sum.inr) ?_
    rw [Claripy.eval_eq, hx, hfit, beq_eq_decide]
    exact hbeq.symm
  | ne =>
    refine congrArg (some ∘ Sum.inr) ?_
    rw [Claripy.eval_ne, hx, hfit, bne, beq_eq_decide]
    exact congrArg not hbeq.symm
  | lt => simp [Operator.compute, Value.value, hx, hfit, BitVec.ult]
  | le => simp [Operator.compute, Value.value, hx, hfit, BitVec.ule]
  | gt => simp [Operator.compute, Value.value, hx, hfit, BitVec.ult]
  | ge => simp [Operator.compute, Value.value, hx, hfit, BitVec.ule]

/-- The second operand is used modulo the size of the first one. -/
theorem SpecNum.fit_congr {a b b' : SpecNum} (h : b'.bits.toNat % 2 ^ a.size = b.bits.toNat % 2 ^ a.size) :
    a.fit b' = a.fit b := by
  refine BitVec.eq_of_toNat_eq ?_
  rw [SpecNum.fit, SpecNum.fit, BitVec.toNat_setWidth, BitVec.toNat_setWidth, h]

theorem SpecNum.widen_of_le {a b : SpecNum} (h : b.size ≤ a.size) (r : BitVec a.size) : a.widen b r = ⟨a.size, r⟩ := by
  refine SpecNum.ext_toNat (Nat.max_eq_left h) ?_
  rw [SpecNum.widen, BitVec.toNat_setWidth, Nat.max_eq_left h, mod_toNat]

/-- The result of the operation, with zeros up to the size of the wider operand. -/
theorem extend_value {v : Value} {a b : SpecNum} {r : BitVec a.size ⊕ Bool} (hlt : a.size < b.size)
    (hv : v.value ι = some (r.map (SpecNum.mk a.size) id)) :
    (match v with
      | .bv e => Value.bv (cl.zeroExt (b.size - e.size) e)
      | v => v).value ι = some (r.map (a.widen b) id) := by
  cases v with
  | bv e =>
    cases r with
    | inl r =>
      have he : e.num ι = ⟨a.size, r⟩ := by simpa [Value.value] using hv
      have hs : e.size = a.size := congrArg SpecNum.size he
      have hr : e.eval ι = r.toNat := by rw [← BV.num_toNat, he]
      refine congrArg (some ∘ Sum.inl) (BV.num_eq ?_ ?_)
      · rw [Claripy.size_zeroExt, hs, SpecNum.widen, Nat.max_eq_right hlt.le]
        exact Nat.sub_add_cancel hlt.le
      · rw [Claripy.eval_zeroExt, hr, SpecNum.widen, BitVec.toNat_setWidth]
        refine (Nat.mod_eq_of_lt (lt_of_lt_of_le r.isLt ?_)).symm
        exact Nat.pow_le_pow_right Nat.two_pos (Nat.le_max_left _ _)
    | inr t => simp [Value.value] at hv
  | bool t =>
    cases r with
    | inl r => simp [Value.value] at hv
    | inr t' => simpa [Value.value] using hv
  | int n => simp [Value.value] at hv
  | float q => simp [Value.value] at hv

/-- **The operators of specifications.** For every operator and all sizes, the wrapper's result has the value
of the operation modulo the size of the first operand, at the size of the wider one. The other operand is a
term, or an integer that is made one. -/
theorem valueProxyOp_value (cl : Claripy) (ι : Env) (op : Operator) {x y : BV} {other : Value}
    (hconv : other.convert x.size = .bv y) (h : x.size = 0 → y.size = 0) :
    (valueProxyOp cl x other op).bind (Value.value ι) = some (op.value (x.num ι) (y.num ι)) := by
  unfold valueProxyOp Operator.value
  rw [hconv]
  dsimp only
  -- a second operand of the size of the first one, with the same value modulo it
  have hsame : ∀ y' : BV, x.size = y'.size → y'.eval ι % 2 ^ x.size = y.eval ι % 2 ^ x.size →
      (op.apply cl x y').bind (Value.value ι) =
        some ((op.compute (x.num ι).bits ((x.num ι).fit (y.num ι))).map (SpecNum.mk x.size) id) := by
    intro y' hs hv
    rw [value_apply op hs, SpecNum.fit_congr (b := y.num ι)]
    rw [BV.num_toNat, BV.num_toNat, BV.num_size, hv]
  have hwiden : y.size ≤ x.size → (x.num ι).widen (y.num ι) = SpecNum.mk x.size :=
    fun hle => funext fun r => SpecNum.widen_of_le hle r
  split
  · next hlt =>
    rw [hsame _ (by rw [Claripy.size_zeroExt]; omega) (by rw [Claripy.eval_zeroExt]), hwiden hlt.le]
    rfl
  · next hge =>
    split
    · next hlt =>
      have hpos : 0 < x.size := by
        by_contra h0
        have := h (by omega)
        omega
      have hres := hsame (lowBits cl x.size y) (size_lowBits cl hpos y).symm
        (by rw [eval_lowBits hpos, Nat.mod_mod])
      cases hop : op.apply cl x (lowBits cl x.size y) with
      | none =>
        rw [hop] at hres
        cases hres
      | some v =>
        rw [hop] at hres
        exact extend_value (a := x.num ι) (b := y.num ι) hlt hres
    · next hle =>
      rw [hsame y (by omega) rfl, hwiden (by omega)]
      rfl

/-- An 8-bit 250 and a 16-bit 263, which is cut to 7: the sum is 1, in 16 bits. -/
theorem valueProxyOp_value_cut :
    (valueProxyOp plain (.bvv 8 250) (.bv (.bvv 16 263)) .add).bind (Value.value ⟨fun _ => 0, fun _ => false⟩) =
      some (.inl ⟨16, 1⟩) :=
  (@valueProxyOp_value plain _ .add (.bvv 8 250) (.bvv 16 263) (.bv (.bvv 16 263)) rfl (by decide)).trans (by decide)

end Tool
end Klint
