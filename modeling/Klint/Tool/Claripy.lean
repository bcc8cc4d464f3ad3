/-
# Claripy terms

The terms of the symbolic executor: bit vectors and Booleans over symbols, with
the two leaves `MapHas` and `MapGet` that `ghostmaps.py` adds (lines 42 to 53). To
claripy these leaves are opaque, like symbols, so a term is evaluated in an
environment that gives a value to each leaf.

Every operation builds a term and simplifies it. What claripy simplifies is a
parameter, `Claripy`: all that is used of it is that the simplified term has the
same value and width and no new leaf.
-/
import Mathlib.Data.Nat.Bitwise
import Mathlib.Data.Finset.Card
import Mathlib.Tactic.Common

namespace Klint
namespace Tool

/-- A ghost map object: `_previous` is `None`, or the layer below. -/
inductive Map
  | oldest (id : ℕ)
  | layer (id : ℕ) (previous : Map)
deriving DecidableEq, Repr, Inhabited

namespace Map

/-- `version` -/
def version : Map → ℕ
  | oldest _ => 0
  | layer _ previous => 1 + version previous

/-- `oldest_version` -/
def oldestVersion : Map → Map
  | oldest id => oldest id
  | layer _ previous => oldestVersion previous

/-- `_previous`, followed `n` times. -/
def back : ℕ → Map → Map
  | 0, m => m
  | _ + 1, oldest id => oldest id
  | n + 1, layer _ previous => back n previous

/-- The map that `get` is called on for a given `version`. -/
def atVersion (m : Map) : Option ℕ → Map
  | none => m
  | some v => m.back (m.version - v)

end Map

/-- The names of symbols: those of `MapInvariant.new`, made with `explicit_name`, and
those that claripy numbers. -/
inductive Name
  | KEY
  | VALUE
  | PRESENT
  | sym (n : ℕ)
deriving DecidableEq, Repr

/-- The first argument of `MapHas` and `MapGet`: a `Map`, or the key of one in `state.maps`. -/
inductive MapRef
  | map (m : Map)
  | obj (o : ℕ)
deriving DecidableEq, Repr

inductive BinOp
  | add | sub | mul | and | or | xor | shl | lshr | udiv | urem | concat
deriving DecidableEq, Repr

inductive CmpOp
  | eq | ne | ult | ule | slt | sle
deriving DecidableEq, Repr

mutual
/-- `claripy.ast.BV` -/
inductive BV
  | bvs (name : Name) (size : ℕ)
  | bvv (size : ℕ) (value : BitVec size)
  | bin (op : BinOp) (a b : BV)
  | extract (hi lo : ℕ) (a : BV)
  | zeroExt (n : ℕ) (a : BV)
  | ite (c : BoolAst) (a b : BV)
  | mapGet (map : MapRef) (key : BV) (size : ℕ) (version : Option ℕ)
deriving DecidableEq, Repr

/-- `claripy.ast.Bool` -/
inductive BoolAst
  | boolS (name : Name)
  | boolV (b : Bool)
  | not (a : BoolAst)
  | and (a b : BoolAst)
  | or (a b : BoolAst)
  | beq (a b : BoolAst)
  | ite (c a b : BoolAst)
  | cmp (op : CmpOp) (a b : BV)
  | mapHas (map : MapRef) (key : BV) (version : Option ℕ)
  | mapHasValue (map : MapRef) (key value : BV) (version : Option ℕ)
deriving DecidableEq, Repr
end

def BinOp.size : BinOp → ℕ → ℕ → ℕ
  | .concat, a, b => a + b
  | _, a, _ => a

/-- The value of an operation on values of the given sizes. -/
def BinOp.apply (op : BinOp) (sa sb a b : ℕ) : ℕ :=
  match op with
  | .add => a + b
  | .sub => a + 2 ^ sa - b
  | .mul => a * b
  | .and => a &&& b
  | .or => a ||| b
  | .xor => a ^^^ b
  | .shl => if sa ≤ b then 0 else a * 2 ^ b
  | .lshr => if sa ≤ b then 0 else a / 2 ^ b
  | .udiv => if b = 0 then 2 ^ sa - 1 else a / b
  | .urem => if b = 0 then a else a % b
  | .concat => a * 2 ^ sb + b

/-- The two's complement reading of a value. -/
def signed (s a : ℕ) : ℤ := if 2 * a < 2 ^ s then a else (a : ℤ) - 2 ^ s

def CmpOp.apply (op : CmpOp) (sa a b : ℕ) : Bool :=
  match op with
  | .eq => a == b
  | .ne => a != b
  | .ult => decide (a < b)
  | .ule => decide (a ≤ b)
  | .slt => decide (signed sa a < signed sa b)
  | .sle => decide (signed sa a ≤ signed sa b)

/-- `size` of a bit vector, in bits. -/
def BV.size : BV → ℕ
  | .bvs _ s => s
  | .bvv s _ => s
  | .bin op a b => op.size a.size b.size
  | .extract hi lo _ => hi + 1 - lo
  | .zeroExt n a => n + a.size
  | .ite _ a b => max a.size b.size
  | .mapGet _ _ s _ => s

/-- A value for each leaf. -/
structure Env where
  bv : BV → ℕ
  bool : BoolAst → Bool

mutual
def BV.eval (ι : Env) : BV → ℕ
  | .bvs n s => ι.bv (.bvs n s) % 2 ^ s
  | .bvv _ v => v.toNat
  | .bin op a b => op.apply a.size b.size (a.eval ι) (b.eval ι) % 2 ^ op.size a.size b.size
  | .extract hi lo a => a.eval ι / 2 ^ lo % 2 ^ (hi + 1 - lo)
  | .zeroExt _ a => a.eval ι
  | .ite c a b => if c.eval ι then a.eval ι else b.eval ι
  | .mapGet m k s v => ι.bv (.mapGet m k s v) % 2 ^ s

def BoolAst.eval (ι : Env) : BoolAst → Bool
  | .boolS n => ι.bool (.boolS n)
  | .boolV b => b
  | .not a => !a.eval ι
  | .and a b => a.eval ι && b.eval ι
  | .or a b => a.eval ι || b.eval ι
  | .beq a b => a.eval ι == b.eval ι
  | .ite c a b => if c.eval ι then a.eval ι else b.eval ι
  | .cmp op a b => op.apply a.size (a.eval ι) (b.eval ι)
  | .mapHas m k v => ι.bool (.mapHas m k v)
  | .mapHasValue m k x v => ι.bool (.mapHasValue m k x v)
end

mutual
/-- Every leaf of a term satisfies a condition. -/
def BV.all (P : BV → Prop) (Q : BoolAst → Prop) : BV → Prop
  | .bvs n s => P (.bvs n s)
  | .bvv _ _ => True
  | .bin _ a b => a.all P Q ∧ b.all P Q
  | .extract _ _ a => a.all P Q
  | .zeroExt _ a => a.all P Q
  | .ite c a b => c.all P Q ∧ a.all P Q ∧ b.all P Q
  | .mapGet m k s v => P (.mapGet m k s v)

def BoolAst.all (P : BV → Prop) (Q : BoolAst → Prop) : BoolAst → Prop
  | .boolS n => Q (.boolS n)
  | .boolV _ => True
  | .not a => a.all P Q
  | .and a b => a.all P Q ∧ b.all P Q
  | .or a b => a.all P Q ∧ b.all P Q
  | .beq a b => a.all P Q ∧ b.all P Q
  | .ite c a b => c.all P Q ∧ a.all P Q ∧ b.all P Q
  | .cmp _ a b => a.all P Q ∧ b.all P Q
  | .mapHas m k v => Q (.mapHas m k v)
  | .mapHasValue m k x v => Q (.mapHasValue m k x v)
end

/-- `symbolic`: claripy folds a term without symbols to a constant. -/
def BV.symbolic : BV → Bool
  | .bvv _ _ => false
  | _ => true

theorem BV.eval_lt (ι : Env) : ∀ e : BV, e.eval ι < 2 ^ e.size
  | .bvs _ _ => Nat.mod_lt _ (Nat.two_pow_pos _)
  | .bvv _ v => v.isLt
  | .bin _ _ _ => Nat.mod_lt _ (Nat.two_pow_pos _)
  | .extract _ _ _ => Nat.mod_lt _ (Nat.two_pow_pos _)
  | .zeroExt n a => by
    simp only [BV.eval, BV.size]
    exact lt_of_lt_of_le (BV.eval_lt ι a) (Nat.pow_le_pow_right (by omega) (by omega))
  | .ite c a b => by
    simp only [BV.eval, BV.size]
    split
    · exact lt_of_lt_of_le (BV.eval_lt ι a) (Nat.pow_le_pow_right (by omega) (by omega))
    · exact lt_of_lt_of_le (BV.eval_lt ι b) (Nat.pow_le_pow_right (by omega) (by omega))
  | .mapGet _ _ _ _ => Nat.mod_lt _ (Nat.two_pow_pos _)

mutual
/-- A term's value depends on its leaves only. -/
theorem BV.eval_congr {ι ι' : Env} : ∀ e : BV,
    e.all (fun l => ι.bv l = ι'.bv l) (fun l => ι.bool l = ι'.bool l) → e.eval ι = e.eval ι'
  | .bvs _ _, h => by simp only [BV.all] at h; simp only [BV.eval, h]
  | .bvv _ _, _ => by simp only [BV.eval]
  | .bin _ a b, h => by
    simp only [BV.all] at h
    simp only [BV.eval, BV.eval_congr a h.1, BV.eval_congr b h.2]
  | .extract _ _ a, h => by simp only [BV.all] at h; simp only [BV.eval, BV.eval_congr a h]
  | .zeroExt _ a, h => by simp only [BV.all] at h; simp only [BV.eval, BV.eval_congr a h]
  | .ite c a b, h => by
    simp only [BV.all] at h
    simp only [BV.eval, BoolAst.eval_congr c h.1, BV.eval_congr a h.2.1, BV.eval_congr b h.2.2]
  | .mapGet _ _ _ _, h => by simp only [BV.all] at h; simp only [BV.eval, h]

theorem BoolAst.eval_congr {ι ι' : Env} : ∀ e : BoolAst,
    e.all (fun l => ι.bv l = ι'.bv l) (fun l => ι.bool l = ι'.bool l) → e.eval ι = e.eval ι'
  | .boolS _, h => by simp only [BoolAst.all] at h; simp only [BoolAst.eval, h]
  | .boolV _, _ => by simp only [BoolAst.eval]
  | .not a, h => by simp only [BoolAst.all] at h; simp only [BoolAst.eval, BoolAst.eval_congr a h]
  | .and a b, h => by
    simp only [BoolAst.all] at h
    simp only [BoolAst.eval, BoolAst.eval_congr a h.1, BoolAst.eval_congr b h.2]
  | .or a b, h => by
    simp only [BoolAst.all] at h
    simp only [BoolAst.eval, BoolAst.eval_congr a h.1, BoolAst.eval_congr b h.2]
  | .beq a b, h => by
    simp only [BoolAst.all] at h
    simp only [BoolAst.eval, BoolAst.eval_congr a h.1, BoolAst.eval_congr b h.2]
  | .ite c a b, h => by
    simp only [BoolAst.all] at h
    simp only [BoolAst.eval, BoolAst.eval_congr c h.1, BoolAst.eval_congr a h.2.1,
      BoolAst.eval_congr b h.2.2]
  | .cmp _ a b, h => by
    simp only [BoolAst.all] at h
    simp only [BoolAst.eval, BV.eval_congr a h.1, BV.eval_congr b h.2]
  | .mapHas _ _ _, h => by simp only [BoolAst.all] at h; simp only [BoolAst.eval, h]
  | .mapHasValue _ _ _ _, h => by simp only [BoolAst.all] at h; simp only [BoolAst.eval, h]
end

mutual
theorem BV.all_mono {P P' : BV → Prop} {Q Q' : BoolAst → Prop} (hp : ∀ l, P l → P' l)
    (hq : ∀ l, Q l → Q' l) : ∀ e : BV, e.all P Q → e.all P' Q'
  | .bvs _ _, h => hp _ h
  | .bvv _ _, _ => trivial
  | .bin _ a b, h => ⟨BV.all_mono hp hq a h.1, BV.all_mono hp hq b h.2⟩
  | .extract _ _ a, h => BV.all_mono hp hq a h
  | .zeroExt _ a, h => BV.all_mono hp hq a h
  | .ite c a b, h => ⟨BoolAst.all_mono hp hq c h.1, BV.all_mono hp hq a h.2.1, BV.all_mono hp hq b h.2.2⟩
  | .mapGet _ _ _ _, h => hp _ h

theorem BoolAst.all_mono {P P' : BV → Prop} {Q Q' : BoolAst → Prop} (hp : ∀ l, P l → P' l)
    (hq : ∀ l, Q l → Q' l) : ∀ e : BoolAst, e.all P Q → e.all P' Q'
  | .boolS _, h => hq _ h
  | .boolV _, _ => trivial
  | .not a, h => BoolAst.all_mono hp hq a h
  | .and a b, h => ⟨BoolAst.all_mono hp hq a h.1, BoolAst.all_mono hp hq b h.2⟩
  | .or a b, h => ⟨BoolAst.all_mono hp hq a h.1, BoolAst.all_mono hp hq b h.2⟩
  | .beq a b, h => ⟨BoolAst.all_mono hp hq a h.1, BoolAst.all_mono hp hq b h.2⟩
  | .ite c a b, h =>
    ⟨BoolAst.all_mono hp hq c h.1, BoolAst.all_mono hp hq a h.2.1, BoolAst.all_mono hp hq b h.2.2⟩
  | .cmp _ a b, h => ⟨BV.all_mono hp hq a h.1, BV.all_mono hp hq b h.2⟩
  | .mapHas _ _ _, h => hq _ h
  | .mapHasValue _ _ _ _, h => hq _ h
end

mutual
theorem BV.all_and {P P' : BV → Prop} {Q Q' : BoolAst → Prop} : ∀ e : BV, e.all P Q → e.all P' Q' →
    e.all (fun l => P l ∧ P' l) (fun l => Q l ∧ Q' l)
  | .bvs _ _, h, h' => ⟨h, h'⟩
  | .bvv _ _, _, _ => trivial
  | .bin _ a b, h, h' => ⟨BV.all_and a h.1 h'.1, BV.all_and b h.2 h'.2⟩
  | .extract _ _ a, h, h' => BV.all_and a h h'
  | .zeroExt _ a, h, h' => BV.all_and a h h'
  | .ite c a b, h, h' => ⟨BoolAst.all_and c h.1 h'.1, BV.all_and a h.2.1 h'.2.1, BV.all_and b h.2.2 h'.2.2⟩
  | .mapGet _ _ _ _, h, h' => ⟨h, h'⟩

theorem BoolAst.all_and {P P' : BV → Prop} {Q Q' : BoolAst → Prop} : ∀ e : BoolAst, e.all P Q → e.all P' Q' →
    e.all (fun l => P l ∧ P' l) (fun l => Q l ∧ Q' l)
  | .boolS _, h, h' => ⟨h, h'⟩
  | .boolV _, _, _ => trivial
  | .not a, h, h' => BoolAst.all_and a h h'
  | .and a b, h, h' => ⟨BoolAst.all_and a h.1 h'.1, BoolAst.all_and b h.2 h'.2⟩
  | .or a b, h, h' => ⟨BoolAst.all_and a h.1 h'.1, BoolAst.all_and b h.2 h'.2⟩
  | .beq a b, h, h' => ⟨BoolAst.all_and a h.1 h'.1, BoolAst.all_and b h.2 h'.2⟩
  | .ite c a b, h, h' =>
    ⟨BoolAst.all_and c h.1 h'.1, BoolAst.all_and a h.2.1 h'.2.1, BoolAst.all_and b h.2.2 h'.2.2⟩
  | .cmp _ a b, h, h' => ⟨BV.all_and a h.1 h'.1, BV.all_and b h.2 h'.2⟩
  | .mapHas _ _ _, h, h' => ⟨h, h'⟩
  | .mapHasValue _ _ _ _, h, h' => ⟨h, h'⟩
end

/-- `claripy.BVV(n, size)` -/
def bvv (size n : ℕ) : BV := .bvv size (BitVec.ofNat size n)

/-! ### Terms that the solver sees

A term is closed when its only leaves are symbols numbered so far: no placeholder
and no `MapHas` or `MapGet` is left in it. -/

def closedBV (n : ℕ) : BV → Prop
  | .bvs (.sym k) _ => k < n
  | _ => False

def closedBool (n : ℕ) : BoolAst → Prop
  | .boolS (.sym k) => k < n
  | _ => False

def BV.Closed (n : ℕ) (e : BV) : Prop := e.all (closedBV n) (closedBool n)
def BoolAst.Closed (n : ℕ) (e : BoolAst) : Prop := e.all (closedBV n) (closedBool n)

theorem closedBV_mono {n n' : ℕ} (h : n ≤ n') (l : BV) (hl : closedBV n l) : closedBV n' l := by
  unfold closedBV at hl ⊢
  split at hl
  · omega
  · exact hl.elim

theorem closedBool_mono {n n' : ℕ} (h : n ≤ n') (l : BoolAst) (hl : closedBool n l) :
    closedBool n' l := by
  unfold closedBool at hl ⊢
  split at hl
  · omega
  · exact hl.elim

theorem BV.Closed.mono {n n' : ℕ} {e : BV} (he : e.Closed n) (h : n ≤ n') : e.Closed n' :=
  BV.all_mono (closedBV_mono h) (closedBool_mono h) e he

theorem BoolAst.Closed.mono {n n' : ℕ} {e : BoolAst} (he : e.Closed n) (h : n ≤ n') : e.Closed n' :=
  BoolAst.all_mono (closedBV_mono h) (closedBool_mono h) e he

/-! ### Building terms -/

/-- Claripy's simplifications. -/
structure Claripy where
  bv : BV → BV
  bool : BoolAst → BoolAst
  eval_bv : ∀ ι e, (bv e).eval ι = e.eval ι
  eval_bool : ∀ ι e, (bool e).eval ι = e.eval ι
  size_bv : ∀ e, (bv e).size = e.size
  all_bv : ∀ P Q e, e.all P Q → (bv e).all P Q
  all_bool : ∀ P Q e, e.all P Q → (bool e).all P Q

/-- A claripy that simplifies nothing. -/
def plain : Claripy where
  bv := id
  bool := id
  eval_bv _ _ := rfl
  eval_bool _ _ := rfl
  size_bv _ := rfl
  all_bv _ _ _ h := h
  all_bool _ _ _ h := h

namespace Claripy

variable (cl : Claripy)

def not (a : BoolAst) : BoolAst := cl.bool (.not a)
def and (a b : BoolAst) : BoolAst := cl.bool (.and a b)
def or (a b : BoolAst) : BoolAst := cl.bool (.or a b)
def beq (a b : BoolAst) : BoolAst := cl.bool (.beq a b)
def eq (a b : BV) : BoolAst := cl.bool (.cmp .eq a b)
def ne (a b : BV) : BoolAst := cl.bool (.cmp .ne a b)
def ult (a b : BV) : BoolAst := cl.bool (.cmp .ult a b)
def ule (a b : BV) : BoolAst := cl.bool (.cmp .ule a b)
def add (a b : BV) : BV := cl.bv (.bin .add a b)
def sub (a b : BV) : BV := cl.bv (.bin .sub a b)
def mul (a b : BV) : BV := cl.bv (.bin .mul a b)
def concat (a b : BV) : BV := cl.bv (.bin .concat a b)
def extract (hi lo : ℕ) (a : BV) : BV := cl.bv (.extract hi lo a)
def zeroExt (n : ℕ) (a : BV) : BV := cl.bv (.zeroExt n a)
def ite (c : BoolAst) (a b : BV) : BV := cl.bv (.ite c a b)
def iteBool (c a b : BoolAst) : BoolAst := cl.bool (.ite c a b)

/-- `Implies` of ghostmaps.py -/
def Implies (a b : BoolAst) : BoolAst := cl.or (cl.not a) b

/-- `claripy.And(*l)` -/
def conj : List BoolAst → BoolAst
  | [] => .boolV true
  | a :: l => cl.and a (conj l)

/-- `claripy.ite_cases`, of bit vectors. -/
def iteCases : List (BoolAst × BV) → BV → BV
  | [], d => d
  | (c, a) :: l, d => cl.ite c a (iteCases l d)

/-- `claripy.ite_cases`, of Booleans. -/
def iteCasesBool : List (BoolAst × BoolAst) → BoolAst → BoolAst
  | [], d => d
  | (c, a) :: l, d => cl.iteBool c a (iteCasesBool l d)

section Eval

variable (ι : Env) (a b c : BoolAst) (x y : BV)

@[simp] theorem eval_not : (cl.not a).eval ι = !a.eval ι := by rw [not, cl.eval_bool, BoolAst.eval]
@[simp] theorem eval_and : (cl.and a b).eval ι = (a.eval ι && b.eval ι) := by
  rw [and, cl.eval_bool, BoolAst.eval]
@[simp] theorem eval_or : (cl.or a b).eval ι = (a.eval ι || b.eval ι) := by
  rw [or, cl.eval_bool, BoolAst.eval]
@[simp] theorem eval_beq : (cl.beq a b).eval ι = (a.eval ι == b.eval ι) := by
  rw [beq, cl.eval_bool, BoolAst.eval]
@[simp] theorem eval_eq : (cl.eq x y).eval ι = (x.eval ι == y.eval ι) := by
  rw [eq, cl.eval_bool, BoolAst.eval, CmpOp.apply]
@[simp] theorem eval_ne : (cl.ne x y).eval ι = (x.eval ι != y.eval ι) := by
  rw [ne, cl.eval_bool, BoolAst.eval, CmpOp.apply]
@[simp] theorem eval_ule : (cl.ule x y).eval ι = decide (x.eval ι ≤ y.eval ι) := by
  rw [ule, cl.eval_bool, BoolAst.eval, CmpOp.apply]
@[simp] theorem eval_ult : (cl.ult x y).eval ι = decide (x.eval ι < y.eval ι) := by
  rw [ult, cl.eval_bool, BoolAst.eval, CmpOp.apply]
@[simp] theorem eval_add : (cl.add x y).eval ι = (x.eval ι + y.eval ι) % 2 ^ x.size := by
  rw [add, cl.eval_bv, BV.eval, BinOp.apply, BinOp.size]
  simp
theorem eval_sub_of_le (h : y.eval ι ≤ x.eval ι) : (cl.sub x y).eval ι = x.eval ι - y.eval ι := by
  rw [sub, cl.eval_bv, BV.eval]
  simp only [BinOp.apply, BinOp.size]
  rw [Nat.sub_add_comm h, Nat.add_mod_right]
  exact Nat.mod_eq_of_lt ((Nat.sub_le _ _).trans_lt (x.eval_lt ι))
@[simp] theorem eval_mul : (cl.mul x y).eval ι = x.eval ι * y.eval ι % 2 ^ x.size := by
  rw [mul, cl.eval_bv, BV.eval, BinOp.apply, BinOp.size]
  simp
@[simp] theorem eval_concat : (cl.concat x y).eval ι = x.eval ι * 2 ^ y.size + y.eval ι := by
  rw [concat, cl.eval_bv, BV.eval, BinOp.apply, BinOp.size, pow_add]
  refine Nat.mod_eq_of_lt ?_
  calc x.eval ι * 2 ^ y.size + y.eval ι < x.eval ι * 2 ^ y.size + 2 ^ y.size := Nat.add_lt_add_left (y.eval_lt ι) _
    _ = (x.eval ι + 1) * 2 ^ y.size := (Nat.succ_mul _ _).symm
    _ ≤ 2 ^ x.size * 2 ^ y.size := Nat.mul_le_mul_right _ (x.eval_lt ι)
@[simp] theorem eval_extract (hi lo : ℕ) : (cl.extract hi lo x).eval ι = x.eval ι / 2 ^ lo % 2 ^ (hi + 1 - lo) := by
  rw [extract, cl.eval_bv, BV.eval]
@[simp] theorem eval_zeroExt (n : ℕ) : (cl.zeroExt n x).eval ι = x.eval ι := by
  rw [zeroExt, cl.eval_bv, BV.eval]
@[simp] theorem eval_ite : (cl.ite c x y).eval ι = if c.eval ι then x.eval ι else y.eval ι := by
  rw [ite, cl.eval_bv, BV.eval]
@[simp] theorem eval_iteBool :
    (cl.iteBool c a b).eval ι = if c.eval ι then a.eval ι else b.eval ι := by
  rw [iteBool, cl.eval_bool, BoolAst.eval]
@[simp] theorem eval_Implies : (cl.Implies a b).eval ι = (!a.eval ι || b.eval ι) := by
  simp [Implies]
@[simp] theorem eval_boolV (t : Bool) : (BoolAst.boolV t).eval ι = t := by rw [BoolAst.eval]
@[simp] theorem eval_bvv (s n : ℕ) : (bvv s n).eval ι = n % 2 ^ s := by simp [bvv, BV.eval]

theorem eval_conj : ∀ l : List BoolAst, (cl.conj l).eval ι = true ↔ ∀ a ∈ l, a.eval ι = true
  | [] => by simp [conj]
  | a :: l => by simp [conj, eval_conj l]

end Eval

section Size

variable (c : BoolAst) (x y : BV)

@[simp] theorem size_add : (cl.add x y).size = x.size := by
  rw [add, cl.size_bv, BV.size, BinOp.size]
  simp
@[simp] theorem size_sub : (cl.sub x y).size = x.size := by
  rw [sub, cl.size_bv, BV.size, BinOp.size]
  simp
@[simp] theorem size_concat : (cl.concat x y).size = x.size + y.size := by
  rw [concat, cl.size_bv, BV.size, BinOp.size]
@[simp] theorem size_extract (hi lo : ℕ) : (cl.extract hi lo x).size = hi + 1 - lo := by
  rw [extract, cl.size_bv, BV.size]
@[simp] theorem size_zeroExt (n : ℕ) : (cl.zeroExt n x).size = n + x.size := by
  rw [zeroExt, cl.size_bv, BV.size]
@[simp] theorem size_ite : (cl.ite c x y).size = max x.size y.size := by
  rw [ite, cl.size_bv, BV.size]
@[simp] theorem size_bvv (s n : ℕ) : (bvv s n).size = s := rfl

end Size

section Closed

variable {cl} {n : ℕ} {a b c : BoolAst} {x y : BV}

theorem closed_not (ha : a.Closed n) : (cl.not a).Closed n := cl.all_bool _ _ _ ha
theorem closed_and (ha : a.Closed n) (hb : b.Closed n) : (cl.and a b).Closed n :=
  cl.all_bool _ _ _ ⟨ha, hb⟩
theorem closed_or (ha : a.Closed n) (hb : b.Closed n) : (cl.or a b).Closed n :=
  cl.all_bool _ _ _ ⟨ha, hb⟩
theorem closed_beq (ha : a.Closed n) (hb : b.Closed n) : (cl.beq a b).Closed n :=
  cl.all_bool _ _ _ ⟨ha, hb⟩
theorem closed_eq (hx : x.Closed n) (hy : y.Closed n) : (cl.eq x y).Closed n :=
  cl.all_bool _ _ _ ⟨hx, hy⟩
theorem closed_ne (hx : x.Closed n) (hy : y.Closed n) : (cl.ne x y).Closed n :=
  cl.all_bool _ _ _ ⟨hx, hy⟩
theorem closed_ule (hx : x.Closed n) (hy : y.Closed n) : (cl.ule x y).Closed n :=
  cl.all_bool _ _ _ ⟨hx, hy⟩
theorem closed_sub (hx : x.Closed n) (hy : y.Closed n) : (cl.sub x y).Closed n :=
  cl.all_bv _ _ _ ⟨hx, hy⟩
theorem closed_concat (hx : x.Closed n) (hy : y.Closed n) : (cl.concat x y).Closed n :=
  cl.all_bv _ _ _ ⟨hx, hy⟩
theorem closed_extract (hi lo : ℕ) (hx : x.Closed n) : (cl.extract hi lo x).Closed n :=
  cl.all_bv _ _ _ hx
theorem closed_add (hx : x.Closed n) (hy : y.Closed n) : (cl.add x y).Closed n :=
  cl.all_bv _ _ _ ⟨hx, hy⟩
theorem closed_ite (hc : c.Closed n) (hx : x.Closed n) (hy : y.Closed n) : (cl.ite c x y).Closed n :=
  cl.all_bv _ _ _ ⟨hc, hx, hy⟩
theorem closed_iteBool (hc : c.Closed n) (ha : a.Closed n) (hb : b.Closed n) :
    (cl.iteBool c a b).Closed n :=
  cl.all_bool _ _ _ ⟨hc, ha, hb⟩
theorem closed_Implies (ha : a.Closed n) (hb : b.Closed n) : (cl.Implies a b).Closed n :=
  closed_or (closed_not ha) hb
theorem closed_boolV (t : Bool) : (BoolAst.boolV t).Closed n := trivial
theorem closed_bvv (s k : ℕ) : (bvv s k).Closed n := trivial

theorem closed_conj : ∀ {l : List BoolAst}, (∀ a ∈ l, a.Closed n) → (cl.conj l).Closed n
  | [], _ => closed_boolV true
  | _ :: _, h => closed_and (h _ List.mem_cons_self)
    (closed_conj fun a ha => h a (List.mem_cons_of_mem _ ha))

end Closed

/-! ### Case terms -/

section IteCases

variable {cl} {n : ℕ}

theorem closed_iteCases : ∀ {l : List (BoolAst × BV)} {d : BV},
    (∀ p ∈ l, p.1.Closed n ∧ p.2.Closed n) → d.Closed n → (cl.iteCases l d).Closed n
  | [], _, _, hd => hd
  | p :: _, _, h, hd => closed_ite (h p List.mem_cons_self).1 (h p List.mem_cons_self).2
    (closed_iteCases (fun q hq => h q (List.mem_cons_of_mem _ hq)) hd)

theorem closed_iteCasesBool : ∀ {l : List (BoolAst × BoolAst)} {d : BoolAst},
    (∀ p ∈ l, p.1.Closed n ∧ p.2.Closed n) → d.Closed n → (cl.iteCasesBool l d).Closed n
  | [], _, _, hd => hd
  | p :: _, _, h, hd => closed_iteBool (h p List.mem_cons_self).1 (h p List.mem_cons_self).2
    (closed_iteCasesBool (fun q hq => h q (List.mem_cons_of_mem _ hq)) hd)

theorem size_iteCases {s : ℕ} : ∀ {l : List (BoolAst × BV)} {d : BV},
    (∀ p ∈ l, p.2.size = s) → d.size = s → (cl.iteCases l d).size = s
  | [], _, _, hd => hd
  | p :: l, d, h, hd => by
    have hl := size_iteCases (fun q hq => h q (List.mem_cons_of_mem _ hq)) hd
    simp only [iteCases, size_ite, hl, h p List.mem_cons_self, max_self]

end IteCases

end Claripy
end Tool
end Klint
