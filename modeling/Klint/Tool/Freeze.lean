/-
# Frozen expressions

`freeze_map_ast_versions` replaces the version of each read by the one that the map has now.
In every execution the frozen expression means what the expression meant with the latest
versions, and the symbols and placeholders that it reads are the same.
-/
import Klint.Tool.Sound

namespace Klint
namespace Tool

mutual
/-- The reads of a term are of the latest versions. -/
def BV.Latest : BV → Prop
  | .bvs _ _ => True
  | .bvv _ _ => True
  | .bin _ a b => a.Latest ∧ b.Latest
  | .extract _ _ a => a.Latest
  | .zeroExt _ a => a.Latest
  | .ite c a b => c.Latest ∧ a.Latest ∧ b.Latest
  | .mapGet _ k _ v => k.Latest ∧ v = none

def BoolAst.Latest : BoolAst → Prop
  | .boolS _ => True
  | .boolV _ => True
  | .not a => a.Latest
  | .and a b => a.Latest ∧ b.Latest
  | .or a b => a.Latest ∧ b.Latest
  | .beq a b => a.Latest ∧ b.Latest
  | .ite c a b => c.Latest ∧ a.Latest ∧ b.Latest
  | .cmp _ a b => a.Latest ∧ b.Latest
  | .mapHas _ k v => k.Latest ∧ v = none
  | .mapHasValue _ k x v => k.Latest ∧ x.Latest ∧ v = none
end

mutual
theorem BV.latest_iff_all : ∀ e : BV, e.Latest ↔ e.all BV.Latest BoolAst.Latest
  | .bvs _ _ => Iff.rfl
  | .bvv _ _ => Iff.rfl
  | .bin _ a b => and_congr (BV.latest_iff_all a) (BV.latest_iff_all b)
  | .extract _ _ a => BV.latest_iff_all a
  | .zeroExt _ a => BV.latest_iff_all a
  | .ite c a b => and_congr (BoolAst.latest_iff_all c) (and_congr (BV.latest_iff_all a) (BV.latest_iff_all b))
  | .mapGet _ _ _ _ => Iff.rfl

theorem BoolAst.latest_iff_all : ∀ e : BoolAst, e.Latest ↔ e.all BV.Latest BoolAst.Latest
  | .boolS _ => Iff.rfl
  | .boolV _ => Iff.rfl
  | .not a => BoolAst.latest_iff_all a
  | .and a b => and_congr (BoolAst.latest_iff_all a) (BoolAst.latest_iff_all b)
  | .or a b => and_congr (BoolAst.latest_iff_all a) (BoolAst.latest_iff_all b)
  | .beq a b => and_congr (BoolAst.latest_iff_all a) (BoolAst.latest_iff_all b)
  | .ite c a b =>
    and_congr (BoolAst.latest_iff_all c) (and_congr (BoolAst.latest_iff_all a) (BoolAst.latest_iff_all b))
  | .cmp _ a b => and_congr (BV.latest_iff_all a) (BV.latest_iff_all b)
  | .mapHas _ _ _ => Iff.rfl
  | .mapHasValue _ _ _ _ => Iff.rfl
end

variable {be : Backend} {x : Exec} {st : State} {mm : MapMeta}

theorem latest_simplified_bool {e : BoolAst} (h : e.Latest) : (be.bool e).Latest :=
  (BoolAst.latest_iff_all _).mpr (be.all_bool _ _ _ ((BoolAst.latest_iff_all e).mp h))

theorem scoped_simplified_bv {e : BV} (h : e.Scoped st mm) : (be.bv e).Scoped st mm :=
  (BV.scoped_iff_all _).mpr (be.all_bv _ _ _ ((BV.scoped_iff_all e).mp h))

theorem scoped_simplified_bool {e : BoolAst} (h : e.Scoped st mm) : (be.bool e).Scoped st mm :=
  (BoolAst.scoped_iff_all _).mpr (be.all_bool _ _ _ ((BoolAst.scoped_iff_all e).mp h))

theorem den_simplified_bv (w : World) (e : BV) : (be.bv e).den w = e.den w := by
  rw [← eval_env_bv, be.eval_bv, eval_env_bv]

theorem den_simplified_bool (w : World) (e : BoolAst) : (be.bool e).den w = e.den w := by
  rw [← eval_env_bool, be.eval_bool, eval_env_bool]

/-- The latest version is reached by its own number. -/
theorem atVersion_version (m : Map) : m.atVersion (some m.version) = m := by
  rw [Map.atVersion, Nat.sub_self, Map.back]

/-- A read of the version that the map has now is a read of the latest one. -/
theorem world_read_latest (hx : x.maps = st.maps) {r : MapRef} {m : Map} (ht : target st.maps r = some m) (k : ℕ)
    (a : ℕ × Bool) (j : ℕ) : (x.world k a).read r (some m.version) j = (x.world k a).read r none j := by
  simp only [Exec.world, hx, ht, atVersion_version]
  rfl

/-! ### The cases of freezing -/

section Cases

variable {maps : List (ℕ × Map)}

attribute [local simp] BV.freezeMapAstVersions BoolAst.freezeMapAstVersions Option.bind_eq_some_iff

theorem BV.freeze_bin {op : BinOp} {a b e' : BV} : (BV.bin op a b).freezeMapAstVersions be maps = some e' ↔
    ∃ a', a.freezeMapAstVersions be maps = some a' ∧
      ∃ b', b.freezeMapAstVersions be maps = some b' ∧ be.bv (.bin op a' b') = e' := by
  simp

theorem BV.freeze_extract {hi lo : ℕ} {a e' : BV} : (BV.extract hi lo a).freezeMapAstVersions be maps = some e' ↔
    ∃ a', a.freezeMapAstVersions be maps = some a' ∧ be.bv (.extract hi lo a') = e' := by
  simp

theorem BV.freeze_zeroExt {n : ℕ} {a e' : BV} : (BV.zeroExt n a).freezeMapAstVersions be maps = some e' ↔
    ∃ a', a.freezeMapAstVersions be maps = some a' ∧ be.bv (.zeroExt n a') = e' := by
  simp

theorem BV.freeze_ite {c : BoolAst} {a b e' : BV} : (BV.ite c a b).freezeMapAstVersions be maps = some e' ↔
    ∃ c', c.freezeMapAstVersions be maps = some c' ∧ ∃ a', a.freezeMapAstVersions be maps = some a' ∧
      ∃ b', b.freezeMapAstVersions be maps = some b' ∧ be.bv (.ite c' a' b') = e' := by
  simp

theorem BV.freeze_mapGet {m : MapRef} {k e' : BV} {s : ℕ} {v : Option ℕ} :
    (BV.mapGet m k s v).freezeMapAstVersions be maps = some e' ↔
    ∃ map, target maps m = some map ∧
      ∃ k', k.freezeMapAstVersions be maps = some k' ∧ BV.mapGet m k' s (some map.version) = e' := by
  simp

theorem BoolAst.freeze_not {a e' : BoolAst} : (BoolAst.not a).freezeMapAstVersions be maps = some e' ↔
    ∃ a', a.freezeMapAstVersions be maps = some a' ∧ be.bool (.not a') = e' := by
  simp

theorem BoolAst.freeze_and {a b e' : BoolAst} : (BoolAst.and a b).freezeMapAstVersions be maps = some e' ↔
    ∃ a', a.freezeMapAstVersions be maps = some a' ∧
      ∃ b', b.freezeMapAstVersions be maps = some b' ∧ be.bool (.and a' b') = e' := by
  simp

theorem BoolAst.freeze_or {a b e' : BoolAst} : (BoolAst.or a b).freezeMapAstVersions be maps = some e' ↔
    ∃ a', a.freezeMapAstVersions be maps = some a' ∧
      ∃ b', b.freezeMapAstVersions be maps = some b' ∧ be.bool (.or a' b') = e' := by
  simp

theorem BoolAst.freeze_beq {a b e' : BoolAst} : (BoolAst.beq a b).freezeMapAstVersions be maps = some e' ↔
    ∃ a', a.freezeMapAstVersions be maps = some a' ∧
      ∃ b', b.freezeMapAstVersions be maps = some b' ∧ be.bool (.beq a' b') = e' := by
  simp

theorem BoolAst.freeze_ite {c a b e' : BoolAst} : (BoolAst.ite c a b).freezeMapAstVersions be maps = some e' ↔
    ∃ c', c.freezeMapAstVersions be maps = some c' ∧ ∃ a', a.freezeMapAstVersions be maps = some a' ∧
      ∃ b', b.freezeMapAstVersions be maps = some b' ∧ be.bool (.ite c' a' b') = e' := by
  simp

theorem BoolAst.freeze_cmp {op : CmpOp} {a b : BV} {e' : BoolAst} :
    (BoolAst.cmp op a b).freezeMapAstVersions be maps = some e' ↔
    ∃ a', a.freezeMapAstVersions be maps = some a' ∧
      ∃ b', b.freezeMapAstVersions be maps = some b' ∧ be.bool (.cmp op a' b') = e' := by
  simp

theorem BoolAst.freeze_mapHas {m : MapRef} {k : BV} {e' : BoolAst} {v : Option ℕ} :
    (BoolAst.mapHas m k v).freezeMapAstVersions be maps = some e' ↔
    ∃ map, target maps m = some map ∧
      ∃ k', k.freezeMapAstVersions be maps = some k' ∧ BoolAst.mapHas m k' (some map.version) = e' := by
  simp

theorem BoolAst.freeze_mapHasValue {m : MapRef} {k y : BV} {e' : BoolAst} {v : Option ℕ} :
    (BoolAst.mapHasValue m k y v).freezeMapAstVersions be maps = some e' ↔
    ∃ map, target maps m = some map ∧ ∃ k', k.freezeMapAstVersions be maps = some k' ∧
      ∃ y', y.freezeMapAstVersions be maps = some y' ∧ BoolAst.mapHasValue m k' y' (some map.version) = e' := by
  simp

end Cases

/-! ### What freezing keeps -/

/-- The world in which every read is of the latest version. -/
def World.latest (w : World) : World := { w with read := fun r _ j => w.read r none j }

/-- The environment in which a leaf has the value of what freezing makes of it. -/
def frozenEnv (be : Backend) (maps : List (ℕ × Map)) (ι : Env) : Env where
  bv l := (l.freezeMapAstVersions be maps).elim 0 ι.bv
  bool l := (l.freezeMapAstVersions be maps).elim false ι.bool

/-- What freezing keeps of a term: it means what the term means on what the maps hold now, and reads no more than
the term if all its reads were of the latest versions. -/
structure FrozenBV (be : Backend) (st : State) (e e' : BV) : Prop where
  size : e'.size = e.size
  eval : ∀ ι, e'.eval ι = e.eval (frozenEnv be st.maps ι)
  den : ∀ x : Exec, x.maps = st.maps → ∀ k a, e'.den (x.world k a) = e.den (x.world k a).latest
  inScope : ∀ mm, e.Scoped st mm → e.Latest → e'.Scoped st mm

structure FrozenBool (be : Backend) (st : State) (e e' : BoolAst) : Prop where
  eval : ∀ ι, e'.eval ι = e.eval (frozenEnv be st.maps ι)
  den : ∀ x : Exec, x.maps = st.maps → ∀ k a, e'.den (x.world k a) = e.den (x.world k a).latest
  inScope : ∀ mm, e.Scoped st mm → e.Latest → e'.Scoped st mm

mutual
theorem freeze_bv : ∀ (e : BV) {e' : BV}, e.freezeMapAstVersions be st.maps = some e' → FrozenBV be st e e'
  | .bvs _ _, _, hf => by
    cases hf
    exact ⟨rfl, fun _ => rfl, fun _ _ _ _ => rfl, fun _ hs _ => hs⟩
  | .bvv _ _, _, hf => by
    cases hf
    exact ⟨rfl, fun _ => rfl, fun _ _ _ _ => rfl, fun _ hs _ => hs⟩
  | .bin op a b, _, hf => by
    obtain ⟨a', ha, b', hb, rfl⟩ := BV.freeze_bin.mp hf
    have fa := freeze_bv a ha
    have fb := freeze_bv b hb
    refine ⟨?_, fun ι => ?_, fun x hx k c => ?_, fun mm hs hv => ?_⟩
    · rw [be.size_bv, BV.size, BV.size, fa.size, fb.size]
    · rw [be.eval_bv, BV.eval, BV.eval, fa.eval, fb.eval, fa.size, fb.size]
    · rw [den_simplified_bv, BV.den, BV.den, fa.den x hx, fb.den x hx, fa.size, fb.size]
    · exact scoped_simplified_bv ⟨fa.inScope mm hs.1 hv.1, fb.inScope mm hs.2 hv.2⟩
  | .extract hi lo a, _, hf => by
    obtain ⟨a', ha, rfl⟩ := BV.freeze_extract.mp hf
    have fa := freeze_bv a ha
    refine ⟨?_, fun ι => ?_, fun x hx k c => ?_, fun mm hs hv => scoped_simplified_bv (fa.inScope mm hs hv)⟩
    · rw [be.size_bv, BV.size, BV.size]
    · rw [be.eval_bv, BV.eval, BV.eval, fa.eval]
    · rw [den_simplified_bv, BV.den, BV.den, fa.den x hx]
  | .zeroExt n a, _, hf => by
    obtain ⟨a', ha, rfl⟩ := BV.freeze_zeroExt.mp hf
    have fa := freeze_bv a ha
    refine ⟨?_, fun ι => ?_, fun x hx k c => ?_, fun mm hs hv => scoped_simplified_bv (fa.inScope mm hs hv)⟩
    · rw [be.size_bv, BV.size, BV.size, fa.size]
    · rw [be.eval_bv, BV.eval, BV.eval, fa.eval]
    · rw [den_simplified_bv, BV.den, BV.den, fa.den x hx]
  | .ite c a b, _, hf => by
    obtain ⟨c', hc, a', ha, b', hb, rfl⟩ := BV.freeze_ite.mp hf
    have fc := freeze_bool c hc
    have fa := freeze_bv a ha
    have fb := freeze_bv b hb
    refine ⟨?_, fun ι => ?_, fun x hx k i => ?_, fun mm hs hv => ?_⟩
    · rw [be.size_bv, BV.size, BV.size, fa.size, fb.size]
    · rw [be.eval_bv, BV.eval, BV.eval, fc.eval, fa.eval, fb.eval]
    · rw [den_simplified_bv, BV.den, BV.den, fc.den x hx, fa.den x hx, fb.den x hx]
    · exact scoped_simplified_bv
        ⟨fc.inScope mm hs.1 hv.1, fa.inScope mm hs.2.1 hv.2.1, fb.inScope mm hs.2.2 hv.2.2⟩
  | .mapGet m k s v, e', hf => by
    have hleaf : ∀ ι, (frozenEnv be st.maps ι).bv (.mapGet m k s v) = ι.bv e' := fun ι => by
      simp only [frozenEnv, hf, Option.elim_some]
    obtain ⟨map, ht, k', hk', rfl⟩ := BV.freeze_mapGet.mp hf
    have fk := freeze_bv k hk'
    refine ⟨rfl, fun ι => ?_, fun x hx j i => ?_, fun mm hs hv => ?_⟩
    · rw [BV.eval, BV.eval, hleaf]
    · rw [BV.den, BV.den, fk.den x hx, world_read_latest hx ht]
      rfl
    · obtain ⟨hks, map', ht', hc, hm⟩ := hs
      obtain ⟨hk, rfl⟩ := hv
      cases ht.symm.trans ht'
      refine ⟨fk.inScope mm hks hk, map, ht, ?_, ?_⟩
      · rw [atVersion_version]
        exact hc
      · rw [atVersion_version, fk.size]
        exact hm

theorem freeze_bool : ∀ (e : BoolAst) {e' : BoolAst}, e.freezeMapAstVersions be st.maps = some e' →
    FrozenBool be st e e'
  | .boolS _, _, hf => by
    cases hf
    exact ⟨fun _ => rfl, fun _ _ _ _ => rfl, fun _ hs _ => hs⟩
  | .boolV _, _, hf => by
    cases hf
    exact ⟨fun _ => rfl, fun _ _ _ _ => rfl, fun _ hs _ => hs⟩
  | .not a, _, hf => by
    obtain ⟨a', ha, rfl⟩ := BoolAst.freeze_not.mp hf
    have fa := freeze_bool a ha
    refine ⟨fun ι => ?_, fun x hx k c => ?_, fun mm hs hv => scoped_simplified_bool (fa.inScope mm hs hv)⟩
    · rw [be.eval_bool, BoolAst.eval, BoolAst.eval, fa.eval]
    · rw [den_simplified_bool, BoolAst.den, BoolAst.den, fa.den x hx]
  | .and a b, _, hf => by
    obtain ⟨a', ha, b', hb, rfl⟩ := BoolAst.freeze_and.mp hf
    have fa := freeze_bool a ha
    have fb := freeze_bool b hb
    refine ⟨fun ι => ?_, fun x hx k c => ?_, fun mm hs hv => ?_⟩
    · rw [be.eval_bool, BoolAst.eval, BoolAst.eval, fa.eval, fb.eval]
    · rw [den_simplified_bool, BoolAst.den, BoolAst.den, fa.den x hx, fb.den x hx]
    · exact scoped_simplified_bool ⟨fa.inScope mm hs.1 hv.1, fb.inScope mm hs.2 hv.2⟩
  | .or a b, _, hf => by
    obtain ⟨a', ha, b', hb, rfl⟩ := BoolAst.freeze_or.mp hf
    have fa := freeze_bool a ha
    have fb := freeze_bool b hb
    refine ⟨fun ι => ?_, fun x hx k c => ?_, fun mm hs hv => ?_⟩
    · rw [be.eval_bool, BoolAst.eval, BoolAst.eval, fa.eval, fb.eval]
    · rw [den_simplified_bool, BoolAst.den, BoolAst.den, fa.den x hx, fb.den x hx]
    · exact scoped_simplified_bool ⟨fa.inScope mm hs.1 hv.1, fb.inScope mm hs.2 hv.2⟩
  | .beq a b, _, hf => by
    obtain ⟨a', ha, b', hb, rfl⟩ := BoolAst.freeze_beq.mp hf
    have fa := freeze_bool a ha
    have fb := freeze_bool b hb
    refine ⟨fun ι => ?_, fun x hx k c => ?_, fun mm hs hv => ?_⟩
    · rw [be.eval_bool, BoolAst.eval, BoolAst.eval, fa.eval, fb.eval]
    · rw [den_simplified_bool, BoolAst.den, BoolAst.den, fa.den x hx, fb.den x hx]
    · exact scoped_simplified_bool ⟨fa.inScope mm hs.1 hv.1, fb.inScope mm hs.2 hv.2⟩
  | .ite c a b, _, hf => by
    obtain ⟨c', hc, a', ha, b', hb, rfl⟩ := BoolAst.freeze_ite.mp hf
    have fc := freeze_bool c hc
    have fa := freeze_bool a ha
    have fb := freeze_bool b hb
    refine ⟨fun ι => ?_, fun x hx k i => ?_, fun mm hs hv => ?_⟩
    · rw [be.eval_bool, BoolAst.eval, BoolAst.eval, fc.eval, fa.eval, fb.eval]
    · rw [den_simplified_bool, BoolAst.den, BoolAst.den, fc.den x hx, fa.den x hx, fb.den x hx]
    · exact scoped_simplified_bool
        ⟨fc.inScope mm hs.1 hv.1, fa.inScope mm hs.2.1 hv.2.1, fb.inScope mm hs.2.2 hv.2.2⟩
  | .cmp op a b, _, hf => by
    obtain ⟨a', ha, b', hb, rfl⟩ := BoolAst.freeze_cmp.mp hf
    have fa := freeze_bv a ha
    have fb := freeze_bv b hb
    refine ⟨fun ι => ?_, fun x hx k c => ?_, fun mm hs hv => ?_⟩
    · rw [be.eval_bool, BoolAst.eval, BoolAst.eval, fa.eval, fb.eval, fa.size]
    · rw [den_simplified_bool, BoolAst.den, BoolAst.den, fa.den x hx, fb.den x hx, fa.size]
    · exact scoped_simplified_bool ⟨fa.inScope mm hs.1 hv.1, fb.inScope mm hs.2 hv.2⟩
  | .mapHas m k v, e', hf => by
    have hleaf : ∀ ι, (frozenEnv be st.maps ι).bool (.mapHas m k v) = ι.bool e' := fun ι => by
      simp only [frozenEnv, hf, Option.elim_some]
    obtain ⟨map, ht, k', hk', rfl⟩ := BoolAst.freeze_mapHas.mp hf
    have fk := freeze_bv k hk'
    refine ⟨fun ι => ?_, fun x hx j i => ?_, fun mm hs hv => ?_⟩
    · rw [BoolAst.eval, BoolAst.eval, hleaf]
    · rw [BoolAst.den, BoolAst.den, fk.den x hx]
      rfl
    · obtain ⟨hks, map', ht', hc, hm⟩ := hs
      exact ⟨fk.inScope mm hks hv.1, map', ht', hc, hm.trans fk.size.symm⟩
  | .mapHasValue m k y v, e', hf => by
    have hleaf : ∀ ι, (frozenEnv be st.maps ι).bool (.mapHasValue m k y v) = ι.bool e' := fun ι => by
      simp only [frozenEnv, hf, Option.elim_some]
    obtain ⟨map, ht, k', hk', y', hy', rfl⟩ := BoolAst.freeze_mapHasValue.mp hf
    have fk := freeze_bv k hk'
    have fy := freeze_bv y hy'
    refine ⟨fun ι => ?_, fun x hx j i => ?_, fun mm hs hv => ?_⟩
    · rw [BoolAst.eval, BoolAst.eval, hleaf]
    · rw [BoolAst.den, BoolAst.den, fk.den x hx, fy.den x hx, world_read_latest hx ht]
      rfl
    · obtain ⟨hks, hys, map', ht', hc, hm⟩ := hs
      obtain ⟨hk, hy, rfl⟩ := hv
      cases ht.symm.trans ht'
      refine ⟨fk.inScope mm hks hk, fy.inScope mm hys hy, map, ht, ?_, ?_⟩
      · rw [atVersion_version]
        exact hc
      · rw [atVersion_version, fk.size, fy.size]
        exact hm
end

section Latest

variable (w : World)

mutual
/-- An expression whose reads are of the latest versions. -/
theorem BV.den_latest : ∀ e : BV, e.Latest → e.den w.latest = e.den w
  | .bvs _ _, _ => rfl
  | .bvv _ _, _ => rfl
  | .bin _ a b, h => by rw [BV.den, BV.den, BV.den_latest a h.1, BV.den_latest b h.2]
  | .extract _ _ a, h => by rw [BV.den, BV.den, BV.den_latest a h]
  | .zeroExt _ a, h => by rw [BV.den, BV.den, BV.den_latest a h]
  | .ite c a b, h => by
    rw [BV.den, BV.den, BoolAst.den_latest c h.1, BV.den_latest a h.2.1, BV.den_latest b h.2.2]
  | .mapGet _ k _ _, ⟨hk, rfl⟩ => by
    rw [BV.den, BV.den, BV.den_latest k hk]
    rfl

theorem BoolAst.den_latest : ∀ e : BoolAst, e.Latest → e.den w.latest = e.den w
  | .boolS _, _ => rfl
  | .boolV _, _ => rfl
  | .not a, h => by rw [BoolAst.den, BoolAst.den, BoolAst.den_latest a h]
  | .and a b, h => by rw [BoolAst.den, BoolAst.den, BoolAst.den_latest a h.1, BoolAst.den_latest b h.2]
  | .or a b, h => by rw [BoolAst.den, BoolAst.den, BoolAst.den_latest a h.1, BoolAst.den_latest b h.2]
  | .beq a b, h => by rw [BoolAst.den, BoolAst.den, BoolAst.den_latest a h.1, BoolAst.den_latest b h.2]
  | .ite c a b, h => by
    rw [BoolAst.den, BoolAst.den, BoolAst.den_latest c h.1, BoolAst.den_latest a h.2.1, BoolAst.den_latest b h.2.2]
  | .cmp _ a b, h => by rw [BoolAst.den, BoolAst.den, BV.den_latest a h.1, BV.den_latest b h.2]
  | .mapHas _ k _, h => by
    rw [BoolAst.den, BoolAst.den, BV.den_latest k h.1]
    rfl
  | .mapHasValue _ k y _, ⟨hk, hy, rfl⟩ => by
    rw [BoolAst.den, BoolAst.den, BV.den_latest k hk, BV.den_latest y hy]
    rfl
end

end Latest

end Tool
end Klint
