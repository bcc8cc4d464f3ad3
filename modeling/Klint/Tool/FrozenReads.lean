/-
# Frozen expressions over later updates

`freeze_map_ast_versions` writes into each read the number of its map's version, and evaluation goes
back to that number (`ghostmaps.py`, lines 71 to 91). Two kinds of reads do not come back to what the
maps held when the expression was frozen: a `MapHas` without a value, whose handler passes the absent
value for the version, and a read of the last layer, when `with_item_layer` extends that layer and
gives the new one its number.

`MapRead.Hit` says that an update changes the answer of such a read. In every run of updates that hit
no read, the frozen expression keeps its meaning, and `eval_map_ast` gives it (`frozen_keeps`).
-/
import Klint.Tool.Updates

namespace Klint
namespace Tool

variable {be : Backend} {x x' : Exec} {st st' : State} {mm : MapMeta} {k : ℕ} {a : ℕ × Bool}

/-! ### Reads -/

/-- What an expression takes of the value and the presence that it reads. -/
inductive Part
  | value (size : ℕ)
  | presence
  | equals (value : ℕ)
deriving DecidableEq

def Part.of : Part → ℕ × Bool → ℕ
  | value s, a => a.1 % 2 ^ s
  | presence, a => a.2.toNat
  | equals v, a => (a.2 && a.1 == v).toNat

/-- A read of a key, at a version or at the latest one. -/
structure MapRead where
  map : MapRef
  version : Option ℕ
  key : ℕ
  part : Part
deriving DecidableEq

def MapRead.answer (w : World) (r : MapRead) : ℕ := r.part.of (w.read r.map r.version r.key)

mutual
/-- The reads that an expression makes in a world. -/
def BV.reads (w : World) : BV → List MapRead
  | .bvs _ _ => []
  | .bvv _ _ => []
  | .bin _ a b => a.reads w ++ b.reads w
  | .extract _ _ a => a.reads w
  | .zeroExt _ a => a.reads w
  | .ite c a b => c.reads w ++ (a.reads w ++ b.reads w)
  | .mapGet m k s v => ⟨m, v, k.den w, .value s⟩ :: k.reads w

def BoolAst.reads (w : World) : BoolAst → List MapRead
  | .boolS _ => []
  | .boolV _ => []
  | .not a => a.reads w
  | .and a b => a.reads w ++ b.reads w
  | .or a b => a.reads w ++ b.reads w
  | .beq a b => a.reads w ++ b.reads w
  | .ite c a b => c.reads w ++ (a.reads w ++ b.reads w)
  | .cmp _ a b => a.reads w ++ b.reads w
  | .mapHas m k _ => ⟨m, none, k.den w, .presence⟩ :: k.reads w
  | .mapHasValue m k y v => ⟨m, v, k.den w, .equals (y.den w)⟩ :: (k.reads w ++ y.reads w)
end

/-- The version that is read is there. -/
def MapRead.InScope (st : State) (r : MapRead) : Prop :=
  ∃ map, target st.maps r.map = some map ∧ map.atVersion r.version ∈ st.created

/-- The reads of a list are answered alike in a later execution. -/
def SameAnswers (st : State) (w w' : World) (rs : List MapRead) : Prop :=
  ∀ r ∈ rs, r.InScope st → r.answer w' = r.answer w

theorem SameAnswers.left {w w' : World} {rs rs' : List MapRead} (h : SameAnswers st w w' (rs ++ rs')) :
    SameAnswers st w w' rs := fun r hr => h r (List.mem_append_left _ hr)

theorem SameAnswers.right {w w' : World} {rs rs' : List MapRead} (h : SameAnswers st w w' (rs ++ rs')) :
    SameAnswers st w w' rs' := fun r hr => h r (List.mem_append_right _ hr)

theorem SameAnswers.tail {w w' : World} {r : MapRead} {rs : List MapRead} (h : SameAnswers st w w' (r :: rs)) :
    SameAnswers st w w' rs := fun r hr => h r (List.mem_cons_of_mem _ hr)

theorem eq_of_toNat_eq : ∀ {b c : Bool}, b.toNat = c.toNat → b = c
  | false, false, _ => rfl
  | true, true, _ => rfl

section Answers

variable (ha : x.Agree st.next x')
include ha

mutual
/-- An expression means the same where its reads are answered alike. -/
theorem den_of_answers_bv : ∀ e : BV, e.Scoped st mm →
    SameAnswers st (x.world k a) (x'.world k a) (e.reads (x.world k a)) → e.den (x'.world k a) = e.den (x.world k a)
  | .bvs .KEY _, _, _ => rfl
  | .bvs .VALUE _, _, _ => rfl
  | .bvs .PRESENT _, _, _ => rfl
  | .bvs (.sym n) _, he, _ => by
    simp only [BV.Scoped] at he
    simp only [BV.den, Exec.world, ha.bv n he]
  | .bvv _ _, _, _ => rfl
  | .bin _ e f, he, hr => by
    rw [BV.den, BV.den, den_of_answers_bv e he.1 hr.left, den_of_answers_bv f he.2 hr.right]
  | .extract _ _ e, he, hr => by rw [BV.den, BV.den, den_of_answers_bv e he hr]
  | .zeroExt _ e, he, hr => by rw [BV.den, BV.den, den_of_answers_bv e he hr]
  | .ite c e f, he, hr => by
    rw [BV.den, BV.den, den_of_answers_bool c he.1 hr.left, den_of_answers_bv e he.2.1 hr.right.left,
      den_of_answers_bv f he.2.2 hr.right.right]
  | .mapGet m j s v, he, hr => by
    obtain ⟨hj, map, ht, hc, -⟩ := he
    rw [BV.den, BV.den, den_of_answers_bv j hj hr.tail]
    exact hr _ List.mem_cons_self ⟨map, ht, hc⟩

theorem den_of_answers_bool : ∀ e : BoolAst, e.Scoped st mm →
    SameAnswers st (x.world k a) (x'.world k a) (e.reads (x.world k a)) → e.den (x'.world k a) = e.den (x.world k a)
  | .boolS .KEY, _, _ => rfl
  | .boolS .VALUE, _, _ => rfl
  | .boolS .PRESENT, _, _ => rfl
  | .boolS (.sym n), he, _ => by
    simp only [BoolAst.Scoped] at he
    simp only [BoolAst.den, Exec.world, ha.bool n he]
  | .boolV _, _, _ => rfl
  | .not e, he, hr => by rw [BoolAst.den, BoolAst.den, den_of_answers_bool e he hr]
  | .and e f, he, hr => by
    rw [BoolAst.den, BoolAst.den, den_of_answers_bool e he.1 hr.left, den_of_answers_bool f he.2 hr.right]
  | .or e f, he, hr => by
    rw [BoolAst.den, BoolAst.den, den_of_answers_bool e he.1 hr.left, den_of_answers_bool f he.2 hr.right]
  | .beq e f, he, hr => by
    rw [BoolAst.den, BoolAst.den, den_of_answers_bool e he.1 hr.left, den_of_answers_bool f he.2 hr.right]
  | .ite c e f, he, hr => by
    rw [BoolAst.den, BoolAst.den, den_of_answers_bool c he.1 hr.left, den_of_answers_bool e he.2.1 hr.right.left,
      den_of_answers_bool f he.2.2 hr.right.right]
  | .cmp _ e f, he, hr => by
    rw [BoolAst.den, BoolAst.den, den_of_answers_bv e he.1 hr.left, den_of_answers_bv f he.2 hr.right]
  | .mapHas m j v, he, hr => by
    obtain ⟨hj, map, ht, hc, -⟩ := he
    rw [BoolAst.den, BoolAst.den, den_of_answers_bv j hj hr.tail]
    exact eq_of_toNat_eq (hr _ List.mem_cons_self ⟨map, ht, hc⟩)
  | .mapHasValue m j y v, he, hr => by
    obtain ⟨hj, hy, map, ht, hc, -⟩ := he
    rw [BoolAst.den, BoolAst.den, den_of_answers_bv j hj hr.tail.left, den_of_answers_bv y hy hr.tail.right]
    exact eq_of_toNat_eq (hr _ List.mem_cons_self ⟨map, ht, hc⟩)
end

end Answers

/-! ### Updates that hit no read -/

/-- An update changes the answer of a read: it writes, under the key that is read of its map, something
that the read tells from what was there, and the read does not go back to a version before it. -/
def MapRead.Hit (x : Exec) (st : State) (u : Update) (r : MapRead) : Prop :=
  ∃ m, target st.maps (.obj u.obj) = some m ∧ r.map = .obj u.obj ∧ r.key = u.key.eval x.env ∧
    (∀ n ∈ r.version, m.versionAfter (st.heap m) u.key ≤ n) ∧
    r.part.of (u.result x (x.content m)) ≠ r.part.of (x.content m r.key)

namespace Update

def Spares (x : Exec) (st : State) (u : Update) (rs : List MapRead) : Prop := ∀ r ∈ rs, ¬r.Hit x st u

/-- The update hits no read that an invariant of a map makes, for any key of the map. -/
def SparesInvariants (x : Exec) (st : State) (u : Update) : Prop :=
  ∀ m ∈ st.created, ∀ inv ∈ (st.heap m).invariants, ∀ k < 2 ^ (st.heap m).mapMeta.keySize,
    u.Spares x st (inv.expr.reads (x.world k (x.content m k)))

end Update

section Applied

variable {u : Update} {m m' : Map} (hap : Applied be x st u m m' x' st') (hx : x.maps = st.maps)
  (hm : m ∈ st.created) (ht : target st.maps (.obj u.obj) = some m)
include hap

theorem Applied.target_eq (r : MapRef) :
    target (setItem u.obj m' st'.maps) r = if r = .obj u.obj then some m' else target st.maps r := by
  rw [target_setItem, hap.layered.later.table]

include ht

include hm in
/-- Each version is found again in the table with the new map. -/
theorem Applied.found : Found st' (setItem u.obj m' st'.maps) := by
  have hl := hap.layered.later
  intro r map v hr hc
  rw [hl.table] at hr
  rw [hap.target_eq]
  split
  · next hobj =>
    rw [hobj, ht] at hr
    cases hr
    refine ⟨m', rfl, ?_⟩
    rcases hap.next v with hv | ⟨hv, hv', -⟩
    · rw [hv]
      exact ⟨hc, rfl⟩
    · rw [hv'] at hc
      rw [hv, hv']
      exact ⟨hap.layered.created, hap.layered.mapMeta.trans (hl.mapMeta m hm).symm⟩
  · exact ⟨map, hr, hc, rfl⟩

include hx in
/-- A read that is not hit is answered as before. -/
theorem Applied.sameAnswers {rs : List MapRead} (hs : u.Spares x st rs) :
    SameAnswers st (x.world k a) ((x'.withTable (setItem u.obj m' st'.maps)).world k a) rs := by
  have hl := hap.layered.later
  rintro r hr ⟨map, hmap, hc⟩
  unfold MapRead.answer
  rw [world_read hx hmap]
  by_cases hobj : r.map = .obj u.obj
  · rw [hobj, ht] at hmap
    cases hmap
    have hread : ((x'.withTable (setItem u.obj m' st'.maps)).world k a).read r.map r.version r.key =
        x'.content (m'.atVersion r.version) r.key := by
      simp only [Exec.world, Exec.withTable, hap.target_eq, if_pos hobj]
    rw [hread]
    rcases hap.next r.version with hv | ⟨hv, hv', hafter⟩
    · rw [hv, hl.content _ hc]
    · rw [hv, hv', hap.layered.content, Content.put_apply]
      split
      · next hkey =>
        by_contra hne
        exact hs r hr ⟨m, ht, hobj, hkey, hafter, hne⟩
      · rfl
  · have hread : ((x'.withTable (setItem u.obj m' st'.maps)).world k a).read r.map r.version r.key =
        x'.content (map.atVersion r.version) r.key := by
      simp only [Exec.world, Exec.withTable, hap.target_eq, if_neg hobj, hmap]
    rw [hread, hl.content _ hc]

include hm in
/-- **An update that hits no read of an invariant keeps the invariant of ghost maps.** -/
theorem Applied.sound (h : Sound be x st) (hs : u.SparesInvariants x st) :
    Sound be (x'.withTable (setItem u.obj m' st'.maps)) (st'.withTable (setItem u.obj m' st'.maps)) := by
  have hl := hap.layered.later
  have hfilter : st'.created.filter Map.isOldest = st.created.filter Map.isOldest := congrArg Prod.fst hap.oldest
  refine hap.layered.sound.withTable (hap.found hm ht) fun m₁ hm₁ inv hinv k hk => ?_
  obtain ⟨id, hid⟩ := oldestVersion_eq m₁
  have ho := (hap.layered.sound.map m₁ hm₁).oldest
  rw [hid] at ho hinv hk ⊢
  -- an oldest version was there before, with its invariants
  have hmem : .oldest id ∈ st.created :=
    List.mem_of_mem_filter (hfilter ▸ List.mem_filter.mpr ⟨ho, rfl⟩)
  have hsame : (st'.heap (.oldest id)).invariants = (st.heap (.oldest id)).invariants :=
    congrFun (congrArg Prod.snd hap.oldest) id
  have hinv₀ : inv ∈ (st.heap (.oldest id)).invariants := hsame ▸ hinv
  have hok := (h.oldest (.oldest id) hmem).invOk inv hinv₀
  rw [hl.mapMeta _ hmem] at hk
  rw [hl.content _ hmem, hl.inv_den h.maps hok]
  exact den_of_answers_bool (hl.agree.trans (withTable_agree x' _ _)) inv.expr hok.inScope
    (hap.sameAnswers h.maps ht (hs (.oldest id) hmem inv hinv₀ k hk))

end Applied

/-! ### Expressions of either sort -/

/-- An expression, as `eval_map_ast` takes it. -/
inductive MapExpr
  | bv (e : BV)
  | bool (e : BoolAst)
deriving DecidableEq

namespace MapExpr

/-- `freeze_map_ast_versions` -/
def freezeMapAstVersions (be : Backend) (maps : List (ℕ × Map)) : MapExpr → Option MapExpr
  | bv e => (e.freezeMapAstVersions be maps).map bv
  | bool e => (e.freezeMapAstVersions be maps).map bool

/-- `eval_map_ast` -/
def evalMapAst (be : Backend) (get : Getter) (condition : BoolAst) (expr : MapExpr) (replaceDict : Dict) :
    GM MapExpr :=
  match expr with
  | bv e => do
    let D ← BV.replaceLeaves be get condition e replaceDict
    pure (bv (e.subst be.toClaripy D))
  | bool e => do
    let t ← Tool.evalMapAst be get condition e replaceDict
    pure (bool t)

def den (w : World) : MapExpr → ℕ ⊕ Bool
  | bv e => .inl (e.den w)
  | bool e => .inr (e.den w)

def eval (ι : Env) : MapExpr → ℕ ⊕ Bool
  | bv e => .inl (e.eval ι)
  | bool e => .inr (e.eval ι)

def Scoped (st : State) (mm : MapMeta) : MapExpr → Prop
  | bv e => e.Scoped st mm
  | bool e => e.Scoped st mm

def reads (w : World) : MapExpr → List MapRead
  | bv e => e.reads w
  | bool e => e.reads w

theorem den_freeze (hx : x.maps = st.maps) : ∀ (e : MapExpr) {e' : MapExpr},
    e.freezeMapAstVersions be st.maps = some e' → e'.den (x.world k a) = e.den (x.world k a).latest
  | bv e, _, hf => by
    obtain ⟨e', he, rfl⟩ := Option.map_eq_some_iff.mp hf
    exact congrArg Sum.inl ((freeze_bv e he).den x hx k a)
  | bool e, _, hf => by
    obtain ⟨e', he, rfl⟩ := Option.map_eq_some_iff.mp hf
    exact congrArg Sum.inr ((freeze_bool e he).den x hx k a)

theorem den_of_answers (ha : x.Agree st.next x') : ∀ e : MapExpr, e.Scoped st mm →
    SameAnswers st (x.world k a) (x'.world k a) (e.reads (x.world k a)) → e.den (x'.world k a) = e.den (x.world k a)
  | bv e, he, hr => congrArg Sum.inl (den_of_answers_bv ha e he hr)
  | bool e, he, hr => congrArg Sum.inr (den_of_answers_bool ha e he hr)

theorem scoped_later (hl : Later x st x' st') : ∀ e : MapExpr, e.Scoped st mm → e.Scoped st' mm
  | bv e, he => hl.scoped_bv e he
  | bool e, he => hl.scoped_bool e he

theorem scoped_withTable {maps : List (ℕ × Map)} (hf : Found st maps) : ∀ e : MapExpr, e.Scoped st mm →
    e.Scoped (st.withTable maps) mm
  | bv e, he => scoped_withTable_bv hf e he
  | bool e, he => scoped_withTable_bool hf e he

/-- The term that an expression in scope evaluates to has the expression's meaning. -/
theorem wlp_evalMapAst {get : Getter} (hget : GetterSpec be get) (h : Sound be x st) {i : MapItem}
    (hi : i.Ok st.next mm) {condition : BoolAst} (hc : condition.Closed st.next)
    (hcond : condition.eval x.env = true) : ∀ e : MapExpr, e.Scoped st mm →
    replay.wlp (e.evalMapAst be get condition (itemDict mm i))
      (fun t x' _ => t.eval x'.env = e.den (x.world (i.key.eval x.env) (x.item i))) x st
  | bv e, he => by
    have hready : Ready be mm i condition x st (itemDict mm i) := ⟨h, hi, hc, itemDict_ok hi⟩
    refine Replay.wlp_bind (Replay.wlp_mono (wlp_replaceLeaves_bv hget e hready he) ?_)
    intro D x' st' hr
    have hl := hr.later
    have hmean := hr.dict.eval_bv be (hi.mono hl.next) ((hl.agree.eval_bool hc).trans hcond) (hl.scoped_bv e he)
      hr.covered
    rw [hl.agree.eval_bv hi.key, hl.agree.item hi, hl.den_bv h.maps e he] at hmean
    exact Replay.wlp_pure (congrArg Sum.inl hmean)
  | bool e, he => by
    have hready : Ready be mm i condition x st (itemDict mm i) := ⟨h, hi, hc, itemDict_ok hi⟩
    refine Replay.wlp_bind (Replay.wlp_bind (Replay.wlp_mono (wlp_replaceLeaves_bool hget e hready he) ?_))
    intro D x' st' hr
    have hl := hr.later
    have hmean := hr.dict.eval_bool be (hi.mono hl.next) ((hl.agree.eval_bool hc).trans hcond)
      (hl.scoped_bool e he) hr.covered
    rw [hl.agree.eval_bv hi.key, hl.agree.item hi, hl.den_bool h.maps e he] at hmean
    exact Replay.wlp_pure (Replay.wlp_pure (congrArg Sum.inr hmean))

end MapExpr

/-! ### Runs of updates -/

/-- A run of updates that all meet a condition, with the execution beside it. -/
inductive Updates (be : Backend) (meets : Exec → State → Update → Prop) (x₀ : Exec) (st₀ : State) :
    List Update → Exec → State → Prop
  | nil : Updates be meets x₀ st₀ [] x₀ st₀
  | update {us : List Update} {x : Exec} {st st' : State} {u : Update} {l : List Event} (fuel : ℕ) :
    Updates be meets x₀ st₀ us x st → (∀ m, target st.maps (.obj u.obj) = some m → u.Legal st m) →
    u.apply be fuel st = some ((), st', l) → replay.Ok x l → meets x st u →
    Updates be meets x₀ st₀ (us ++ [u]) ((replay.run x l).withTable st'.maps) st'

/-- **What a run of updates keeps** of an expression whose reads it does not hit, by induction on the updates. -/
theorem Updates.keeps {x₀ : Exec} {st₀ : State} {us : List Update} {e : MapExpr}
    (hrun : Updates be (fun x st u => u.SparesInvariants x st ∧ u.Spares x st (e.reads (x.world k a))) x₀ st₀ us x st)
    (h : Sound be x₀ st₀) (he : e.Scoped st₀ mm) :
    Sound be x st ∧ e.Scoped st mm ∧ e.den (x.world k a) = e.den (x₀.world k a) := by
  induction hrun with
  | nil => exact ⟨h, he, rfl⟩
  | @update us x st st' u l fuel _ hlegal happly hok hmeets ih =>
    obtain ⟨hsound, hscope, hden⟩ := ih
    obtain ⟨m, m', st₁, ht, hm, hap, rfl⟩ := u.applied hsound hlegal happly hok
    have hl := hap.layered.later
    refine ⟨hap.sound hm ht hsound hmeets.1, ?_, ?_⟩
    · exact MapExpr.scoped_withTable (hap.found hm ht) e (MapExpr.scoped_later hl e hscope)
    · refine Eq.trans ?_ hden
      exact MapExpr.den_of_answers (hl.agree.trans (withTable_agree _ _ _)) e hscope
        (hap.sameAnswers hsound.maps ht hmeets.2)

/-- **Frozen expressions keep their meaning** in every run of updates that hit none of their reads. -/
theorem frozen_keeps (be : Backend) {x₀ : Exec} {st₀ : State} (h : Sound be x₀ st₀) (e e' : MapExpr)
    (hf : e.freezeMapAstVersions be st₀.maps = some e') (he : e'.Scoped st₀ mm) {us : List Update}
    (hrun : Updates be (fun x st u => u.SparesInvariants x st ∧ u.Spares x st (e'.reads (x.world k a))) x₀ st₀ us x st)
    {i : MapItem} (hi : i.Ok st.next mm) (hk : i.key.eval x.env = k) (ha : x.item i = a)
    {condition : BoolAst} (hc : condition.Closed st.next) (hcond : condition.eval x.env = true) {fuel : ℕ} {t : MapExpr}
    {l : List Event} (heval : e'.evalMapAst be (Map.get be fuel) condition (itemDict mm i) st = some (t, st', l))
    (hok : replay.Ok x l) : t.eval (replay.run x l).env = e.den (x₀.world k a).latest := by
  obtain ⟨hsound, hscope, hden⟩ := hrun.keeps h he
  have hterm := MapExpr.wlp_evalMapAst (getterSpec_get be fuel) hsound hi hc hcond e' hscope t st' l heval hok
  rw [hk, ha] at hterm
  calc t.eval (replay.run x l).env = e'.den (x.world k a) := hterm
    _ = e'.den (x₀.world k a) := hden
    _ = e.den (x₀.world k a).latest := MapExpr.den_freeze h.maps e hf

/-! ### A map of ten items -/

namespace Freezing

def obj : ℕ := 0

def table : List (ℕ × Map) := [(obj, .oldest 0)]

def s₁ : State := after (Map.new Travel.solver 2 ⟨8, 8⟩ (some (bvv 64 10, [.boolV true])) (State.initial 0 table))

def made : List Event :=
  [.new (.oldest 0) 0 1 2 ⟨8, 8⟩ (bvv 64 10), .given (.oldest 0) Travel.inv Asking.unknown 8]

/-- The execution in which the map holds ten items, each of value 7. -/
def exec : Exec := ⟨fun _ => 0, fun _ => true, fun _ => Travel.ten, table, fun _ => 0⟩

/-- The execution once the map is made. -/
def x₁ : Exec := replay.run exec made

theorem run_new : Run Travel.solver (State.initial 0 table) s₁
    [.new ⟨8, 8⟩ (some (bvv 64 10, [.boolV true])) (.oldest 0)] made := by
  have h₀ : Run Travel.solver (State.initial 0 table) (State.initial 0 table) [] [] := Run.nil
  have h₁ := h₀.extend (.new ⟨8, 8⟩ (some (bvv 64 10, [.boolV true])) (.oldest 0)) s₁ made ?_ (eq_after (by decide))
  · exact h₁
  · exact legal_new_free (Claripy.closed_bvv _ _) _

theorem sound₁ : Sound Travel.solver x₁ s₁ := by
  refine (run_new.sound (sound_initial Travel.solver exec 0) ?_).1
  refine ⟨⟨fun _ _ => ?_, Travel.size_ten.symm⟩, given_free rfl _ _, trivial⟩
  show 7 < 2 ^ 8
  omega

/-- Key 5 is given the value 1. -/
def setFive : Update := .set obj (bvv 8 5) (bvv 8 1)

def s₂ : State := after (setFive.apply Travel.solver 2 s₁)

def setLog : List Event :=
  [.fresh (.oldest 0) (bvv 8 5) 3 4 [] none (.boolV true) [Travel.inv],
   .layer (.layer 1 (.oldest 0)) (.oldest 0) ⟨bvv 8 5, bvv 8 1, .boolV true⟩ [] 8 64]

/-- The execution once key 5 is set. -/
def x₂ : Exec := (replay.run x₁ setLog).withTable s₂.maps

theorem apply_setFive : setFive.apply Travel.solver 2 s₁ = some ((), s₂, setLog) := eq_after (by decide)

theorem legal_setFive (m : Map) (hm : target s₁.maps (.obj setFive.obj) = some m) : setFive.Legal s₁ m := by
  have hold : m = .oldest 0 := Option.some.inj (hm.symm.trans (by decide))
  rw [hold]
  exact ⟨by decide, trivial, by decide, trivial, by decide⟩

theorem setLog_ok : replay.Ok x₁ setLog := by
  refine ⟨fresh_free rfl 3 4 rfl fun _ hi => ?_, ⟨by decide, fun _ hi => ?_⟩, trivial⟩
  · cases hi
  · cases hi

theorem unknown_ok {n : ℕ} (h : 3 ≤ n) : Asking.unknown.Ok n ⟨8, 8⟩ :=
  ⟨show 0 < n by omega, show 1 < n by omega, show 2 < n by omega, rfl, rfl⟩

theorem legal_of {u : Update} {st : State} {m : Map} (ht : target st.maps (.obj u.obj) = some m) (h : u.Legal st m)
    (m' : Map) (hm' : target st.maps (.obj u.obj) = some m') : u.Legal st m' := by
  cases ht.symm.trans hm'
  exact h

/-- The value of a key. -/
def value (k : ℕ) (v : Option ℕ) : MapExpr := .bv (.mapGet (.obj obj) (bvv 8 k) 8 v)

/-- The set of key 5 adds a layer: a read of version 0 is not hit, and the invariant makes no read. -/
theorem spares_setFive : setFive.SparesInvariants x₁ s₁ ∧
    setFive.Spares x₁ s₁ ((value 5 (some 0)).reads (x₁.world 0 (7, true))) := by
  have hcreated : s₁.created = [.oldest 0] := by decide
  have hinvs : (s₁.heap (.oldest 0)).invariants = [Travel.inv] := by decide
  refine ⟨fun m hm inv hinv k _ r hr => ?_, fun r hr => ?_⟩
  · rw [hcreated, List.mem_singleton] at hm
    rw [hm, hinvs, List.mem_singleton] at hinv
    rw [hinv] at hr
    cases hr
  · rw [show (value 5 (some 0)).reads (x₁.world 0 (7, true)) = [⟨.obj obj, some 0, 5, .value 8⟩] from rfl,
      List.mem_singleton] at hr
    rintro ⟨m, ht, -, -, hversion, -⟩
    have hm : m = .oldest 0 := Option.some.inj (ht.symm.trans (by decide))
    rw [hr] at hversion
    exact absurd (hm ▸ hversion 0 rfl) (by decide)

/-- The value of key 5, as it is frozen, makes a read of version 0. -/
theorem run_setFive : Updates Travel.solver (fun x st u => u.SparesInvariants x st ∧
    u.Spares x st ((value 5 (some 0)).reads (x.world 0 (7, true)))) x₁ s₁ ([] ++ [setFive]) x₂ s₂ :=
  Updates.update 2 .nil legal_setFive apply_setFive setLog_ok spares_setFive

theorem scoped_value : (value 5 (some 0)).Scoped s₁ ⟨8, 8⟩ :=
  ⟨trivial, .oldest 0, by decide, by decide, by decide⟩

end Freezing

open Freezing in
/-- Key 5 is frozen before it is set: the frozen expression still gives the value from before. -/
theorem frozen_keeps_set : (MapExpr.bv (.bvs (.sym 3) 8)).eval x₂.env = .inl 7 := by
  have heval : (value 5 (some 0)).evalMapAst Travel.solver (Map.get Travel.solver 2) (.boolV true)
      (itemDict ⟨8, 8⟩ Asking.unknown) s₂ = some (.bv (.bvs (.sym 3) 8), _, []) := eq_after (by decide)
  exact frozen_keeps Travel.solver sound₁ (value 5 none) (value 5 (some 0)) (by decide) scoped_value run_setFive
    (unknown_ok (by decide)) rfl rfl (Claripy.closed_boolV true) rfl heval trivial

/-- A frozen expression keeps its meaning in every run of updates. -/
def KeepsMeaning (e : MapExpr) : Prop :=
  ∀ (be : Backend) (x₀ : Exec) (st₀ : State) (mm : MapMeta) (e' : MapExpr), Sound be x₀ st₀ →
    e.freezeMapAstVersions be st₀.maps = some e' → e'.Scoped st₀ mm →
    ∀ (us : List Update) (x : Exec) (st : State), Updates be (fun _ _ _ => True) x₀ st₀ us x st →
    ∀ (i : MapItem) (condition : BoolAst), i.Ok st.next mm → condition.Closed st.next → condition.eval x.env = true →
    ∀ (fuel : ℕ) (t : MapExpr) (st' : State) (l : List Event),
      e'.evalMapAst be (Map.get be fuel) condition (itemDict mm i) st = some (t, st', l) → replay.Ok x l →
      t.eval (replay.run x l).env = e.den (x₀.world (i.key.eval x.env) (x.item i)).latest

namespace Freezing

/-- Key 5 is removed. -/
def removeFive : Update := .remove obj (bvv 8 5)

def removed : State := after (removeFive.apply Travel.solver 2 s₁)

def removeLog : List Event :=
  [.fresh (.oldest 0) (bvv 8 5) 3 4 [] none (.boolV true) [Travel.inv], .badvalue (.oldest 0) (bvv 8 5) 5,
   .layer (.layer 1 (.oldest 0)) (.oldest 0) ⟨bvv 8 5, .bvs (.sym 5) 8, .boolV false⟩ [] 8 64]

theorem removeLog_ok : replay.Ok x₁ removeLog := by
  refine ⟨fresh_free rfl 3 4 rfl fun _ hi => ?_, trivial, ⟨by decide, fun _ hi => ?_⟩, trivial⟩
  · cases hi
  · cases hi

/-- Key 6 is given the value 1, once key 5 is set: the layer of key 5 is extended. -/
def setSix : Update := .set obj (bvv 8 6) (bvv 8 1)

def s₃ : State := after (setSix.apply Travel.solver 2 s₂)

def extendLog : List Event :=
  [.fresh (.layer 1 (.oldest 0)) (bvv 8 6) 5 6 [⟨bvv 8 5, bvv 8 1, .boolV true⟩] none (.boolV true) [Travel.inv],
   .layer (.layer 2 (.oldest 0)) (.layer 1 (.oldest 0)) ⟨bvv 8 6, bvv 8 1, .boolV true⟩
    [⟨bvv 8 6, .ite (.cmp .eq (bvv 8 6) (bvv 8 5)) (bvv 8 1) (.bvs (.sym 5) 8),
      .ite (.cmp .eq (bvv 8 6) (bvv 8 5)) (.boolV true) (.boolS (.sym 6))⟩] 8 64]

theorem extendLog_ok : replay.Ok x₂ extendLog := by
  refine ⟨fresh_free rfl 5 6 (by decide) fun i hi hk => ?_, ⟨by decide, fun i hi hne => ?_⟩, trivial⟩
  · rw [List.mem_singleton.mp hi] at hk
    exact absurd hk (by decide)
  · rw [List.mem_singleton.mp hi] at hne
    exact absurd rfl hne

end Freezing

open Freezing in
/-- The presence of key 5 is frozen before it is removed: the handler passes the value that is not there
for the version, and the frozen expression says that the key is absent. -/
theorem not_keeps_meaning : ¬∀ e, KeepsMeaning e := by
  intro hall
  have hrun : Updates Travel.solver (fun _ _ _ => True) x₁ s₁ ([] ++ [removeFive])
      ((replay.run x₁ removeLog).withTable removed.maps) removed :=
    Updates.update 2 .nil (legal_of (m := .oldest 0) (by decide) ⟨by decide, trivial, by decide⟩)
      (eq_after (by decide)) removeLog_ok trivial
  have h := hall (.bool (.mapHas (.obj obj) (bvv 8 5) none)) Travel.solver x₁ s₁ ⟨8, 8⟩ _ sound₁ rfl
    ⟨trivial, .oldest 0, by decide, by decide, by decide⟩ _ _ _ hrun Asking.unknown (.boolV true)
    (unknown_ok (by decide)) (Claripy.closed_boolV true) rfl 2 (.bool (.boolV false)) _ [] (eq_after (by decide))
    trivial
  cases h

open Freezing in
/-- The value of key 6 is frozen at the version that the set of key 5 made; the set of key 6 extends the
layer and keeps the number, and the frozen expression gives the new value. -/
theorem not_keeps_meaning_extended : ¬KeepsMeaning (value 6 none) := by
  intro hall
  have hsound : Sound Travel.solver x₂ s₂ := (run_setFive.keeps sound₁ scoped_value).1
  have hrun : Updates Travel.solver (fun _ _ _ => True) x₂ s₂ ([] ++ [setSix])
      ((replay.run x₂ extendLog).withTable s₃.maps) s₃ :=
    Updates.update 2 .nil (legal_of (m := .layer 1 (.oldest 0)) (by decide)
      ⟨by decide, trivial, by decide, trivial, by decide⟩) (eq_after (by decide)) extendLog_ok trivial
  have h := hall Travel.solver x₂ s₂ ⟨8, 8⟩ (value 6 (some 1)) hsound (by decide)
    ⟨trivial, .layer 1 (.oldest 0), by decide, by decide, by decide⟩ _ _ _ hrun Asking.unknown (.boolV true)
    (unknown_ok (by decide)) (Claripy.closed_boolV true) rfl 2 (.bv (bvv 8 1)) _ [] (eq_after (by decide)) trivial
  exact absurd h (by decide)

end Tool
end Klint
