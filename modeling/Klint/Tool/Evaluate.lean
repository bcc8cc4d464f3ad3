/-
# Evaluating expressions in an execution

`eval_map_ast` is right: given a `get` that answers right (`GetterSpec`), the term that it
makes of an invariant for an item has, in an execution that agrees with the state, the
truth of the invariant for the item. It holds where the condition under which the reads
are made holds, or where the invariant does not depend on what it reads.
-/
import Klint.Tool.Consistent

namespace Klint
namespace Tool

/-! ### The specification of get -/

/-- What `get` of a key answers, and where it leaves the state. -/
structure Answered (be : Backend) (x : Exec) (st : State) (m : Map) (key : BV) (condition : BoolAst)
    (r : BV × BoolAst) (x' : Exec) (st' : State) : Prop where
  sound : Sound be x' st'
  later : Later x st x' st'
  value : r.1.Closed st'.next
  size : r.1.size = (st.heap m).mapMeta.valueSize
  present : r.2.Closed st'.next
  right : condition.eval x.env = true → (r.1.eval x'.env, r.2.eval x'.env) = x.content m (key.eval x.env)
  settled : condition.eval x.env = true → Settled x' st' m (key.eval x.env)

def GetterSpec (be : Backend) (get : Getter) : Prop :=
  ∀ (m : Map) (key : BV) (hint : Option BV) (condition : BoolAst) (x : Exec) (st : State),
    Sound be x st → m ∈ st.created → key.Closed st.next → key.size = (st.heap m).mapMeta.keySize →
    (∀ t ∈ hint, t.Closed st.next) → condition.Closed st.next →
    replay.wlp (get m key hint condition) (Answered be x st m key condition) x st

/-! ### Dictionaries -/

/-- The dictionary that `MapInvariant.__call__` starts from. -/
def itemDict (mm : MapMeta) (i : MapItem) : Dict :=
  ⟨[(.bvs .KEY mm.keySize, i.key), (.bvs .VALUE mm.valueSize, i.value)], [(.boolS .PRESENT, i.present)]⟩

/-- A dictionary with the item's terms for the placeholders, and for each read that it
holds a term that is right where the condition holds. -/
structure DictOk (x : Exec) (st : State) (mm : MapMeta) (i : MapItem) (condition : BoolAst) (D : Dict) : Prop where
  bvs : ∀ n s, D.bv.lookup (.bvs n s) = (itemDict mm i).bv.lookup (.bvs n s)
  boolS : ∀ n, D.bool.lookup (.boolS n) = (itemDict mm i).bool.lookup (.boolS n)
  bv : ∀ l t, D.bv.lookup l = some t → l.Scoped st mm ∧ t.Closed st.next ∧ t.size = l.size ∧
    (condition.eval x.env = true → t.eval x.env = l.den (x.world (i.key.eval x.env) (x.item i)))
  bool : ∀ l t, D.bool.lookup l = some t → l.Scoped st mm ∧ t.Closed st.next ∧
    (condition.eval x.env = true → t.eval x.env = l.den (x.world (i.key.eval x.env) (x.item i)))

/-- A leaf that is a symbol, or a read that a dictionary holds. -/
def coveredBV (D : Dict) : BV → Prop
  | .bvs _ _ => True
  | .mapGet m k s v => (D.bv.lookup (.mapGet m k s v)).isSome = true
  | _ => False

def coveredBool (D : Dict) : BoolAst → Prop
  | .boolS _ => True
  | .mapHas m k v => (D.bool.lookup (.mapHas m k v)).isSome = true
  | .mapHasValue m k y v => (D.bool.lookup (.mapHasValue m k y v)).isSome = true
  | _ => False

/-- The reads of one dictionary are in another one. -/
structure Dict.Extends (D D' : Dict) : Prop where
  bv : ∀ l, (D.bv.lookup l).isSome = true → (D'.bv.lookup l).isSome = true
  bool : ∀ l, (D.bool.lookup l).isSome = true → (D'.bool.lookup l).isSome = true

theorem Dict.Extends.refl (D : Dict) : D.Extends D := ⟨fun _ h => h, fun _ h => h⟩

theorem Dict.Extends.trans {D D' D'' : Dict} (h : D.Extends D') (h' : D'.Extends D'') : D.Extends D'' :=
  ⟨fun l hl => h'.bv l (h.bv l hl), fun l hl => h'.bool l (h.bool l hl)⟩

theorem Dict.Extends.coveredBV {D D' : Dict} (h : D.Extends D') (l : BV) (hl : coveredBV D l) : coveredBV D' l := by
  unfold Tool.coveredBV at hl ⊢
  split at hl
  · trivial
  · exact h.bv _ hl
  · exact hl.elim

theorem Dict.Extends.coveredBool {D D' : Dict} (h : D.Extends D') (l : BoolAst) (hl : coveredBool D l) :
    coveredBool D' l := by
  unfold Tool.coveredBool at hl ⊢
  split at hl
  · trivial
  · exact h.bool _ hl
  · exact h.bool _ hl
  · exact hl.elim

variable {be : Backend} {x x' : Exec} {st st' : State} {mm : MapMeta} {i : MapItem} {condition : BoolAst} {D : Dict}

theorem lookup_itemDict_bvs (n : Name) (s : ℕ) : (itemDict mm i).bv.lookup (.bvs n s) =
    if n = .KEY ∧ s = mm.keySize then some i.key
    else if n = .VALUE ∧ s = mm.valueSize then some i.value else none := by
  have hb : ∀ n' s', (BV.bvs n s == BV.bvs n' s') = decide (n = n' ∧ s = s') := by
    intro n' s'
    rw [Bool.eq_iff_iff]
    simp
  unfold itemDict
  simp only [List.lookup_cons, List.lookup_nil, hb]
  by_cases hk : n = .KEY ∧ s = mm.keySize
  · simp only [hk, decide_true, if_true, and_self]
  · by_cases hv : n = .VALUE ∧ s = mm.valueSize
    · rw [decide_eq_false hk, decide_eq_true hv, if_neg hk, if_pos hv]
    · rw [decide_eq_false hk, decide_eq_false hv, if_neg hk, if_neg hv]

theorem lookup_itemDict_boolS (n : Name) : (itemDict mm i).bool.lookup (.boolS n) =
    if n = .PRESENT then some i.present else none := by
  have hb : (BoolAst.boolS n == BoolAst.boolS .PRESENT) = decide (n = .PRESENT) := by
    rw [Bool.eq_iff_iff]
    simp
  unfold itemDict
  simp only [List.lookup_cons, List.lookup_nil, hb]
  by_cases hp : n = .PRESENT
  · simp only [hp, decide_true, if_true]
  · simp only [hp, decide_false, if_false]

/-! ### What a dictionary gives for the leaves -/

section Leaves

variable (hD : DictOk x st mm i condition D)
include hD

theorem DictOk.sized : D.Sized := fun l t h => (hD.bv l t h).2.2.1

/-- A symbol or a placeholder has its value. -/
theorem DictOk.env_bvs (hi : i.Ok st.next mm) {n : Name} {s : ℕ} (hs : (BV.bvs n s).Scoped st mm) :
    (D.env x.env).bv (.bvs n s) = (x.world (i.key.eval x.env) (x.item i)).env.bv (.bvs n s) := by
  unfold Dict.env
  simp only [hD.bvs, lookup_itemDict_bvs]
  cases n with
  | KEY =>
    have hs : s = mm.keySize := hs
    have hlt := hi.key_lt x.env
    simp only [hs, and_self, if_true, Option.elim_some, World.env, BV.den, Exec.world, Nat.mod_eq_of_lt hlt]
  | VALUE =>
    have hs : s = mm.valueSize := hs
    have hlt := i.value.eval_lt x.env
    rw [hi.valueSize] at hlt
    simp only [hs, reduceCtorEq, false_and, and_self, if_true, if_false, Option.elim_some, World.env, BV.den,
      Exec.world, Exec.item, Nat.mod_eq_of_lt hlt]
  | PRESENT => exact hs.elim
  | sym k => rfl

theorem DictOk.env_boolS {n : Name} (hs : (BoolAst.boolS n).Scoped st mm) :
    (D.env x.env).bool (.boolS n) = (x.world (i.key.eval x.env) (x.item i)).env.bool (.boolS n) := by
  unfold Dict.env
  simp only [hD.boolS, lookup_itemDict_boolS]
  cases n with
  | PRESENT => rfl
  | KEY => exact hs.elim
  | VALUE => exact hs.elim
  | sym k => rfl

/-- Where the condition holds, a covered leaf has its meaning. -/
theorem DictOk.env_bv (hi : i.Ok st.next mm) (hc : condition.eval x.env = true) (l : BV)
    (hl : l.Scoped st mm ∧ coveredBV D l) :
    (D.env x.env).bv l = (x.world (i.key.eval x.env) (x.item i)).env.bv l := by
  obtain ⟨hs, hcov⟩ := hl
  unfold coveredBV at hcov
  split at hcov
  · exact hD.env_bvs hi hs
  · obtain ⟨t, ht⟩ := Option.isSome_iff_exists.mp hcov
    simp only [Dict.env, ht, Option.elim_some, World.env]
    exact (hD.bv _ t ht).2.2.2 hc
  · exact hcov.elim

theorem DictOk.env_bool (hc : condition.eval x.env = true) (l : BoolAst) (hl : l.Scoped st mm ∧ coveredBool D l) :
    (D.env x.env).bool l = (x.world (i.key.eval x.env) (x.item i)).env.bool l := by
  obtain ⟨hs, hcov⟩ := hl
  unfold coveredBool at hcov
  split at hcov
  · exact hD.env_boolS hs
  · obtain ⟨t, ht⟩ := Option.isSome_iff_exists.mp hcov
    simp only [Dict.env, ht, Option.elim_some, World.env]
    exact (hD.bool _ t ht).2.2 hc
  · obtain ⟨t, ht⟩ := Option.isSome_iff_exists.mp hcov
    simp only [Dict.env, ht, Option.elim_some, World.env]
    exact (hD.bool _ t ht).2.2 hc
  · exact hcov.elim

/-- Where the condition holds, a substituted expression has its meaning. -/
theorem DictOk.eval_bv (be : Backend) (hi : i.Ok st.next mm) (hc : condition.eval x.env = true) {e : BV}
    (hs : e.Scoped st mm)
    (hcov : e.all (coveredBV D) (coveredBool D)) :
    (e.subst be.toClaripy D).eval x.env = e.den (x.world (i.key.eval x.env) (x.item i)) := by
  rw [eval_subst_bv hD.sized, ← eval_env_bv]
  refine BV.eval_congr e ?_
  exact BV.all_mono (hD.env_bv hi hc) (hD.env_bool hc) e (BV.all_and e ((BV.scoped_iff_all e).mp hs) hcov)

theorem DictOk.eval_bool (be : Backend) (hi : i.Ok st.next mm) (hc : condition.eval x.env = true) {e : BoolAst}
    (hs : e.Scoped st mm) (hcov : e.all (coveredBV D) (coveredBool D)) :
    (e.subst be.toClaripy D).eval x.env = e.den (x.world (i.key.eval x.env) (x.item i)) := by
  rw [eval_subst_bool hD.sized, ← eval_env_bool]
  refine BoolAst.eval_congr e ?_
  exact BoolAst.all_mono (hD.env_bv hi hc) (hD.env_bool hc) e
    (BoolAst.all_and e ((BoolAst.scoped_iff_all e).mp hs) hcov)

theorem DictOk.closed_getBV {l : BV} (hl : l.Scoped st mm ∧ coveredBV D l) : (D.getBV l).Closed st.next := by
  obtain ⟨hs, hcov⟩ := hl
  unfold Dict.getBV
  cases ht : D.bv.lookup l with
  | some t => exact (hD.bv l t ht).2.1
  | none =>
    unfold coveredBV at hcov
    split at hcov
    · next n s =>
      rw [hD.bvs, lookup_itemDict_bvs] at ht
      cases n with
      | KEY => exact absurd ht (by rw [if_pos ⟨rfl, hs⟩]; exact Option.some_ne_none _)
      | VALUE =>
        rw [if_neg (fun hk => by cases hk.1), if_pos ⟨rfl, hs⟩] at ht
        cases ht
      | PRESENT => exact hs.elim
      | sym k => exact hs
    · rw [ht] at hcov
      cases hcov
    · exact hcov.elim

theorem DictOk.closed_getBool {l : BoolAst} (hl : l.Scoped st mm ∧ coveredBool D l) :
    (D.getBool l).Closed st.next := by
  obtain ⟨hs, hcov⟩ := hl
  unfold Dict.getBool
  cases ht : D.bool.lookup l with
  | some t => exact (hD.bool l t ht).2.1
  | none =>
    unfold coveredBool at hcov
    split at hcov
    · next n =>
      rw [hD.boolS, lookup_itemDict_boolS] at ht
      cases n with
      | PRESENT => cases ht
      | KEY => exact hs.elim
      | VALUE => exact hs.elim
      | sym k => exact hs
    · rw [ht] at hcov
      cases hcov
    · rw [ht] at hcov
      cases hcov
    · exact hcov.elim

mutual
/-- A substituted expression is a term that the solver sees. -/
theorem DictOk.closed_bv (be : Backend) : ∀ e : BV, e.Scoped st mm → e.all (coveredBV D) (coveredBool D) →
    (e.subst be.toClaripy D).Closed st.next
  | .bvs _ _, hs, hcov => hD.closed_getBV ⟨hs, hcov⟩
  | .bvv _ _, _, _ => trivial
  | .bin _ a b, hs, hcov =>
    be.all_bv _ _ _ ⟨DictOk.closed_bv be a hs.1 hcov.1, DictOk.closed_bv be b hs.2 hcov.2⟩
  | .extract _ _ a, hs, hcov => be.all_bv _ _ _ (DictOk.closed_bv be a hs hcov)
  | .zeroExt _ a, hs, hcov => be.all_bv _ _ _ (DictOk.closed_bv be a hs hcov)
  | .ite c a b, hs, hcov => be.all_bv _ _ _ ⟨DictOk.closed_bool be c hs.1 hcov.1,
    DictOk.closed_bv be a hs.2.1 hcov.2.1, DictOk.closed_bv be b hs.2.2 hcov.2.2⟩
  | .mapGet _ _ _ _, hs, hcov => hD.closed_getBV ⟨hs, hcov⟩

theorem DictOk.closed_bool (be : Backend) : ∀ e : BoolAst, e.Scoped st mm → e.all (coveredBV D) (coveredBool D) →
    (e.subst be.toClaripy D).Closed st.next
  | .boolS _, hs, hcov => hD.closed_getBool ⟨hs, hcov⟩
  | .boolV _, _, _ => trivial
  | .not a, hs, hcov => be.all_bool _ _ _ (DictOk.closed_bool be a hs hcov)
  | .and a b, hs, hcov =>
    be.all_bool _ _ _ ⟨DictOk.closed_bool be a hs.1 hcov.1, DictOk.closed_bool be b hs.2 hcov.2⟩
  | .or a b, hs, hcov =>
    be.all_bool _ _ _ ⟨DictOk.closed_bool be a hs.1 hcov.1, DictOk.closed_bool be b hs.2 hcov.2⟩
  | .beq a b, hs, hcov =>
    be.all_bool _ _ _ ⟨DictOk.closed_bool be a hs.1 hcov.1, DictOk.closed_bool be b hs.2 hcov.2⟩
  | .ite c a b, hs, hcov => be.all_bool _ _ _ ⟨DictOk.closed_bool be c hs.1 hcov.1,
    DictOk.closed_bool be a hs.2.1 hcov.2.1, DictOk.closed_bool be b hs.2.2 hcov.2.2⟩
  | .cmp _ a b, hs, hcov =>
    be.all_bool _ _ _ ⟨DictOk.closed_bv be a hs.1 hcov.1, DictOk.closed_bv be b hs.2 hcov.2⟩
  | .mapHas _ _ _, hs, hcov => hD.closed_getBool ⟨hs, hcov⟩
  | .mapHasValue _ _ _ _, hs, hcov => hD.closed_getBool ⟨hs, hcov⟩
end

/-- Later, a dictionary still gives the same. -/
theorem DictOk.later (hi : i.Ok st.next mm) (hc : condition.Closed st.next) (hx : x.maps = st.maps)
    (h : Later x st x' st') : DictOk x' st' mm i condition D := by
  have hcond := h.agree.eval_bool hc
  have hkey := h.agree.eval_bv hi.key
  have hitem := h.agree.item hi
  refine ⟨hD.bvs, hD.boolS, fun l t ht => ?_, fun l t ht => ?_⟩
  · obtain ⟨hs, ht', hsize, heval⟩ := hD.bv l t ht
    refine ⟨h.scoped_bv l hs, ht'.mono h.next, hsize, fun hc' => ?_⟩
    rw [hkey, hitem, h.agree.eval_bv ht', heval (hcond ▸ hc')]
    exact (h.den_bv hx l hs).symm
  · obtain ⟨hs, ht', heval⟩ := hD.bool l t ht
    refine ⟨h.scoped_bool l hs, ht'.mono h.next, fun hc' => ?_⟩
    rw [hkey, hitem, h.agree.eval_bool ht', heval (hcond ▸ hc')]
    exact (h.den_bool hx l hs).symm

end Leaves

/-! ### Replacing the leaves -/

/-- What the replacement of leaves works on. -/
structure Ready (be : Backend) (mm : MapMeta) (i : MapItem) (condition : BoolAst) (x : Exec) (st : State)
    (D : Dict) : Prop where
  sound : Sound be x st
  item : i.Ok st.next mm
  closed : condition.Closed st.next
  dict : DictOk x st mm i condition D

/-- What it leaves. -/
structure Replaced (be : Backend) (mm : MapMeta) (i : MapItem) (condition : BoolAst) (x : Exec) (st : State)
    (D : Dict) (covered : Dict → Prop) (D' : Dict) (x' : Exec) (st' : State) : Prop where
  sound : Sound be x' st'
  later : Later x st x' st'
  dict : DictOk x' st' mm i condition D'
  extend : D.Extends D'
  covered : covered D'

theorem Ready.refl (r : Ready be mm i condition x st D) {covered : Dict → Prop} (h : covered D) :
    Replaced be mm i condition x st D covered D x st :=
  ⟨r.sound, Later.refl x st, r.dict, Dict.Extends.refl D, h⟩

section

variable {x₁ x₂ : Exec} {st₁ st₂ : State} {D₁ D₂ : Dict} {cov cov' : Dict → Prop}

theorem Replaced.ready (h : Replaced be mm i condition x st D cov D₁ x₁ st₁)
    (r : Ready be mm i condition x st D) : Ready be mm i condition x₁ st₁ D₁ :=
  ⟨h.sound, r.item.mono h.later.next, r.closed.mono h.later.next, h.dict⟩

/-- One replacement after the other covers what both cover. -/
theorem Replaced.trans (h : Replaced be mm i condition x st D cov D₁ x₁ st₁)
    (h' : Replaced be mm i condition x₁ st₁ D₁ cov' D₂ x₂ st₂) (hcov : ∀ D D' : Dict, D.Extends D' → cov D → cov D') :
    Replaced be mm i condition x st D (fun D => cov D ∧ cov' D) D₂ x₂ st₂ :=
  ⟨h'.sound, h.later.trans h'.later, h'.dict, h.extend.trans h'.extend, hcov _ _ h'.extend h.covered, h'.covered⟩

end

theorem covered_mono_bv (e : BV) (D D' : Dict) (h : D.Extends D') (he : e.all (coveredBV D) (coveredBool D)) :
    e.all (coveredBV D') (coveredBool D') := BV.all_mono h.coveredBV h.coveredBool e he

theorem covered_mono_bool (e : BoolAst) (D D' : Dict) (h : D.Extends D') (he : e.all (coveredBV D) (coveredBool D)) :
    e.all (coveredBV D') (coveredBool D') := BoolAst.all_mono h.coveredBV h.coveredBool e he

theorem wlp_targetMap {r : MapRef} {m : Map} {Q : Map → Exec → State → Prop} (ht : target st.maps r = some m)
    (hq : Q m x st) : replay.wlp (targetMap r) Q x st := by
  unfold targetMap
  refine Replay.wlp_bind (Replay.wlp_read ?_)
  simp only [ht]
  exact Replay.wlp_pure hq

/-- The term of a read, added to the dictionary. -/
theorem DictOk.addBV (hd : DictOk x st mm i condition D) {l t : BV} (hl : l.Scoped st mm)
    (hleaf : ∀ n s, l ≠ .bvs n s) (ht : t.Closed st.next) (hsize : t.size = l.size)
    (hright : condition.eval x.env = true → t.eval x.env = l.den (x.world (i.key.eval x.env) (x.item i))) :
    DictOk x st mm i condition { D with bv := (l, t) :: D.bv } := by
  refine ⟨fun n s => ?_, hd.boolS, fun l' t' ht' => ?_, hd.bool⟩
  · have hne : (BV.bvs n s == l) = false := by simpa using (hleaf n s).symm
    simp only [List.lookup_cons, hne]
    exact hd.bvs n s
  · simp only [List.lookup_cons] at ht'
    by_cases he : l' = l
    · subst he
      simp only [beq_self_eq_true, Option.some.injEq] at ht'
      subst ht'
      exact ⟨hl, ht, hsize, hright⟩
    · have hne : (l' == l) = false := by simpa using he
      simp only [hne] at ht'
      exact hd.bv l' t' ht'

theorem DictOk.addBool (hd : DictOk x st mm i condition D) {l t : BoolAst} (hl : l.Scoped st mm)
    (hleaf : ∀ n, l ≠ .boolS n) (ht : t.Closed st.next)
    (hright : condition.eval x.env = true → t.eval x.env = l.den (x.world (i.key.eval x.env) (x.item i))) :
    DictOk x st mm i condition { D with bool := (l, t) :: D.bool } := by
  refine ⟨hd.bvs, fun n => ?_, hd.bv, fun l' t' ht' => ?_⟩
  · have hne : (BoolAst.boolS n == l) = false := by simpa using (hleaf n).symm
    simp only [List.lookup_cons, hne]
    exact hd.boolS n
  · simp only [List.lookup_cons] at ht'
    by_cases he : l' = l
    · subst he
      simp only [beq_self_eq_true, Option.some.injEq] at ht'
      subst ht'
      exact ⟨hl, ht, hright⟩
    · have hne : (l' == l) = false := by simpa using he
      simp only [hne] at ht'
      exact hd.bool l' t' ht'

theorem Dict.extends_addBV (D : Dict) (l t : BV) : D.Extends { D with bv := (l, t) :: D.bv } := by
  refine ⟨fun l' h => ?_, fun _ h => h⟩
  simp only [List.lookup_cons]
  cases l' == l with
  | true => rfl
  | false => exact h

theorem Dict.extends_addBool (D : Dict) (l t : BoolAst) : D.Extends { D with bool := (l, t) :: D.bool } := by
  refine ⟨fun _ h => h, fun l' h => ?_⟩
  simp only [List.lookup_cons]
  cases l' == l with
  | true => rfl
  | false => exact h

/-- A read's answer, as the meaning of the read. -/
theorem world_read (hx : x.maps = st.maps) {r : MapRef} {m : Map} (ht : target st.maps r = some m) (k : ℕ)
    (a : ℕ × Bool) (v : Option ℕ) (j : ℕ) : (x.world k a).read r v j = x.content (m.atVersion v) j := by
  simp only [Exec.world, hx, ht]

/-- What a leaf means is the same later. -/
theorem Ready.den_bv (r : Ready be mm i condition x st D) (hl : Later x st x' st') {l : BV} (hs : l.Scoped st mm) :
    l.den (x'.world (i.key.eval x'.env) (x'.item i)) = l.den (x.world (i.key.eval x.env) (x.item i)) := by
  rw [hl.agree.eval_bv r.item.key, hl.agree.item r.item]
  exact hl.den_bv r.sound.maps _ hs

theorem Ready.den_bool (r : Ready be mm i condition x st D) (hl : Later x st x' st') {l : BoolAst}
    (hs : l.Scoped st mm) :
    l.den (x'.world (i.key.eval x'.env) (x'.item i)) = l.den (x.world (i.key.eval x.env) (x.item i)) := by
  rw [hl.agree.eval_bv r.item.key, hl.agree.item r.item]
  exact hl.den_bool r.sound.maps _ hs

/-- One replacement and then another one. -/
theorem wlp_then {f g : Dict → GM Dict} {cov cov' : Dict → Prop} (hcov : ∀ D D' : Dict, D.Extends D' → cov D → cov D')
    (hf : replay.wlp (f D) (Replaced be mm i condition x st D cov) x st)
    (hg : ∀ D₁ x₁ st₁, Replaced be mm i condition x st D cov D₁ x₁ st₁ →
      replay.wlp (g D₁) (Replaced be mm i condition x₁ st₁ D₁ cov') x₁ st₁) :
    replay.wlp (f D >>= g) (Replaced be mm i condition x st D fun D' => cov D' ∧ cov' D') x st := by
  refine Replay.wlp_bind (Replay.wlp_mono hf ?_)
  intro D₁ x₁ st₁ h₁
  exact Replay.wlp_mono (hg D₁ x₁ st₁ h₁) fun D₂ x₂ st₂ h₂ => h₁.trans h₂ hcov

section

variable {get : Getter} (hget : GetterSpec be get)
include hget

/-- A read of a key whose leaves the dictionary holds. -/
theorem wlp_leafRead {m : Map} {k : BV} {hint : Option BV} (r : Ready be mm i condition x st D) (hk : k.Scoped st mm)
    (hcov : k.all (coveredBV D) (coveredBool D)) (hm : m ∈ st.created) (hmeta : k.size = (st.heap m).mapMeta.keySize)
    (hhint : ∀ t ∈ hint, t.Closed st.next) :
    replay.wlp (get m (k.subst be.toClaripy D) hint condition) (fun a x' st' =>
      Answered be x st m (k.subst be.toClaripy D) condition a x' st' ∧ DictOk x' st' mm i condition D ∧
      (condition.eval x'.env = true → condition.eval x.env = true ∧ (a.1.eval x'.env, a.2.eval x'.env) =
        x.content m (k.den (x.world (i.key.eval x.env) (x.item i))))) x st := by
  have hsize : (k.subst be.toClaripy D).size = (st.heap m).mapMeta.keySize := by
    rw [size_subst r.dict.sized, hmeta]
  have hspec := hget m (k.subst be.toClaripy D) hint condition x st r.sound hm (r.dict.closed_bv be k hk hcov) hsize
    hhint r.closed
  refine Replay.wlp_mono hspec fun a x' st' h => ⟨h, r.dict.later r.item r.closed r.sound.maps h.later, fun hc => ?_⟩
  have hc' : condition.eval x.env = true := h.later.agree.eval_bool r.closed ▸ hc
  exact ⟨hc', by rw [h.right hc', r.dict.eval_bv be r.item hc' hk hcov]⟩

mutual
theorem wlp_replaceLeaves_bv : ∀ (e : BV) {D : Dict} {x : Exec} {st : State}, Ready be mm i condition x st D →
    e.Scoped st mm → replay.wlp (BV.replaceLeaves be get condition e D)
      (Replaced be mm i condition x st D fun D' => e.all (coveredBV D') (coveredBool D')) x st
  | .bvs _ _, _, _, _, r, _ => Replay.wlp_pure (r.refl trivial)
  | .bvv _ _, _, _, _, r, _ => Replay.wlp_pure (r.refl trivial)
  | .bin _ a b, _, _, _, r, hs =>
    wlp_then (covered_mono_bv a) (wlp_replaceLeaves_bv a r hs.1) fun _ _ _ h =>
      wlp_replaceLeaves_bv b (h.ready r) (h.later.scoped_bv b hs.2)
  | .extract _ _ a, _, _, _, r, hs => wlp_replaceLeaves_bv a r hs
  | .zeroExt _ a, _, _, _, r, hs => wlp_replaceLeaves_bv a r hs
  | .ite c a b, _, _, _, r, hs =>
    wlp_then (covered_mono_bool c) (wlp_replaceLeaves_bool c r hs.1) fun _ _ _ h =>
      wlp_then (covered_mono_bv a) (wlp_replaceLeaves_bv a (h.ready r) (h.later.scoped_bv a hs.2.1)) fun _ _ _ h' =>
        wlp_replaceLeaves_bv b (h'.ready (h.ready r)) ((h.later.trans h'.later).scoped_bv b hs.2.2)
  | .mapGet m k s v, D, x, st, r, hs => by
    simp only [BV.replaceLeaves]
    split
    · next hin => exact Replay.wlp_pure (r.refl hin)
    · obtain ⟨hk, map, ht, hcreated, hmeta⟩ := id hs
      refine Replay.wlp_bind (wlp_targetMap ht ?_)
      refine Replay.wlp_bind (Replay.wlp_mono (wlp_replaceLeaves_bv k r hk) ?_)
      intro D₁ x₁ st₁ h₁
      have r₁ := h₁.ready r
      have hmeta₁ : (st₁.heap (map.atVersion v)).mapMeta = ⟨k.size, s⟩ := by
        rw [h₁.later.mapMeta _ hcreated, hmeta]
      refine Replay.wlp_bind (Replay.wlp_mono (wlp_leafRead hget r₁ (h₁.later.scoped_bv k hk) h₁.covered
        (h₁.later.created _ hcreated) (by rw [hmeta₁]) fun _ ht => by cases ht) ?_)
      rintro a x₂ st₂ ⟨h₂, hd, hright⟩
      have hl := h₁.later.trans h₂.later
      refine Replay.wlp_pure ⟨h₂.sound, hl, ?_, h₁.extend.trans (D₁.extends_addBV _ _), ?_⟩
      · refine hd.addBV (hl.scoped_bv _ hs) (fun _ _ he => by cases he) h₂.value ?_ fun hc => ?_
        · rw [h₂.size, hmeta₁]
          rfl
        · have hlt := a.1.eval_lt x₂.env
          rw [h₂.size, hmeta₁] at hlt
          rw [r₁.den_bv h₂.later (h₁.later.scoped_bv _ hs), BV.den, world_read r₁.sound.maps (h₁.later.table ▸ ht),
            ← (hright hc).2, Nat.mod_eq_of_lt hlt]
      · simp [coveredBV, BV.all]

theorem wlp_replaceLeaves_bool : ∀ (e : BoolAst) {D : Dict} {x : Exec} {st : State},
    Ready be mm i condition x st D → e.Scoped st mm → replay.wlp (BoolAst.replaceLeaves be get condition e D)
      (Replaced be mm i condition x st D fun D' => e.all (coveredBV D') (coveredBool D')) x st
  | .boolS _, _, _, _, r, _ => Replay.wlp_pure (r.refl trivial)
  | .boolV _, _, _, _, r, _ => Replay.wlp_pure (r.refl trivial)
  | .not a, _, _, _, r, hs => wlp_replaceLeaves_bool a r hs
  | .and a b, _, _, _, r, hs =>
    wlp_then (covered_mono_bool a) (wlp_replaceLeaves_bool a r hs.1) fun _ _ _ h =>
      wlp_replaceLeaves_bool b (h.ready r) (h.later.scoped_bool b hs.2)
  | .or a b, _, _, _, r, hs =>
    wlp_then (covered_mono_bool a) (wlp_replaceLeaves_bool a r hs.1) fun _ _ _ h =>
      wlp_replaceLeaves_bool b (h.ready r) (h.later.scoped_bool b hs.2)
  | .beq a b, _, _, _, r, hs =>
    wlp_then (covered_mono_bool a) (wlp_replaceLeaves_bool a r hs.1) fun _ _ _ h =>
      wlp_replaceLeaves_bool b (h.ready r) (h.later.scoped_bool b hs.2)
  | .ite c a b, _, _, _, r, hs =>
    wlp_then (covered_mono_bool c) (wlp_replaceLeaves_bool c r hs.1) fun _ _ _ h =>
      wlp_then (covered_mono_bool a) (wlp_replaceLeaves_bool a (h.ready r) (h.later.scoped_bool a hs.2.1))
        fun _ _ _ h' => wlp_replaceLeaves_bool b (h'.ready (h.ready r)) ((h.later.trans h'.later).scoped_bool b hs.2.2)
  | .cmp _ a b, _, _, _, r, hs =>
    wlp_then (covered_mono_bv a) (wlp_replaceLeaves_bv a r hs.1) fun _ _ _ h =>
      wlp_replaceLeaves_bv b (h.ready r) (h.later.scoped_bv b hs.2)
  | .mapHas m k v, D, x, st, r, hs => by
    simp only [BoolAst.replaceLeaves]
    split
    · next hin => exact Replay.wlp_pure (r.refl hin)
    · obtain ⟨hk, map, ht, hcreated, hmeta⟩ := id hs
      refine Replay.wlp_bind (wlp_targetMap ht ?_)
      refine Replay.wlp_bind (Replay.wlp_mono (wlp_replaceLeaves_bv k r hk) ?_)
      intro D₁ x₁ st₁ h₁
      have r₁ := h₁.ready r
      have hmeta₁ : k.size = (st₁.heap map).mapMeta.keySize := by
        rw [h₁.later.mapMeta _ hcreated, hmeta]
      refine Replay.wlp_bind (Replay.wlp_mono (wlp_leafRead hget r₁ (h₁.later.scoped_bv k hk) h₁.covered
        (h₁.later.created _ hcreated) hmeta₁ fun _ ht => by cases ht) ?_)
      rintro a x₂ st₂ ⟨h₂, hd, hright⟩
      have hl := h₁.later.trans h₂.later
      refine Replay.wlp_pure ⟨h₂.sound, hl, ?_, h₁.extend.trans (D₁.extends_addBool _ _), ?_⟩
      · refine hd.addBool (hl.scoped_bool _ hs) (fun _ he => by cases he) h₂.present fun hc => ?_
        rw [r₁.den_bool h₂.later (h₁.later.scoped_bool _ hs), BoolAst.den,
          world_read r₁.sound.maps (h₁.later.table ▸ ht)]
        exact congrArg Prod.snd (hright hc).2
      · simp [coveredBool, BoolAst.all]
  | .mapHasValue m k y v, D, x, st, r, hs => by
    simp only [BoolAst.replaceLeaves]
    split
    · next hin => exact Replay.wlp_pure (r.refl hin)
    · obtain ⟨hk, hy, map, ht, hcreated, hmeta⟩ := id hs
      refine Replay.wlp_bind (wlp_targetMap ht ?_)
      refine Replay.wlp_bind (Replay.wlp_mono (wlp_replaceLeaves_bv k r hk) ?_)
      intro D₀ x₀ st₀ h₀
      refine Replay.wlp_bind
        (Replay.wlp_mono (wlp_replaceLeaves_bv y (h₀.ready r) (h₀.later.scoped_bv y hy)) ?_)
      intro D₁ x₁ st₁ h₁'
      have h₁ := h₀.trans h₁' (covered_mono_bv k)
      have r₁ := h₁.ready r
      have hy₁ := h₁.later.scoped_bv y hy
      have hclosed := h₁.dict.closed_bv be y hy₁ h₁.covered.2
      have hmeta₁ : k.size = (st₁.heap (map.atVersion v)).mapMeta.keySize := by
        rw [h₁.later.mapMeta _ hcreated, hmeta]
      refine Replay.wlp_bind (Replay.wlp_mono (wlp_leafRead hget r₁ (h₁.later.scoped_bv k hk) h₁.covered.1
        (h₁.later.created _ hcreated) hmeta₁ fun _ ht => by cases ht; exact hclosed) ?_)
      rintro a x₂ st₂ ⟨h₂, hd, hright⟩
      have hl := h₁.later.trans h₂.later
      refine Replay.wlp_pure ⟨h₂.sound, hl, ?_, h₁.extend.trans (D₁.extends_addBool _ _), ?_⟩
      · refine hd.addBool (hl.scoped_bool _ hs) (fun _ he => by cases he)
          (Claripy.closed_and h₂.present (Claripy.closed_eq h₂.value (hclosed.mono h₂.later.next))) fun hc => ?_
        obtain ⟨hc₁, hread⟩ := hright hc
        rw [r₁.den_bool h₂.later (h₁.later.scoped_bool _ hs), BoolAst.den,
          world_read r₁.sound.maps (h₁.later.table ▸ ht), ← hread, ← h₁.dict.eval_bv be r₁.item hc₁ hy₁ h₁.covered.2,
          Claripy.eval_and, Claripy.eval_eq, h₂.later.agree.eval_bv hclosed]
      · simp [coveredBool, BoolAst.all]
end

end

/-! ### Invariants of an item -/

theorem itemDict_ok (hi : i.Ok st.next mm) : DictOk x st mm i condition (itemDict mm i) := by
  refine ⟨fun _ _ => rfl, fun _ => rfl, fun l t ht => ?_, fun l t ht => ?_⟩
  · simp only [itemDict, List.lookup_cons, List.lookup_nil] at ht
    split at ht
    · next he =>
      cases beq_iff_eq.mp he
      cases ht
      refine ⟨rfl, hi.key, hi.keySize, fun _ => ?_⟩
      simp only [BV.den, Exec.world, Nat.mod_eq_of_lt (hi.key_lt x.env)]
    · split at ht
      · next he =>
        cases beq_iff_eq.mp he
        cases ht
        have hlt := i.value.eval_lt x.env
        rw [hi.valueSize] at hlt
        refine ⟨rfl, hi.value, hi.valueSize, fun _ => ?_⟩
        simp only [BV.den, Exec.world, Exec.item, Nat.mod_eq_of_lt hlt]
      · cases ht
  · simp only [itemDict, List.lookup_cons, List.lookup_nil] at ht
    split at ht
    · next he =>
      cases beq_iff_eq.mp he
      cases ht
      exact ⟨trivial, hi.present, fun _ => rfl⟩
    · cases ht

/-- An environment with the symbols and placeholders of a world, and another one's reads. -/
def symbolsOf (w : World) (ι : Env) : Env where
  bv
    | .bvs n s => w.env.bv (.bvs n s)
    | l => ι.bv l
  bool
    | .boolS n => w.env.bool (.boolS n)
    | l => ι.bool l

/-- An invariant that reads nothing has its truth in every environment with its symbols. -/
theorem MapInvariant.Blind.eval_eq {inv : MapInvariant} {k : ℕ} {a : ℕ × Bool} (hb : inv.Blind x k a)
    (hinv : inv.Ok st mm) {ι : Env}
    (hbv : ∀ n s, (BV.bvs n s).Scoped st mm → ι.bv (.bvs n s) = (x.world k a).env.bv (.bvs n s))
    (hbool : ∀ n, (BoolAst.boolS n).Scoped st mm → ι.bool (.boolS n) = (x.world k a).env.bool (.boolS n)) :
    inv.expr.eval ι = inv.den x k a := by
  rw [← hb (symbolsOf (x.world k a) ι) (fun _ _ => rfl) (fun _ => rfl)]
  refine BoolAst.eval_congr _ ?_
  refine BoolAst.all_mono ?_ ?_ inv.expr ((BoolAst.scoped_iff_all inv.expr).mp hinv.inScope)
  · intro l hl
    simp only [symbolsOf]
    split
    · exact hbv _ _ hl
    · rfl
  · intro l hl
    simp only [symbolsOf]
    split
    · exact hbool _ hl
    · rfl

theorem Later.blind (h : Later x st x' st') (hx : x.maps = st.maps) {inv : MapInvariant} (hinv : inv.Ok st mm)
    {k : ℕ} {a : ℕ × Bool} (hb : inv.Blind x k a) : inv.Blind x' k a := by
  intro ι hbv hbool
  rw [h.inv_den hx hinv]
  refine hb.eval_eq hinv (fun n s hs => ?_) (fun n hs => ?_)
  · rw [hbv n s]
    exact h.den_bv hx (.bvs n s) hs
  · rw [hbool n]
    exact h.den_bool hx (k := k) (.boolS n) hs

/-- What the evaluation of an invariant for an item leaves, and what its term says. -/
structure Evaluated (be : Backend) (x : Exec) (st : State) (inv : MapInvariant) (i : MapItem) (condition : BoolAst)
    (t : BoolAst) (x' : Exec) (st' : State) : Prop where
  sound : Sound be x' st'
  later : Later x st x' st'
  closed : t.Closed st'.next
  right : (condition.eval x.env = true ∧ (x.item i).2 = true) ∨ inv.Blind x (i.key.eval x.env) (x.item i) →
    t.eval x'.env = inv.den x (i.key.eval x.env) (x.item i)

theorem wlp_call {get : Getter} (hget : GetterSpec be get) {inv : MapInvariant} (h : Sound be x st)
    (hinv : inv.Ok st mm) (hi : i.Ok st.next mm) (hc : condition.Closed st.next) :
    replay.wlp (inv.call be get condition i) (Evaluated be x st inv i condition) x st := by
  have hclosed : (be.and i.present condition).Closed st.next := Claripy.closed_and hi.present hc
  have hready : Ready be mm i (be.and i.present condition) x st (itemDict mm i) :=
    ⟨h, hi, hclosed, itemDict_ok hi⟩
  have hdict : (⟨[(inv.key, i.key), (inv.value, i.value)], [(inv.present, i.present)]⟩ : Dict) = itemDict mm i := by
    rw [hinv.key, hinv.value, hinv.present]
    rfl
  unfold MapInvariant.call evalMapAst
  rw [hdict]
  refine Replay.wlp_bind (Replay.wlp_mono (wlp_replaceLeaves_bool hget inv.expr hready hinv.inScope) ?_)
  intro D x' st' hr
  have hi' := hi.mono hr.later.next
  have hscope := hr.later.scoped_bool _ hinv.inScope
  have hkey := hr.later.agree.eval_bv hi.key
  have hitem := hr.later.agree.item hi
  refine Replay.wlp_pure ⟨hr.sound, hr.later, hr.dict.closed_bool be _ hscope hr.covered, fun hor => ?_⟩
  rcases hor with ⟨hcond, hpresent⟩ | hblind
  · have hcond' : (be.and i.present condition).eval x'.env = true := by
      rw [hr.later.agree.eval_bool hclosed, Claripy.eval_and, hcond, Bool.and_true]
      exact hpresent
    rw [hr.dict.eval_bool be hi' hcond' hscope hr.covered, hkey, hitem]
    exact hr.later.inv_den h.maps hinv _ _
  · rw [eval_subst_bool hr.dict.sized]
    refine hblind.eval_eq hinv (fun n s hs => ?_) (fun n hs => ?_)
    · rw [hr.dict.env_bvs hi' (hr.later.scoped_bv _ hs), hkey, hitem]
      exact hr.later.den_bv h.maps (.bvs n s) hs
    · rw [hr.dict.env_boolS (hr.later.scoped_bool _ hs), hkey, hitem]
      exact hr.later.den_bool h.maps (k := i.key.eval x.env) (.boolS n) hs

end Tool
end Klint
