/-
# forall and new are right

The symbol that `forall` returns has the truth of the predicate for all items of the map,
and the invariant that it adds to the oldest version holds. `forall` asks of a predicate
only that it is true of an absent item; the predicates that its callers write are.
-/
import Klint.Tool.Freeze
import Klint.Tool.LayerSound

namespace Klint
namespace Tool

variable {be : Backend} {x x' : Exec} {st st' : State}

/-! ### Predicates of present items -/

/-- An invariant that is true of an absent item, whatever it reads. -/
def MapInvariant.Guarded (inv : MapInvariant) : Prop :=
  ∀ ι : Env, ι.bool (.boolS .PRESENT) = false → inv.expr.eval ι = true

section Guarded

variable {inv : MapInvariant} (hg : inv.Guarded)
include hg

theorem MapInvariant.Guarded.den {k : ℕ} {a : ℕ × Bool} (ha : a.2 = false) : inv.den x k a = true := by
  rw [MapInvariant.den, ← eval_env_bool]
  exact hg _ ha

theorem MapInvariant.Guarded.blind {k : ℕ} {a : ℕ × Bool} (ha : a.2 = false) : inv.Blind x k a := by
  intro ι _ hbool
  rw [hg.den ha]
  refine hg ι ?_
  rw [hbool .PRESENT]
  exact ha

/-- Such an invariant can be read of every item. -/
theorem MapInvariant.Guarded.readable (k : ℕ) (a : ℕ × Bool) : a.2 = true ∨ inv.Blind x k a := by
  cases ha : a.2 with
  | true => exact Or.inl rfl
  | false => exact Or.inr (hg.blind ha)

end Guarded

/-- The predicate that `forall` makes of one over the key and the value. -/
theorem guarded_implies {pred e : BoolAst} {key value : BV} {present : BoolAst}
    (hf : (be.Implies (.boolS .PRESENT) pred).freezeMapAstVersions be st.maps = some e) :
    MapInvariant.Guarded ⟨e, key, value, present⟩ := by
  intro ι hι
  have hframe : (frozenEnv be st.maps ι).bool (.boolS .PRESENT) = ι.bool (.boolS .PRESENT) := rfl
  change e.eval ι = true
  rw [(freeze_bool _ hf).eval, Claripy.eval_Implies, BoolAst.eval, hframe, hι]
  rfl

theorem wlp_newInvariant {mm : MapMeta} {expr : BoolAst} (hx : x.maps = st.maps) (hs : expr.Scoped st mm)
    (hv : expr.Latest) {Q : MapInvariant → Exec → State → Prop}
    (hq : ∀ inv : MapInvariant, inv.Ok st mm → expr.freezeMapAstVersions be st.maps = some inv.expr →
      (∀ k a, inv.den x k a = expr.den (x.world k a)) → Q inv x st) :
    replay.wlp (MapInvariant.new be mm expr) Q x st := by
  unfold MapInvariant.new
  refine Replay.wlp_bind (Replay.wlp_read ?_)
  split
  · next e he =>
    have hf := freeze_bool expr he
    exact Replay.wlp_pure (hq _ ⟨hf.inScope mm hs hv, rfl, rfl, rfl⟩ he fun k a =>
      (hf.den x hx k a).trans (BoolAst.den_latest _ expr hv))
  · exact Replay.wlp_fail

/-! ### One more invariant -/

/-- What the end of `add_invariant_conjunction` makes of the state. -/
def State.withInvariant (st : State) (m : Map) (inv : MapInvariant) : State :=
  st.put m.oldestVersion
    { st.heap m.oldestVersion with invariants := (st.heap m.oldestVersion).invariants ++ [inv] }

theorem heap_withInvariant (m₀ : Map) (inv : MapInvariant) (m : Map) : (st.withInvariant m₀ inv).heap m =
    { st.heap m with invariants := ((st.withInvariant m₀ inv).heap m).invariants } := by
  by_cases hm : m = m₀.oldestVersion
  · subst hm
    simp [State.withInvariant, State.put]
  · simp only [State.withInvariant, State.put, Function.update_of_ne hm]

theorem withInvariant_later (m₀ : Map) (inv : MapInvariant) : Later x st x (st.withInvariant m₀ inv) where
  next := le_rfl
  agree := Exec.Agree.refl _ x
  maps := rfl
  table := rfl
  content _ _ := rfl
  created _ hm := hm
  mapMeta m _ := by rw [heap_withInvariant m₀ inv m]
  length m _ := by rw [heap_withInvariant m₀ inv m]
  unknownItem m _ := by rw [heap_withInvariant m₀ inv m]
  known m _ := by rw [heap_withInvariant m₀ inv m]
  oldest _ := rfl

theorem listed_withInvariant (m₀ : Map) (inv : MapInvariant) : ∀ m,
    listed be (st.withInvariant m₀ inv).heap m = listed be st.heap m
  | .oldest id => by
    simp only [listed]
    rw [heap_withInvariant m₀ inv (.oldest id)]
  | .layer id previous => by
    simp only [listed, listed_withInvariant m₀ inv previous]
    rw [heap_withInvariant m₀ inv (.layer id previous)]

/-- An invariant that holds of the items that an oldest version does not list may be added to it. -/
theorem Sound.withInvariant (h : Sound be x st) {m₀ : Map} (hm₀ : m₀ ∈ st.created) {inv : MapInvariant}
    (hinv : inv.Ok st (st.heap m₀).mapMeta)
    (hholds : ∀ k < 2 ^ (st.heap m₀).mapMeta.keySize,
      (∀ i ∈ (st.heap m₀.oldestVersion).knownItems, i.key.eval x.env ≠ k) →
        inv.den x k (x.content m₀.oldestVersion k) = true) :
    Sound be x (st.withInvariant m₀ inv) := by
  have hl : Later x st x (st.withInvariant m₀ inv) := withInvariant_later m₀ inv
  have hnil : ∀ m, listed be (st.withInvariant m₀ inv).heap m = listed be st.heap m ++ [] := fun m => by
    rw [listed_withInvariant, List.append_nil]
  rw [(h.map m₀ hm₀).mapMeta] at hinv hholds
  refine ⟨h.maps, h.constraints, h.closed, h.numbered, fun m hm => ?_, fun m hm => ?_, fun id previous hm => ?_⟩
  · exact h.mapOk_later hl hm (hnil m) (fun i (hi : i ∈ []) => by cases hi)
  · by_cases hmo : m.oldestVersion = m₀.oldestVersion
    · have hok := h.oldest m hm
      rw [hmo] at hok ⊢
      have hat : (st.withInvariant m₀ inv).heap m₀.oldestVersion = { st.heap m₀.oldestVersion with
          invariants := (st.heap m₀.oldestVersion).invariants ++ [inv] } := Function.update_self _ _ _
      constructor
      · rw [hat]
        exact hok.right
      · rw [hat]
        exact hok.unknownOk
      · rw [hat]
        exact hok.unknown
      · rw [hat]
        intro i hi
        rcases List.mem_append.mp hi with hi | hi
        · exact hl.inv_ok (hok.invOk i hi)
        · exact List.mem_singleton.mp hi ▸ hl.inv_ok hinv
      · rw [hat]
        intro k hk hnot i hi
        rcases List.mem_append.mp hi with hi | hi
        · exact hok.holds k hk hnot i hi
        · exact List.mem_singleton.mp hi ▸ hholds k hk hnot
    · have hself : (st.withInvariant m₀ inv).heap m.oldestVersion = st.heap m.oldestVersion :=
        Function.update_of_ne hmo _ _
      refine h.oldestOk_later hl hm ?_ (by rw [hself]) (fun i (hi : i ∈ []) => by cases hi)
      rw [hself, List.append_nil]
  · have hok := h.layer id previous hm
    refine h.layerOk_later hl hm (by rw [heap_withInvariant]) ?_ ?_
    · rw [listed_withInvariant, heap_withInvariant]
      exact hok.count
    · rw [listed_withInvariant, listed_withInvariant]
      exact hok.covers

/-- The state after a step that only adds to it. -/
structure Kept (be : Backend) (x : Exec) (st : State) (x' : Exec) (st' : State) : Prop where
  sound : Sound be x' st'
  later : Later x st x' st'

theorem wlp_addInvariantConjunction (be : Backend) (fuel : ℕ) (h : Sound be x st) {m : Map} (hm : m ∈ st.created)
    {inv : MapInvariant} (hinv : inv.Ok st (st.heap m).mapMeta)
    (hread : (x.item (st.heap m).unknownItem).2 = true ∨
      inv.Blind x ((st.heap m).unknownItem.key.eval x.env) (x.item (st.heap m).unknownItem))
    (hunknown : inv.den x ((st.heap m).unknownItem.key.eval x.env) (x.item (st.heap m).unknownItem) = true)
    (hholds : ∀ k < 2 ^ (st.heap m).mapMeta.keySize,
      (∀ i ∈ (st.heap m.oldestVersion).knownItems, i.key.eval x.env ≠ k) →
        inv.den x k (x.content m.oldestVersion k) = true) :
    replay.wlp (addInvariantConjunction be fuel m inv) (fun _ => Kept be x st) x st := by
  have hok := h.map m hm
  have hunknownOk := h.unknown_ok hm
  unfold addInvariantConjunction
  refine Replay.wlp_bind (wlp_object ?_)
  rw [← hok.unknownItem]
  have hcall := wlp_call (getterSpec_get be fuel) h hinv hunknownOk (Claripy.closed_boolV true)
  refine Replay.wlp_bind (Replay.wlp_mono hcall ?_)
  intro t x₁ st₁ ht
  have heval : t.eval x₁.env = true := by
    rw [ht.right (hread.imp_left fun hp => ⟨Claripy.eval_boolV _ _, hp⟩)]
    exact hunknown
  refine Replay.wlp_bind (wlp_addHolding be [t] ?_ fun st₂ q => Replay.wlp_modify ?_)
  · intro c hc
    exact List.mem_singleton.mp hc ▸ ⟨ht.closed, heval⟩
  · have hl := ht.later.trans q.later
    have hm₂ := hl.created m hm
    have h₂ := q.sound ht.sound
    refine ⟨h₂.withInvariant hm₂ ((hl.mapMeta m hm) ▸ hl.inv_ok hinv) ?_, hl.trans (withInvariant_later m inv)⟩
    rw [hl.mapMeta m hm]
    intro k hk hnot
    rw [hl.inv_den h.maps hinv, hl.content _ hok.oldest]
    refine hholds k hk fun i hi => ?_
    rw [← hl.agree.eval_bv (h.oldest_item hm hi).key]
    exact hnot i ((hl.known _ hok.oldest).subset hi)

/-! ### The items that forall looks at -/

/-- A term that has a predicate's truth for an item. -/
structure Judged (x : Exec) (st : State) (mm : MapMeta) (pred : MapInvariant) (i : MapItem) (t : BoolAst) : Prop where
  item : i.Ok st.next mm
  closed : t.Closed st.next
  eval : t.eval x.env = pred.den x (i.key.eval x.env) (x.item i)

theorem Judged.later {mm : MapMeta} {pred : MapInvariant} {i : MapItem} {t : BoolAst}
    (hj : Judged x st mm pred i t) (hl : Later x st x' st') (hx : x.maps = st.maps) (hp : pred.Ok st mm) :
    Judged x' st' mm pred i t where
  item := hj.item.mono hl.next
  closed := hj.closed.mono hl.next
  eval := by
    rw [hl.agree.eval_bool hj.closed, hj.eval, hl.agree.eval_bv hj.item.key, hl.agree.item hj.item,
      hl.inv_den hx hp]

section Forall

variable {mm : MapMeta} {pred : MapInvariant} (hg : pred.Guarded)
include hg

theorem wlp_judge (be : Backend) (fuel : ℕ) (h : Sound be x st) (hp : pred.Ok st mm) {i : MapItem}
    (hi : i.Ok st.next mm) : replay.wlp (pred.call be (Map.get be fuel) (.boolV true) i)
      (fun t x' st' => Kept be x st x' st' ∧ Judged x' st' mm pred i t) x st := by
  refine Replay.wlp_mono (wlp_call (getterSpec_get be fuel) h hp hi (Claripy.closed_boolV true)) fun t x' st' ht => ?_
  refine ⟨⟨ht.sound, ht.later⟩, hi.mono ht.later.next, ht.closed, ?_⟩
  rw [ht.right ((hg.readable _ _).imp_left fun hpr => ⟨Claripy.eval_boolV _ _, hpr⟩), ht.later.agree.eval_bv hi.key,
    ht.later.agree.item hi, ht.later.inv_den h.maps hp]

/-- The loop over a list that grows judges the items that the list has in the end. -/
theorem wlp_forallOldest (be : Backend) (fuel : ℕ) {m : Map} (hold : m.oldestVersion = m) :
    ∀ (left i : ℕ) {x : Exec} {st : State}, Sound be x st → m ∈ st.created → (st.heap m).mapMeta = mm → pred.Ok st mm →
      replay.wlp (forallOldest be fuel m pred left i) (fun ts x' st' => Kept be x st x' st' ∧
        List.Forall₂ (Judged x' st' mm pred) ((st'.heap m).knownItems.drop i) ts) x st
  | 0, _, _, _, _, _, _, _ => Replay.wlp_fail
  | left + 1, i, x, st, h, hm, hmm, hp => by
    unfold forallOldest
    refine Replay.wlp_bind (wlp_object ?_)
    split
    · next hnone =>
      refine Replay.wlp_pure ⟨⟨h, Later.refl x st⟩, ?_⟩
      rw [List.drop_eq_nil_of_le (List.getElem?_eq_none_iff.mp hnone)]
      exact List.Forall₂.nil
    · next item hitem =>
      have hok : item.Ok st.next mm := by
        have hlisted := (h.map m hm).items item
        rw [listed_oldest hold, hmm] at hlisted
        exact hlisted (List.mem_of_getElem? hitem)
      refine Replay.wlp_bind (Replay.wlp_mono (wlp_judge hg be fuel h hp hok) ?_)
      rintro t x₁ st₁ ⟨⟨h₁, hl₁⟩, ht⟩
      have hm₁ := hl₁.created m hm
      have hmm₁ := (hl₁.mapMeta m hm).trans hmm
      have hp₁ := hl₁.inv_ok hp
      refine Replay.wlp_bind (Replay.wlp_mono (wlp_forallOldest be fuel hold left (i + 1) h₁ hm₁ hmm₁ hp₁) ?_)
      rintro ts x₂ st₂ ⟨⟨h₂, hl₂⟩, hts⟩
      refine Replay.wlp_pure ⟨⟨h₂, hl₁.trans hl₂⟩, ?_⟩
      have hget : (st₂.heap m).knownItems[i]? = some item := by
        obtain ⟨more, hmore⟩ := (hl₁.trans hl₂).known m hm
        rw [← hmore, List.getElem?_append_left (List.getElem?_eq_some_iff.mp hitem).1, hitem]
      obtain ⟨hlt, hat⟩ := List.getElem?_eq_some_iff.mp hget
      rw [List.drop_eq_getElem_cons hlt, hat]
      exact List.Forall₂.cons (ht.later hl₂ h₁.maps hp₁) hts

theorem wlp_forallKnown (be : Backend) (fuel : ℕ) (h : Sound be x st) {m : Map} (hm : m ∈ st.created)
    (hmm : (st.heap m).mapMeta = mm) (hp : pred.Ok st mm) :
    replay.wlp (forallKnown be fuel m pred) (fun r x' st' => Kept be x st x' st' ∧
      List.Forall₂ (Judged x' st' mm pred) r.1 r.2) x st := by
  unfold forallKnown
  refine Replay.wlp_bind (wlp_knownItems fun st₁ q _ _ => ?_)
  have h₁ := q.sound h
  have hm₁ := q.later.created m hm
  have hp₁ := q.later.inv_ok hp
  split
  · next hold =>
    have hold' : m.oldestVersion = m := by
      cases m with
      | oldest id => rfl
      | layer id previous => cases hold
    have hloop := wlp_forallOldest hg be fuel hold' fuel 0 h₁ hm₁ ((q.later.mapMeta m hm).trans hmm) hp₁
    refine Replay.wlp_bind (Replay.wlp_mono hloop ?_)
    rintro ts x₂ st₂ ⟨⟨h₂, hl₂⟩, hts⟩
    refine Replay.wlp_bind (wlp_object (Replay.wlp_pure ⟨⟨h₂, q.later.trans hl₂⟩, ?_⟩))
    rw [List.drop_zero] at hts
    exact hts
  · have hitems : ∀ i ∈ listed be st.heap m, i.Ok st₁.next mm := fun i hi =>
      hmm ▸ ((h.map m hm).items i hi).mono q.next
    have hloop := Replay.wlp_mapM (R := replay) (f := fun i => pred.call be (Map.get be fuel) (.boolV true) i)
      (Kept be x st₁) (fun i t x' st' => pred.Ok st' mm ∧ Judged x' st' mm pred i t) (listed be st.heap m) (x := x)
      (s := st₁) ?_ ⟨h₁, Later.refl x st₁⟩
    · refine Replay.wlp_bind (Replay.wlp_mono hloop ?_)
      rintro ts x₂ st₂ ⟨⟨h₂, hl₂⟩, hts, -⟩
      exact Replay.wlp_pure ⟨⟨h₂, q.later.trans hl₂⟩, hts.imp fun _ _ hj => hj.2⟩
    · rintro i hi x₂ st₂ ⟨h₂, hl₂⟩
      have hp₂ := hl₂.inv_ok hp₁
      refine Replay.wlp_mono (wlp_judge hg be fuel h₂ hp₂ ((hitems i hi).mono hl₂.next)) ?_
      rintro t x₃ st₃ ⟨⟨h₃, hl₃⟩, ht⟩
      refine ⟨⟨h₃, hl₂.trans hl₃⟩, ⟨hl₃.inv_ok hp₂, ht⟩, ?_⟩
      rintro i' t' ⟨hp', ht'⟩
      exact ⟨hl₃.inv_ok hp', ht'.later hl₃ h₂.maps hp'⟩

end Forall

/-! ### forall -/

/-- A Boolean symbol is made and named. -/
theorem quiet_named (be : Backend) (x : Exec) (st : State) (b : Bool) :
    Quiet be x st { x with bool := Function.update x.bool st.next b }
    { st with next := st.next + 1 } where
  next := Nat.le_succ _
  agree := ⟨fun _ _ => rfl, fun _ hk => Function.update_of_ne (by omega) _ _⟩
  content := rfl
  execMaps := rfl
  created := rfl
  table := rfl
  heap := SameList.refl st.heap
  constraints _ hc := Or.inl hc

/-- The invariant that a `forall` adds: the predicate, if the symbol is true. -/
def namedPred (be : Backend) (pred : MapInvariant) (n : ℕ) : MapInvariant :=
  pred.withExpr (be.Implies (.boolS (.sym n)))

theorem den_namedPred (pred : MapInvariant) (n k : ℕ) (a : ℕ × Bool) :
    (namedPred be pred n).den x k a = (!x.bool n || pred.den x k a) := by
  rw [MapInvariant.den, namedPred, MapInvariant.withExpr, ← eval_env_bool, Claripy.eval_Implies, eval_env_bool,
    eval_env_bool]
  rfl

theorem MapInvariant.Guarded.named {pred : MapInvariant} (hg : pred.Guarded) (n : ℕ) :
    (namedPred be pred n).Guarded := by
  intro ι hι
  rw [namedPred, MapInvariant.withExpr, Claripy.eval_Implies, hg ι hι, Bool.or_true]

theorem MapInvariant.Ok.named (be : Backend) {mm : MapMeta} {pred : MapInvariant} (hp : pred.Ok st mm) {n : ℕ}
    (hn : n < st.next) :
    (namedPred be pred n).Ok st mm where
  inScope := by
    refine scoped_simplified_bool ⟨?_, hp.inScope⟩
    exact scoped_simplified_bool (e := .not (.boolS (.sym n))) hn
  key := hp.key
  value := hp.value
  present := hp.present

theorem truth_iff {pred : MapInvariant} {c : Content} {ks : ℕ} :
    pred.truth x c ks = true ↔ ∀ k < 2 ^ ks, pred.den x k (c k) = true := by
  rw [MapInvariant.truth, decide_eq_true_eq]

theorem Later.truth (hl : Later x st x' st') (hx : x.maps = st.maps) {mm : MapMeta} {pred : MapInvariant}
    (hp : pred.Ok st mm) (c : Content) (ks : ℕ) : pred.truth x' c ks = pred.truth x c ks := by
  simp only [MapInvariant.truth, hl.inv_den hx hp]

/-- The formula of `forall` for what its parts say. -/
theorem eval_forallFormula (be : Backend) {mm : MapMeta} {pred : MapInvariant} {known : List MapItem}
    {ts : List BoolAst}
    {unknown : MapItem} {full t : BoolAst} {b : Bool} (hts : List.Forall₂ (Judged x st mm pred) known ts)
    (ht : Judged x st mm pred unknown t) (hfull : full.eval x.env = true)
    (hb : if b = true then (∀ i ∈ known, pred.den x (i.key.eval x.env) (x.item i) = true) ∧
        pred.den x (unknown.key.eval x.env) (x.item unknown) = true
      else (∃ i ∈ known, pred.den x (i.key.eval x.env) (x.item i) = false) ∨
        ((∀ i ∈ known, i.key.eval x.env ≠ unknown.key.eval x.env) ∧
          pred.den x (unknown.key.eval x.env) (x.item unknown) = false)) :
    (be.and (be.conj ts) (be.Implies full (be.Implies
      (be.conj (known.map fun i => be.ne unknown.key i.key)) t))).eval x.env = b := by
  have hconj : (be.conj ts).eval x.env = true ↔ ∀ i ∈ known, pred.den x (i.key.eval x.env) (x.item i) = true := by
    rw [Claripy.eval_conj]
    constructor
    · intro hall i hi
      obtain ⟨t', ht', hj⟩ := Replay.forall₂_right hts i hi
      rw [← hj.eval]
      exact hall t' ht'
    · intro hall t' ht'
      obtain ⟨i, hi, hj⟩ := Replay.forall₂_left hts t' ht'
      rw [hj.eval]
      exact hall i hi
  have hnew : (be.conj (known.map fun i => be.ne unknown.key i.key)).eval x.env = true ↔
      ∀ i ∈ known, i.key.eval x.env ≠ unknown.key.eval x.env := by
    rw [Claripy.eval_conj]
    constructor
    · intro hall i hi he
      have hne := hall _ (List.mem_map_of_mem hi)
      simp [he] at hne
    · intro hall a ha
      obtain ⟨i, hi, rfl⟩ := List.mem_map.mp ha
      rw [Claripy.eval_ne, bne_iff_ne]
      exact (hall i hi).symm
  rw [Claripy.eval_and, Claripy.eval_Implies, Claripy.eval_Implies, hfull, ht.eval]
  cases b with
  | true =>
    obtain ⟨hk, hu⟩ := hb
    rw [hconj.mpr hk, hu]
    simp
  | false =>
    rcases hb with ⟨i, hi, hfalse⟩ | ⟨hk, hu⟩
    · have hnot : (be.conj ts).eval x.env = false := by
        rw [← Bool.not_eq_true]
        intro hc
        rw [hconj.mp hc i hi] at hfalse
        cases hfalse
      rw [hnot, Bool.false_and]
    · rw [hnew.mpr hk, hu]
      simp

/-- The end of `forall`: its symbol is told what it stands for, and the invariant is added. -/
theorem wlp_nameTruth (be : Backend) (fuel : ℕ) (h : Sound be x st) {m : Map} (hm : m ∈ st.created)
    {pred : MapInvariant} (hp : pred.Ok st (st.heap m).mapMeta) (hg : pred.Guarded) {formula : BoolAst} {b : Bool}
    (hclosed : formula.Closed st.next) (hformula : formula.eval x.env = b)
    (hb : b = true → (∀ k < 2 ^ (st.heap m).mapMeta.keySize, pred.den x k (x.content m k) = true) ∧
      pred.den x ((st.heap m).unknownItem.key.eval x.env) (x.item (st.heap m).unknownItem) = true) :
    replay.wlp (do
        addConstraints [be.beq (.boolS (.sym st.next)) formula]
        addInvariantConjunction be fuel m (namedPred be pred st.next)
        pure (BoolAst.boolS (.sym st.next)))
      (fun t x' st' => Kept be x st x' st' ∧ t.Closed st'.next ∧ t.eval x'.env = b)
      { x with bool := Function.update x.bool st.next b } { st with next := st.next + 1 } := by
  have hok := h.map m hm
  have hunknownOk := h.unknown_ok hm
  have q := quiet_named be x st b
  set x₁ : Exec := { x with bool := Function.update x.bool st.next b } with hx₁
  have hsym : x₁.bool st.next = b := Function.update_self _ _ _
  have hresult : (BoolAst.boolS (.sym st.next)).eval x₁.env = b := by rw [eval_symBool, hsym]
  refine Replay.wlp_bind (wlp_addHolding be _ (fun c hc => ?_) fun st₂ q₂ => ?_)
  · rw [List.mem_singleton.mp hc, Claripy.eval_beq, hresult, q.agree.eval_bool hclosed, hformula]
    exact ⟨Claripy.closed_beq (Nat.lt_succ_self _) (hclosed.mono q.next), beq_self_eq_true b⟩
  · have h₂ := q₂.sound (q.sound h)
    have hl₂ := q.later.trans q₂.later
    have hm₂ := hl₂.created m hm
    have hp₂ := hl₂.inv_ok hp
    have hsize := congrArg MapMeta.keySize (hl₂.mapMeta m hm)
    have hnext : st.next < st₂.next := lt_of_lt_of_le (Nat.lt_succ_self _) q₂.next
    have hitem : x₁.item (st.heap m).unknownItem = x.item (st.heap m).unknownItem := q.agree.item hunknownOk
    have hkey : (st.heap m).unknownItem.key.eval x₁.env = (st.heap m).unknownItem.key.eval x.env :=
      q.agree.eval_bv hunknownOk.key
    have hden : ∀ k a, (namedPred be pred st.next).den x₁ k a = (!b || pred.den x k a) := fun k a => by
      rw [den_namedPred, hsym, q.later.inv_den h.maps hp]
    have hadd := wlp_addInvariantConjunction be fuel h₂ hm₂
      ((hl₂.mapMeta m hm) ▸ hp₂.named be hnext) ((hg.named _).readable _ _) ?_ ?_
    · refine Replay.wlp_bind (Replay.wlp_mono hadd ?_)
      rintro _ x₃ st₃ ⟨h₃, hl₃⟩
      have hsymClosed : (BoolAst.boolS (.sym st.next)).Closed st₂.next := hnext
      refine Replay.wlp_pure ⟨⟨h₃, hl₂.trans hl₃⟩, hsymClosed.mono hl₃.next, ?_⟩
      rw [hl₃.agree.eval_bool hsymClosed, hresult]
    · rw [hl₂.unknownItem m hm, hkey, hitem, hden]
      cases hbv : b with
      | false => rfl
      | true => exact (hb hbv).2
    · rw [hl₂.mapMeta m hm]
      intro k hk hnot
      rw [hden]
      cases hbv : b with
      | false => rfl
      | true =>
        obtain ⟨hall, hunknown⟩ := hb hbv
        have hcontent : x₁.content m.oldestVersion k = x.content m.oldestVersion k := rfl
        rw [hcontent]
        change pred.den x k (x.content m.oldestVersion k) = true
        by_cases hsame : x.content m k = x.content m.oldestVersion k
        · exact hsame ▸ hall k hk
        · rcases hok.changed k hk hsame with hu | ⟨i, hi, hik⟩ | ha
          · rw [← hok.unknownItem] at hu
            rw [← hu, ← h.unknown_right hm]
            exact hunknown
          · have hi₂ := (hl₂.known _ hok.oldest).subset hi
            have heval : i.key.eval x₁.env = k := by rw [q.agree.eval_bv (h.oldest_item hm hi).key, hik]
            exact absurd heval (hnot i hi₂)
          · exact hg.den ha

theorem wlp_forallInvariant (be : Backend) (fuel : ℕ) (h : Sound be x st) {m : Map} (hm : m ∈ st.created)
    {pred : MapInvariant} (hp : pred.Ok st (st.heap m).mapMeta) (hg : pred.Guarded) :
    replay.wlp (Map.forallInvariant be fuel m pred) (fun t x' st' => Kept be x st x' st' ∧ t.Closed st'.next ∧
      t.eval x'.env = pred.truth x (x.content m) (st.heap m).mapMeta.keySize) x st := by
  have hok := h.map m hm
  have hunknownOk := h.unknown_ok hm
  unfold Map.forallInvariant
  refine Replay.wlp_bind (wlp_object ?_)
  split
  · next hempty =>
    refine Replay.wlp_pure ⟨⟨h, Later.refl x st⟩, Claripy.closed_boolV true, ?_⟩
    rw [Claripy.eval_boolV]
    exact (truth_iff.mpr fun k hk => hg.den (h.absent_of_empty hm hempty hk)).symm
  · refine Replay.wlp_bind (Replay.wlp_mono (wlp_forallKnown hg be fuel h hm rfl hp) ?_)
    rintro ⟨known, ts⟩ x₁ st₁ ⟨⟨h₁, hl₁⟩, hts⟩
    have hm₁ := hl₁.created m hm
    refine Replay.wlp_bind (wlp_isNotOverfull h₁ hm₁ fun full st₂ q hfull hfullEval => ?_)
    have h₂ := q.sound h₁
    have hl₂ := hl₁.trans q.later
    have hp₂ := hl₂.inv_ok hp
    refine Replay.wlp_bind (Replay.wlp_mono (wlp_judge hg be fuel h₂ hp₂ (hunknownOk.mono hl₂.next)) ?_)
    rintro t x₃ st₃ ⟨⟨h₃, hl₃⟩, ht⟩
    have hl := hl₂.trans hl₃
    have hp₃ := hl.inv_ok hp
    have hts₃ : List.Forall₂ (Judged x₃ st₃ (st.heap m).mapMeta pred) known ts :=
      hts.imp fun i t hj => (hj.later q.later h₁.maps (hl₁.inv_ok hp)).later hl₃ h₂.maps hp₂
    have hfull₃ : full.eval x₃.env = true := by rw [hl₃.agree.eval_bool hfull, hfullEval]
    have htruth : pred.truth x₃ (x₃.content m) (st.heap m).mapMeta.keySize =
        pred.truth x (x.content m) (st.heap m).mapMeta.keySize := by
      rw [hl.content m hm, hl.truth h.maps hp]
    refine Replay.wlp_bind (wlp_freshSym (Replay.wlp_bind (Replay.wlp_emit fun hev => ?_)))
    have hformula := eval_forallFormula be hts₃ ht hfull₃ hev
    refine Replay.wlp_mono (wlp_nameTruth be fuel h₃ (hl.created m hm) ((hl.mapMeta m hm) ▸ hp₃) hg ?_ hformula ?_) ?_
    · refine Claripy.closed_and (Claripy.closed_conj fun a ha => ?_)
        (Claripy.closed_Implies (hfull.mono hl₃.next)
          (Claripy.closed_Implies (Claripy.closed_conj fun a ha => ?_) ht.closed))
      · obtain ⟨i, -, hj⟩ := Replay.forall₂_left hts₃ a ha
        exact hj.closed
      · obtain ⟨i, hi, rfl⟩ := List.mem_map.mp ha
        obtain ⟨t', -, hj⟩ := Replay.forall₂_right hts₃ i hi
        exact Claripy.closed_ne (hunknownOk.key.mono hl.next) hj.item.key
    · intro hb
      have hev' := hev
      simp only [replay, eventOk] at hev'
      rw [if_pos hb] at hev'
      rw [hl.mapMeta m hm, hl.unknownItem m hm]
      exact ⟨truth_iff.mp hb, hev'.2⟩
    · rintro t' x' st' ⟨⟨h', hl'⟩, hclosed, heval⟩
      exact ⟨⟨h', hl.trans hl'⟩, hclosed, heval.trans htruth⟩

/-- The truth of a predicate over the key and the value for all items that a map holds. -/
def forallTruth (x : Exec) (m : Map) (keySize : ℕ) (pred : BoolAst) : Bool :=
  decide (∀ k < 2 ^ keySize, (x.content m k).2 = true → pred.den (x.world k (x.content m k)) = true)

/-- **`forall` answers whether a predicate holds of all items.** -/
theorem wlp_forall (be : Backend) (fuel : ℕ) (h : Sound be x st) {m : Map} (hm : m ∈ st.created) {pred : BoolAst}
    (hs : pred.Scoped st (st.heap m).mapMeta) (hv : pred.Latest) :
    replay.wlp (Map.forall be fuel m pred) (fun t x' st' => Kept be x st x' st' ∧ t.Closed st'.next ∧
      t.eval x'.env = forallTruth x m (st.heap m).mapMeta.keySize pred) x st := by
  have hscoped : (be.Implies (.boolS .PRESENT) pred).Scoped st (st.heap m).mapMeta :=
    scoped_simplified_bool ⟨scoped_simplified_bool (e := .not (.boolS .PRESENT)) trivial, hs⟩
  have hlatest : (be.Implies (.boolS .PRESENT) pred).Latest :=
    latest_simplified_bool ⟨latest_simplified_bool (e := .not (.boolS .PRESENT)) trivial, hv⟩
  unfold Map.forall
  refine Replay.wlp_bind (wlp_object ?_)
  refine Replay.wlp_bind (wlp_newInvariant h.maps hscoped hlatest fun inv hinv hf hden => ?_)
  have hg : inv.Guarded := guarded_implies hf
  refine Replay.wlp_mono (wlp_forallInvariant be fuel h hm hinv hg) ?_
  rintro t x' st' ⟨hk, hclosed, heval⟩
  refine ⟨hk, hclosed, ?_⟩
  have hmean : ∀ k a, inv.den x k a = (!a.2 || pred.den (x.world k a)) := fun k a => by
    rw [hden, ← eval_env_bool, Claripy.eval_Implies, eval_env_bool, eval_env_bool]
    rfl
  rw [heval, MapInvariant.truth, forallTruth]
  simp only [hmean, Bool.or_eq_true, Bool.not_eq_true', ← Bool.not_eq_true, ← imp_iff_not_or]

/-! ### new -/

/-- A new map's symbols are made, and its unknown item gets what the map holds for its key. -/
theorem quiet_new (be : Backend) (x : Exec) (st : State) (m : Map) (mm : MapMeta) (length : BV) :
    Quiet be x st (x.step (.new m st.next (st.next + 1) (st.next + 1 + 1) mm length))
      { st with next := st.next + 1 + 1 + 1 } where
  next := by
    show st.next ≤ st.next + 1 + 1 + 1
    omega
  agree := by
    refine ⟨fun k hk => ?_, fun k hk => Function.update_of_ne (by omega) _ _⟩
    simp only [Exec.step]
    rw [Function.update_of_ne (by omega), Function.update_of_ne (by omega)]
  content := rfl
  execMaps := rfl
  created := rfl
  table := rfl
  heap := SameList.refl st.heap
  constraints _ hc := Or.inl hc

/-- The object of a new map. -/
def newObj (st : State) (mm : MapMeta) (length : BV) : MapObj where
  mapMeta := mm
  length := length
  invariants := []
  knownItems := []
  unknownItem := ⟨.bvs (.sym st.next) mm.keySize, .bvs (.sym (st.next + 1)) mm.valueSize,
    .boolS (.sym (st.next + 1 + 1))⟩
  knownItemsCache := (0, [])

/-- A new map without invariants. -/
theorem sound_new (h : Sound be x st) {mm : MapMeta} {length : BV} (hclosed : length.Closed st.next)
    (hbound : ∀ k < 2 ^ mm.keySize, (x.content (.oldest st.created.length) k).1 < 2 ^ mm.valueSize)
    (hsize : length.eval x.env = (x.content (.oldest st.created.length)).size mm.keySize) :
    Kept be x st (x.step (.new (.oldest st.created.length) st.next (st.next + 1) (st.next + 1 + 1) mm length))
      ({ st with next := st.next + 1 + 1 + 1 }.withMap (.oldest st.created.length) (newObj st mm length)) := by
  set new : Map := .oldest st.created.length with hnew
  set x₁ := x.step (.new new st.next (st.next + 1) (st.next + 1 + 1) mm length) with hx₁
  set st₁ : State := { st with next := st.next + 1 + 1 + 1 } with hst₁
  have q : Quiet be x st x₁ st₁ := quiet_new be x st new mm length
  have hmem : new ∉ st₁.created := fun hm => by
    have hlt := (q.sound h).numbered new hm
    exact lt_irrefl _ hlt
  have hsame : x₁.withContent new (x₁.content new) = x₁ := by
    rw [Exec.withContent, Function.update_eq_self]
  have hself : (st₁.withMap new (newObj st mm length)).heap new = newObj st mm length := Function.update_self _ _ _
  have hold : new.oldestVersion = new := rfl
  have hlisted : listed be (st₁.withMap new (newObj st mm length)).heap new = [] := by
    rw [listed_oldest hold, hself]
    rfl
  have hkeyEval : (newObj st mm length).unknownItem.key.eval x₁.env = x.unknown new % 2 ^ mm.keySize := by
    have hb : x₁.bv st.next = x.unknown new % 2 ^ mm.keySize := by
      simp only [hx₁, Exec.step]
      rw [Function.update_of_ne (by omega), Function.update_self]
    rw [newObj, eval_sym, hb, Nat.mod_mod]
  have hlt : x.unknown new % 2 ^ mm.keySize < 2 ^ mm.keySize := Nat.mod_lt _ (Nat.two_pow_pos _)
  have hright : x₁.Right (x₁.content new) (newObj st mm length).unknownItem := by
    rw [Exec.Right, hkeyEval]
    have hb : x₁.bv (st.next + 1) = (x.content new (x.unknown new % 2 ^ mm.keySize)).1 := Function.update_self _ _ _
    have hp : x₁.bool (st.next + 1 + 1) = (x.content new (x.unknown new % 2 ^ mm.keySize)).2 :=
      Function.update_self _ _ _
    rw [Exec.item, newObj, eval_sym, eval_symBool, hb, hp, Nat.mod_eq_of_lt (hbound _ hlt)]
    rfl
  have hs := (q.sound h).withMap (o := newObj st mm length) hmem rfl (fun _ => rfl) ?_ ?_ ?_
  · have hl : Later x₁ st₁ (x₁.withContent new (x₁.content new)) (st₁.withMap new (newObj st mm length)) :=
      withMap_later hmem fun _ => rfl
    rw [hsame] at hs hl
    exact ⟨hs, q.later.trans hl⟩
  · rw [hsame]
    refine ⟨List.mem_cons_self, rfl, rfl, ?_, ?_, ?_, ?_, ?_, ?_, ?_⟩
    · rw [hself]
      exact hbound
    · rw [hself]
      exact hclosed.mono q.next
    · rw [hself]
      exact (q.agree.eval_bv hclosed).trans hsize
    · rw [hlisted]
      exact fun i hi => by cases hi
    · rw [hlisted]
      exact fun t i hi => by cases hi
    · rw [hlisted]
      exact fun i hi => by cases hi
    · exact fun k _ hne => absurd rfl hne
  · rw [hsame, hold]
    constructor
    · rw [hself]
      exact fun i hi => by cases hi
    · rw [hself]
      refine ⟨?_, ?_, ?_, rfl, rfl⟩
      · show st.next < st.next + 1 + 1 + 1
        omega
      · show st.next + 1 < st.next + 1 + 1 + 1
        omega
      · show st.next + 1 + 1 < st.next + 1 + 1 + 1
        omega
    · rw [hself]
      exact hright
    · rw [hself]
      exact fun inv hinv => by cases hinv
    · rw [hself]
      exact fun k _ _ inv hinv => by cases hinv
  · intro id previous he
    rw [hnew] at he
    cases he

/-- **`new` makes a map of the given length and invariants.** -/
theorem wlp_new (be : Backend) (fuel : ℕ) (h : Sound be x st) {mm : MapMeta} {given : Option (BV × List BoolAst)}
    (hlength : ∀ g ∈ given, g.1.Closed st.next)
    (hinvs : ∀ g ∈ given, ∀ inv ∈ g.2, inv.Scoped st mm ∧ inv.Latest) :
    replay.wlp (Map.new be fuel mm given) (fun m x' st' => Kept be x st x' st' ∧ m = .oldest st.created.length ∧
      m ∈ st'.created ∧ (st'.heap m).mapMeta = mm ∧ x'.content m = x.content m) x st := by
  unfold Map.new
  refine Replay.wlp_bind (Replay.wlp_bind (Replay.wlp_read (Replay.wlp_pure ?_)))
  refine Replay.wlp_bind (wlp_freshSym (Replay.wlp_bind (wlp_freshSym (Replay.wlp_bind (wlp_freshSym ?_)))))
  dsimp only
  set g := given.getD (bvv sizeT 0, [be.not (.boolS .PRESENT)]) with hg
  have hclosed : g.1.Closed st.next := by
    cases hgiven : given with
    | none => rw [hg, hgiven]; exact Claripy.closed_bvv _ _
    | some d => rw [hg, hgiven]; exact hlength d (hgiven ▸ rfl)
  have hscoped : ∀ inv ∈ g.2, inv.Scoped st mm ∧ inv.Latest := by
    cases hgiven : given with
    | none =>
      rw [hg, hgiven]
      intro inv hinv
      rw [List.mem_singleton.mp hinv]
      exact ⟨scoped_simplified_bool (e := .not (.boolS .PRESENT)) trivial,
        latest_simplified_bool (e := .not (.boolS .PRESENT)) trivial⟩
    | some d => rw [hg, hgiven]; exact hinvs d (hgiven ▸ rfl)
  refine Replay.wlp_bind (Replay.wlp_modify (Replay.wlp_bind (Replay.wlp_emit fun hev => ?_)))
  have hnew := sound_new h hclosed hev.1 hev.2
  set x₁ := x.step (.new (.oldest st.created.length) st.next (st.next + 1) (st.next + 1 + 1) mm g.1) with hx₁
  set st₁ := { st with next := st.next + 1 + 1 + 1 }.withMap (.oldest st.created.length) (newObj st mm g.1) with hst₁
  have hm₁ : Map.oldest st.created.length ∈ st₁.created := List.mem_cons_self
  have hmm₁ : (st₁.heap (.oldest st.created.length)).mapMeta = mm := mapMeta_withMap _ _
  have hloop := Replay.wlp_mapM (R := replay) (f := fun inv : BoolAst => do
      let inv ← MapInvariant.new be mm inv
      let obj ← object (.oldest st.created.length)
      Logged.emit (.given (.oldest st.created.length) inv obj.unknownItem mm.keySize)
      addInvariantConjunction be fuel (.oldest st.created.length) inv)
    (Kept be x₁ st₁) (fun _ _ _ _ => True) g.2 (x := x₁) (s := st₁) ?_ ⟨hnew.sound, Later.refl x₁ st₁⟩
  · refine Replay.wlp_bind (Replay.wlp_mono hloop ?_)
    rintro _ x₂ st₂ ⟨⟨h₂, hl₂⟩, -⟩
    refine Replay.wlp_pure ⟨⟨h₂, hnew.later.trans hl₂⟩, rfl, hl₂.created _ hm₁, ?_, hl₂.content _ hm₁⟩
    rw [hl₂.mapMeta _ hm₁, hmm₁]
  · rintro inv hinv x₂ st₂ ⟨h₂, hl₂⟩
    have hm₂ := hl₂.created _ hm₁
    have hmm₂ := (hl₂.mapMeta _ hm₁).trans hmm₁
    obtain ⟨hs, hv⟩ := hscoped inv hinv
    refine Replay.wlp_bind (wlp_newInvariant h₂.maps ((hnew.later.trans hl₂).scoped_bool inv hs) hv ?_)
    intro inv' hok _ _
    refine Replay.wlp_bind (wlp_object (Replay.wlp_bind (Replay.wlp_emit fun hgiven => ?_)))
    have htruth := truth_iff.mp hgiven.1
    have hunknownOk := (h₂.oldest _ hm₂).unknownOk
    have hright : x₂.item (st₂.heap (.oldest st.created.length)).unknownItem =
        x₂.content (.oldest st.created.length)
          ((st₂.heap (.oldest st.created.length)).unknownItem.key.eval x₂.env) := (h₂.oldest _ hm₂).unknown
    refine Replay.wlp_mono (wlp_addInvariantConjunction be fuel h₂ hm₂ (hmm₂ ▸ hok) hgiven.2 ?_ ?_) ?_
    · have hlt := hunknownOk.key_lt x₂.env
      rw [hright]
      exact htruth _ (hmm₂ ▸ hlt)
    · rw [hmm₂]
      exact fun k hk _ => htruth k hk
    · rintro _ x₃ st₃ ⟨h₃, hl₃⟩
      exact ⟨⟨h₃, hl₂.trans hl₃⟩, trivial, fun _ _ _ => trivial⟩

end Tool
end Klint
