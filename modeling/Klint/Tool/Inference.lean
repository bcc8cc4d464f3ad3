/-
# When invariant inference stops

`infer_invariants` runs the handler from ancestor states and checks in each result state that
the ancestors' invariants hold again; when they do it reports a fixpoint. Modelled here is
the check and the report: `flatten_items` up to its first complaint (what it does next
relaxes the invariants for another round) and the check of the lengths.

The check looks at the items that the handler set and that are present, in the maps that it
changed. What it leaves out is what has to hold by itself.
-/
import Klint.Tool.Runs

namespace Klint
namespace Tool

variable (be : Backend)

/-! ### The check -/

/-- `with_latest_map_versions` -/
def MapInvariant.withLatestMapVersions (maps : List (ℕ × Map)) (inv : MapInvariant) : Option MapInvariant :=
  (inv.expr.freezeMapAstVersions be maps).map fun e => { inv with expr := e }

/-- `known_items(only_set=True)` -/
def setItems (heap : Map → MapObj) : Map → List MapItem
  | .oldest _ => []
  | .layer id previous =>
    let self := heap (.layer id previous)
    self.knownItems ++ transformPrevious be self.knownItems (setItems heap previous)

/-- Whether an item may break an invariant of its map. -/
def itemFails (fuel : ℕ) (conjunction : MapInvariant) (item : MapItem) : GM Bool := do
  let st ← Logged.read
  match conjunction.withLatestMapVersions be st.maps with
  | none => Logged.fail
  | some conjunction => do
    let conj ← conjunction.call be (Map.get be fuel) (.boolV true) item
    let st ← Logged.read
    pure (canBeFalse be st.constraints (be.Implies item.present conj))

/-- The loop over the items that were set. -/
def anyFails (fuel : ℕ) (conjunction : MapInvariant) : List MapItem → GM Bool
  | [] => pure false
  | item :: items => do
    let fails ← itemFails be fuel conjunction item
    if fails then pure true else anyFails fuel conjunction items

/-- `flatten_items`, in one of the states, up to the first item that fails: whether the
invariants change. -/
def flattenItems (fuel : ℕ) (obj : ℕ) : List MapInvariant → GM Bool
  | [] => pure false
  | conjunction :: conjunctions => do
    let map ← targetMap (.obj obj)
    let st ← Logged.read
    let fails ← anyFails be fuel conjunction (setItems be st.heap map)
    if fails then pure true else flattenItems fuel obj conjunctions

/-- `length(obj) <= length(other_obj)`, the form of every length invariant. -/
def lengthInvariant (st : State) (obj other : ℕ) : Option BoolAst := do
  let map ← st.maps.lookup obj
  let otherMap ← st.maps.lookup other
  pure (be.ule (st.heap map).length (st.heap otherMap).length)

/-- Whether a map's length changes the length invariants. Without any so far they change
unless the length stays what it was; those that there are must hold. -/
def lengthChanged (previous : Option (List ℕ)) (ancestor : MapObj) (obj : ℕ) (states : List State) : Option Bool :=
  match previous with
  | none => do
    let same ← states.mapM fun st => do
      let map ← st.maps.lookup obj
      pure (definitelyTrue be st.constraints (be.eq (st.heap map).length ancestor.length))
    pure (!same.all id)
  | some others => do
    let fails ← states.mapM fun st => others.mapM fun other => do
      let inv ← lengthInvariant be st obj other
      pure (canBeFalse be st.constraints inv)
    pure (fails.any fun f => f.any id)

/-- `relevant_objs`: the maps that changed in some result state. -/
def relevantObjs (ancestor : State) (states : List State) : List (ℕ × Map) :=
  ancestor.maps.filter fun p => states.any fun st => decide ((st.maps.lookup p.1).map Map.version ≠ some p.2.version)

/-- The check of one map, in copies of the result states. -/
def objChanged (fuel : ℕ) (ancestor : State) (states : List State) (previous : List (ℕ × List ℕ)) (p : ℕ × Map) :
    Option Bool := do
  let checked ← states.mapM fun st => flattenItems be fuel p.1 (ancestor.heap p.2.oldestVersion).invariants st
  let lengths ← lengthChanged be (previous.lookup p.1) (ancestor.heap p.2) p.1 (checked.map fun r => r.2.1)
  pure (checked.any (fun r => r.1) || lengths)

/-- `infer_invariants`: whether it reports that it reached a fixpoint. -/
def inferInvariants (fuel : ℕ) (ancestors states : List State) (previous : List (ℕ × List ℕ)) : Option Bool :=
  if states.isEmpty then some true
  else
    match ancestors with
    | [] => none
    | ancestor :: _ => do
      let changed ← (relevantObjs ancestor states).mapM (objChanged be fuel ancestor states previous)
      pure (!changed.any id)

/-! ### Items that were set -/

variable {be} {x x' : Exec} {st st' : State}

theorem firstOf_of_distinct {l : List MapItem} (hl : l.Pairwise fun i j => i.key ≠ j.key) {i : MapItem}
    (hi : i ∈ l) : firstOf l i.key = some i := by
  induction l with
  | nil => cases hi
  | cons j l ih =>
    rw [List.pairwise_cons] at hl
    unfold firstOf
    rw [List.find?_cons]
    rcases List.mem_cons.mp hi with rfl | hi
    · simp
    · rw [decide_eq_false (hl.1 i hi).symm]
      exact ih hl.2 hi

section SetItems

variable (h : Sound be x st)
include h

/-- The own items of a layer are right. -/
theorem Sound.own_right {id : ℕ} {previous : Map} (hm : .layer id previous ∈ st.created) {i : MapItem}
    (hi : i ∈ (st.heap (.layer id previous)).knownItems) : x.Right (x.content (.layer id previous)) i := by
  refine (h.map _ hm).first i.key i ?_
  unfold listed
  rw [firstOf_append, firstOf_of_distinct (h.layer id previous hm).distinct hi]
  rfl

theorem Sound.setItems_ok : ∀ {m : Map}, m ∈ st.created → ∀ i ∈ setItems be st.heap m,
    i.Ok st.next (st.heap m).mapMeta ∧ x.Right (x.content m) i
  | .oldest _, _, i, hi => by cases hi
  | .layer id previous, hm, i, hi => by
    have hlayer := h.layer id previous hm
    rcases List.mem_append.mp hi with hi | hi
    · exact ⟨h.own_ok hm hi, h.own_right hm hi⟩
    · obtain ⟨j, hj, -, rfl⟩ := mem_transformPrevious.mp hi
      obtain ⟨hok, hright⟩ := Sound.setItems_ok hlayer.below j hj
      rw [h.mapMeta_below hm] at hok
      refine ⟨transformed_ok (fun ki hki => h.own_ok hm hki) hok, ?_⟩
      rw [hlayer.content]
      exact right_transformed hright

/-- A key that no item was set for holds what the oldest version holds. -/
theorem Sound.content_of_not_set : ∀ {m : Map}, m ∈ st.created → ∀ k,
    (∀ i ∈ setItems be st.heap m, i.key.eval x.env ≠ k) → x.content m k = x.content m.oldestVersion k
  | .oldest _, _, _, _ => rfl
  | .layer id previous, hm, k, hk => by
    have hlayer := h.layer id previous hm
    have hown : (st.heap (.layer id previous)).knownItems.find? (fun i => i.key.eval x.env == k) = none := by
      rw [List.find?_eq_none]
      intro i hi he
      exact hk i (List.mem_append_left _ hi) (beq_iff_eq.mp he)
    rw [hlayer.content, Exec.overlay, hown]
    refine Sound.content_of_not_set hlayer.below k fun i hi he => ?_
    obtain ⟨j, hj, hji⟩ := own_or_transformed be (st.heap (.layer id previous)).knownItems hi
    exact hk j hj (by rw [hji, he])

end SetItems

/-- A key for which an item was set keeps one. -/
theorem Later.setItems (hl : Later x st x' st') (h : Sound be x st) : ∀ {m : Map}, m ∈ st.created →
    ∀ i ∈ setItems be st.heap m, ∃ j ∈ setItems be st'.heap m, j.key = i.key
  | .oldest _, _, i, hi => by cases hi
  | .layer id previous, hm, i, hi => by
    have hlayer := h.layer id previous hm
    rcases List.mem_append.mp hi with hi | hi
    · exact ⟨i, List.mem_append_left _ ((hl.known _ hm).subset hi), rfl⟩
    · obtain ⟨j, hj, -, rfl⟩ := mem_transformPrevious.mp hi
      obtain ⟨j', hj', hkey⟩ := Later.setItems hl h hlayer.below j hj
      obtain ⟨i', hi', hkey'⟩ := own_or_transformed be (st'.heap (.layer id previous)).knownItems hj'
      exact ⟨i', hi', hkey'.trans hkey⟩

/-! ### What the check establishes -/

/-- An invariant holds of a key, if the map holds an item for it. -/
def HoldsIfPresent (x : Exec) (m : Map) (inv : MapInvariant) (k : ℕ) : Prop :=
  (x.content m k).2 = true → inv.den x k (x.content m k) = true

section Check

variable {fuel : ℕ} {mm : MapMeta}

theorem wlp_itemFails (be : Backend) (h : Sound be x st) {conjunction : MapInvariant} {item : MapItem}
    (hi : item.Ok st.next mm)
    (hinv : ∀ inv, conjunction.withLatestMapVersions be st.maps = some inv → inv.Ok st mm) :
    replay.wlp (itemFails be fuel conjunction item) (fun fails x' st' => Kept be x st x' st' ∧
      (fails = false → ∀ inv, conjunction.withLatestMapVersions be st.maps = some inv →
        (x.item item).2 = true → inv.den x (item.key.eval x.env) (x.item item) = true)) x st := by
  unfold itemFails
  refine Replay.wlp_bind (Replay.wlp_read ?_)
  split
  · exact Replay.wlp_fail
  · next inv heq =>
    have hok := hinv inv heq
    have hcall := wlp_call (getterSpec_get be fuel) h hok hi (Claripy.closed_boolV true)
    refine Replay.wlp_bind (Replay.wlp_mono hcall ?_)
    intro t x₁ st₁ ht
    refine Replay.wlp_bind (Replay.wlp_read (Replay.wlp_pure ⟨⟨ht.sound, ht.later⟩, ?_⟩))
    intro hfails inv' heq' hpresent
    cases heq.symm.trans heq'
    have himplies : (be.Implies item.present t).eval x₁.env = true :=
      eval_of_definitelyTrue be ht.sound.constraints (by rw [definitelyTrue, hfails]; rfl)
    have hp : item.present.eval x₁.env = true := (ht.later.agree.eval_bool hi.present).trans hpresent
    rw [Claripy.eval_Implies, hp, Bool.not_true, Bool.false_or] at himplies
    rw [← ht.right (Or.inl ⟨Claripy.eval_boolV _ _, hpresent⟩), himplies]

theorem wlp_anyFails (be : Backend) {conjunction : MapInvariant} {m : Map} : ∀ (items : List MapItem)
    {x : Exec} {st : State}, Sound be x st → m ∈ st.created →
    (∀ i ∈ items, i.Ok st.next mm ∧ x.Right (x.content m) i) →
    (∀ inv, conjunction.withLatestMapVersions be st.maps = some inv → inv.Ok st mm) →
    replay.wlp (anyFails be fuel conjunction items) (fun fails x' st' => Kept be x st x' st' ∧
      (fails = false → ∀ inv, conjunction.withLatestMapVersions be st.maps = some inv →
        ∀ i ∈ items, HoldsIfPresent x m inv (i.key.eval x.env))) x st
  | [], x, st, h, _, _, _ => Replay.wlp_pure ⟨⟨h, Later.refl x st⟩, fun _ _ _ i hi => by cases hi⟩
  | item :: items, x, st, h, hm, hitems, hinv => by
    obtain ⟨hok, hright⟩ := hitems item List.mem_cons_self
    refine Replay.wlp_bind (Replay.wlp_mono (wlp_itemFails be h hok hinv) ?_)
    rintro fails x₁ st₁ ⟨⟨h₁, hl₁⟩, hitem⟩
    split
    · next hfails => exact Replay.wlp_pure ⟨⟨h₁, hl₁⟩, fun hf => absurd hf (by simp)⟩
    · next hfails =>
      have hitems₁ : ∀ i ∈ items, i.Ok st₁.next mm ∧ x₁.Right (x₁.content m) i := by
        intro i hi
        obtain ⟨hiok, hiright⟩ := hitems i (List.mem_cons_of_mem _ hi)
        rw [hl₁.content m hm]
        exact ⟨hiok.mono hl₁.next, (hl₁.agree.right hiok).mpr hiright⟩
      have hinv₁ : ∀ inv, conjunction.withLatestMapVersions be st₁.maps = some inv → inv.Ok st₁ mm := by
        rw [hl₁.table]
        exact fun inv heq => hl₁.inv_ok (hinv inv heq)
      refine Replay.wlp_mono (wlp_anyFails be items h₁ (hl₁.created m hm) hitems₁ hinv₁) ?_
      rintro fails' x₂ st₂ ⟨⟨h₂, hl₂⟩, hrest⟩
      refine ⟨⟨h₂, hl₁.trans hl₂⟩, fun hf inv heq i hi => ?_⟩
      rcases List.mem_cons.mp hi with rfl | hi
      · have hone := hitem (by simpa using hfails) inv heq
        rw [show x.item i = x.content m (i.key.eval x.env) from hright] at hone
        exact hone
      · have hmore := hrest hf inv (by rw [hl₁.table, heq]) i hi
        unfold HoldsIfPresent at hmore ⊢
        rwa [hl₁.content m hm, hl₁.inv_den h.maps (hinv inv heq),
          hl₁.agree.eval_bv (hitems i (List.mem_cons_of_mem _ hi)).1.key] at hmore

/-- What `flatten_items` finds unchanged holds of every present item that was set. -/
theorem wlp_flattenItems (be : Backend) {obj : ℕ} {m : Map} : ∀ (conjunctions : List MapInvariant)
    {x : Exec} {st : State}, Sound be x st → st.maps.lookup obj = some m → m ∈ st.created → (st.heap m).mapMeta = mm →
    (∀ c ∈ conjunctions, ∀ inv, c.withLatestMapVersions be st.maps = some inv → inv.Ok st mm) →
    replay.wlp (flattenItems be fuel obj conjunctions) (fun changed x' st' => Kept be x st x' st' ∧
      (changed = false → ∀ c ∈ conjunctions, ∀ inv, c.withLatestMapVersions be st.maps = some inv →
        ∀ i ∈ setItems be st.heap m, HoldsIfPresent x m inv (i.key.eval x.env))) x st
  | [], x, st, h, _, _, _, _ => Replay.wlp_pure ⟨⟨h, Later.refl x st⟩, fun _ c hc => by cases hc⟩
  | c :: cs, x, st, h, hmap, hm, hmm, hinv => by
    have hitems : ∀ i ∈ setItems be st.heap m, i.Ok st.next mm ∧ x.Right (x.content m) i := hmm ▸ h.setItems_ok hm
    refine Replay.wlp_bind (Replay.wlp_bind (Replay.wlp_read ?_))
    simp only [target, hmap]
    refine Replay.wlp_pure (Replay.wlp_bind (Replay.wlp_read (Replay.wlp_bind ?_)))
    refine Replay.wlp_mono (wlp_anyFails be (m := m) _ h hm hitems (hinv c List.mem_cons_self)) ?_
    rintro fails x₁ st₁ ⟨⟨h₁, hl₁⟩, hfirst⟩
    split
    · next hfails => exact Replay.wlp_pure ⟨⟨h₁, hl₁⟩, fun hf => absurd hf (by simp)⟩
    · next hfails =>
      have hinv₁ : ∀ c ∈ cs, ∀ inv, c.withLatestMapVersions be st₁.maps = some inv → inv.Ok st₁ mm := by
        rw [hl₁.table]
        exact fun c hc inv heq => hl₁.inv_ok (hinv c (List.mem_cons_of_mem _ hc) inv heq)
      refine Replay.wlp_mono (wlp_flattenItems be cs h₁ (by rw [hl₁.table, hmap]) (hl₁.created m hm)
        ((hl₁.mapMeta m hm).trans hmm) hinv₁) ?_
      rintro changed x₂ st₂ ⟨⟨h₂, hl₂⟩, hrest⟩
      refine ⟨⟨h₂, hl₁.trans hl₂⟩, fun hf c' hc' inv heq i hi => ?_⟩
      rcases List.mem_cons.mp hc' with rfl | hc'
      · exact hfirst (by simpa using hfails) inv heq i hi
      · obtain ⟨j, hj, hkey⟩ := hl₁.setItems h hm i hi
        have hmore := hrest hf c' hc' inv (by rw [hl₁.table, heq]) j hj
        unfold HoldsIfPresent at hmore ⊢
        rwa [hkey, hl₁.content m hm, hl₁.inv_den h.maps (hinv c' (List.mem_cons_of_mem _ hc') inv heq),
          hl₁.agree.eval_bv (hitems i hi).1.key] at hmore

end Check

/-! ### The report -/

/-- The results of a loop over fallible calls. -/
theorem forall₂_mapM {α β : Type} {f : α → Option β} : ∀ {as : List α} {bs : List β}, as.mapM f = some bs →
    List.Forall₂ (fun a b => f a = some b) as bs
  | [], bs, h => by
    cases h
    exact List.Forall₂.nil
  | a :: as, bs, h => by
    simp only [List.mapM_cons, Option.bind_eq_bind, Option.bind_eq_some_iff, Option.pure_def, Option.some.injEq] at h
    obtain ⟨b, hb, bs, hbs, rfl⟩ := h
    exact List.Forall₂.cons hb (forall₂_mapM hbs)

/-- Every result of a loop that found nothing is that nothing was found. -/
theorem all_false_of_mapM {α : Type} {f : α → Option Bool} {as : List α} {bs : List Bool} (h : as.mapM f = some bs)
    (hbs : bs.any id = false) : ∀ a ∈ as, f a = some false := by
  intro a ha
  obtain ⟨b, hb, hfb⟩ := Replay.forall₂_right (forall₂_mapM h) a ha
  rw [List.any_eq_false] at hbs
  rw [hfb, show b = false by simpa using hbs b hb]

section Report

variable {fuel : ℕ} {ancestor : State} {ancestors states : List State} {previous : List (ℕ × List ℕ)}

/-- A map that is reported unchanged was found to keep its invariants in every result state. -/
theorem objChanged_false {p : ℕ × Map} (h : objChanged be fuel ancestor states previous p = some false)
    (hst : st ∈ states) : ∃ st' log,
      flattenItems be fuel p.1 (ancestor.heap p.2.oldestVersion).invariants st = some (false, st', log) ∧
      ∀ others, previous.lookup p.1 = some others → ∀ other ∈ others, ∃ inv,
        lengthInvariant be st' p.1 other = some inv ∧ canBeFalse be st'.constraints inv = false := by
  simp only [objChanged, Option.bind_eq_bind, Option.bind_eq_some_iff, Option.pure_def, Option.some.injEq,
    Bool.or_eq_false_iff] at h
  obtain ⟨checked, hchecked, lengths, hlengths, hitems, rfl⟩ := h
  obtain ⟨⟨changed, st', log⟩, hmem, hrun⟩ := Replay.forall₂_right (forall₂_mapM hchecked) st hst
  have hfalse : changed = false := by simpa using List.any_eq_false.mp hitems _ hmem
  refine ⟨st', log, hfalse ▸ hrun, fun others hprev other hother => ?_⟩
  simp only [hprev, lengthChanged, Option.bind_eq_bind, Option.bind_eq_some_iff, Option.pure_def,
    Option.some.injEq] at hlengths
  obtain ⟨fails, hfails, hnone⟩ := hlengths
  have hst' : st' ∈ checked.map fun r => r.2.1 := List.mem_map.mpr ⟨_, hmem, rfl⟩
  obtain ⟨bs, hbs, hloop⟩ := Replay.forall₂_right (forall₂_mapM hfails) st' hst'
  have hone := all_false_of_mapM hloop (by simpa using List.any_eq_false.mp hnone bs hbs) other hother
  simp only [Option.bind_eq_some_iff, Option.some.injEq] at hone
  exact hone

theorem relevant_of_fixpoint (hfix : inferInvariants be fuel (ancestor :: ancestors) states previous = some true)
    (hst : st ∈ states) : ∀ p ∈ relevantObjs ancestor states,
      objChanged be fuel ancestor states previous p = some false := by
  unfold inferInvariants at hfix
  rw [if_neg (by simpa using List.ne_nil_of_mem hst)] at hfix
  simp only [Option.bind_eq_bind, Option.bind_eq_some_iff, Option.pure_def, Option.some.injEq,
    Bool.not_eq_true'] at hfix
  obtain ⟨changed, hchanged, hnone⟩ := hfix
  exact all_false_of_mapM hchanged hnone

end Report

/-! ### What the invariants say at the end of a result state -/

variable (be) in
/-- An invariant of a map holds of a key, read with the maps as they are in the end. -/
def HoldsAtEnd (x : Exec) (st : State) (obj : ℕ) (conjunction : MapInvariant) (k : ℕ) : Prop :=
  ∀ m inv, st.maps.lookup obj = some m → conjunction.withLatestMapVersions be st.maps = some inv →
    inv.den x k (x.content m k) = true

variable (be) in
/-- A length invariant holds in the end. -/
def LengthHolds (x : Exec) (st : State) (obj other : ℕ) : Prop :=
  ∀ inv, lengthInvariant be st obj other = some inv → inv.eval x.env = true

/-- A key of which the check looks at an invariant: the map changed in some result state, the
invariant is one of the first ancestor's, and an item that is present was set for the key. -/
def Checked (be : Backend) (ancestor : State) (states : List State) (x : Exec) (st : State) (obj : ℕ)
    (conjunction : MapInvariant) (k : ℕ) : Prop :=
  ∃ p ∈ relevantObjs ancestor states, p.1 = obj ∧ conjunction ∈ (ancestor.heap p.2.oldestVersion).invariants ∧
    ∃ m, st.maps.lookup obj = some m ∧ (x.content m k).2 = true ∧ ∃ i ∈ setItems be st.heap m, i.key.eval x.env = k

/-- The ancestors' invariants hold of every key, and the lengths are as retained. -/
def Reestablished (be : Backend) (ancestors : List State) (previous : List (ℕ × List ℕ)) (x : Exec) (st : State) :
    Prop :=
  (∀ a ∈ ancestors, ∀ p ∈ a.maps, ∀ c ∈ (a.heap p.2.oldestVersion).invariants,
    ∀ k < 2 ^ (a.heap p.2).mapMeta.keySize, HoldsAtEnd be x st p.1 c k) ∧
  ∀ obj others, previous.lookup obj = some others → ∀ other ∈ others, LengthHolds be x st obj other

/-- The ancestors' invariants hold of the keys that the check leaves out, and the lengths of
the maps that it skips are as retained. -/
def LeftOutHolds (be : Backend) (ancestor : State) (ancestors states : List State) (previous : List (ℕ × List ℕ))
    (x : Exec) (st : State) : Prop :=
  (∀ a ∈ ancestors, ∀ p ∈ a.maps, ∀ c ∈ (a.heap p.2.oldestVersion).invariants,
    ∀ k < 2 ^ (a.heap p.2).mapMeta.keySize, ¬Checked be ancestor states x st p.1 c k → HoldsAtEnd be x st p.1 c k) ∧
  ∀ obj others, previous.lookup obj = some others → (∀ p ∈ relevantObjs ancestor states, p.1 ≠ obj) →
    ∀ other ∈ others, LengthHolds be x st obj other

/-- A result state has the ancestor's maps, and what the ancestor's invariants read. -/
structure ResultOf (be : Backend) (ancestor st : State) : Prop where
  created : ∀ obj m, st.maps.lookup obj = some m → m ∈ st.created
  mapMeta : ∀ p ∈ ancestor.maps, ∀ m, st.maps.lookup p.1 = some m → (st.heap m).mapMeta = (ancestor.heap p.2).mapMeta
  inv : ∀ p ∈ ancestor.maps, ∀ c ∈ (ancestor.heap p.2.oldestVersion).invariants, ∀ inv,
    c.withLatestMapVersions be st.maps = some inv → inv.Ok st (ancestor.heap p.2).mapMeta

section Fixpoint

variable {fuel : ℕ} {ancestor : State} {ancestors states : List State} {previous : List (ℕ × List ℕ)}

/-- What a fixpoint establishes of the keys that the check looks at. -/
theorem holds_of_checked (h : Sound be x st) (hres : ResultOf be ancestor st) {p : ℕ × Map}
    (hp : p ∈ ancestor.maps) {st' : State} {log : List Event}
    (hrun : flattenItems be fuel p.1 (ancestor.heap p.2.oldestVersion).invariants st = some (false, st', log))
    (hok : replay.Ok x log) {c : MapInvariant} (hc : c ∈ (ancestor.heap p.2.oldestVersion).invariants) {m : Map}
    (hm : st.maps.lookup p.1 = some m) {i : MapItem} (hi : i ∈ setItems be st.heap m)
    (hpresent : (x.content m (i.key.eval x.env)).2 = true) : HoldsAtEnd be x st p.1 c (i.key.eval x.env) := by
  intro m' inv hm' hinv
  cases hm.symm.trans hm'
  obtain ⟨-, hall⟩ := wlp_flattenItems be _ h hm (hres.created p.1 m hm) (hres.mapMeta p hp m hm) (hres.inv p hp)
    false st' log hrun hok
  exact hall rfl c hc inv hinv i hi hpresent

/-- What a fixpoint establishes of the lengths. -/
theorem length_of_checked (h : Sound be x st) (hres : ResultOf be ancestor st) {p : ℕ × Map}
    (hp : p ∈ ancestor.maps) {st' : State} {log : List Event}
    (hrun : flattenItems be fuel p.1 (ancestor.heap p.2.oldestVersion).invariants st = some (false, st', log))
    (hok : replay.Ok x log) {other : ℕ} {inv' : BoolAst} (hinv' : lengthInvariant be st' p.1 other = some inv')
    (hfails : canBeFalse be st'.constraints inv' = false) : LengthHolds be x st p.1 other := by
  intro inv hinv
  simp only [lengthInvariant, Option.bind_eq_bind, Option.bind_eq_some_iff, Option.pure_def, Option.some.injEq]
    at hinv hinv'
  obtain ⟨m, hm, m₂, hm₂, rfl⟩ := hinv
  have hmem := hres.created p.1 m hm
  have hmem₂ := hres.created other m₂ hm₂
  obtain ⟨⟨h', hl⟩, -⟩ := wlp_flattenItems be _ h hm hmem (hres.mapMeta p hp m hm)
    (hres.inv p hp) false st' log hrun hok
  obtain ⟨m', hm', m₂', hm₂', rfl⟩ := hinv'
  rw [hl.table] at hm' hm₂'
  cases hm.symm.trans hm'
  cases hm₂.symm.trans hm₂'
  rw [hl.length m hmem, hl.length m₂ hmem₂] at hfails
  rw [← hl.agree.eval_bool (Claripy.closed_ule (h.map m hmem).lengthClosed (h.map m₂ hmem₂).lengthClosed)]
  exact eval_of_definitelyTrue be h'.constraints (by rw [definitelyTrue, hfails]; rfl)

/-- Where no map that an invariant reads changed, every item that was set is present and a
skipped map has no layer, the invariants that held before hold again. -/
theorem reestablished_of_fixpoint (be : Backend)
    (hfix : inferInvariants be fuel [ancestor] states previous = some true) (hst : st ∈ states)
    (h : Sound be x st) (hres : ResultOf be ancestor st)
    (hok : ∀ p ∈ relevantObjs ancestor states, ∀ changed st' log,
      flattenItems be fuel p.1 (ancestor.heap p.2.oldestVersion).invariants st = some (changed, st', log) →
        replay.Ok x log)
    (hread : ∀ p ∈ ancestor.maps, ∀ c ∈ (ancestor.heap p.2.oldestVersion).invariants, ∀ inv,
      c.withLatestMapVersions be st.maps = some inv → ∀ k a, inv.den x k a = c.den x k a)
    (hbefore : ∀ p ∈ ancestor.maps, ∀ c ∈ (ancestor.heap p.2.oldestVersion).invariants, ∀ m,
      st.maps.lookup p.1 = some m → ∀ k < 2 ^ (ancestor.heap p.2).mapMeta.keySize,
        c.den x k (x.content m.oldestVersion k) = true)
    (hset : ∀ p ∈ ancestor.maps, ∀ m, st.maps.lookup p.1 = some m → ∀ i ∈ setItems be st.heap m,
      p ∈ relevantObjs ancestor states ∧ (x.item i).2 = true) :
    ∀ p ∈ ancestor.maps, ∀ c ∈ (ancestor.heap p.2.oldestVersion).invariants,
      ∀ k < 2 ^ (ancestor.heap p.2).mapMeta.keySize, HoldsAtEnd be x st p.1 c k := by
  intro p hp c hc k hk m inv hm hinv
  have hmem := hres.created p.1 m hm
  by_cases hi : ∃ i ∈ setItems be st.heap m, i.key.eval x.env = k
  · obtain ⟨i, hi, rfl⟩ := hi
    obtain ⟨hrel, hpresent⟩ := hset p hp m hm i hi
    obtain ⟨st', log, hrun, -⟩ := objChanged_false (relevant_of_fixpoint hfix hst p hrel) hst
    rw [show x.item i = _ from (h.setItems_ok hmem i hi).2] at hpresent
    exact holds_of_checked h hres hp hrun (hok p hrel _ _ _ hrun) hc hm hi hpresent m inv hm hinv
  · push Not at hi
    rw [hread p hp c hc inv hinv, h.content_of_not_set hmem k hi]
    exact hbefore p hp c hc m hm k hk

/-- **A fixpoint is inductive exactly when what the check leaves out is.** -/
theorem fixpoint_inductive_iff (be : Backend)
    (hfix : inferInvariants be fuel (ancestor :: ancestors) states previous = some true) (hst : st ∈ states)
    (h : Sound be x st) (hres : ResultOf be ancestor st)
    (hok : ∀ p ∈ relevantObjs ancestor states, ∀ changed st' log,
      flattenItems be fuel p.1 (ancestor.heap p.2.oldestVersion).invariants st = some (changed, st', log) →
        replay.Ok x log) :
    Reestablished be (ancestor :: ancestors) previous x st ↔
      LeftOutHolds be ancestor (ancestor :: ancestors) states previous x st := by
  constructor
  · rintro ⟨hitems, hlengths⟩
    exact ⟨fun a ha p hp c hc k hk _ => hitems a ha p hp c hc k hk,
      fun obj others hprev _ => hlengths obj others hprev⟩
  · rintro ⟨hitems, hlengths⟩
    have hall := relevant_of_fixpoint hfix hst
    refine ⟨fun a ha p hp c hc k hk => ?_, fun obj others hprev other hother => ?_⟩
    · by_cases hchecked : Checked be ancestor states x st p.1 c k
      · obtain ⟨q, hq, hobj, hcq, m, hm, hpresent, i, hi, rfl⟩ := hchecked
        obtain ⟨st', log, hrun, -⟩ := objChanged_false (hall q hq) hst
        rw [← hobj] at hm ⊢
        exact holds_of_checked h hres (List.mem_of_mem_filter hq) hrun (hok q hq _ _ _ hrun) hcq hm hi hpresent
      · exact hitems a ha p hp c hc k hk hchecked
    · by_cases hskipped : ∀ p ∈ relevantObjs ancestor states, p.1 ≠ obj
      · exact hlengths obj others hprev hskipped other hother
      · push Not at hskipped
        obtain ⟨q, hq, rfl⟩ := hskipped
        obtain ⟨st', log, hrun, hlen⟩ := objChanged_false (hall q hq) hst
        obtain ⟨inv, hinv, hfails⟩ := hlen others hprev other hother
        exact length_of_checked h hres (List.mem_of_mem_filter hq) hrun (hok q hq _ _ _ hrun) hinv hfails

end Fixpoint

/-! ### A map that is skipped -/

/-- A solver that knows that a true conclusion follows. -/
def concluding : Backend :=
  refuting [.not (.or (.not (.boolV false)) (.boolV true)), .not (.or (.not (.boolV true)) (.boolV true)),
    .not (.or (.not (.boolV true)) (.or (.not (.boolV true)) (.boolV true)))] (by
    intro c hc ι
    simp only [List.mem_cons, List.not_mem_nil, or_false] at hc
    rcases hc with rfl | rfl | rfl
    · rfl
    · rfl
    · rfl)

namespace Skipping

/-- The map whose invariant reads the other one, and that one. -/
def A : Map := .oldest 1
def B : Map := .oldest 0

/-- The other map at the end of the handler. -/
def removed : Map := .layer 2 (.oldest 0)

def key : BV := .bvs (.sym 0) 8
def length : BV := .bvs (.sym 1) 64

/-- A present key of `A` is one of `B`. -/
def bound : BoolAst := .or (.not (.boolS .PRESENT)) (.mapHas (.obj 1) (.bvs .KEY 8) none)

def s₁ : State := after (Map.new concluding 3 ⟨8, 8⟩ (some (length, [.boolV true])) (State.initial 2 [(0, A), (1, B)]))
def s₂ : State := after (Map.new concluding 3 ⟨8, 8⟩ (some (length, [bound])) s₁)
def s₃ : State := after (Map.remove concluding 3 B key s₂)

def inv (e : BoolAst) : MapInvariant := ⟨e, .bvs .KEY 8, .bvs .VALUE 8, .boolS .PRESENT⟩

def frozen : MapInvariant := inv (.or (.not (.boolS .PRESENT)) (.mapHas (.obj 1) (.bvs .KEY 8) (some 0)))

/-- The unknown item of a map, of the symbols from `n` on. -/
def unknown (n : ℕ) : MapItem := ⟨.bvs (.sym n) 8, .bvs (.sym (n + 1)) 8, .boolS (.sym (n + 2))⟩

/-- The item of `B` that the invariant of `A` asked for. -/
def asked : MapItem := ⟨.bvs (.sym 5) 8, .bvs (.sym 8) 8, .boolS (.sym 9)⟩

def log : List Event :=
  [.new B 2 3 4 ⟨8, 8⟩ length, .given B (inv (.boolV true)) (unknown 2) 8,
   .new A 5 6 7 ⟨8, 8⟩ length, .given A frozen (unknown 5) 8,
   .fresh B (.bvs (.sym 5) 8) 8 9 [] none (.and (.boolS (.sym 7)) (.boolV true)) [inv (.boolV true)],
   .fresh B key 10 11 [asked] none (.boolV true) [inv (.boolV true)], .badvalue B key 12,
   .layer removed B ⟨key, .bvs (.sym 12) 8, .boolV false⟩ [] 8 64]

/-- The ancestor's calls, and then the handler's. -/
def calls : List Call :=
  [.new ⟨8, 8⟩ (some (length, [.boolV true])) B, .new ⟨8, 8⟩ (some (length, [bound])) A, .remove B key removed]

theorem run : Run concluding (State.initial 2 [(0, A), (1, B)]) s₃ calls log := by
  have h₀ : Run concluding (State.initial 2 [(0, A), (1, B)]) (State.initial 2 [(0, A), (1, B)]) [] [] := Run.nil
  have h₁ := h₀.extend (.new ⟨8, 8⟩ (some (length, [.boolV true])) B) s₁ (log.take 2) ?_ (eq_after (by decide))
  have h₂ := h₁.extend (.new ⟨8, 8⟩ (some (length, [bound])) A) s₂ ((log.drop 2).take 3) ?_
    (eq_after (by decide))
  have h₃ := h₂.extend (.remove B key removed) s₃ (log.drop 5) ?_ (eq_after (by decide))
  · exact h₃
  · exact ⟨by decide, show 0 < s₂.next by decide, by decide⟩
  · refine ⟨fun g hg => ?_, fun g hg i hi => ?_⟩
    · cases hg
      exact show 1 < s₁.next by decide
    · cases hg
      rw [List.mem_singleton.mp hi]
      exact ⟨⟨trivial, rfl, B, by decide, by decide, by decide⟩, trivial, trivial, rfl⟩
  · exact legal_new_free (show length.Closed 2 from Nat.one_lt_two) _

/-- Both maps hold ten items, and key 5 is removed from one of them. -/
def exec : Exec := ⟨fun n => if n = 0 then 5 else 10, fun _ => true, fun _ => Travel.ten, [(0, A), (1, B)], fun _ => 0⟩

theorem ok : replay.Ok exec log := by
  refine ⟨⟨fun _ _ => ?_, ?_⟩, given_free rfl _ _, ⟨fun _ _ => ?_, ?_⟩, ⟨?_, Or.inl ?_⟩,
    fresh_free rfl 8 9 rfl fun _ hi => ?_, fresh_free rfl 10 11 rfl fun i hi => ?_, trivial, ⟨?_, fun _ hi => ?_⟩,
      trivial⟩
  · show 7 < 2 ^ 8
    omega
  · exact Travel.size_ten.symm
  · show 7 < 2 ^ 8
    omega
  · exact Travel.size_ten.symm
  · decide +kernel
  · rfl
  · cases hi
  · rw [List.mem_singleton.mp hi]
    decide
  · decide
  · cases hi

/-- The result state, and the execution at its end. -/
def result : State := { s₃ with maps := [(0, A), (1, removed)] }
def final : Exec := { replay.run exec log with maps := [(0, A), (1, removed)] }

end Skipping

open Skipping in
/-- A key of `B` is removed that `A` keeps: the check skips `A`, and reports a fixpoint. -/
theorem fixpoint_not_inductive : Run concluding (State.initial 2 [(0, A), (1, B)]) s₃ calls log ∧ replay.Ok exec log ∧
    (∀ c ∈ result.constraints, c.eval final.env = true) ∧
    inferInvariants concluding 3 [s₂] [result] [(1, [])] = some true ∧
    ¬Reestablished concluding [s₂] [(1, [])] final result := by
  refine ⟨run, ok, by decide, by decide, fun h => ?_⟩
  have hends := h.1 s₂ (List.mem_singleton.mpr rfl) (0, A) (by decide) frozen (by decide) 5
    (by decide) A (inv (.or (.not (.boolS .PRESENT)) (.mapHas (.obj 1) (.bvs .KEY 8) (some 1)))) rfl rfl
  have hfalse : (inv (.or (.not (.boolS .PRESENT)) (.mapHas (.obj 1) (.bvs .KEY 8) (some 1)))).den final 5
      (final.content A 5) = false := by decide
  rw [hfalse] at hends
  cases hends

namespace Setting

open Skipping (key length bound inv unknown)

/-- The map whose invariant reads the other one, and that one, in which an item was set. -/
def A : Map := .oldest 2
def B : Map := .layer 1 (.oldest 0)

/-- The first map at the end of the handler. -/
def changed : Map := .layer 3 A

def value : BV := .bvs (.sym 2) 8

def s₁ : State :=
  after (Map.new concluding 3 ⟨8, 8⟩ (some (length, [.boolV true])) (State.initial 3 [(0, changed), (1, B)]))
def s₂ : State := after (Map.set concluding 3 (.oldest 0) key value s₁)
def s₃ : State := after (Map.new concluding 3 ⟨8, 8⟩ (some (length, [bound])) s₂)
def s₄ : State := after (Map.set concluding 3 A key value s₃)

/-- The state before the handler. -/
def ancestor : State := { s₃ with maps := [(0, A), (1, B)] }

def frozen : MapInvariant := inv (.or (.not (.boolS .PRESENT)) (.mapHas (.obj 1) (.bvs .KEY 8) (some 1)))

/-- The item that is set in both maps. -/
def item : MapItem := ⟨key, value, .boolV true⟩

def log : List Event :=
  [.new (.oldest 0) 3 4 5 ⟨8, 8⟩ length, .given (.oldest 0) (inv (.boolV true)) (unknown 3) 8,
   .fresh (.oldest 0) key 6 7 [] none (.boolV true) [inv (.boolV true)], .layer B (.oldest 0) item [] 8 64,
   .new A 8 9 10 ⟨8, 8⟩ length, .given A frozen (unknown 8) 8,
   .fresh B (.bvs (.sym 8) 8) 11 12 [item] none (.and (.boolS (.sym 10)) (.boolV true)) [inv (.boolV true)],
   .fresh A key 13 14 [] none (.boolV true) [frozen], .layer changed A item [] 8 64]

/-- The ancestor's calls, and then the handler's. -/
def calls : List Call :=
  [.new ⟨8, 8⟩ (some (length, [.boolV true])) (.oldest 0), .set (.oldest 0) key value B,
   .new ⟨8, 8⟩ (some (length, [bound])) A, .set A key value changed]

theorem run : Run concluding (State.initial 3 [(0, changed), (1, B)]) s₄ calls log := by
  have h₀ : Run concluding (State.initial 3 [(0, changed), (1, B)]) (State.initial 3 [(0, changed), (1, B)]) [] [] :=
    Run.nil
  have h₁ := h₀.extend (.new ⟨8, 8⟩ (some (length, [.boolV true])) (.oldest 0)) s₁ (log.take 2) ?_
    (eq_after (by decide))
  have h₂ := h₁.extend (.set (.oldest 0) key value B) s₂ ((log.drop 2).take 2) ?_ (eq_after (by decide))
  have h₃ := h₂.extend (.new ⟨8, 8⟩ (some (length, [bound])) A) s₃ ((log.drop 4).take 3) ?_ (eq_after (by decide))
  have h₄ := h₃.extend (.set A key value changed) s₄ (log.drop 7) ?_ (eq_after (by decide))
  · exact h₄
  · exact ⟨by decide, show 0 < s₃.next by decide, by decide, show 2 < s₃.next by decide, by decide⟩
  · refine ⟨fun g hg => ?_, fun g hg i hi => ?_⟩
    · cases hg
      exact show 1 < s₂.next by decide
    · cases hg
      rw [List.mem_singleton.mp hi]
      exact ⟨⟨trivial, rfl, B, by decide, by decide, by decide⟩, trivial, trivial, rfl⟩
  · exact ⟨by decide, show 0 < s₁.next by decide, by decide, show 2 < s₁.next by decide, by decide⟩
  · exact legal_new_free (show length.Closed 3 from (by decide : 1 < 3)) _

/-- Both maps hold the same ten items, and one more is set. -/
def exec : Exec :=
  ⟨fun n => if n = 0 then 20 else 10, fun _ => true, fun _ => Travel.ten, [(0, changed), (1, B)], fun _ => 0⟩

/-- For an absent key the invariant does not depend on the other map. -/
theorem frozen_blind (x : Exec) (k v : ℕ) : frozen.Blind x k (v, false) := by
  intro ι _ hbool
  have hpresent : ι.bool (.boolS .PRESENT) = false := hbool .PRESENT
  change (!ι.bool (.boolS .PRESENT) || ι.bool (.mapHas (.obj 1) (.bvs .KEY 8) (some 1))) = true
  rw [hpresent]
  rfl

theorem ok : replay.Ok exec log := by
  refine ⟨⟨fun _ _ => ?_, ?_⟩, given_free rfl _ _, fresh_free rfl 6 7 rfl fun _ hi => ?_, ⟨?_, fun _ hi => ?_⟩,
    ⟨fun _ _ => ?_, ?_⟩, ⟨?_, Or.inl ?_⟩, fresh_free rfl 11 12 rfl fun _ hi => ?_,
    ⟨rfl, fun _ hi => ?_, fun _ hh => ?_, fun _ _ hi => ?_⟩, ⟨?_, fun _ hi => ?_⟩, trivial⟩
  · show 7 < 2 ^ 8
    omega
  · exact Travel.size_ten.symm
  · cases hi
  · decide
  · cases hi
  · show 7 < 2 ^ 8
    omega
  · exact Travel.size_ten.symm
  · decide +kernel
  · rfl
  · rw [List.mem_singleton.mp hi]
    decide
  · cases hi
  · cases hh
  · rw [List.mem_singleton.mp hi]
    exact Or.inr (frozen_blind _ _ _)
  · decide
  · cases hi

/-- The maps of the state before, with their invariants. -/
theorem invariants_of {p : ℕ × Map} (hp : p ∈ ancestor.maps) {c : MapInvariant}
    (hc : c ∈ (ancestor.heap p.2.oldestVersion).invariants) :
    p = (0, A) ∧ c = frozen ∨ p = (1, B) ∧ c = inv (.boolV true) := by
  have hA : (ancestor.heap A.oldestVersion).invariants = [frozen] := by decide
  have hB : (ancestor.heap B.oldestVersion).invariants = [inv (.boolV true)] := by decide
  rcases List.mem_cons.mp hp with rfl | hp
  · rw [hA] at hc
    exact Or.inl ⟨rfl, List.mem_singleton.mp hc⟩
  · obtain rfl := List.mem_singleton.mp hp
    rw [hB] at hc
    exact Or.inr ⟨rfl, List.mem_singleton.mp hc⟩

theorem mem_of_lookup {α : Type} {l : List (ℕ × α)} {obj : ℕ} {a : α} (h : l.lookup obj = some a) : (obj, a) ∈ l := by
  obtain ⟨l₁, l₂, rfl, -⟩ := List.lookup_eq_some_iff.mp h
  exact List.mem_append_right l₁ List.mem_cons_self

theorem lookup_of {obj : ℕ} {m : Map} (h : s₄.maps.lookup obj = some m) : obj = 0 ∧ m = changed ∨ obj = 1 ∧ m = B := by
  have hmem := mem_of_lookup h
  rw [show s₄.maps = [(0, changed), (1, B)] by decide] at hmem
  rcases List.mem_cons.mp hmem with he | hmem
  · exact Or.inl (Prod.mk.inj he)
  · exact Or.inr (Prod.mk.inj (List.mem_singleton.mp hmem))

/-- The versions of the maps that the invariants read are the last ones. -/
theorem latest_of {c inv' : MapInvariant} (hc : c = frozen ∨ c = inv (.boolV true))
    (h : c.withLatestMapVersions concluding s₄.maps = some inv') : inv' = c := by
  rcases hc with rfl | rfl
  · have hfrozen : frozen.withLatestMapVersions concluding s₄.maps = some frozen := by decide
    exact Option.some.inj (h.symm.trans hfrozen)
  · have htrue : (inv (.boolV true)).withLatestMapVersions concluding s₄.maps = some (inv (.boolV true)) := by decide
    exact Option.some.inj (h.symm.trans htrue)

theorem resultOf : ResultOf concluding ancestor s₄ where
  created obj m hm := by
    rcases lookup_of hm with ⟨-, rfl⟩ | ⟨-, rfl⟩
    · decide
    · decide
  mapMeta p hp m hm := by
    rcases List.mem_cons.mp hp with rfl | hp
    · rcases lookup_of hm with ⟨-, rfl⟩ | ⟨h1, -⟩
      · decide
      · cases h1
    · obtain rfl := List.mem_singleton.mp hp
      rcases lookup_of hm with ⟨h0, -⟩ | ⟨-, rfl⟩
      · cases h0
      · decide
  inv p hp c hc inv' hinv := by
    rcases invariants_of hp hc with ⟨rfl, rfl⟩ | ⟨rfl, rfl⟩
    · rw [latest_of (Or.inl rfl) hinv, show (ancestor.heap A).mapMeta = ⟨8, 8⟩ by decide]
      exact ⟨⟨trivial, rfl, B, rfl, by decide, by decide⟩, rfl, rfl, rfl⟩
    · rw [latest_of (Or.inr rfl) hinv, show (ancestor.heap B).mapMeta = ⟨8, 8⟩ by decide]
      exact ⟨trivial, rfl, rfl, rfl⟩

theorem relevant : relevantObjs ancestor [s₄] = [(0, A)] := by decide

theorem quiet {changes : Bool} {st' : State} {l : List Event}
    (h : flattenItems concluding 3 0 (ancestor.heap A.oldestVersion).invariants s₄ = some (changes, st', l)) :
    l = [] := by
  have hlog : (flattenItems concluding 3 0 (ancestor.heap A.oldestVersion).invariants s₄).map (fun r => r.2.2) =
      some [] := by decide
  rw [h] at hlog
  cases hlog
  rfl

/-- The keys that were not set are those of the ten items. -/
theorem holds_of_not_set {k : ℕ} (hk : k < 2 ^ 8) (hset : k ≠ 20) :
    frozen.den (replay.run exec log) k ((replay.run exec log).content changed k) = true := by
  revert k
  decide +kernel

end Setting

open Setting in
/-- An item is set in a map whose invariant reads another map; the check looks at its key, and no other has changed. -/
theorem fixpoint_inductive_set :
    Reestablished concluding [ancestor] [(0, []), (1, [])] (replay.run exec log) s₄ := by
  have hfix : inferInvariants concluding 3 [ancestor] [s₄] [(0, []), (1, [])] = some true := by decide
  have hst : s₄ ∈ [s₄] := List.mem_singleton.mpr rfl
  have h : Sound concluding (replay.run exec log) s₄ := (run.sound (sound_initial concluding exec 3) ok).1
  refine (fixpoint_inductive_iff concluding hfix hst h resultOf ?_).mpr ⟨?_, ?_⟩
  · intro p hp changes st' l hrun
    rw [relevant] at hp
    obtain rfl := List.mem_singleton.mp hp
    rw [quiet hrun]
    trivial
  · intro a ha p hp c hc k hk hchecked m inv' hm hinv
    obtain rfl := List.mem_singleton.mp ha
    rcases invariants_of hp hc with ⟨rfl, rfl⟩ | ⟨rfl, rfl⟩
    · obtain ⟨-, rfl⟩ | ⟨h1, -⟩ := lookup_of hm
      · rw [latest_of (Or.inl rfl) hinv]
        refine holds_of_not_set hk fun hset => hchecked ?_
        subst hset
        exact ⟨(0, A), by rw [relevant]; exact List.mem_singleton.mpr rfl, rfl, hc, changed, rfl, by decide, item,
          by decide, rfl⟩
      · cases h1
    · rw [latest_of (Or.inr rfl) hinv]
      rfl
  · intro obj others hprev _ other hother
    have hnone : ∀ p ∈ [(0, ([] : List ℕ)), (1, [])], p.2 = [] := by decide
    obtain rfl : others = [] := hnone (obj, others) (mem_of_lookup hprev)
    cases hother

end Tool
end Klint
