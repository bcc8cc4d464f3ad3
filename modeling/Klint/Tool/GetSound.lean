/-
# get is right

In an execution that agrees with the state, `get` answers what the map holds for the
key, and the constraints that it adds hold: the new item agrees with the items that the
map lists and with the unknown item, the invariants hold of it if it is not one of
these, and the map does not list more present keys than its length allows.
-/
import Klint.Tool.Evaluate

namespace Klint
namespace Tool

variable {be : Backend} {x x' : Exec} {st st' : State}

/-! ### The steps of a computation -/

theorem wlp_object {m : Map} {Q : MapObj → Exec → State → Prop} (hq : Q (st.heap m) x st) :
    replay.wlp (object m) Q x st :=
  Replay.wlp_bind (Replay.wlp_read (Replay.wlp_pure hq))

theorem wlp_invariantConjunctions {m : Map} {Q : List MapInvariant → Exec → State → Prop}
    (hq : Q (st.heap m.oldestVersion).invariants x st) : replay.wlp (invariantConjunctions m) Q x st :=
  Replay.wlp_bind (wlp_object (Replay.wlp_pure hq))

theorem wlp_freshSym {Q : ℕ → Exec → State → Prop} (hq : Q st.next x { st with next := st.next + 1 }) :
    replay.wlp freshSym Q x st :=
  Replay.wlp_bind (Replay.wlp_read (Replay.wlp_bind (Replay.wlp_modify (Replay.wlp_pure hq))))

theorem wlp_addConstraints {cs : List BoolAst} {Q : Unit → Exec → State → Prop}
    (hq : Q () x { st with constraints := st.constraints ++ cs }) : replay.wlp (addConstraints cs) Q x st :=
  Replay.wlp_modify hq

theorem wlp_addItem {m : Map} {item : MapItem} {Q : Unit → Exec → State → Prop} (hq : Q () x (st.withItem m item)) :
    replay.wlp (addItem m item) Q x st :=
  Replay.wlp_modify hq

/-- Adding constraints that hold. -/
theorem quiet_addConstraints {cs : List BoolAst} (hcs : ∀ c ∈ cs, c.Closed st.next ∧ c.eval x.env = true) :
    Quiet be x st x { st with constraints := st.constraints ++ cs } where
  next := le_rfl
  agree := Exec.Agree.refl _ x
  content := rfl
  execMaps := rfl
  created := rfl
  table := rfl
  heap := SameList.refl st.heap
  constraints c hc := by
    rcases List.mem_append.mp hc with hc | hc
    · exact Or.inl hc
    · exact Or.inr (hcs c hc)

theorem wlp_addHolding (be : Backend) (cs : List BoolAst) {Q : Unit → Exec → State → Prop}
    (hcs : ∀ c ∈ cs, c.Closed st.next ∧ c.eval x.env = true) (hq : ∀ st', Quiet be x st x st' → Q () x st') :
    replay.wlp (addConstraints cs) Q x st :=
  wlp_addConstraints (hq _ (quiet_addConstraints hcs))

theorem wlp_knownItems {m : Map} {Q : List MapItem → Exec → State → Prop}
    (hq : ∀ st', Quiet be x st x st' → st'.constraints = st.constraints → st'.next = st.next →
      Q (listed be st.heap m) x st') : replay.wlp (knownItems be m) Q x st := by
  obtain ⟨hl, hs⟩ := knownItemsIn_spec be st.heap m
  refine Replay.wlp_bind (Replay.wlp_read (Replay.wlp_bind (Replay.wlp_modify (Replay.wlp_pure ?_))))
  rw [hl]
  exact hq _ ⟨le_rfl, Exec.Agree.refl _ x, rfl, rfl, rfl, rfl, hs, fun c hc => Or.inl hc⟩ rfl rfl

/-! ### The solver's answers -/

/-- What the solver says is definitely true is true. -/
theorem eval_of_definitelyTrue (be : Backend) (hx : ∀ c ∈ st.constraints, c.eval x.env = true) {cond : BoolAst}
    (hd : definitelyTrue be st.constraints cond = true) : cond.eval x.env = true :=
  eval_of_definitely be hx hd

/-- An exact match is the first item of its key term, and its key is the one asked for. -/
theorem getExactMatch_spec (hx : ∀ c ∈ st.constraints, c.eval x.env = true) {key : BV} {candidates : List MapItem}
    {assumption : BoolAst} {i : MapItem}
    (hmatch : getExactMatch be st.constraints key candidates assumption = some i) :
    firstOf candidates i.key = some i ∧ (assumption.eval x.env = true → key.eval x.env = i.key.eval x.env) := by
  unfold getExactMatch at hmatch
  split at hmatch
  · next c hc =>
    cases hmatch
    have hp := List.find?_some hc
    have hkey : key = i.key := of_decide_eq_true hp
    exact ⟨hkey ▸ hc, fun _ => by rw [hkey]⟩
  · split at hmatch
    · refine ⟨firstOf_of_find (q := fun t =>
        definitelyTrue be st.constraints (be.or (be.not assumption) (be.eq key t))) hmatch, fun ha => ?_⟩
      have hp := List.find?_some hmatch
      have heval := eval_of_definitelyTrue be hx hp
      simpa [ha] using heval
    · cases hmatch

/-! ### The length of the known items -/

/-- The present keys of some listed items. -/
def presentKeys (x : Exec) (c : Content) (l : List MapItem) : Finset ℕ :=
  (l.map fun i => i.key.eval x.env).toFinset.filter fun k => (c k).2 = true

theorem card_presentKeys_le {c : Content} {ks : ℕ} {l : List MapItem} (hl : ∀ i ∈ l, i.key.eval x.env < 2 ^ ks) :
    (presentKeys x c l).card ≤ c.size ks := by
  refine Finset.card_le_card fun k hk => ?_
  simp only [presentKeys, Finset.mem_filter, List.mem_toFinset, List.mem_map] at hk
  obtain ⟨⟨i, hi, rfl⟩, hp⟩ := hk
  simp only [Finset.mem_filter, Finset.mem_range]
  exact ⟨hl i hi, hp⟩

/-- One more item: it counts if its key is new and it says that the key is present. -/
theorem card_presentKeys_append {c : Content} {l rest : List MapItem} {i : MapItem}
    (hr : FirstRight x c (l ++ i :: rest)) :
    (presentKeys x c l).card +
      (if (∀ j ∈ l, i.key.eval x.env ≠ j.key.eval x.env) ∧ i.present.eval x.env = true then 1 else 0) ≤
    (presentKeys x c (l ++ [i])).card := by
  have hsub : presentKeys x c l ⊆ presentKeys x c (l ++ [i]) := by
    refine Finset.filter_subset_filter _ fun k hk => ?_
    simp only [List.map_append, List.toFinset_append, Finset.mem_union]
    exact Or.inl hk
  split
  · next hnew =>
    have hfirst : firstOf (l ++ i :: rest) i.key = some i := by
      have hnone : firstOf l i.key = none := firstOf_eq_none.mpr fun j hj he => hnew.1 j hj (by rw [he])
      rw [firstOf_append, hnone, Option.none_or]
      simp [firstOf]
    have hright := hr _ _ hfirst
    have hpresent : (c (i.key.eval x.env)).2 = true := by
      rw [← hright]
      exact hnew.2
    have hmem : i.key.eval x.env ∈ presentKeys x c (l ++ [i]) := by
      simp [presentKeys, hpresent]
    have hnot : i.key.eval x.env ∉ presentKeys x c l := by
      simp only [presentKeys, Finset.mem_filter, List.mem_toFinset, List.mem_map, not_and]
      rintro ⟨j, hj, he⟩ -
      exact hnew.1 j hj he.symm
    calc (presentKeys x c l).card + 1 = (insert (i.key.eval x.env) (presentKeys x c l)).card :=
          (Finset.card_insert_of_notMem hnot).symm
      _ ≤ (presentKeys x c (l ++ [i])).card :=
          Finset.card_le_card (Finset.insert_subset hmem hsub)
  · exact Finset.card_le_card hsub

theorem knownLen_le {c : Content} {ks size : ℕ} : ∀ (items done : List MapItem) (len : BV),
    FirstRight x c (done ++ items) → (∀ i ∈ done ++ items, i.key.eval x.env < 2 ^ ks) → len.size = size →
    len.eval x.env ≤ (presentKeys x c done).card →
    (knownLen be size items (done.map (·.key)) len).eval x.env ≤ c.size ks
  | [], done, len, _, hlt, _, hle => by
    rw [List.append_nil] at hlt
    exact hle.trans (card_presentKeys_le hlt)
  | item :: items, done, len, hr, hlt, hsize, hle => by
    have happend : done ++ item :: items = (done ++ [item]) ++ items := by simp
    have hcount := card_presentKeys_append hr
    rw [knownLen]
    have hkeys : done.map (·.key) ++ [item.key] = (done ++ [item]).map (·.key) := by simp
    rw [hkeys]
    refine knownLen_le items (done ++ [item]) _ (happend ▸ hr) (happend ▸ hlt) ?_ ?_
    · rw [Claripy.size_add, hsize]
    · rw [Claripy.eval_add]
      refine (Nat.mod_le _ _).trans (le_trans ?_ hcount)
      refine Nat.add_le_add hle ?_
      have hnew : (be.conj ((done.map (·.key)).map fun k => be.ne item.key k)).eval x.env = true ↔
          ∀ j ∈ done, item.key.eval x.env ≠ j.key.eval x.env := by
        rw [Claripy.eval_conj]
        simp
      simp only [Claripy.eval_ite, Claripy.eval_and, Bool.and_eq_true, hnew, Claripy.eval_bvv]
      split
      · exact Nat.mod_le _ _
      · exact (Nat.mod_le _ _)

theorem closed_knownLen {n size : ℕ} : ∀ {items : List MapItem} {keys : List BV} {len : BV},
    (∀ i ∈ items, i.key.Closed n ∧ i.present.Closed n) → (∀ k ∈ keys, k.Closed n) → len.Closed n →
    (knownLen be size items keys len).Closed n
  | [], _, _, _, _, hlen => hlen
  | item :: items, keys, len, hi, hk, hlen => by
    obtain ⟨hkey, hpresent⟩ := hi item List.mem_cons_self
    rw [knownLen]
    refine closed_knownLen (fun i hi' => hi i (List.mem_cons_of_mem _ hi')) ?_ ?_
    · intro k hk'
      rcases List.mem_append.mp hk' with hk' | hk'
      · exact hk k hk'
      · exact List.mem_singleton.mp hk' ▸ hkey
    · refine Claripy.closed_add hlen (Claripy.closed_ite (Claripy.closed_and ?_ hpresent)
        (Claripy.closed_bvv _ _) (Claripy.closed_bvv _ _))
      refine Claripy.closed_conj fun a ha => ?_
      obtain ⟨k, hk', rfl⟩ := List.mem_map.mp ha
      exact Claripy.closed_ne hkey (hk k hk')

/-- What `is_not_overfull` says holds. -/
theorem wlp_isNotOverfull (h : Sound be x st) {m : Map} (hm : m ∈ st.created) {Q : BoolAst → Exec → State → Prop}
    (hq : ∀ t st', Quiet be x st x st' → t.Closed st'.next → t.eval x.env = true → Q t x st') :
    replay.wlp (isNotOverfull be m) Q x st := by
  unfold isNotOverfull
  refine Replay.wlp_bind (wlp_object ?_)
  refine Replay.wlp_bind (wlp_knownItems fun st₁ q _ hnext => ?_)
  refine Replay.wlp_bind (Replay.wlp_read ?_)
  split
  · exact Replay.wlp_pure (hq _ _ q (Claripy.closed_boolV _) (Claripy.eval_boolV _ _))
  · have hok := h.map m hm
    refine Replay.wlp_pure (hq _ _ q ?_ ?_)
    · rw [hnext]
      refine Claripy.closed_ule (closed_knownLen ?_ (fun k hk => by cases hk) (Claripy.closed_bvv _ _)) hok.lengthClosed
      exact fun i hi => ⟨(hok.items i hi).key, (hok.items i hi).present⟩
    · rw [Claripy.eval_ule, decide_eq_true_eq, hok.size]
      refine knownLen_le (c := x.content m) (listed be st.heap m) [] _ hok.first ?_ (Claripy.size_bvv _ _) ?_
      · exact fun i hi => (hok.items i hi).key_lt x.env
      · rw [Claripy.eval_bvv, Nat.zero_mod]
        exact Nat.zero_le _

/-! ### A new item -/

/-- A symbol's value. -/
theorem eval_sym (x : Exec) (n s : ℕ) : (BV.bvs (.sym n) s).eval x.env = x.bv n % 2 ^ s := by
  simp [BV.eval, Exec.env, World.env, BV.den, Exec.world]

theorem eval_symBool (x : Exec) (n : ℕ) : (BoolAst.boolS (.sym n)).eval x.env = x.bool n := by
  simp [BoolAst.eval, Exec.env, World.env, BoolAst.den, Exec.world]

section Fresh

variable {m : Map} {key : BV} {hint : Option BV} {condition : BoolAst}

/-- The execution in which a new item has what its map holds. -/
def freshExec (x : Exec) (st : State) (m : Map) (key : BV) : Exec :=
  { x with
    bv := Function.update x.bv st.next (x.content m (key.eval x.env)).1
    bool := Function.update x.bool (st.next + 1) (x.content m (key.eval x.env)).2 }

theorem freshExec_agree (x : Exec) (st : State) (m : Map) (key : BV) : x.Agree st.next (freshExec x st m key) where
  bv k hk := Function.update_of_ne (by omega) _ _
  bool k hk := Function.update_of_ne (by omega) _ _

/-- The new item of a map for a key. -/
def freshItem (st : State) (m : Map) (key : BV) : MapItem :=
  ⟨key, .bvs (.sym st.next) (st.heap m).mapMeta.valueSize, .boolS (.sym (st.next + 1))⟩

theorem item_freshItem (h : Sound be x st) (hm : m ∈ st.created) (hk : key.size = (st.heap m).mapMeta.keySize) :
    (freshExec x st m key).item (freshItem st m key) = x.content m (key.eval x.env) := by
  have hbound := (h.map m hm).bound _ (hk ▸ key.eval_lt x.env)
  simp only [Exec.item, freshItem, eval_sym, eval_symBool, freshExec, Function.update_self, Nat.mod_eq_of_lt hbound]

/-- The state in which a new item's symbols are made and its hint is added. -/
def hinted (be : Backend) (st : State) (m : Map) (key : BV) (hint : Option BV) (condition : BoolAst) : State :=
  { st with
    next := st.next + 1 + 1
    constraints := st.constraints ++
      hint.toList.map fun c => be.Implies condition (be.eq (freshItem st m key).value c) }

theorem freshItem_ok (hc : key.Closed st.next) (hk : key.size = (st.heap m).mapMeta.keySize) :
    (freshItem st m key).Ok (st.next + 1 + 1) (st.heap m).mapMeta where
  key := hc.mono (by omega)
  value := show st.next < st.next + 1 + 1 by omega
  present := show st.next + 1 < st.next + 1 + 1 by omega
  keySize := hk
  valueSize := rfl

theorem quiet_hinted (h : Sound be x st) (hm : m ∈ st.created) (hc : key.Closed st.next)
    (hk : key.size = (st.heap m).mapMeta.keySize) (hhint : ∀ t ∈ hint, t.Closed st.next)
    (hcond : condition.Closed st.next)
    (hok : ∀ t ∈ hint, condition.eval x.env = true → (x.content m (key.eval x.env)).1 = t.eval x.env) :
    Quiet be x st (freshExec x st m key) (hinted be st m key hint condition) where
  next := by simp only [hinted]; omega
  agree := freshExec_agree x st m key
  content := rfl
  execMaps := rfl
  created := rfl
  table := rfl
  heap := SameList.refl st.heap
  constraints c hcs := by
    rcases List.mem_append.mp hcs with hcs | hcs
    · exact Or.inl hcs
    · obtain ⟨t, ht, rfl⟩ := List.mem_map.mp hcs
      rw [Option.mem_toList] at ht
      have hmono : st.next ≤ st.next + 1 + 1 := by omega
      refine Or.inr ⟨Claripy.closed_Implies (hcond.mono hmono)
        (Claripy.closed_eq (freshItem_ok hc hk).value ((hhint t ht).mono hmono)), ?_⟩
      have hvalue : (freshItem st m key).value.eval (freshExec x st m key).env = (x.content m (key.eval x.env)).1 :=
        congrArg Prod.fst (item_freshItem h hm hk)
      have ha := freshExec_agree x st m key
      rw [Claripy.eval_Implies, Claripy.eval_eq, hvalue, ha.eval_bv (hhint t ht), ha.eval_bool hcond]
      cases hcv : condition.eval x.env with
      | false => rfl
      | true => simp [hok t ht hcv]

/-- The terms that say that a new item is one of the items with its key. -/
theorem same_closed {n : ℕ} {mm : MapMeta} {item i : MapItem} (hitem : item.Ok n mm) (hi : i.Ok n mm) :
    (be.Implies (be.eq item.key i.key)
      (be.and (be.eq item.value i.value) (be.beq item.present i.present))).Closed n :=
  Claripy.closed_Implies (Claripy.closed_eq hitem.key hi.key)
    (Claripy.closed_and (Claripy.closed_eq hitem.value hi.value) (Claripy.closed_beq hitem.present hi.present))

theorem same_eval {item i : MapItem} (hsame : i.key.eval x.env = item.key.eval x.env → x.item i = x.item item) :
    (be.Implies (be.eq item.key i.key)
      (be.and (be.eq item.value i.value) (be.beq item.present i.present))).eval x.env = true := by
  rw [Claripy.eval_Implies, Claripy.eval_and, Claripy.eval_eq, Claripy.eval_eq, Claripy.eval_beq]
  by_cases he : i.key.eval x.env = item.key.eval x.env
  · have h := hsame he
    rw [Exec.item, Exec.item, Prod.mk.injEq] at h
    simp [h.1, h.2]
  · have hne : (item.key.eval x.env == i.key.eval x.env) = false := by simpa using Ne.symm he
    rw [hne]
    rfl

end Fresh

/-- The conditions of `fresh`, taken apart. -/
structure FreshOk (x : Exec) (m : Map) (key : BV) (known : List MapItem) (hint : Option BV) (condition : BoolAst)
    (invariants : List MapInvariant) : Prop where
  unchanged : x.content m (key.eval x.env) = x.content m.oldestVersion (key.eval x.env)
  current : ∀ i ∈ known, i.key.eval x.env = key.eval x.env → x.item i = x.content m (key.eval x.env)
  hinted : ∀ t ∈ hint, condition.eval x.env = true → (x.content m (key.eval x.env)).1 = t.eval x.env
  readable : (∀ i ∈ known, i.key.eval x.env ≠ key.eval x.env) → ∀ inv ∈ invariants,
    (condition.eval x.env = true ∧ (x.content m (key.eval x.env)).2 = true) ∨
      inv.Blind x (key.eval x.env) (x.content m (key.eval x.env))

/-- An invariant's term for the new item, guarded by the item's key being new. -/
theorem wlp_freshInvariants {get : Getter} (hget : GetterSpec be get) {m : Map} {key : BV} {hint : Option BV}
    {condition : BoolAst} (h : Sound be x st) (hm : m ∈ st.created) (hc : key.Closed st.next)
    (hk : key.size = (st.heap m).mapMeta.keySize) (hcond : condition.Closed st.next)
    (hok : FreshOk x m key (listed be st.heap m) hint condition (st.heap m.oldestVersion).invariants)
    {x₁ : Exec} {st₁ : State} (h₁ : Sound be x₁ st₁) (hl : Later x st x₁ st₁)
    (hitem : (freshItem st m key).Ok st₁.next (st.heap m).mapMeta)
    (hvalue : x₁.item (freshItem st m key) = x.content m (key.eval x.env)) :
    let unknown := be.conj ((listed be st.heap m).map fun i => be.ne key i.key)
    replay.wlp ((st.heap m.oldestVersion).invariants.mapM' fun inv => do
        let t ← inv.call be get condition (freshItem st m key)
        pure (be.Implies unknown t))
      (fun ts x' st' => Sound be x' st' ∧ Later x₁ st₁ x' st' ∧ ∀ t ∈ ts, t.Closed st'.next ∧ t.eval x'.env = true)
      x₁ st₁ := by
  intro unknown
  have hmap := h.map m hm
  have hunknown : unknown.Closed st.next := by
    refine Claripy.closed_conj fun a ha => ?_
    obtain ⟨i, hi, rfl⟩ := List.mem_map.mp ha
    exact Claripy.closed_ne hc (hmap.items i hi).key
  refine Replay.wlp_mono (Replay.wlp_mapM (fun x' st' => Sound be x' st' ∧ Later x₁ st₁ x' st')
    (fun _ t x' st' => t.Closed st'.next ∧ t.eval x'.env = true) _ ?_ ⟨h₁, Later.refl x₁ st₁⟩) ?_
  rotate_left
  · rintro ts x' st' ⟨⟨hs, hl'⟩, hts, -⟩
    refine ⟨hs, hl', fun t ht => ?_⟩
    obtain ⟨inv, -, hgood⟩ := Replay.forall₂_left hts t ht
    exact hgood
  · rintro inv hinv x₂ st₂ ⟨h₂, hl₂⟩
    have hlater := hl.trans hl₂
    have hinvOk : inv.Ok st (st.heap m).mapMeta := hmap.mapMeta ▸ (h.oldest m hm).invOk inv hinv
    have hitem₂ := hitem.mono hl₂.next
    have hcall := wlp_call hget h₂ (hlater.inv_ok hinvOk) hitem₂ (hcond.mono hlater.next)
    refine Replay.wlp_bind (Replay.wlp_mono hcall ?_)
    intro t x' st' ht
    have hl' := hlater.trans ht.later
    refine Replay.wlp_pure ⟨⟨ht.sound, hl₂.trans ht.later⟩,
      ⟨Claripy.closed_Implies (hunknown.mono hl'.next) ht.closed, ?_⟩, ?_⟩
    · rw [Claripy.eval_Implies, hl'.agree.eval_bool hunknown]
      cases hnew : unknown.eval x.env with
      | false => rfl
      | true =>
        have hnot : ∀ i ∈ listed be st.heap m, i.key.eval x.env ≠ key.eval x.env := by
          intro i hi he
          have hne := (Claripy.eval_conj _ _ _).mp hnew (be.ne key i.key) (List.mem_map_of_mem hi)
          simp [he] at hne
        have hkey₂ : (freshItem st m key).key.eval x₂.env = key.eval x.env := hlater.agree.eval_bv hc
        have hvalue₂ : x₂.item (freshItem st m key) = x.content m (key.eval x.env) := by
          rw [hl₂.agree.item hitem, hvalue]
        have hread := hok.readable hnot inv hinv
        have hterm : t.eval x'.env = inv.den x₂ (key.eval x.env) (x.content m (key.eval x.env)) := by
          have hright := ht.right
          rw [hkey₂, hvalue₂, hlater.agree.eval_bool hcond] at hright
          exact hright (hread.imp_right fun hb => hlater.blind h.maps hinvOk hb)
        have hholds : inv.den x (key.eval x.env) (x.content m (key.eval x.env)) = true := by
          rw [hok.unchanged]
          refine (h.oldest m hm).holds _ (hmap.mapMeta ▸ hk ▸ key.eval_lt x.env) (fun i hi => ?_) inv hinv
          obtain ⟨j, hj, hji⟩ := h.covers hm i hi
          exact hji ▸ hnot j hj
        rw [hterm, hlater.inv_den h.maps hinvOk, hholds]
        rfl
    · rintro - b ⟨hb, hbe⟩
      exact ⟨hb.mono ht.later.next, by rw [ht.later.agree.eval_bool hb, hbe]⟩

/-- The items that the new one is compared with are as it is, where their keys have its key's value. -/
theorem FreshOk.same {m : Map} {key : BV} {hint : Option BV} {condition : BoolAst} {invs : List MapInvariant}
    (hok : FreshOk x m key (listed be st.heap m) hint condition invs) (h : Sound be x st) (hm : m ∈ st.created)
    (hl : Later x st x' st') {item : MapItem} (hitem : item.Ok st'.next (st.heap m).mapMeta)
    (hvalue : x'.item item = x.content m (key.eval x.env)) (hkey : item.key.eval x'.env = key.eval x.env) :
    ∀ i ∈ (if m.isOldest then listed be st.heap m ++ [item] else listed be st.heap m) ++ [(st.heap m).unknownItem],
      i.Ok st'.next (st.heap m).mapMeta ∧ (i.key.eval x'.env = item.key.eval x'.env → x'.item i = x'.item item) := by
  have hmap := h.map m hm
  have hunknownOk := h.unknown_ok hm
  have hold : ∀ j ∈ listed be st.heap m, j.Ok st'.next (st.heap m).mapMeta ∧
      (j.key.eval x'.env = item.key.eval x'.env → x'.item j = x'.item item) := by
    intro j hj
    have hjok := hmap.items j hj
    refine ⟨hjok.mono hl.next, fun he => ?_⟩
    rw [hvalue, hl.agree.item hjok]
    refine hok.current j hj ?_
    rw [← hl.agree.eval_bv hjok.key, he, hkey]
  have hunknown : (st.heap m).unknownItem.Ok st'.next (st.heap m).mapMeta ∧
      ((st.heap m).unknownItem.key.eval x'.env = item.key.eval x'.env →
        x'.item (st.heap m).unknownItem = x'.item item) := by
    refine ⟨hunknownOk.mono hl.next, fun he => ?_⟩
    rw [hvalue, hl.agree.item hunknownOk, hok.unchanged, h.unknown_right hm, ← hl.agree.eval_bv hunknownOk.key, he,
      hkey]
  intro i hi
  rcases List.mem_append.mp hi with hi | hi
  · split at hi
    · rcases List.mem_append.mp hi with hi | hi
      · exact hold i hi
      · rw [List.mem_singleton.mp hi]
        exact ⟨hitem, fun _ => rfl⟩
    · exact hold i hi
  · rw [List.mem_singleton.mp hi]
    exact hunknown

theorem wlp_newItem {get : Getter} (hget : GetterSpec be get) (h : Sound be x st) {m : Map} (hm : m ∈ st.created)
    {key : BV} {hint : Option BV} {condition : BoolAst} (hc : key.Closed st.next)
    (hk : key.size = (st.heap m).mapMeta.keySize) (hhint : ∀ t ∈ hint, t.Closed st.next)
    (hcond : condition.Closed st.next) :
    replay.wlp (newItem be get condition m key hint (listed be st.heap m)) (Answered be x st m key condition) x st := by
  have hmap := h.map m hm
  unfold newItem
  refine Replay.wlp_bind (wlp_object (Replay.wlp_bind (wlp_invariantConjunctions ?_)))
  refine Replay.wlp_bind (wlp_freshSym (Replay.wlp_bind (wlp_freshSym ?_)))
  refine Replay.wlp_bind (Replay.wlp_emit fun hok => ?_)
  have hok : FreshOk x m key (listed be st.heap m) hint condition (st.heap m.oldestVersion).invariants :=
    ⟨hok.1, hok.2.1, hok.2.2.1, hok.2.2.2⟩
  have hq := quiet_hinted h hm hc hk hhint hcond hok.hinted
  have hitem := freshItem_ok (m := m) hc hk
  have hvalue := item_freshItem h hm hk
  refine Replay.wlp_bind (wlp_addConstraints ?_)
  refine Replay.wlp_bind (wlp_addItem ?_)
  -- the item is stored: both the state and the execution have it
  have hright : (freshExec x st m key).Right ((freshExec x st m key).content m.oldestVersion) (freshItem st m key) := by
    have hkey : (freshItem st m key).key.eval (freshExec x st m key).env = key.eval x.env :=
      (freshExec_agree x st m key).eval_bv hc
    rw [Exec.Right, hvalue, hkey]
    exact hok.unchanged
  have hs₁ := (hq.sound h).withItem hm hitem hright
  have hl₁ : Later x st (freshExec x st m key) ((hinted be st m key hint condition).withItem m (freshItem st m key)) :=
    hq.later.trans (withItem_later m (freshItem st m key))
  refine Replay.wlp_bind (Replay.wlp_mono (wlp_freshInvariants hget h hm hc hk hcond hok hs₁ hl₁ hitem hvalue) ?_)
  rintro ts x₂ st₂ ⟨hs₂, hl₂, hts⟩
  replace hl₂ : Later (freshExec x st m key)
    ((hinted be st m key hint condition).withItem m (freshItem st m key)) x₂ st₂ := hl₂
  have hlater := hl₁.trans hl₂
  refine Replay.wlp_bind (wlp_isNotOverfull hs₂ (hlater.created m hm) fun full st₃ hq₃ hclosed heval => ?_)
  have hl₃ := hl₂.trans hq₃.later
  have hitem₃ := hitem.mono hl₃.next
  have hvalue₃ : x₂.item (freshItem st m key) = x.content m (key.eval x.env) := by
    rw [hl₂.agree.item hitem, hvalue]
  have hkey₃ : key.eval x₂.env = key.eval x.env := hlater.agree.eval_bv hc
  have hall := hlater.trans hq₃.later
  refine Replay.wlp_bind (wlp_addHolding be _ (fun c hcs => ?_) fun st₄ hq₄ => Replay.wlp_pure ?_)
  rotate_left
  · have hend := hall.trans hq₄.later
    refine ⟨hq₄.sound (hq₃.sound hs₂), hend, hitem₃.value.mono hq₄.next, rfl, hitem₃.present.mono hq₄.next,
      fun _ => hvalue₃, fun _ => ?_⟩
    refine Or.inr (Or.inl ⟨freshItem st m key, ?_, hkey₃⟩)
    have hstored : freshItem st m key ∈
        (((hinted be st m key hint condition).withItem m (freshItem st m key)).heap m.oldestVersion).knownItems := by
      simp [State.withItem, State.put]
    exact ((hl₃.trans hq₄.later).known _ (hl₁.created _ hmap.oldest)).subset hstored
  · rw [List.mem_append, List.mem_append] at hcs
    rcases hcs with (hcs | hcs) | hcs
    · obtain ⟨i, hi, rfl⟩ := List.mem_map.mp hcs
      have hi' := hok.same h hm hall hitem₃ hvalue₃ hkey₃ i hi
      exact ⟨same_closed hitem₃ hi'.1, same_eval hi'.2⟩
    · obtain ⟨hcl, hev⟩ := hts c hcs
      exact ⟨hcl.mono hq₃.next, hev⟩
    · rw [List.mem_singleton.mp hcs]
      exact ⟨hclosed, heval⟩

/-! ### get -/

/-- What is answered from a later state is answered. -/
theorem Answered.of_quiet {m : Map} {key : BV} {condition : BoolAst} {r : BV × BoolAst} {st₁ : State}
    (q : Quiet be x st x st₁) (ha : Answered be x st₁ m key condition r x' st') :
    Answered be x st m key condition r x' st' where
  sound := ha.sound
  later := q.later.trans ha.later
  value := ha.value
  size := by rw [ha.size, q.heap.obj m]
  present := ha.present
  right := ha.right
  settled := ha.settled

/-- A map whose length is the constant zero holds nothing. -/
theorem Sound.absent_of_empty (h : Sound be x st) {m : Map} (hm : m ∈ st.created)
    (he : isDefinitelyEmpty (st.heap m) = true) {k : ℕ} (hk : k < 2 ^ (st.heap m).mapMeta.keySize) :
    (x.content m k).2 = false := by
  have hzero : (x.content m).size (st.heap m).mapMeta.keySize = 0 := by
    rw [← (h.map m hm).size, of_decide_eq_true he, Claripy.eval_bvv, Nat.zero_mod]
  rw [Content.size, Finset.card_eq_zero, Finset.filter_eq_empty_iff] at hzero
  simpa using hzero (Finset.mem_range.mpr hk)

/-- A key that a map does not hold is settled. -/
theorem Sound.settled_of_absent (h : Sound be x st) {m : Map} (hm : m ∈ st.created) {k : ℕ}
    (hk : k < 2 ^ (st.heap m).mapMeta.keySize) (ha : (x.content m k).2 = false) : Settled x st m k := by
  by_cases hsame : x.content m k = x.content m.oldestVersion k
  · exact Or.inr (Or.inr (hsame ▸ ha))
  · exact (h.map m hm).changed k hk hsame

/-- The execution and the state in which a value that is never read has a symbol. -/
theorem quiet_badvalue (m : Map) (key : BV) : Quiet be x st
    { x with bv := Function.update x.bv st.next (x.content m (key.eval x.env)).1 } { st with next := st.next + 1 } where
  next := Nat.le_succ _
  agree := ⟨fun _ hk => Function.update_of_ne (by omega) _ _, fun _ _ => rfl⟩
  content := rfl
  execMaps := rfl
  created := rfl
  table := rfl
  heap := SameList.refl st.heap
  constraints _ hc := Or.inl hc

theorem wlp_badvalue (h : Sound be x st) {m : Map} (hm : m ∈ st.created) {key : BV}
    (hk : key.size = (st.heap m).mapMeta.keySize) {Q : BV → Exec → State → Prop}
    (hq : ∀ t x' st', Quiet be x st x' st' → t.Closed st'.next → t.size = (st.heap m).mapMeta.valueSize →
      t.eval x'.env = (x.content m (key.eval x.env)).1 → Q t x' st') :
    replay.wlp (badvalue m key) Q x st := by
  refine Replay.wlp_bind (wlp_object (Replay.wlp_bind (wlp_freshSym (Replay.wlp_bind (Replay.wlp_emit fun _ => ?_)))))
  refine Replay.wlp_pure (hq _ _ _ (quiet_badvalue m key) ?_ rfl ?_)
  · exact Nat.lt_succ_self st.next
  · have hbound := (h.map m hm).bound _ (hk ▸ key.eval_lt x.env)
    rw [eval_sym]
    simp only [replay, Exec.step, Function.update_self, Nat.mod_eq_of_lt hbound]

theorem wlp_getStep {get : Getter} (hget : GetterSpec be get) (h : Sound be x st) {m : Map} (hm : m ∈ st.created)
    {key : BV} {hint : Option BV} {condition : BoolAst} (hc : key.Closed st.next)
    (hk : key.size = (st.heap m).mapMeta.keySize) (hhint : ∀ t ∈ hint, t.Closed st.next)
    (hcond : condition.Closed st.next) :
    replay.wlp (getStep be get condition m key hint) (Answered be x st m key condition) x st := by
  have hmap := h.map m hm
  have hlt : key.eval x.env < 2 ^ (st.heap m).mapMeta.keySize := hk ▸ key.eval_lt x.env
  unfold getStep
  refine Replay.wlp_bind (wlp_object ?_)
  split
  · next hempty =>
    have habsent := h.absent_of_empty hm hempty hlt
    refine Replay.wlp_bind (wlp_badvalue h hm hk fun t x' st' q ht hsize heval => Replay.wlp_pure ?_)
    refine ⟨q.sound h, q.later, ht, hsize, Claripy.closed_boolV _, fun _ => ?_, fun _ => ?_⟩
    · rw [heval, Claripy.eval_boolV, ← habsent]
    · exact h.settled_later q.later hm (h.settled_of_absent hm hlt habsent)
  · refine Replay.wlp_bind (wlp_knownItems fun st₁ q hcs hnext => ?_)
    have h₁ := q.sound h
    have hm₁ := q.later.created m hm
    have hunknownOk := h.unknown_ok hm
    refine Replay.wlp_bind (Replay.wlp_read ?_)
    split
    · next i hmatch =>
      obtain ⟨hfirst, hkey⟩ := getExactMatch_spec h₁.constraints hmatch
      rw [firstOf_append, Option.or_eq_some_iff] at hfirst
      split
      · next hi =>
        -- the first known item of the term
        have hfirst : firstOf (listed be st.heap m) i.key = some i := by
          rcases hfirst with hfirst | ⟨hnone, -⟩
          · exact hfirst
          · exact absurd rfl (firstOf_eq_none.mp hnone i hi)
        have hiok := hmap.items i hi
        refine Replay.wlp_pure ⟨h₁, q.later, hiok.value.mono q.next, hiok.valueSize, hiok.present.mono q.next, ?_, ?_⟩
        · intro ha
          rw [hkey ha]
          exact hmap.first _ _ hfirst
        · intro ha
          rw [hkey ha]
          exact h.settled_later q.later hm (hmap.settled i hi)
      · next hi =>
        have hunknown : i = (st.heap m).unknownItem := by
          rcases hfirst with hfirst | ⟨-, hfirst⟩
          · exact absurd (firstOf_mem hfirst) hi
          · exact List.mem_singleton.mp (firstOf_mem hfirst)
        subst hunknown
        refine Replay.wlp_bind (Replay.wlp_emit fun hok => Replay.wlp_pure ?_)
        refine ⟨h₁, q.later, hunknownOk.value.mono q.next, hunknownOk.valueSize, hunknownOk.present.mono q.next, ?_, ?_⟩
        · intro ha
          rw [hok ha, hkey ha]
          exact h.unknown_right hm
        · intro ha
          refine Or.inl ?_
          rw [q.heap.obj, ← hmap.unknownItem]
          exact (hkey ha).symm
    · have hm' : listed be st.heap m = listed be st₁.heap m := (q.heap.listed m).symm
      rw [hm']
      have hnew := wlp_newItem hget h₁ hm₁ (hnext ▸ hc) (by rw [q.heap.obj m]; exact hk)
        (fun t ht => hnext ▸ hhint t ht) (hnext ▸ hcond : condition.Closed st₁.next)
      exact Replay.wlp_mono hnew fun r x' st' ha => ha.of_quiet q

/-- **`get` answers what the map holds.** -/
theorem getterSpec_get (be : Backend) : ∀ fuel, GetterSpec be (Map.get be fuel)
  | 0 => fun _ _ _ _ _ _ _ _ _ _ _ _ => Replay.wlp_fail
  | fuel + 1 => fun _ _ _ _ _ _ h hm hc hk hhint hcond => wlp_getStep (getterSpec_get be fuel) h hm hc hk hhint hcond

end Tool
end Klint
