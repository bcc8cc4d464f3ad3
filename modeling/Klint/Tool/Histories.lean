/-
# Histories of ghost maps

What one state's ghost maps go through: the calls of a run, `known_items`, merges, and steps of the
executor that touch no map. `new`, `set` and `remove` make one object each, and what they do before and
after that is what a `get` or a `forall` does (`new_eq`, `set_eq`, `remove_eq`).
-/
import Klint.Tool.Merge
import Klint.Tool.Updates

namespace Klint
namespace Tool

open Logged

/-! ### Making objects -/

theorem layer_ne_oldestVersion (id : ℕ) (previous m : Map) : Map.layer id previous ≠ m.oldestVersion := by
  obtain ⟨j, hj⟩ := oldestVersion_eq m
  rw [hj]
  exact fun he => by cases he

/-- A field that a replaced object keeps. -/
theorem put_field {β : Type} (f : MapObj → β) (st : State) {m : Map} {o : MapObj} (h : f o = f (st.heap m)) (m' : Map) :
    f ((st.put m o).heap m') = f (st.heap m') := by
  by_cases hm : m' = m
  · simp only [State.put, hm, Function.update_self, h]
  · simp only [State.put, Function.update_of_ne hm]

section Making

variable {be : Backend} {R : State → State → Prop} {fuel : ℕ} {st st' : State} {l : List Event}

/-- A new map starts without items and with nothing cached. -/
theorem new_eq (hR : Assertions be R) {mapMeta : MapMeta} {given : Option (BV × List BoolAst)} {m : Map}
    (h : Map.new be fuel mapMeta given st = some (m, st', l)) : ∃ length unknown, m = .oldest st.created.length ∧
      R ({ st with next := st.next + 3 }.withMap m ⟨mapMeta, length, [], [], unknown, (0, [])⟩) st' := by
  unfold Map.new at h
  obtain ⟨id, s₁, l₁, _, hid, h, -⟩ := bind_eq_some.mp h
  cases hid
  obtain ⟨uk, s₂, l₂, _, huk, h, -⟩ := bind_eq_some.mp h
  cases huk
  obtain ⟨uv, s₃, l₃, _, huv, h, -⟩ := bind_eq_some.mp h
  cases huv
  obtain ⟨up, s₄, l₄, _, hup, h, -⟩ := bind_eq_some.mp h
  cases hup
  obtain ⟨_, s₅, l₅, _, hcreate, h, -⟩ := bind_eq_some.mp h
  cases hcreate
  obtain ⟨_, s₆, l₆, _, hemit, h, -⟩ := bind_eq_some.mp h
  cases hemit
  obtain ⟨ts, s₇, l₇, _, hgive, h, -⟩ := bind_eq_some.mp h
  cases h
  refine ⟨_, _, rfl, within_mapM hR.trans hR.refl (fun inv => ?_) _ _ _ _ _ hgive⟩
  refine hR.bind (hR.newInvariant _ _) fun inv => hR.bind (hR.object _) fun self => ?_
  exact hR.bind (hR.emit _) fun _ => hR.addInvariantConjunction _ inv

/-- `with_item_layer` makes a layer in the place of the last one, or a layer over the map. -/
theorem withItemLayer_eq {m m' : Map} {item : MapItem} {change : BV}
    (h : withItemLayer be m item change st = some (m', st', l)) :
    let self := st.heap m
    (∃ id previous, m = .layer id previous ∧ m.flattens self item.key = true ∧
      m' = .layer st.created.length previous ∧ st' = st.withMap m'
        { self with length := be.add self.length change, knownItems := self.knownItems ++ [item] }) ∨
    (m.flattens self item.key = false ∧ m' = .layer st.created.length m ∧ st' = st.withMap m'
      { self with
        length := be.add self.length change, invariants := [], knownItems := [item], knownItemsCache := (0, []) }) := by
  unfold withItemLayer at h
  obtain ⟨self, s₁, l₁, _, hself, h, -⟩ := bind_eq_some.mp h
  cases hself
  obtain ⟨id, s₂, l₂, _, hid, h, -⟩ := bind_eq_some.mp h
  cases hid
  dsimp only at h ⊢
  cases m with
  | oldest id =>
    obtain ⟨_, s₃, l₃, _, hcreate, h, -⟩ := bind_eq_some.mp h
    cases hcreate
    obtain ⟨_, s₄, l₄, _, hemit, h, -⟩ := bind_eq_some.mp h
    cases hemit
    cases h
    exact Or.inr ⟨rfl, rfl, rfl⟩
  | layer id previous =>
    have hflattens : ∀ b, (!item.key.symbolic && (st.heap (.layer id previous)).knownItems.all fun i =>
        !i.key.symbolic && decide (i.key ≠ item.key)) = b →
        (Map.layer id previous).flattens (st.heap (.layer id previous)) item.key = b := fun _ hb => hb
    cases hflat : !item.key.symbolic && (st.heap (.layer id previous)).knownItems.all fun i =>
        !i.key.symbolic && decide (i.key ≠ item.key) with
    | true =>
      rw [hflat] at h
      obtain ⟨_, s₃, l₃, _, hcreate, h, -⟩ := bind_eq_some.mp h
      cases hcreate
      obtain ⟨_, s₄, l₄, _, hemit, h, -⟩ := bind_eq_some.mp h
      cases hemit
      cases h
      exact Or.inl ⟨id, previous, rfl, hflattens true hflat, rfl, rfl⟩
    | false =>
      rw [hflat] at h
      obtain ⟨_, s₃, l₃, _, hcreate, h, -⟩ := bind_eq_some.mp h
      cases hcreate
      obtain ⟨_, s₄, l₄, _, hemit, h, -⟩ := bind_eq_some.mp h
      cases hemit
      cases h
      exact Or.inr ⟨hflattens false hflat, rfl, rfl⟩

/-- A definitely empty map is read without a look at its items. -/
theorem get_of_empty {m : Map} {key : BV} {hint : Option BV} {condition : BoolAst} {r : BV × BoolAst}
    (he : isDefinitelyEmpty (st.heap m) = true) (h : Map.get be fuel m key hint condition st = some (r, st', l)) :
    st'.heap = st.heap := by
  cases fuel with
  | zero => cases h
  | succ fuel =>
    change getStep be (Map.get be fuel) condition m key hint st = _ at h
    unfold getStep at h
    obtain ⟨self, s₁, l₁, _, hself, h, -⟩ := bind_eq_some.mp h
    cases hself
    rw [if_pos he] at h
    obtain ⟨value, s₂, l₂, _, hvalue, h, -⟩ := bind_eq_some.mp h
    cases hvalue
    cases h
    rfl

theorem within_getIfConstant (cond : BoolAst) : Within Eq (getIfConstant be cond) := by
  unfold getIfConstant
  refine within_bind (R := Eq) (fun _ _ _ => Eq.trans) (within_read (R := Eq) Eq.refl) fun st => ?_
  split
  · exact within_pure (R := Eq) Eq.refl _
  · exact within_pure (R := Eq) Eq.refl _
  · exact within_pure (R := Eq) Eq.refl _
  · exact within_fail

/-- A `set` reads the map and makes a layer. -/
theorem set_eq (hR : Readings be R) {m m' : Map} {key value : BV}
    (h : Map.set be fuel m key value st = some (m', st', l)) : ∃ st₁ l₁ change, R st st₁ ∧
      (isDefinitelyEmpty (st.heap m) = true → st₁.heap = st.heap) ∧
      withItemLayer be m ⟨key, value, .boolV true⟩ change st₁ = some (m', st', l₁) := by
  unfold Map.set at h
  obtain ⟨r, s₁, l₁, _, hget, h, -⟩ := bind_eq_some.mp h
  obtain ⟨const, s₂, l₂, _, hconst, h, -⟩ := bind_eq_some.mp h
  have hsame : s₁ = s₂ := within_getIfConstant r.2 s₁ const s₂ l₂ hconst
  obtain ⟨self, s₃, l₃, l₄, hself, h, -⟩ := bind_eq_some.mp h
  cases hself
  rw [← hsame] at h
  exact ⟨s₁, l₄, _, hR.get fuel m key none _ _ _ _ _ hget, fun he => get_of_empty he hget, h⟩

/-- A `remove` reads the map and makes a layer, with a fresh symbol for the value. -/
theorem remove_eq (hR : Readings be R) {m m' : Map} {key : BV}
    (h : Map.remove be fuel m key st = some (m', st', l)) : ∃ st₁ l₁ change value, R st st₁ ∧
      (isDefinitelyEmpty (st.heap m) = true → st₁.heap = st.heap) ∧
      withItemLayer be m ⟨key, value, .boolV false⟩ change st₁ = some (m', st', l₁) := by
  unfold Map.remove at h
  obtain ⟨r, s₁, l₁, _, hget, h, -⟩ := bind_eq_some.mp h
  obtain ⟨value, s₂, l₂, _, hvalue, h, -⟩ := bind_eq_some.mp h
  obtain ⟨self, s₃, l₃, l₄, hself, h, -⟩ := bind_eq_some.mp h
  cases hself
  refine ⟨s₂, l₄, _, value, hR.trans _ _ _ (hR.get fuel m key none _ _ _ _ _ hget)
    (hR.badvalue m key _ _ _ _ hvalue), fun he => ?_, h⟩
  have hheap : s₂.heap = s₁.heap := by
    cases hvalue
    rfl
  exact hheap.trans (get_of_empty he hget)

end Making

/-! ### The objects of a state -/

/-- Each object is numbered by the objects before it, and so is the one below it. -/
structure Linked (st : State) : Prop where
  numbered : ∀ m ∈ st.created, m.id < st.created.length
  below : ∀ id previous, .layer id previous ∈ st.created → previous ∈ st.created

namespace Linked

variable {st st' : State}

theorem of_created (h : Linked st) (hcreated : st'.created = st.created) : Linked st' where
  numbered := by
    rw [hcreated]
    exact h.numbered
  below := by
    rw [hcreated]
    exact h.below

theorem not_mem (h : Linked st) {new : Map} (hid : new.id = st.created.length) : new ∉ st.created := by
  intro hm
  have hlt := h.numbered new hm
  omega

theorem withMap (h : Linked st) {new : Map} {o : MapObj} (hid : new.id = st.created.length)
    (hbelow : ∀ id previous, new = .layer id previous → previous ∈ st.created) : Linked (st.withMap new o) where
  numbered m hm := by
    rcases List.mem_cons.mp hm with rfl | hm
    · exact hid.trans_lt (Nat.lt_succ_self _)
    · exact (h.numbered m hm).trans (Nat.lt_succ_self _)
  below id previous hm := by
    rcases List.mem_cons.mp hm with heq | hm
    · exact List.mem_cons_of_mem _ (hbelow id previous heq.symm)
    · exact List.mem_cons_of_mem _ (h.below id previous hm)

theorem initial (symbols : ℕ) (maps : List (ℕ × Map)) : Linked (State.initial symbols maps) where
  numbered _ hm := by cases hm
  below _ _ hm := by cases hm

end Linked

/-! ### Layers are kept -/

/-- The same maps, of the same sizes and with the same own items in the layers. -/
def SameLayers (st st' : State) : Prop :=
  st'.created = st.created ∧ (∀ m, (st'.heap m).mapMeta = (st.heap m).mapMeta) ∧
    ∀ id previous, (st'.heap (.layer id previous)).knownItems = (st.heap (.layer id previous)).knownItems

theorem assertions_sameLayers (be : Backend) : Assertions be SameLayers where
  refl _ := ⟨rfl, fun _ => rfl, fun _ _ => rfl⟩
  trans _ _ _ h h' := ⟨h'.1.trans h.1, fun m => (h'.2.1 m).trans (h.2.1 m),
    fun id previous => (h'.2.2 id previous).trans (h.2.2 id previous)⟩
  next _ := ⟨rfl, fun _ => rfl, fun _ _ => rfl⟩
  constraints _ _ := ⟨rfl, fun _ => rfl, fun _ _ => rfl⟩
  knownItems st m := by
    obtain ⟨-, hs⟩ := knownItemsIn_spec be st.heap m
    refine ⟨rfl, fun m' => ?_, fun id previous => ?_⟩
    · change ((knownItemsIn be st.heap m).2 m').mapMeta = _
      rw [hs.obj m']
    · change ((knownItemsIn be st.heap m).2 (.layer id previous)).knownItems = _
      rw [hs.obj (.layer id previous)]
  addItem st m _ := by
    refine ⟨rfl, put_field MapObj.mapMeta st rfl, fun id previous => congrArg MapObj.knownItems ?_⟩
    exact Function.update_of_ne (layer_ne_oldestVersion id previous m) _ _
  giving st m inv := by
    refine ⟨rfl, put_field MapObj.mapMeta st rfl, fun id previous => ?_⟩
    refine put_field MapObj.knownItems st ?_ (.layer id previous)
    rfl

theorem SameLayers.flattens {st st' : State} (h : SameLayers st st') (m : Map) (key : BV) :
    m.flattens (st'.heap m) key = m.flattens (st.heap m) key := by
  cases m with
  | oldest id => rfl
  | layer id previous => rw [Map.flattens, Map.flattens, h.2.2 id previous]

/-! ### Steps -/

/-- A step of the state's ghost maps. -/
inductive Op
  | call (c : Call)
  | knownItems (m : Map)
  | merge (m : Map) (others : List Other) (conds : List BoolAst)
  /-- A step of the executor that touches no map. -/
  | elsewhere

/-- The keys of the layers' own items have the map's size. -/
def KeysSized (heap : Map → MapObj) : Map → Prop
  | .oldest _ => True
  | .layer id previous =>
    (∀ i ∈ (heap (.layer id previous)).knownItems, i.key.size = (heap (.layer id previous)).mapMeta.keySize) ∧
      KeysSized heap previous

namespace Op

/-- The step may be made: `merge` is for maps that `can_merge` accepts. -/
def Legal (st : State) : Op → Prop
  | call c => c.Legal st
  | knownItems m => m ∈ st.created
  | merge m others _ =>
    m ∈ st.created ∧ m.canMerge st.heap others = some true ∧ ∀ o ∈ others, KeysSized o.heap o.map
  | elsewhere => True

/-- The step's function returned, in `st'`. -/
def Returned (be : Backend) (fuel : ℕ) (st st' : State) : Op → Prop
  | call c => ∃ l, c.Returned be fuel st st' l
  | knownItems m => ∃ items l, Tool.knownItems be m st = some (items, st', l)
  | merge m others conds => ∃ l, Map.merge be fuel conds m others st = some ((), st', l)
  | elsewhere => st'.heap = st.heap ∧ st'.created = st.created

end Op

/-- A history whose steps all meet a condition. -/
inductive History (be : Backend) (meets : State → Op → Prop) (init : State) : State → Prop
  | init : History be meets init init
  | step {st st' : State} (op : Op) (fuel : ℕ) : History be meets init st → op.Legal st →
    op.Returned be fuel st st' → meets st op → History be meets init st'

end Tool
end Klint
