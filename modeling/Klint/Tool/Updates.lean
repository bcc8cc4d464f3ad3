/-
# Updates of the plugin's maps

`GhostMapsPlugin.set` and `remove` (`ghostmaps.py`, lines 513 to 517) put the map that `Map.set` or
`Map.remove` makes into the plugin's table. The version number of the new map is one more than that
of the map before, or the same: `with_item_layer` extends the last layer when it can, and the
extended layer takes the place of the one that it was made from (`NextVersion`).
-/
import Klint.Tool.Frames
import Klint.Tool.Runs

namespace Klint
namespace Tool

/-! ### The table -/

/-- `self[obj] = map` -/
def setItem (obj : ℕ) (m : Map) : List (ℕ × Map) → List (ℕ × Map)
  | [] => [(obj, m)]
  | p :: maps => if p.1 = obj then (obj, m) :: maps else p :: setItem obj m maps

theorem lookup_cons_eq (o : ℕ) (p : ℕ × Map) (maps : List (ℕ × Map)) :
    (p :: maps).lookup o = if o = p.1 then some p.2 else maps.lookup o := by
  by_cases h : o = p.1
  · rw [List.lookup_cons, if_pos h, beq_iff_eq.mpr h]
  · rw [List.lookup_cons, if_neg h, beq_eq_false_iff_ne.mpr h]

theorem lookup_setItem (obj : ℕ) (m : Map) (o : ℕ) : ∀ maps : List (ℕ × Map),
    (setItem obj m maps).lookup o = if o = obj then some m else maps.lookup o
  | [] => lookup_cons_eq o (obj, m) []
  | p :: maps => by
    rw [setItem]
    split
    · next hp =>
      rw [lookup_cons_eq, lookup_cons_eq, hp]
      split
      · rfl
      · rfl
    · next hp =>
      rw [lookup_cons_eq, lookup_cons_eq, lookup_setItem obj m o maps]
      split
      · next ho => rw [if_neg fun hobj => hp (ho.symm.trans hobj)]
      · rfl

theorem target_setItem (obj : ℕ) (m : Map) (maps : List (ℕ × Map)) (r : MapRef) :
    target (setItem obj m maps) r = if r = .obj obj then some m else target maps r := by
  cases r with
  | map m' => rfl
  | obj o => simp only [target, lookup_setItem, MapRef.obj.injEq]

namespace GhostMapsPlugin

variable (be : Backend) (fuel : ℕ)

/-- `set` -/
def set (obj : ℕ) (key value : BV) : GM Unit := do
  let m ← targetMap (.obj obj)
  let m ← Map.set be fuel m key value
  Logged.modify fun st => { st with maps := setItem obj m st.maps }

/-- `remove` -/
def remove (obj : ℕ) (key : BV) : GM Unit := do
  let m ← targetMap (.obj obj)
  let m ← Map.remove be fuel m key
  Logged.modify fun st => { st with maps := setItem obj m st.maps }

end GhostMapsPlugin

/-- A `set` or a `remove` on the plugin. -/
inductive Update
  | set (obj : ℕ) (key value : BV)
  | remove (obj : ℕ) (key : BV)

namespace Update

def obj : Update → ℕ
  | set obj _ _ => obj
  | remove obj _ => obj

def key : Update → BV
  | set _ key _ => key
  | remove _ key => key

def apply (be : Backend) (fuel : ℕ) : Update → GM Unit
  | set obj key value => GhostMapsPlugin.set be fuel obj key value
  | remove obj key => GhostMapsPlugin.remove be fuel obj key

/-- The update may be made on a map: the map is there, and the terms are over the symbols made so
far and of the map's sizes. -/
def Legal (st : State) (m : Map) : Update → Prop
  | set _ key value => (Call.set m key value m).Legal st
  | remove _ key => (Call.remove m key m).Legal st

/-- What the update writes under its key. -/
def result (x : Exec) (c : Content) : Update → ℕ × Bool
  | set _ _ value => (value.eval x.env, true)
  | remove _ key => ((c (key.eval x.env)).1, false)

end Update

/-! ### The next version -/

/-- The test of `with_item_layer`: the last layer is extended. -/
def Map.flattens (m : Map) (self : MapObj) (key : BV) : Bool :=
  !m.isOldest && (!key.symbolic && self.knownItems.all fun i => !i.key.symbolic && decide (i.key ≠ key))

/-- The version number that the map gets by an update of a key. -/
def Map.versionAfter (m : Map) (self : MapObj) (key : BV) : ℕ :=
  if m.flattens self key then m.version else 1 + m.version

/-- Each version number means what it meant, unless it is read as the new map. -/
def NextVersion (m : Map) (self : MapObj) (key : BV) (m' : Map) : Prop :=
  ∀ v, m'.atVersion v = m.atVersion v ∨
    m'.atVersion v = m' ∧ m.atVersion v = m ∧ ∀ n ∈ v, m.versionAfter self key ≤ n

theorem back_of_version_le {m : Map} {n : ℕ} (h : m.version ≤ n) : m.atVersion (some n) = m := by
  rw [Map.atVersion, Nat.sub_eq_zero_of_le h, Map.back]

theorem atVersion_layer {previous : Map} (id : ℕ) {n : ℕ} (h : n < 1 + previous.version) :
    (Map.layer id previous).atVersion (some n) = previous.atVersion (some n) := by
  rw [Map.atVersion, Map.version, Nat.add_comm 1, Nat.succ_sub (by omega), Map.back, Map.atVersion]

/-- A layer over the map. -/
theorem nextVersion_over (m : Map) (self : MapObj) (key : BV) (id : ℕ) : NextVersion m self key (.layer id m) := by
  have hle : m.versionAfter self key ≤ 1 + m.version := by
    unfold Map.versionAfter
    split
    · omega
    · exact le_rfl
  intro v
  rcases v with _ | n
  · exact Or.inr ⟨rfl, rfl, fun _ hn => by cases hn⟩
  · by_cases h : n < 1 + m.version
    · exact Or.inl (atVersion_layer id h)
    · refine Or.inr ⟨back_of_version_le (not_lt.mp h), back_of_version_le (by omega), fun k hk => ?_⟩
      cases hk
      exact hle.trans (not_lt.mp h)

/-- The last layer, extended. -/
theorem nextVersion_extended {id previous} {self : MapObj} {key : BV} (id' : ℕ)
    (h : (Map.layer id previous).flattens self key = true) :
    NextVersion (.layer id previous) self key (.layer id' previous) := by
  have hafter : (Map.layer id previous).versionAfter self key = 1 + previous.version := by
    rw [Map.versionAfter, if_pos h, Map.version]
  intro v
  rcases v with _ | n
  · exact Or.inr ⟨rfl, rfl, fun _ hn => by cases hn⟩
  · by_cases hn : n < 1 + previous.version
    · exact Or.inl ((atVersion_layer id' hn).trans (atVersion_layer id hn).symm)
    · refine Or.inr ⟨back_of_version_le (not_lt.mp hn), back_of_version_le (not_lt.mp hn), fun k hk => ?_⟩
      cases hk
      exact hafter.le.trans (not_lt.mp hn)

variable {be : Backend} {x x' : Exec} {st st' : State} {fuel : ℕ}

/-- The own items of a layer that is extended are those that it had before the key was read. -/
theorem wlp_withItemLayer_next {m : Map} {self : MapObj} {item : MapItem} {change : BV}
    (h : self.knownItems <+: (st.heap m).knownItems) :
    replay.wlp (withItemLayer be m item change) (fun m' _ _ => NextVersion m self item.key m') x st := by
  unfold withItemLayer
  refine Replay.wlp_bind (wlp_object ?_)
  refine Replay.wlp_bind (Replay.wlp_bind (Replay.wlp_read (Replay.wlp_pure ?_)))
  dsimp only
  split
  · next id previous hflat =>
    refine Replay.wlp_bind (Replay.wlp_modify ?_)
    refine Replay.wlp_bind (Replay.wlp_emit fun _ => Replay.wlp_pure ?_)
    refine nextVersion_extended _ ?_
    rw [Bool.and_eq_true, List.all_eq_true] at hflat
    rw [Map.flattens, Bool.and_eq_true, Bool.and_eq_true, List.all_eq_true]
    exact ⟨rfl, hflat.1, fun i hi => hflat.2 i (h.subset hi)⟩
  · refine Replay.wlp_bind (Replay.wlp_modify ?_)
    refine Replay.wlp_bind (Replay.wlp_emit fun _ => Replay.wlp_pure ?_)
    exact nextVersion_over _ self item.key _

section Next

variable (h : Sound be x st) {m : Map} (hm : m ∈ st.created) {key : BV} (hc : key.Closed st.next)
  (hk : key.size = (st.heap m).mapMeta.keySize)
include h hm hc hk

theorem wlp_set_next (value : BV) :
    replay.wlp (Map.set be fuel m key value) (fun m' _ _ => NextVersion m (st.heap m) key m') x st := by
  unfold Map.set
  have hget := getterSpec_get be fuel m key none (.boolV true) x st h hm hc hk (fun t ht => by cases ht)
    (Claripy.closed_boolV true)
  refine Replay.wlp_bind (Replay.wlp_mono hget ?_)
  intro r x₁ st₁ hr
  refine Replay.wlp_bind (wlp_getIfConstant hr.sound.constraints fun const _ => ?_)
  refine Replay.wlp_bind (wlp_object ?_)
  exact wlp_withItemLayer_next (hr.later.known m hm)

theorem wlp_remove_next :
    replay.wlp (Map.remove be fuel m key) (fun m' _ _ => NextVersion m (st.heap m) key m') x st := by
  unfold Map.remove
  have hget := getterSpec_get be fuel m key none (.boolV true) x st h hm hc hk (fun t ht => by cases ht)
    (Claripy.closed_boolV true)
  refine Replay.wlp_bind (Replay.wlp_mono hget ?_)
  intro r x₁ st₁ hr
  have hm₁ := hr.later.created m hm
  have hk₁ : key.size = (st₁.heap m).mapMeta.keySize := by rw [hr.later.mapMeta m hm, hk]
  refine Replay.wlp_bind (wlp_badvalue hr.sound hm₁ hk₁ fun t x₂ st₂ q _ _ _ => ?_)
  refine Replay.wlp_bind (wlp_object ?_)
  exact wlp_withItemLayer_next ((hr.later.trans q.later).known m hm)

end Next

/-! ### Oldest versions are kept -/

/-- The oldest versions, and their invariants. -/
def oldestOnes (st : State) : List Map × (ℕ → List MapInvariant) :=
  (st.created.filter Map.isOldest, fun id => (st.heap (.oldest id)).invariants)

/-- The same oldest versions. -/
def SameOldest (st st' : State) : Prop := oldestOnes st' = oldestOnes st

theorem readings_sameOldest (be : Backend) : Readings be SameOldest where
  refl _ := rfl
  trans _ _ _ h h' := h'.trans h
  next _ := rfl
  constraints _ _ := rfl
  knownItems st m := by
    refine Prod.ext rfl (funext fun id => ?_)
    obtain ⟨-, hs⟩ := knownItemsIn_spec be st.heap m
    change ((knownItemsIn be st.heap m).2 (.oldest id)).invariants = (st.heap (.oldest id)).invariants
    rw [hs.obj (.oldest id)]
  addItem st m item := by
    refine Prod.ext rfl (funext fun id => ?_)
    by_cases h : Map.oldest id = m.oldestVersion
    · simp only [oldestOnes, State.put, h, Function.update_self]
    · simp only [oldestOnes, State.put, Function.update_of_ne h]

/-- A new layer is no oldest version. -/
theorem within_withItemLayer (m : Map) (item : MapItem) (change : BV) :
    Logged.Within SameOldest (withItemLayer be m item change) := by
  have hR := readings_sameOldest be
  have hcreate : ∀ id previous o, Logged.Within SameOldest (create (.layer id previous) o) := by
    refine fun id previous o => Logged.within_modify fun st => Prod.ext rfl (funext fun j => ?_)
    have hne : Map.oldest j ≠ .layer id previous := fun he => by cases he
    simp only [oldestOnes, State.put, Function.update_of_ne hne]
  unfold withItemLayer
  refine hR.bind (hR.object m) fun self => ?_
  refine hR.bind (hR.bind hR.read fun _ => hR.pure _) fun id => ?_
  dsimp only
  split
  · exact hR.bind (hcreate _ _ _) fun _ => hR.bind (hR.emit _) fun _ => hR.pure _
  · exact hR.bind (hcreate _ _ _) fun _ => hR.bind (hR.emit _) fun _ => hR.pure _

theorem within_set (m : Map) (key value : BV) : Logged.Within SameOldest (Map.set be fuel m key value) := by
  have hR := readings_sameOldest be
  unfold Map.set
  refine hR.bind (hR.get fuel m key none _) fun r => ?_
  refine hR.bind (hR.getIfConstant r.2) fun const => ?_
  exact hR.bind (hR.object m) fun self => within_withItemLayer m _ _

theorem within_remove (m : Map) (key : BV) : Logged.Within SameOldest (Map.remove be fuel m key) := by
  have hR := readings_sameOldest be
  unfold Map.remove
  refine hR.bind (hR.get fuel m key none _) fun r => ?_
  refine hR.bind (hR.badvalue m key) fun value => ?_
  exact hR.bind (hR.object m) fun self => within_withItemLayer m _ _

/-! ### Another table -/

def State.withTable (st : State) (maps : List (ℕ × Map)) : State := { st with maps := maps }

def Exec.withTable (x : Exec) (maps : List (ℕ × Map)) : Exec := { x with maps := maps }

theorem withTable_agree (x : Exec) (n : ℕ) (maps : List (ℕ × Map)) : x.Agree n (x.withTable maps) :=
  ⟨fun _ _ => rfl, fun _ _ => rfl⟩

/-- Each version that a reference and a number lead to is found again in a table, or a version of the
same sizes is. -/
def Found (st : State) (maps : List (ℕ × Map)) : Prop :=
  ∀ r map v, target st.maps r = some map → map.atVersion v ∈ st.created →
    ∃ map', target maps r = some map' ∧ map'.atVersion v ∈ st.created ∧
      (st.heap (map'.atVersion v)).mapMeta = (st.heap (map.atVersion v)).mapMeta

section WithTable

variable {maps : List (ℕ × Map)} {mm : MapMeta} (hf : Found st maps)
include hf

mutual
theorem scoped_withTable_bv : ∀ e : BV, e.Scoped st mm → e.Scoped (st.withTable maps) mm
  | .bvs .KEY _, he => he
  | .bvs .VALUE _, he => he
  | .bvs .PRESENT _, he => he
  | .bvs (.sym _) _, he => he
  | .bvv _ _, _ => trivial
  | .bin _ a b, he => ⟨scoped_withTable_bv a he.1, scoped_withTable_bv b he.2⟩
  | .extract _ _ a, he => scoped_withTable_bv a he
  | .zeroExt _ a, he => scoped_withTable_bv a he
  | .ite c a b, he => ⟨scoped_withTable_bool c he.1, scoped_withTable_bv a he.2.1, scoped_withTable_bv b he.2.2⟩
  | .mapGet m k _ v, he => by
    obtain ⟨hk, map, ht, hc, hm⟩ := he
    obtain ⟨map', ht', hc', hm'⟩ := hf m map v ht hc
    exact ⟨scoped_withTable_bv k hk, map', ht', hc', hm'.trans hm⟩

theorem scoped_withTable_bool : ∀ e : BoolAst, e.Scoped st mm → e.Scoped (st.withTable maps) mm
  | .boolS .PRESENT, _ => trivial
  | .boolS .KEY, he => he
  | .boolS .VALUE, he => he
  | .boolS (.sym _), he => he
  | .boolV _, _ => trivial
  | .not a, he => scoped_withTable_bool a he
  | .and a b, he => ⟨scoped_withTable_bool a he.1, scoped_withTable_bool b he.2⟩
  | .or a b, he => ⟨scoped_withTable_bool a he.1, scoped_withTable_bool b he.2⟩
  | .beq a b, he => ⟨scoped_withTable_bool a he.1, scoped_withTable_bool b he.2⟩
  | .ite c a b, he =>
    ⟨scoped_withTable_bool c he.1, scoped_withTable_bool a he.2.1, scoped_withTable_bool b he.2.2⟩
  | .cmp _ a b, he => ⟨scoped_withTable_bv a he.1, scoped_withTable_bv b he.2⟩
  | .mapHas m k _, he => by
    obtain ⟨hk, map, ht, hc, hm⟩ := he
    obtain ⟨map', ht', hc', hm'⟩ := hf m map none ht hc
    exact ⟨scoped_withTable_bv k hk, map', ht', hc', (congrArg MapMeta.keySize hm').trans hm⟩
  | .mapHasValue m k y v, he => by
    obtain ⟨hk, hy, map, ht, hc, hm⟩ := he
    obtain ⟨map', ht', hc', hm'⟩ := hf m map v ht hc
    exact ⟨scoped_withTable_bv k hk, scoped_withTable_bv y hy, map', ht', hc', hm'.trans hm⟩
end

/-- A table under which the invariants mean what they meant may take the place of the table. -/
theorem Sound.withTable (h : Sound be x st)
    (hinv : ∀ m ∈ st.created, ∀ inv ∈ (st.heap m.oldestVersion).invariants,
      ∀ k < 2 ^ (st.heap m.oldestVersion).mapMeta.keySize,
        inv.den (x.withTable maps) k (x.content m.oldestVersion k) = inv.den x k (x.content m.oldestVersion k)) :
    Sound be (x.withTable maps) (st.withTable maps) := by
  have ha : x.Agree st.next (x.withTable maps) := withTable_agree x st.next maps
  have hsettled : ∀ m ∈ st.created, ∀ k, Settled x st m k → Settled (x.withTable maps) (st.withTable maps) m k := by
    rintro m hm k (hk | ⟨i, hi, hk⟩ | hk)
    · exact Or.inl ((ha.eval_bv (h.oldest m hm).unknownOk.key).trans hk)
    · exact Or.inr (Or.inl ⟨i, hi, (ha.eval_bv (h.oldest_item hm hi).key).trans hk⟩)
    · exact Or.inr (Or.inr hk)
  refine ⟨rfl, fun c hc => (ha.eval_bool (h.closed c hc)).trans (h.constraints c hc), h.closed, h.numbered,
    fun m hm => ?_, fun m hm => ?_, fun id previous hm => ?_⟩
  · have hok := h.map m hm
    refine ⟨hok.oldest, hok.mapMeta, hok.unknownItem, hok.bound, hok.lengthClosed,
      (ha.eval_bv hok.lengthClosed).trans hok.size, hok.items, hok.first.agree ha hok.items, fun i hi => ?_,
      fun k hk hne => hsettled m hm k (hok.changed k hk hne)⟩
    rw [ha.eval_bv (hok.items i hi).key]
    exact hsettled m hm _ (hok.settled i hi)
  · have hok := h.oldest m hm
    have ho := (h.map m hm).oldest
    have hitem := (h.map _ ho).items
    rw [listed_oldest (oldestVersion_oldestVersion m)] at hitem
    refine ⟨fun i hi => (ha.right (hitem i hi)).mpr (hok.right i hi), hok.unknownOk,
      (ha.right hok.unknownOk).mpr hok.unknown, fun inv hi => ?_, fun k hk hnot inv hi => ?_⟩
    · have hio := hok.invOk inv hi
      exact ⟨scoped_withTable_bool hf _ hio.inScope, hio.key, hio.value, hio.present⟩
    · refine (hinv m hm inv hi k hk).trans (hok.holds k hk (fun i hi' => ?_) inv hi)
      rw [← ha.eval_bv (hitem i hi').key]
      exact hnot i hi'
  · have hok := h.layer id previous hm
    refine ⟨hok.below, ?_, hok.distinct, hok.count, hok.covers⟩
    exact hok.content.trans (overlay_agree ha (fun i hi => h.own_ok hm hi) _).symm

end WithTable

/-! ### One update -/

/-- What an update leaves: a new version of its map, in the table. -/
structure Applied (be : Backend) (x : Exec) (st : State) (u : Update) (m m' : Map) (x' : Exec) (st' : State) :
    Prop where
  layered : Layered be x st m (u.key.eval x.env) (u.result x (x.content m)) m' x' st'
  next : NextVersion m (st.heap m) u.key m'
  oldest : oldestOnes st' = oldestOnes st

/-- **An update makes the next version of its map** and puts it into the table. -/
theorem Update.applied (h : Sound be x st) {u : Update} {l : List Event}
    (hlegal : ∀ m, target st.maps (.obj u.obj) = some m → u.Legal st m)
    (happly : u.apply be fuel st = some ((), st', l)) (hok : replay.Ok x l) :
    ∃ m m' st₁, target st.maps (.obj u.obj) = some m ∧ m ∈ st.created ∧
      Applied be x st u m m' (replay.run x l) st₁ ∧ st' = st₁.withTable (setItem u.obj m' st₁.maps) := by
  have htarget : ∀ {m : Map} {s : State} {l : List Event}, targetMap (.obj u.obj) st = some (m, s, l) →
      target st.maps (.obj u.obj) = some m ∧ s = st ∧ l = [] := by
    intro m s l ht
    obtain ⟨s₀, s₁, l₁, l₂, hread, hrest, rfl⟩ := Logged.bind_eq_some.mp ht
    cases hread
    cases hm : target st.maps (.obj u.obj) with
    | none =>
      rw [hm] at hrest
      cases hrest
    | some m' =>
      rw [hm] at hrest
      cases hrest
      exact ⟨rfl, rfl, rfl⟩
  cases u with
  | set obj key value =>
    obtain ⟨m, s₀, l₀, l₁, hm, hrest, rfl⟩ := Logged.bind_eq_some.mp happly
    obtain ⟨htm, rfl, rfl⟩ := htarget hm
    obtain ⟨m', st₁, l₂, l₃, hset, hmod, rfl⟩ := Logged.bind_eq_some.mp hrest
    cases hmod
    rw [List.nil_append, List.append_nil] at hok ⊢
    obtain ⟨hmem, hc, hk, hv, hvs⟩ := hlegal m htm
    exact ⟨m, m', st₁, htm, hmem, ⟨wlp_set be fuel h hmem hc hk hv hvs m' st₁ l₂ hset hok,
      wlp_set_next h hmem hc hk value m' st₁ l₂ hset hok, within_set m key value _ _ _ _ hset⟩, rfl⟩
  | remove obj key =>
    obtain ⟨m, s₀, l₀, l₁, hm, hrest, rfl⟩ := Logged.bind_eq_some.mp happly
    obtain ⟨htm, rfl, rfl⟩ := htarget hm
    obtain ⟨m', st₁, l₂, l₃, hremove, hmod, rfl⟩ := Logged.bind_eq_some.mp hrest
    cases hmod
    rw [List.nil_append, List.append_nil] at hok ⊢
    obtain ⟨hmem, hc, hk⟩ := hlegal m htm
    exact ⟨m, m', st₁, htm, hmem, ⟨wlp_remove be fuel h hmem hc hk m' st₁ l₂ hremove hok,
      wlp_remove_next h hmem hc hk m' st₁ l₂ hremove hok, within_remove m key _ _ _ _ hremove⟩, rfl⟩

end Tool
end Klint
