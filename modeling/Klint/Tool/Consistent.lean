/-
# Ghost maps that agree with an execution

`Sound x st`: in the execution `x` every constraint of the state holds, and every map
object describes its content. The oldest version's items are right and its invariants hold
of the keys that it does not list; a layer is its own items over the map below; and in the
list of known items that a map works with, the first item of each key term is right. A
later item of the same term may be outdated: a flattened layer takes over a cache.
-/
import Klint.Tool.Sound

namespace Klint
namespace Tool

variable {be : Backend} {x x' : Exec} {st st' : State}

theorem oldestVersion_eq : ∀ m : Map, ∃ id, m.oldestVersion = .oldest id
  | .oldest id => ⟨id, rfl⟩
  | .layer _ previous => oldestVersion_eq previous

theorem oldestVersion_oldestVersion (m : Map) : m.oldestVersion.oldestVersion = m.oldestVersion := by
  obtain ⟨id, h⟩ := oldestVersion_eq m
  rw [h]
  rfl

/-! ### Layers in an execution -/

/-- A content under the own items of a layer. -/
def Exec.overlay (x : Exec) (own : List MapItem) (c : Content) : Content := fun k =>
  (own.find? fun i => i.key.eval x.env == k).elim (c k) x.item

theorem overlay_congr {own : List MapItem} {c d : Content} {k : ℕ} (h : c k = d k) :
    x.overlay own c k = x.overlay own d k := by
  rw [Exec.overlay, Exec.overlay, h]

theorem overlay_agree {n : ℕ} {mm : MapMeta} {own : List MapItem} (ha : x.Agree n x') (ho : ∀ i ∈ own, i.Ok n mm)
    (c : Content) : x'.overlay own c = x.overlay own c := by
  funext k
  induction own with
  | nil => rfl
  | cons i own ih =>
    have hi := ho i List.mem_cons_self
    have hrest := ih fun j hj => ho j (List.mem_cons_of_mem _ hj)
    simp only [Exec.overlay, List.find?_cons, ha.eval_bv hi.key] at hrest ⊢
    cases i.key.eval x.env == k with
    | false => exact hrest
    | true => exact ha.item hi

/-- The item that `transform_previous` makes of one. -/
def transformed (be : Backend) (own : List MapItem) (i : MapItem) : MapItem where
  key := i.key
  value := be.iteCases (own.map fun ki => (be.eq i.key ki.key, ki.value)) i.value
  present := be.iteCasesBool (own.map fun ki => (be.eq i.key ki.key, ki.present)) i.present

/-- The items that `transform_previous` keeps. -/
def kept (own : List MapItem) (i : MapItem) : Bool := own.all fun ki => decide (i.key ≠ ki.key)

theorem transformPrevious_eq (own l : List MapItem) :
    transformPrevious be own l = (l.filter (kept own)).map (transformed be own) := rfl

theorem kept_iff {own : List MapItem} {i : MapItem} : kept own i = true ↔ ∀ ki ∈ own, i.key ≠ ki.key := by
  simp only [kept, List.all_eq_true, decide_eq_true_eq]

theorem item_transformed (own : List MapItem) (i : MapItem) :
    x.item (transformed be own i) = x.overlay own (fun _ => x.item i) (i.key.eval x.env) := by
  unfold transformed Exec.item
  induction own with
  | nil => rfl
  | cons ki own ih =>
    rw [Prod.mk.injEq] at ih
    simp only [List.map_cons, Claripy.iteCases, Claripy.iteCasesBool, Claripy.eval_ite, Claripy.eval_iteBool,
      Claripy.eval_eq, beq_iff_eq, ih.1, ih.2, Exec.overlay, List.find?_cons]
    by_cases h : i.key.eval x.env = ki.key.eval x.env
    · simp [h, Exec.item]
    · have hb : (ki.key.eval x.env == i.key.eval x.env) = false := by simpa using Ne.symm h
      simp only [h, if_false, hb]

theorem transformed_ok {n : ℕ} {mm : MapMeta} {own : List MapItem} {i : MapItem} (ho : ∀ ki ∈ own, ki.Ok n mm)
    (hi : i.Ok n mm) : (transformed be own i).Ok n mm where
  key := hi.key
  value := by
    refine Claripy.closed_iteCases ?_ hi.value
    intro p hp
    obtain ⟨ki, hki, rfl⟩ := List.mem_map.mp hp
    exact ⟨Claripy.closed_eq hi.key (ho ki hki).key, (ho ki hki).value⟩
  present := by
    refine Claripy.closed_iteCasesBool ?_ hi.present
    intro p hp
    obtain ⟨ki, hki, rfl⟩ := List.mem_map.mp hp
    exact ⟨Claripy.closed_eq hi.key (ho ki hki).key, (ho ki hki).present⟩
  keySize := hi.keySize
  valueSize := by
    refine Claripy.size_iteCases ?_ hi.valueSize
    intro p hp
    obtain ⟨ki, hki, rfl⟩ := List.mem_map.mp hp
    exact (ho ki hki).valueSize

/-- A right item below makes a right item of the layer. -/
theorem right_transformed {own : List MapItem} {i : MapItem} {c : Content} (hi : x.Right c i) :
    x.Right (x.overlay own c) (transformed be own i) := by
  rw [Exec.Right, item_transformed]
  exact overlay_congr hi

/-! ### Lists whose first items are right -/

/-- The first item of a key term. -/
def firstOf (l : List MapItem) (t : BV) : Option MapItem := l.find? fun i => decide (t = i.key)

theorem firstOf_append (l l' : List MapItem) (t : BV) : firstOf (l ++ l') t = (firstOf l t).or (firstOf l' t) :=
  List.find?_append

theorem firstOf_key {l : List MapItem} {t : BV} {i : MapItem} (h : firstOf l t = some i) : i.key = t := by
  have hp := List.find?_some h
  exact (of_decide_eq_true hp).symm

theorem firstOf_mem {l : List MapItem} {t : BV} {i : MapItem} (h : firstOf l t = some i) : i ∈ l :=
  List.mem_of_find?_eq_some h

theorem firstOf_eq_none {l : List MapItem} {t : BV} : firstOf l t = none ↔ ∀ i ∈ l, t ≠ i.key := by
  simp only [firstOf, List.find?_eq_none, decide_eq_true_eq, ne_eq]

/-- A search by the key finds the first item of its key term. -/
theorem firstOf_of_find {l : List MapItem} {q : BV → Bool} {i : MapItem} (h : (l.find? fun i => q i.key) = some i) :
    firstOf l i.key = some i := by
  induction l with
  | nil => cases h
  | cons j l ih =>
    rw [List.find?_cons] at h
    unfold firstOf
    rw [List.find?_cons]
    cases hq : q j.key with
    | true =>
      rw [hq] at h
      cases h
      simp
    | false =>
      rw [hq] at h
      change (l.find? fun i => q i.key) = some i at h
      have hne : i.key ≠ j.key := by
        intro he
        have hi := List.find?_some h
        rw [he, hq] at hi
        cases hi
      rw [decide_eq_false hne]
      exact ih h

/-- The items that `transform_previous` lists for a term: the first of the map below, unless
the layer has an own one. -/
theorem firstOf_transformPrevious (own l : List MapItem) (t : BV) :
    firstOf (transformPrevious be own l) t =
      if ∀ ki ∈ own, t ≠ ki.key then (firstOf l t).map (transformed be own) else none := by
  rw [transformPrevious_eq]
  induction l with
  | nil => simp [firstOf]
  | cons i l ih =>
    rw [List.filter_cons]
    by_cases hk : kept own i = true
    · rw [if_pos hk, List.map_cons]
      unfold firstOf at ih ⊢
      rw [List.find?_cons, List.find?_cons, ih]
      have hkey : (transformed be own i).key = i.key := rfl
      rw [hkey]
      by_cases ht : t = i.key
      · have hown : ∀ ki ∈ own, t ≠ ki.key := ht ▸ kept_iff.mp hk
        simp only [decide_eq_true ht, if_pos hown, Option.map_some]
      · rw [decide_eq_false ht]
    · rw [if_neg hk, ih]
      split
      · next ho =>
        have hne : t ≠ i.key := by
          rintro rfl
          exact hk (kept_iff.mpr ho)
        unfold firstOf
        rw [List.find?_cons, decide_eq_false hne]
      · rfl

/-- The first item of each key term says what a content holds. -/
def FirstRight (x : Exec) (c : Content) (l : List MapItem) : Prop :=
  ∀ t i, firstOf l t = some i → x.Right c i

theorem FirstRight.append {c : Content} {l l' : List MapItem} (h : FirstRight x c l) (h' : ∀ i ∈ l', x.Right c i) :
    FirstRight x c (l ++ l') := by
  intro t i hi
  rw [firstOf_append, Option.or_eq_some_iff] at hi
  rcases hi with hi | ⟨-, hi⟩
  · exact h t i hi
  · exact h' i (firstOf_mem hi)

theorem FirstRight.agree {n : ℕ} {mm : MapMeta} {c : Content} {l : List MapItem} (h : FirstRight x c l)
    (ha : x.Agree n x') (hl : ∀ i ∈ l, i.Ok n mm) : FirstRight x' c l :=
  fun t i hi => (ha.right (hl i (firstOf_mem hi))).mpr (h t i hi)

/-! ### The invariant -/

/-- A key of which the oldest version says what it had: its unknown item has it, it lists it,
or it had no item for it. -/
def Settled (x : Exec) (st : State) (m : Map) (k : ℕ) : Prop :=
  (st.heap m.oldestVersion).unknownItem.key.eval x.env = k ∨
  (∃ i ∈ (st.heap m.oldestVersion).knownItems, i.key.eval x.env = k) ∨
  (x.content m.oldestVersion k).2 = false

/-- What every map object keeps. -/
structure MapOk (be : Backend) (x : Exec) (st : State) (m : Map) : Prop where
  oldest : m.oldestVersion ∈ st.created
  mapMeta : (st.heap m).mapMeta = (st.heap m.oldestVersion).mapMeta
  unknownItem : (st.heap m).unknownItem = (st.heap m.oldestVersion).unknownItem
  bound : ∀ k < 2 ^ (st.heap m).mapMeta.keySize, (x.content m k).1 < 2 ^ (st.heap m).mapMeta.valueSize
  lengthClosed : (st.heap m).length.Closed st.next
  size : (st.heap m).length.eval x.env = (x.content m).size (st.heap m).mapMeta.keySize
  items : ∀ i ∈ listed be st.heap m, i.Ok st.next (st.heap m).mapMeta
  first : FirstRight x (x.content m) (listed be st.heap m)
  settled : ∀ i ∈ listed be st.heap m, Settled x st m (i.key.eval x.env)
  changed : ∀ k < 2 ^ (st.heap m).mapMeta.keySize, x.content m k ≠ x.content m.oldestVersion k → Settled x st m k

/-- What an oldest version keeps. -/
structure OldestOk (x : Exec) (st : State) (m : Map) : Prop where
  right : ∀ i ∈ (st.heap m).knownItems, x.Right (x.content m) i
  unknownOk : (st.heap m).unknownItem.Ok st.next (st.heap m).mapMeta
  unknown : x.Right (x.content m) (st.heap m).unknownItem
  invOk : ∀ inv ∈ (st.heap m).invariants, inv.Ok st (st.heap m).mapMeta
  holds : ∀ k < 2 ^ (st.heap m).mapMeta.keySize, (∀ i ∈ (st.heap m).knownItems, i.key.eval x.env ≠ k) →
    ∀ inv ∈ (st.heap m).invariants, inv.den x k (x.content m k) = true

/-- What a layer keeps. -/
structure LayerOk (be : Backend) (x : Exec) (st : State) (id : ℕ) (previous : Map) : Prop where
  below : previous ∈ st.created
  content : x.content (.layer id previous) = x.overlay (st.heap (.layer id previous)).knownItems (x.content previous)
  distinct : (st.heap (.layer id previous)).knownItems.Pairwise fun i j => i.key ≠ j.key
  count : (st.heap (.layer id previous)).knownItemsCache.1 ≤ (listed be st.heap previous).length
  covers : ∀ i ∈ listed be st.heap previous, ∃ j ∈ listed be st.heap (.layer id previous), j.key = i.key

/-- The number of a map object. -/
def Map.id : Map → ℕ
  | .oldest id => id
  | .layer id _ => id

/-- A state and an execution that agree. -/
structure Sound (be : Backend) (x : Exec) (st : State) : Prop where
  maps : x.maps = st.maps
  constraints : ∀ c ∈ st.constraints, c.eval x.env = true
  closed : ∀ c ∈ st.constraints, c.Closed st.next
  numbered : ∀ m ∈ st.created, m.id < st.created.length
  map : ∀ m ∈ st.created, MapOk be x st m
  oldest : ∀ m ∈ st.created, OldestOk x st m.oldestVersion
  layer : ∀ id previous, .layer id previous ∈ st.created → LayerOk be x st id previous

theorem Settled.later {m : Map} {k : ℕ} (hs : Settled x st m k) (h : Later x st x' st')
    (hm : m.oldestVersion ∈ st.created) (hu : (st.heap m.oldestVersion).unknownItem.key.Closed st.next)
    (hk : ∀ i ∈ (st.heap m.oldestVersion).knownItems, i.key.Closed st.next) : Settled x' st' m k := by
  rcases hs with hs | ⟨i, hi, hs⟩ | hs
  · exact Or.inl (by rw [h.unknownItem _ hm, h.agree.eval_bv hu, hs])
  · exact Or.inr (Or.inl ⟨i, (h.known _ hm).subset hi, by rw [h.agree.eval_bv (hk i hi), hs]⟩)
  · exact Or.inr (Or.inr (by rw [h.content _ hm, hs]))

theorem listed_oldest {heap : Map → MapObj} {m : Map} (h : m.oldestVersion = m) :
    listed be heap m = (heap m).knownItems := by
  cases m with
  | oldest id => rfl
  | layer id previous =>
    obtain ⟨j, hj⟩ := oldestVersion_eq (.layer id previous)
    rw [hj] at h
    cases h

section

variable (h : Sound be x st)
include h

theorem Sound.oldest_item {m : Map} (hm : m ∈ st.created) {i : MapItem}
    (hi : i ∈ (st.heap m.oldestVersion).knownItems) : i.Ok st.next (st.heap m).mapMeta := by
  have ho := (h.map m hm).oldest
  have hok := (h.map _ ho).items i
  rw [listed_oldest (oldestVersion_oldestVersion m), ← (h.map m hm).mapMeta] at hok
  exact hok hi

theorem Sound.own_ok {id : ℕ} {previous : Map} (hm : .layer id previous ∈ st.created) {i : MapItem}
    (hi : i ∈ (st.heap (.layer id previous)).knownItems) : i.Ok st.next (st.heap (.layer id previous)).mapMeta :=
  (h.map _ hm).items i (List.mem_append_left _ hi)

theorem Sound.settled_later (hl : Later x st x' st') {m : Map} (hm : m ∈ st.created) {k : ℕ}
    (hs : Settled x st m k) : Settled x' st' m k :=
  hs.later hl (h.map m hm).oldest (h.oldest m hm).unknownOk.key fun _ hi => (h.oldest_item hm hi).key

/-- Every version has the unknown item of the oldest one. -/
theorem Sound.unknown_ok {m : Map} (hm : m ∈ st.created) : (st.heap m).unknownItem.Ok st.next (st.heap m).mapMeta := by
  rw [(h.map m hm).unknownItem, (h.map m hm).mapMeta]
  exact (h.oldest m hm).unknownOk

theorem Sound.unknown_right {m : Map} (hm : m ∈ st.created) :
    x.Right (x.content m.oldestVersion) (st.heap m).unknownItem := by
  rw [(h.map m hm).unknownItem]
  exact (h.oldest m hm).unknown

/-- A key that the oldest version lists is listed by every version. -/
theorem Sound.covers : ∀ {m : Map}, m ∈ st.created → ∀ i ∈ (st.heap m.oldestVersion).knownItems,
    ∃ j ∈ listed be st.heap m, j.key = i.key
  | .oldest _, _, i, hi => ⟨i, hi, rfl⟩
  | .layer id previous, hm, i, hi => by
    have hlayer := h.layer id previous hm
    obtain ⟨j, hj, hji⟩ := Sound.covers hlayer.below i hi
    obtain ⟨j', hj', hji'⟩ := hlayer.covers j hj
    exact ⟨j', hj', hji'.trans hji⟩

end

/-! ### What a later state keeps -/

section

variable (h : Sound be x st) (hl : Later x st x' st')
include h hl

/-- A map whose list grows by right items. -/
theorem Sound.mapOk_later {m : Map} (hm : m ∈ st.created) {extra : List MapItem}
    (hlist : listed be st'.heap m = listed be st.heap m ++ extra)
    (hextra : ∀ i ∈ extra, i.Ok st'.next (st.heap m).mapMeta ∧ x'.Right (x.content m) i ∧
      Settled x' st' m (i.key.eval x'.env)) : MapOk be x' st' m := by
  have hok := h.map m hm
  have ho := hok.oldest
  refine ⟨hl.created _ ho, ?_, ?_, ?_, ?_, ?_, ?_, ?_, ?_, ?_⟩
  · rw [hl.mapMeta m hm, hl.mapMeta _ ho]
    exact hok.mapMeta
  · rw [hl.unknownItem m hm, hl.unknownItem _ ho]
    exact hok.unknownItem
  · rw [hl.mapMeta m hm, hl.content m hm]
    exact hok.bound
  · rw [hl.length m hm]
    exact hok.lengthClosed.mono hl.next
  · rw [hl.length m hm, hl.mapMeta m hm, hl.content m hm, hl.agree.eval_bv hok.lengthClosed]
    exact hok.size
  · rw [hlist, hl.mapMeta m hm]
    intro i hi
    rcases List.mem_append.mp hi with hi | hi
    · exact (hok.items i hi).mono hl.next
    · exact (hextra i hi).1
  · rw [hlist, hl.content m hm]
    exact (hok.first.agree hl.agree hok.items).append fun i hi => (hextra i hi).2.1
  · rw [hlist]
    intro i hi
    rcases List.mem_append.mp hi with hi | hi
    · rw [hl.agree.eval_bv (hok.items i hi).key]
      exact h.settled_later hl hm (hok.settled i hi)
    · exact (hextra i hi).2.2
  · rw [hl.mapMeta m hm, hl.content m hm, hl.content _ ho]
    exact fun k hk hne => h.settled_later hl hm (hok.changed k hk hne)

/-- An oldest version whose items grow by right ones. -/
theorem Sound.oldestOk_later {m : Map} (hm : m ∈ st.created) {extra : List MapItem}
    (hknown : (st'.heap m.oldestVersion).knownItems = (st.heap m.oldestVersion).knownItems ++ extra)
    (hinvs : (st'.heap m.oldestVersion).invariants = (st.heap m.oldestVersion).invariants)
    (hextra : ∀ i ∈ extra, x'.Right (x.content m.oldestVersion) i) : OldestOk x' st' m.oldestVersion := by
  have hok := h.oldest m hm
  have ho := (h.map m hm).oldest
  have hitem := (h.map _ ho).items
  rw [listed_oldest (oldestVersion_oldestVersion m)] at hitem
  constructor
  · rw [hknown, hl.content _ ho]
    intro i hi
    rcases List.mem_append.mp hi with hi | hi
    · exact (hl.agree.right (hitem i hi)).mpr (hok.right i hi)
    · exact hextra i hi
  · rw [hl.unknownItem _ ho, hl.mapMeta _ ho]
    exact hok.unknownOk.mono hl.next
  · rw [hl.unknownItem _ ho, hl.content _ ho]
    exact (hl.agree.right hok.unknownOk).mpr hok.unknown
  · rw [hinvs, hl.mapMeta _ ho]
    exact fun inv hinv => hl.inv_ok (hok.invOk inv hinv)
  · rw [hinvs, hl.mapMeta _ ho, hl.content _ ho, hknown]
    intro k hk hnot inv hinv
    rw [hl.inv_den h.maps (hok.invOk inv hinv)]
    refine hok.holds k hk (fun i hi => ?_) inv hinv
    rw [← hl.agree.eval_bv (hitem i hi).key]
    exact hnot i (List.mem_append_left _ hi)

/-- A layer with the same own items. -/
theorem Sound.layerOk_later {id : ℕ} {previous : Map} (hm : .layer id previous ∈ st.created)
    (hown : (st'.heap (.layer id previous)).knownItems = (st.heap (.layer id previous)).knownItems)
    (hcount : (st'.heap (.layer id previous)).knownItemsCache.1 ≤ (listed be st'.heap previous).length)
    (hcovers : ∀ i ∈ listed be st'.heap previous, ∃ j ∈ listed be st'.heap (.layer id previous), j.key = i.key) :
    LayerOk be x' st' id previous := by
  have hok := h.layer id previous hm
  refine ⟨hl.created _ hok.below, ?_, ?_, hcount, hcovers⟩
  · rw [hown, hl.content _ hm, hl.content _ hok.below, hok.content]
    exact (overlay_agree hl.agree (fun i hi => h.own_ok hm hi) _).symm
  · rw [hown]
    exact hok.distinct

end

/-! ### Steps that make no map and no item -/

/-- Symbols may be named, constraints that hold be added and caches be brought up to date. -/
structure Quiet (be : Backend) (x : Exec) (st : State) (x' : Exec) (st' : State) : Prop where
  next : st.next ≤ st'.next
  agree : x.Agree st.next x'
  content : x'.content = x.content
  execMaps : x'.maps = x.maps
  created : st'.created = st.created
  table : st'.maps = st.maps
  heap : SameList be st.heap st'.heap
  constraints : ∀ c ∈ st'.constraints, c ∈ st.constraints ∨ c.Closed st'.next ∧ c.eval x'.env = true

theorem SameList.refl (heap : Map → MapObj) : SameList be heap heap :=
  ⟨fun _ => rfl, fun _ _ => Or.inl rfl, fun _ => rfl⟩

section

variable (q : Quiet be x st x' st')
include q

theorem Quiet.later : Later x st x' st' where
  next := q.next
  agree := q.agree
  maps := q.execMaps
  table := q.table
  content _ _ := by rw [q.content]
  created _ hm := q.created ▸ hm
  mapMeta m _ := by rw [q.heap.obj m]
  length m _ := by rw [q.heap.obj m]
  unknownItem m _ := by rw [q.heap.obj m]
  known m _ := by rw [q.heap.obj m]
  oldest id := by rw [q.content]

theorem Quiet.sound (h : Sound be x st) : Sound be x' st' where
  maps := by rw [q.execMaps, q.table, h.maps]
  constraints c hc := by
    rcases q.constraints c hc with hc | hc
    · rw [q.agree.eval_bool (h.closed c hc)]
      exact h.constraints c hc
    · exact hc.2
  closed c hc := by
    rcases q.constraints c hc with hc | hc
    · exact (h.closed c hc).mono q.next
    · exact hc.1
  numbered := by
    rw [q.created]
    exact h.numbered
  map m hm := by
    refine h.mapOk_later q.later (q.created ▸ hm) ?_ (fun i (hi : i ∈ []) => by cases hi)
    rw [q.heap.listed, List.append_nil]
  oldest m hm := by
    refine h.oldestOk_later q.later (q.created ▸ hm) ?_ ?_ (fun i (hi : i ∈ []) => by cases hi)
    · rw [q.heap.obj, List.append_nil]
    · rw [q.heap.obj]
  layer id previous hm := by
    have hok := h.layer id previous (q.created ▸ hm)
    refine h.layerOk_later q.later (q.created ▸ hm) (by rw [q.heap.obj]) ?_ ?_
    · rw [q.heap.listed]
      rcases q.heap.count id previous with hc | hc
      · exact hc ▸ hok.count
      · exact hc.le
    · rw [q.heap.listed, q.heap.listed]
      exact hok.covers

end

/-! ### A new item -/

/-- What `add_item` makes of the state. -/
def State.withItem (st : State) (m : Map) (item : MapItem) : State :=
  st.put m.oldestVersion
    { st.heap m.oldestVersion with knownItems := (st.heap m.oldestVersion).knownItems ++ [item] }

/-- What a new item of the oldest version `o` adds to the list of a map. -/
def appended (be : Backend) (heap : Map → MapObj) (o : Map) (item : MapItem) : Map → List MapItem
  | .oldest id => if .oldest id = o then [item] else []
  | .layer id previous =>
    transformPrevious be (heap (.layer id previous)).knownItems (appended be heap o item previous)

theorem mem_transformPrevious {own l : List MapItem} {j : MapItem} :
    j ∈ transformPrevious be own l ↔ ∃ i ∈ l, (∀ ki ∈ own, i.key ≠ ki.key) ∧ transformed be own i = j := by
  rw [transformPrevious_eq]
  simp only [List.mem_map, List.mem_filter, kept_iff, and_assoc]

/-- A key of the list below is listed by the layer's own items, or by what becomes of it. -/
theorem own_or_transformed (be : Backend) (own : List MapItem) {l : List MapItem} {i : MapItem} (hi : i ∈ l) :
    ∃ j ∈ own ++ transformPrevious be own l, j.key = i.key := by
  by_cases ho : ∀ ki ∈ own, i.key ≠ ki.key
  · exact ⟨transformed be own i, List.mem_append_right _ (mem_transformPrevious.mpr ⟨i, hi, ho, rfl⟩), rfl⟩
  · push Not at ho
    obtain ⟨ki, hki, he⟩ := ho
    exact ⟨ki, List.mem_append_left _ hki, he.symm⟩

section

variable (h : Sound be x st)
include h

theorem Sound.mapMeta_below {id : ℕ} {previous : Map} (hm : .layer id previous ∈ st.created) :
    (st.heap previous).mapMeta = (st.heap (.layer id previous)).mapMeta := by
  rw [(h.map _ hm).mapMeta, (h.map _ (h.layer id previous hm).below).mapMeta]
  rfl

theorem Sound.listed_withItem (m₀ : Map) (item : MapItem) : ∀ {m : Map}, m ∈ st.created →
    listed be (st.withItem m₀ item).heap m =
      listed be st.heap m ++ appended be st.heap m₀.oldestVersion item m
  | .oldest id, _ => by
    simp only [listed, appended, State.withItem, State.put]
    by_cases ho : Map.oldest id = m₀.oldestVersion
    · rw [if_pos ho, ho, Function.update_self]
    · rw [if_neg ho, Function.update_of_ne ho, List.append_nil]
  | .layer id previous, hm => by
    have hlayer := h.layer id previous hm
    have ih := Sound.listed_withItem m₀ item hlayer.below
    have hne : Map.layer id previous ≠ m₀.oldestVersion := by
      obtain ⟨j, hj⟩ := oldestVersion_eq m₀
      rw [hj]
      intro he
      cases he
    have hself : (st.withItem m₀ item).heap (.layer id previous) = st.heap (.layer id previous) :=
      Function.update_of_ne hne _ _
    simp only [listed, appended, hself, ih, List.drop_append_of_le_length hlayer.count, transformPrevious_append,
      List.append_assoc]

/-- What a right item of the oldest version adds to a list is right there too. -/
theorem Sound.appended_ok {m₀ : Map} {item : MapItem} (hok : item.Ok st.next (st.heap m₀.oldestVersion).mapMeta)
    (hright : x.Right (x.content m₀.oldestVersion) item) : ∀ {m : Map}, m ∈ st.created →
    ∀ i ∈ appended be st.heap m₀.oldestVersion item m, m.oldestVersion = m₀.oldestVersion ∧ i.key = item.key ∧
      i.Ok st.next (st.heap m).mapMeta ∧ x.Right (x.content m) i
  | .oldest id, _, i, hi => by
    simp only [appended] at hi
    split at hi
    · next ho =>
      rw [List.mem_singleton] at hi
      subst hi
      exact ⟨ho, rfl, ho ▸ hok, ho ▸ hright⟩
    · cases hi
  | .layer id previous, hm, i, hi => by
    have hlayer := h.layer id previous hm
    obtain ⟨j, hj, -, rfl⟩ := mem_transformPrevious.mp hi
    obtain ⟨ho, hkey, hjok, hjright⟩ := Sound.appended_ok hok hright hlayer.below j hj
    rw [h.mapMeta_below hm] at hjok
    refine ⟨ho, hkey, transformed_ok (fun ki hki => h.own_ok hm hki) hjok, ?_⟩
    rw [hlayer.content]
    exact right_transformed hjright

end

theorem withItem_later (m₀ : Map) (item : MapItem) : Later x st x (st.withItem m₀ item) := by
  have hheap : ∀ m, (st.withItem m₀ item).heap m = { st.heap m with
      knownItems := ((st.withItem m₀ item).heap m).knownItems } := by
    intro m
    by_cases hm : m = m₀.oldestVersion
    · subst hm
      simp [State.withItem, State.put]
    · simp only [State.withItem, State.put, Function.update_of_ne hm]
  refine ⟨le_rfl, Exec.Agree.refl _ x, rfl, rfl, fun _ _ => rfl, fun _ hm => hm, ?_, ?_, ?_, ?_, fun _ => rfl⟩
  · exact fun m _ => by rw [hheap m]
  · exact fun m _ => by rw [hheap m]
  · exact fun m _ => by rw [hheap m]
  · intro m _
    by_cases hm : m = m₀.oldestVersion
    · subst hm
      simp [State.withItem, State.put]
    · simp only [State.withItem, State.put, Function.update_of_ne hm, List.prefix_rfl]

/-- A right item may be added to an oldest version. -/
theorem Sound.withItem (h : Sound be x st) {m₀ : Map} (hm₀ : m₀ ∈ st.created) {item : MapItem}
    (hok : item.Ok st.next (st.heap m₀).mapMeta) (hright : x.Right (x.content m₀.oldestVersion) item) :
    Sound be x (st.withItem m₀ item) := by
  have hl : Later x st x (st.withItem m₀ item) := withItem_later m₀ item
  have hself : ∀ m, m ≠ m₀.oldestVersion → (st.withItem m₀ item).heap m = st.heap m :=
    fun m hm => Function.update_of_ne hm _ _
  have hat : (st.withItem m₀ item).heap m₀.oldestVersion =
      { st.heap m₀.oldestVersion with knownItems := (st.heap m₀.oldestVersion).knownItems ++ [item] } :=
    Function.update_self _ _ _
  rw [(h.map m₀ hm₀).mapMeta] at hok
  refine ⟨h.maps, h.constraints, h.closed, h.numbered, fun m hm => ?_, fun m hm => ?_, fun id previous hm => ?_⟩
  · refine h.mapOk_later hl hm (h.listed_withItem m₀ item hm) fun i hi => ?_
    obtain ⟨hsame, hkey, hiok, hiright⟩ := h.appended_ok hok hright hm i hi
    refine ⟨hiok, hiright, Or.inr (Or.inl ⟨item, ?_, by rw [hkey]⟩)⟩
    rw [hsame, hat]
    exact List.mem_append_right _ (List.mem_singleton.mpr rfl)
  · by_cases hmo : m.oldestVersion = m₀.oldestVersion
    · refine h.oldestOk_later hl hm (by rw [hmo, hat]) (by rw [hmo, hat]) fun i hi => ?_
      rw [List.mem_singleton.mp hi, hmo]
      exact hright
    · refine h.oldestOk_later hl hm ?_ (by rw [hself _ hmo]) (fun i (hi : i ∈ []) => by cases hi)
      rw [hself _ hmo, List.append_nil]
  · have hlayer := h.layer id previous hm
    have hs : (st.withItem m₀ item).heap (.layer id previous) = st.heap (.layer id previous) := by
      refine hself _ ?_
      obtain ⟨j, hj⟩ := oldestVersion_eq m₀
      rw [hj]
      intro he
      cases he
    refine h.layerOk_later hl hm (by rw [hs]) ?_ ?_
    · rw [hs, h.listed_withItem m₀ item hlayer.below, List.length_append]
      exact hlayer.count.trans (Nat.le_add_right _ _)
    · rw [h.listed_withItem m₀ item hlayer.below, h.listed_withItem m₀ item hm]
      intro i hi
      rcases List.mem_append.mp hi with hi | hi
      · obtain ⟨j, hj, hji⟩ := hlayer.covers i hi
        exact ⟨j, List.mem_append_left _ hj, hji⟩
      · obtain ⟨j, hj, hji⟩ := own_or_transformed be (st.heap (.layer id previous)).knownItems hi
        rcases List.mem_append.mp hj with hj | hj
        · exact ⟨j, List.mem_append_left _ (List.mem_append_left _ hj), hji⟩
        · exact ⟨j, List.mem_append_right _ hj, hji⟩

end Tool
end Klint
