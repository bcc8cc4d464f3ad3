/-
# The cache of known items

`known_items` (`ghostmaps.py`, lines 388 to 419) keeps in each layer what it made of the items below, and
only looks at the items that were added since. `uncached` is the same list made from the layers alone. The
two lists agree as long as each cached item is what the layer's own items make of the item below
(`Fresh`). A `get` or a new layer keeps that. `with_item_layer` breaks it when it extends a layer, since
the new layer takes the cache of the old one over, and a merge may break it, since it exchanges own
items and leaves the caches.
-/
import Klint.Tool.FrozenReads
import Klint.Tool.Histories

namespace Klint
namespace Tool

open Logged

/-! ### The list without a cache -/

section Uncached

variable (be : Backend)

/-- `known_items`, made from the layers alone. -/
def uncached (heap : Map → MapObj) : Map → List MapItem
  | .oldest id => (heap (.oldest id)).knownItems
  | .layer id previous =>
    let own := (heap (.layer id previous)).knownItems
    own ++ transformPrevious be own (uncached heap previous)

/-- The key, value and presence of an item under a valuation. -/
def MapItem.at (ι : Env) (i : MapItem) : ℕ × ℕ × Bool := (i.key.eval ι, i.value.eval ι, i.present.eval ι)

variable {be}

theorem uncached_congr {heap heap' : Map → MapObj} (h : ∀ m, (heap' m).knownItems = (heap m).knownItems) :
    ∀ m, uncached be heap' m = uncached be heap m
  | .oldest id => h (.oldest id)
  | .layer id previous => by
    simp only [uncached, h (.layer id previous), uncached_congr h previous]

theorem listed_congr {heap heap' : Map → MapObj} (h : ∀ m, (heap' m).knownItems = (heap m).knownItems)
    (hc : ∀ m, (heap' m).knownItemsCache = (heap m).knownItemsCache) : ∀ m, listed be heap' m = listed be heap m
  | .oldest id => h (.oldest id)
  | .layer id previous => by
    simp only [listed, h (.layer id previous), hc (.layer id previous), listed_congr h hc previous]

end Uncached

/-! ### What an item means -/

/-- A key term, with a value and a presence for each valuation. -/
abbrev Sense := BV × (Env → ℕ × Bool)

def MapItem.sense (i : MapItem) : Sense := (i.key, fun ι => (i.value.eval ι, i.present.eval ι))

def senses (l : List MapItem) : List Sense := l.map MapItem.sense

theorem senses_append (l l' : List MapItem) : senses (l ++ l') = senses l ++ senses l' := List.map_append

theorem at_of_senses {l l' : List MapItem} (h : senses l = senses l') (ι : Env) :
    l.map (MapItem.at ι) = l'.map (MapItem.at ι) := by
  have hat : ∀ l : List MapItem, l.map (MapItem.at ι) = (senses l).map fun s => (s.1.eval ι, s.2 ι) := by
    intro l
    rw [senses, List.map_map]
    rfl
  rw [hat, hat, h]

/-- An item's meaning under the own items of a layer. -/
def overlaid (own : List MapItem) (s : Sense) : Sense :=
  (s.1, fun ι => (own.find? fun ki => ki.key.eval ι == s.1.eval ι).elim (s.2 ι) fun ki => ki.sense.2 ι)

def keptSense (own : List MapItem) (s : Sense) : Bool := own.all fun ki => decide (s.1 ≠ ki.key)

variable {be : Backend} {st st' : State}

theorem sense_transformed (own : List MapItem) (i : MapItem) : (transformed be own i).sense = overlaid own i.sense := by
  refine Prod.ext rfl (funext fun ι => ?_)
  unfold transformed MapItem.sense overlaid
  induction own with
  | nil => rfl
  | cons ki own ih =>
    rw [Prod.mk.injEq] at ih
    simp only [List.map_cons, Claripy.iteCases, Claripy.iteCasesBool, Claripy.eval_ite, Claripy.eval_iteBool,
      Claripy.eval_eq, beq_iff_eq, ih.1, ih.2, List.find?_cons]
    by_cases h : i.key.eval ι = ki.key.eval ι
    · simp [h, MapItem.sense]
    · have hb : (ki.key.eval ι == i.key.eval ι) = false := by simpa using Ne.symm h
      simp only [h, if_false, hb]

/-- What `transform_previous` makes of a list depends on what its items mean. -/
theorem senses_transformPrevious (own l : List MapItem) :
    senses (transformPrevious be own l) = ((senses l).filter (keptSense own)).map (overlaid own) := by
  rw [transformPrevious_eq, senses, senses, List.filter_map, List.map_map, List.map_map]
  exact List.map_congr_left fun i _ => sense_transformed own i

theorem senses_transformPrevious_congr (own : List MapItem) {l l' : List MapItem} (h : senses l = senses l') :
    senses (transformPrevious be own l) = senses (transformPrevious be own l') := by
  rw [senses_transformPrevious, senses_transformPrevious, h]

/-! ### Caches that are right -/

/-- Every version lists what its layers say. -/
structure Fresh (be : Backend) (st : State) : Prop extends Linked st where
  count : ∀ id previous, .layer id previous ∈ st.created →
    (st.heap (.layer id previous)).knownItemsCache.1 ≤ (uncached be st.heap previous).length
  listed : ∀ m ∈ st.created, senses (listed be st.heap m) = senses (uncached be st.heap m)

/-- The list of a layer, from what it has cached and the list below. -/
theorem senses_listed_layer {heap : Map → MapObj} {id : ℕ} {previous : Map}
    (h : senses (listed be heap previous) = senses (uncached be heap previous)) :
    let self := heap (.layer id previous)
    senses (listed be heap (.layer id previous)) = senses self.knownItems ++ (senses self.knownItemsCache.2 ++
      senses (transformPrevious be self.knownItems ((uncached be heap previous).drop self.knownItemsCache.1))) := by
  intro self
  have hdrop : senses ((listed be heap previous).drop self.knownItemsCache.1) =
      senses ((uncached be heap previous).drop self.knownItemsCache.1) := by
    simp only [senses, List.map_drop] at h ⊢
    rw [h]
  rw [Tool.listed, senses_append, senses_append, senses_transformPrevious_congr _ hdrop]

theorem senses_uncached_layer (be : Backend) (heap : Map → MapObj) (id : ℕ) (previous : Map) (n : ℕ) :
    let own := (heap (.layer id previous)).knownItems
    senses (uncached be heap (.layer id previous)) = senses own ++
      (senses (transformPrevious be own ((uncached be heap previous).take n)) ++
        senses (transformPrevious be own ((uncached be heap previous).drop n))) := by
  intro own
  rw [uncached, senses_append, ← senses_append (transformPrevious be own _), ← transformPrevious_append,
    List.take_append_drop]

section Fresh

variable (h : Fresh be st)
include h

/-- Each cached item is what the own items make of the one that it was made from. -/
theorem Fresh.cached {id : ℕ} {previous : Map} (hm : .layer id previous ∈ st.created) :
    let self := st.heap (.layer id previous)
    senses self.knownItemsCache.2 =
      senses (transformPrevious be self.knownItems ((uncached be st.heap previous).take self.knownItemsCache.1)) := by
  intro self
  have hlayer := h.listed _ hm
  rw [senses_listed_layer (h.listed previous (h.below id previous hm)),
    senses_uncached_layer be st.heap id previous self.knownItemsCache.1] at hlayer
  exact List.append_cancel_right (List.append_cancel_left hlayer)

theorem Fresh.length_listed {m : Map} (hm : m ∈ st.created) :
    (Tool.listed be st.heap m).length = (uncached be st.heap m).length := by
  have hl := congrArg List.length (h.listed m hm)
  rwa [senses, senses, List.length_map, List.length_map] at hl

/-! ### Steps of a get -/

theorem Fresh.of_same (hcreated : st'.created = st.created) (hi : ∀ m, (st'.heap m).knownItems = (st.heap m).knownItems)
    (hc : ∀ m, (st'.heap m).knownItemsCache = (st.heap m).knownItemsCache) : Fresh be st' where
  toLinked := h.of_created hcreated
  count id previous hm := by
    rw [hcreated] at hm
    rw [hc, uncached_congr hi]
    exact h.count id previous hm
  listed m hm := by
    rw [hcreated] at hm
    rw [uncached_congr hi, listed_congr hi hc]
    exact h.listed m hm

/-- Caches that are brought up to date. -/
theorem Fresh.knownItems (m : Map) : Fresh be { st with heap := (knownItemsIn be st.heap m).2 } := by
  obtain ⟨-, hs⟩ := knownItemsIn_spec be st.heap m
  have huncached : ∀ m', uncached be (knownItemsIn be st.heap m).2 m' = uncached be st.heap m' :=
    uncached_congr fun m' => by rw [hs.obj m']
  refine ⟨h.of_created rfl, fun id previous hm => ?_, fun m' hm => ?_⟩
  · rw [huncached]
    rcases hs.count id previous with hc | hc
    · rw [hc]
      exact h.count id previous hm
    · rw [hc, h.length_listed (h.below id previous hm)]
  · rw [huncached, hs.listed]
    exact h.listed m' hm

omit h in
theorem uncached_withItem (be : Backend) (st : State) (m₀ : Map) (item : MapItem) : ∀ m : Map,
    uncached be (st.withItem m₀ item).heap m = uncached be st.heap m ++ appended be st.heap m₀.oldestVersion item m
  | .oldest id => by
    simp only [uncached, appended, State.withItem, State.put]
    by_cases ho : Map.oldest id = m₀.oldestVersion
    · rw [if_pos ho, ho, Function.update_self]
    · rw [if_neg ho, Function.update_of_ne ho, List.append_nil]
  | .layer id previous => by
    have hself : (st.withItem m₀ item).heap (.layer id previous) = st.heap (.layer id previous) :=
      Function.update_of_ne (layer_ne_oldestVersion id previous m₀) _ _
    simp only [uncached, appended, hself, uncached_withItem be st m₀ item previous, transformPrevious_append,
      List.append_assoc]

/-- A new item of an oldest version is listed after what was listed before. -/
theorem Fresh.listed_withItem (m₀ : Map) (item : MapItem) : ∀ {m : Map}, m ∈ st.created →
    Tool.listed be (st.withItem m₀ item).heap m =
      Tool.listed be st.heap m ++ appended be st.heap m₀.oldestVersion item m
  | .oldest id, _ => by
    simp only [Tool.listed, appended, State.withItem, State.put]
    by_cases ho : Map.oldest id = m₀.oldestVersion
    · rw [if_pos ho, ho, Function.update_self]
    · rw [if_neg ho, Function.update_of_ne ho, List.append_nil]
  | .layer id previous, hm => by
    have hbelow := h.below id previous hm
    have ih := Fresh.listed_withItem m₀ item hbelow
    have hself : (st.withItem m₀ item).heap (.layer id previous) = st.heap (.layer id previous) :=
      Function.update_of_ne (layer_ne_oldestVersion id previous m₀) _ _
    have hcount : (st.heap (.layer id previous)).knownItemsCache.1 ≤ (Tool.listed be st.heap previous).length := by
      rw [h.length_listed hbelow]
      exact h.count id previous hm
    simp only [Tool.listed, appended, hself, ih, List.drop_append_of_le_length hcount, transformPrevious_append,
      List.append_assoc]

theorem Fresh.withItem (m₀ : Map) (item : MapItem) : Fresh be (st.withItem m₀ item) where
  toLinked := h.of_created rfl
  count id previous hm := by
    have hself : (st.withItem m₀ item).heap (.layer id previous) = st.heap (.layer id previous) :=
      Function.update_of_ne (layer_ne_oldestVersion id previous m₀) _ _
    rw [hself, uncached_withItem, List.length_append]
    exact (h.count id previous hm).trans (Nat.le_add_right _ _)
  listed m hm := by
    rw [uncached_withItem, h.listed_withItem m₀ item hm, senses_append, senses_append, h.listed m hm]

end Fresh

/-- **Reading a map keeps every list right.** -/
theorem assertions_fresh (be : Backend) : Assertions be fun st st' => Fresh be st → Fresh be st' where
  refl _ h := h
  trans _ _ _ h h' hf := h' (h hf)
  next _ h := h.of_same rfl (fun _ => rfl) fun _ => rfl
  constraints _ _ h := h.of_same rfl (fun _ => rfl) fun _ => rfl
  knownItems _ m h := h.knownItems m
  addItem _ m item h := h.withItem m item
  giving st _ _ h :=
    h.of_same rfl (put_field MapObj.knownItems st rfl) (put_field MapObj.knownItemsCache st rfl)

/-! ### New objects -/

section WithMap

variable (h : Fresh be st) {new : Map} {o : MapObj} (hnew : new ∉ st.created)
include h hnew

theorem Fresh.uncached_withMap : ∀ {m : Map}, m ∈ st.created →
    uncached be (st.withMap new o).heap m = uncached be st.heap m
  | .oldest id, hm => by simp only [uncached, heap_withMap hnew hm]
  | .layer id previous, hm => by
    simp only [uncached, heap_withMap hnew hm, Fresh.uncached_withMap (h.below id previous hm)]

theorem Fresh.listed_withMap : ∀ {m : Map}, m ∈ st.created →
    Tool.listed be (st.withMap new o).heap m = Tool.listed be st.heap m
  | .oldest id, hm => by simp only [Tool.listed, heap_withMap hnew hm]
  | .layer id previous, hm => by
    simp only [Tool.listed, heap_withMap hnew hm, Fresh.listed_withMap (h.below id previous hm)]

omit hnew in
/-- A new map may be added that lists what its layers say. -/
theorem Fresh.withMap (hid : new.id = st.created.length)
    (hlayer : ∀ id previous, new = .layer id previous →
      previous ∈ st.created ∧ o.knownItemsCache.1 ≤ (uncached be st.heap previous).length)
    (hlist : senses (Tool.listed be (st.withMap new o).heap new) = senses (uncached be (st.withMap new o).heap new)) :
    Fresh be (st.withMap new o) := by
  have hnew := h.not_mem hid
  have hself : (st.withMap new o).heap new = o := Function.update_self _ _ _
  refine ⟨h.toLinked.withMap hid fun id previous he => (hlayer id previous he).1, fun id previous hm => ?_,
    fun m hm => ?_⟩
  · rcases List.mem_cons.mp hm with heq | hm
    · obtain ⟨hbelow, hcount⟩ := hlayer id previous heq.symm
      rw [heq, hself, h.uncached_withMap hnew hbelow]
      exact hcount
    · rw [heap_withMap hnew hm, h.uncached_withMap hnew (h.below id previous hm)]
      exact h.count id previous hm
  · rcases List.mem_cons.mp hm with rfl | hm
    · exact hlist
    · rw [h.listed_withMap hnew hm, h.uncached_withMap hnew hm]
      exact h.listed m hm

end WithMap

/-- A layer of its own has nothing cached. -/
theorem Fresh.newLayer (h : Fresh be st) {m : Map} (hm : m ∈ st.created) {o : MapObj}
    (hc : o.knownItemsCache = (0, [])) :
    Fresh be (st.withMap (.layer st.created.length m) o) := by
  have hnew : Map.layer st.created.length m ∉ st.created := h.not_mem rfl
  have hself : (st.withMap (.layer st.created.length m) o).heap (.layer st.created.length m) = o :=
    Function.update_self _ _ _
  refine h.withMap rfl (fun id previous heq => ?_) ?_
  · cases heq
    rw [hc]
    exact ⟨hm, Nat.zero_le _⟩
  · rw [senses_listed_layer, senses_uncached_layer _ _ _ _ 0, hself, hc]
    · rfl
    · rw [h.listed_withMap hnew hm, h.uncached_withMap hnew hm]
      exact h.listed m hm

/-- What a layer's own items make of the items below is the same with one more own item, if none of the
results has that item's key, and each agrees with the item where the keys are equal. -/
theorem senses_transformPrevious_extended {own l : List MapItem} {item : MapItem}
    (hkey : ∀ s ∈ senses (transformPrevious be own l), s.1 ≠ item.key)
    (hagree : ∀ s ∈ senses (transformPrevious be own l), ∀ ι, s.1.eval ι = item.key.eval ι → s.2 ι = item.sense.2 ι) :
    senses (transformPrevious be (own ++ [item]) l) = senses (transformPrevious be own l) := by
  rw [senses_transformPrevious] at hkey hagree ⊢
  rw [senses_transformPrevious]
  have hmem : ∀ s ∈ senses l, keptSense own s = true →
      overlaid own s ∈ ((senses l).filter (keptSense own)).map (overlaid own) := fun s hs hk =>
    List.mem_map_of_mem (List.mem_filter.mpr ⟨hs, hk⟩)
  have hkept : (senses l).filter (keptSense (own ++ [item])) = (senses l).filter (keptSense own) := by
    refine List.filter_congr fun s hs => ?_
    rw [keptSense, List.all_append, ← keptSense]
    cases hk : keptSense own s with
    | false => rfl
    | true =>
      have hne : s.1 ≠ item.key := hkey (overlaid own s) (hmem s hs hk)
      simpa using hne
  rw [hkept]
  refine List.map_congr_left fun s hs => ?_
  obtain ⟨hs, hk⟩ := List.mem_filter.mp hs
  refine Prod.ext rfl (funext fun ι => ?_)
  have ha := hagree (overlaid own s) (hmem s hs hk) ι
  simp only [overlaid, List.find?_append] at ha ⊢
  cases hf : own.find? fun ki => ki.key.eval ι == s.1.eval ι with
  | some ki => rfl
  | none =>
    rw [hf] at ha
    by_cases he : s.1.eval ι = item.key.eval ι
    · simpa [he] using (ha he).symm
    · have hb : (item.key.eval ι == s.1.eval ι) = false := by simpa using Ne.symm he
      simp [hb]

/-- The last layer, extended with an item that no cached item disagrees with. -/
theorem Fresh.extended (h : Fresh be st) {id : ℕ} {previous : Map} (hm : .layer id previous ∈ st.created)
    {item : MapItem} {o : MapObj} (ho : o.knownItems = (st.heap (.layer id previous)).knownItems ++ [item])
    (hc : o.knownItemsCache = (st.heap (.layer id previous)).knownItemsCache)
    (hkey : ∀ i ∈ (st.heap (.layer id previous)).knownItemsCache.2, i.key ≠ item.key)
    (hagree : ∀ i ∈ (st.heap (.layer id previous)).knownItemsCache.2, ∀ ι, i.key.eval ι = item.key.eval ι →
      i.sense.2 ι = item.sense.2 ι) :
    Fresh be (st.withMap (.layer st.created.length previous) o) := by
  have hnew : Map.layer st.created.length previous ∉ st.created := h.not_mem rfl
  have hbelow := h.below id previous hm
  have hself : (st.withMap (.layer st.created.length previous) o).heap (.layer st.created.length previous) = o :=
    Function.update_self _ _ _
  have hcached := h.cached hm
  refine h.withMap rfl (fun id' previous' heq => ?_) ?_
  · cases heq
    rw [hc]
    exact ⟨hbelow, h.count id previous hm⟩
  · rw [senses_listed_layer, senses_uncached_layer _ _ _ _ o.knownItemsCache.1, hself,
      h.uncached_withMap hnew hbelow, ho,
      hc, senses_transformPrevious_extended (l := (uncached be st.heap previous).take _), ← hcached]
    · intro s hs
      rw [← hcached] at hs
      obtain ⟨i, hi, rfl⟩ := List.mem_map.mp hs
      exact hkey i hi
    · intro s hs
      rw [← hcached] at hs
      obtain ⟨i, hi, rfl⟩ := List.mem_map.mp hs
      exact hagree i hi
    · rw [h.listed_withMap hnew hbelow, h.uncached_withMap hnew hbelow]
      exact h.listed previous hbelow

/-! ### Merges -/

/-- The items that the caches were made of mean the same over the own items of another heap. -/
def KeepsCached (be : Backend) (st : State) (heap : Map → MapObj) : Prop :=
  ∀ id previous, .layer id previous ∈ st.created →
    let self := st.heap (.layer id previous)
    let n := self.knownItemsCache.1
    n ≤ (uncached be heap previous).length ∧
      senses (transformPrevious be (heap (.layer id previous)).knownItems ((uncached be heap previous).take n)) =
        senses (transformPrevious be self.knownItems ((uncached be st.heap previous).take n))

/-- Where nothing is cached, nothing changes. -/
theorem keepsCached_of_uncached (heap : Map → MapObj) (h : ∀ id previous, .layer id previous ∈ st.created →
    (st.heap (.layer id previous)).knownItemsCache.1 = 0) : KeepsCached be st heap := by
  intro id previous hm
  dsimp only
  rw [h id previous hm, List.take_zero, List.take_zero]
  exact ⟨Nat.zero_le _, rfl⟩

/-- A merge exchanges own items of layers, and nothing else. -/
theorem layersMerged_eq {conds : List BoolAst} : ∀ {m : Map} {others : List Other} {heap heap' : Map → MapObj},
    layersMerged be conds m others heap = some heap' →
    (∀ m', ∃ items, heap' m' = { heap m' with knownItems := items }) ∧ ∀ id, heap' (.oldest id) = heap (.oldest id)
  | .oldest id, others, heap, heap', h => by
    cases h
    exact ⟨fun m' => ⟨(heap m').knownItems, rfl⟩, fun _ => rfl⟩
  | .layer id previous, others, heap, heap', h => by
    unfold layersMerged at h
    split at h
    · cases h
      exact ⟨fun m' => ⟨(heap m').knownItems, rfl⟩, fun _ => rfl⟩
    · obtain ⟨items, -, h⟩ := Option.bind_eq_some_iff.mp h
      obtain ⟨below, -, h⟩ := Option.bind_eq_some_iff.mp h
      obtain ⟨hobj, hold⟩ := layersMerged_eq h
      refine ⟨fun m' => ?_, fun id' => (hold id').trans (Function.update_of_ne (fun he => by cases he) _ _)⟩
      obtain ⟨items', hm'⟩ := hobj m'
      refine ⟨items', ?_⟩
      rw [hm']
      by_cases hm : m' = .layer id previous
      · rw [hm, Function.update_self]
      · rw [Function.update_of_ne hm]

theorem Fresh.merged (h : Fresh be st) {conds : List BoolAst} {m : Map} {others : List Other} {heap : Map → MapObj}
    (hm : layersMerged be conds m others st.heap = some heap) (hkeeps : KeepsCached be st heap) :
    Fresh be { st with heap := heap } := by
  obtain ⟨hobj, hold⟩ := layersMerged_eq hm
  have hcache : ∀ m', (heap m').knownItemsCache = (st.heap m').knownItemsCache := by
    intro m'
    obtain ⟨items, hm'⟩ := hobj m'
    rw [hm']
  refine ⟨h.of_created rfl, fun id previous hlayer => ?_, ?_⟩
  · rw [hcache]
    exact (hkeeps id previous hlayer).1
  · -- by induction on the version
    intro m' hm'
    induction m' with
    | oldest id => rfl
    | layer id previous ih =>
      rw [senses_listed_layer (ih (h.below id previous hm')),
        senses_uncached_layer be heap id previous (heap (.layer id previous)).knownItemsCache.1, hcache,
        (hkeeps id previous hm').2, h.cached hm']

/-! ### Steps -/

/-- What a step must not do to the caches: a `set` or a `remove` extends a layer only of a map that is
definitely empty, and no cached item has the key, or shows something else where it has it; a merge does
not change what the cached items were made of. -/
def Op.Spares (be : Backend) (st : State) : Op → Prop
  | call (.set m key value _) => m.flattens (st.heap m) key = true → isDefinitelyEmpty (st.heap m) = true ∧
      ∀ i ∈ (st.heap m).knownItemsCache.2, i.key ≠ key ∧
        ∀ ι, i.key.eval ι = key.eval ι → i.value.eval ι = value.eval ι ∧ i.present.eval ι = true
  | call (.remove m key _) => m.flattens (st.heap m) key = true → isDefinitelyEmpty (st.heap m) = true ∧
      ∀ i ∈ (st.heap m).knownItemsCache.2, ∀ ι, i.key.eval ι ≠ key.eval ι
  | merge m others conds => ∀ heap, layersMerged be conds m others st.heap = some heap → KeepsCached be st heap
  | _ => True

section Step

variable (h : Fresh be st) {fuel : ℕ} {l : List Event} {m m' : Map} {key : BV}
include h

/-- The layer that a `set` or a `remove` makes, once the map is read. -/
theorem Fresh.withItemLayer (hm : m ∈ st.created) {item : MapItem} {change : BV}
    (hspares : m.flattens (st.heap m) item.key = true → ∀ i ∈ (st.heap m).knownItemsCache.2, i.key ≠ item.key ∧
      ∀ ι, i.key.eval ι = item.key.eval ι → i.sense.2 ι = item.sense.2 ι)
    (hr : Tool.withItemLayer be m item change st = some (m', st', l)) : Fresh be st' := by
  rcases withItemLayer_eq hr with ⟨id, previous, rfl, hflat, rfl, rfl⟩ | ⟨-, rfl, rfl⟩
  · have hok := hspares hflat
    exact h.extended hm rfl rfl (fun i hi => (hok i hi).1) fun i hi => (hok i hi).2
  · exact h.newLayer hm rfl

theorem Fresh.set {value : BV} (hm : m ∈ st.created) (hspares : Op.Spares be st (.call (.set m key value m')))
    (hr : Map.set be fuel m key value st = some (m', st', l)) : Fresh be st' := by
  have hR := (assertions_sameLayers be).toReadings.and (assertions_fresh be).toReadings
  obtain ⟨st₁, l₁, change, ⟨hsame, hfresh⟩, hempty, hlayer⟩ := set_eq hR hr
  refine (hfresh h).withItemLayer (hsame.1 ▸ hm) (fun hflat => ?_) hlayer
  rw [hsame.flattens] at hflat
  obtain ⟨he, hitems⟩ := hspares hflat
  rw [hempty he]
  exact fun i hi => ⟨(hitems i hi).1, fun ι hι => Prod.ext ((hitems i hi).2 ι hι).1 ((hitems i hi).2 ι hι).2⟩

theorem Fresh.remove (hm : m ∈ st.created) (hspares : Op.Spares be st (.call (.remove m key m')))
    (hr : Map.remove be fuel m key st = some (m', st', l)) : Fresh be st' := by
  have hR := (assertions_sameLayers be).toReadings.and (assertions_fresh be).toReadings
  obtain ⟨st₁, l₁, change, value, ⟨hsame, hfresh⟩, hempty, hlayer⟩ := remove_eq hR hr
  refine (hfresh h).withItemLayer (hsame.1 ▸ hm) (fun hflat => ?_) hlayer
  rw [hsame.flattens] at hflat
  obtain ⟨he, hitems⟩ := hspares hflat
  rw [hempty he]
  refine fun i hi => ⟨fun hkey => ?_, fun ι hι => absurd hι (hitems i hi ι)⟩
  exact hitems i hi ⟨fun _ => 0, fun _ => false⟩ (by rw [hkey])

theorem Fresh.call {c : Call} (hc : c.Legal st) (hspares : Op.Spares be st (.call c))
    (hr : c.Returned be fuel st st' l) : Fresh be st' := by
  have hR := assertions_fresh be
  cases c with
  | assume c => exact hR.bind (hR.emit _) (fun _ => hR.addConstraints _) st () st' l hr h
  | new mm given r =>
    obtain ⟨length, unknown, rfl, hnew⟩ := new_eq hR hr
    have hnext : Fresh be { st with next := st.next + 3 } := h.of_same rfl (fun _ => rfl) fun _ => rfl
    exact hnew (hnext.withMap rfl (fun _ _ he => by cases he) rfl)
  | get m key v p => exact hR.get fuel m key none _ st (v, p) st' l hr h
  | set m key value r => exact h.set hc.1 hspares hr
  | remove m key r => exact h.remove hc.1 hspares hr
  | forAll m pred r => exact hR.forAll m pred st r st' l hr h

/-- **What one step keeps.** -/
theorem Fresh.step {op : Op} (hop : op.Legal st) (hspares : op.Spares be st) (hr : op.Returned be fuel st st') :
    Fresh be st' := by
  cases op with
  | call c =>
    obtain ⟨l, hr⟩ := hr
    exact h.call hop hspares hr
  | knownItems m =>
    obtain ⟨items, l, hr⟩ := hr
    exact (assertions_fresh be).listing m st items st' l hr h
  | merge m others conds =>
    obtain ⟨l, hr⟩ := hr
    obtain ⟨heap, hlayers, hread⟩ := (assertions_fresh be).toReadings.merge_layers fuel conds m others hr
    exact hread (h.merged hlayers (hspares heap hlayers))
  | elsewhere => exact h.of_same hr.2 (fun m => by rw [hr.1]) fun m => by rw [hr.1]

end Step

theorem fresh_initial (be : Backend) (symbols : ℕ) (maps : List (ℕ × Map)) : Fresh be (State.initial symbols maps) where
  toLinked := Linked.initial symbols maps
  count _ _ hm := by cases hm
  listed _ hm := by cases hm

theorem History.fresh {symbols : ℕ} {maps : List (ℕ × Map)}
    (h : History be (Op.Spares be) (State.initial symbols maps) st) : Fresh be st := by
  induction h with
  | init => exact fresh_initial be symbols maps
  | step op fuel _ hop hr hspares ih => exact ih.step hop hspares hr

/-- **The cached list is the list that the layers give**, in every state of a history whose steps spare the
caches: for each version, under each valuation. -/
theorem knownItems_uncached (be : Backend) {symbols : ℕ} {maps : List (ℕ × Map)}
    (h : History be (Op.Spares be) (State.initial symbols maps) st) (m : Map) (hm : m ∈ st.created) (ι : Env) :
    (knownItemsIn be st.heap m).1.map (MapItem.at ι) = (uncached be st.heap m).map (MapItem.at ι) := by
  rw [(knownItemsIn_spec be st.heap m).1]
  exact at_of_senses (h.fresh.listed m hm) ι

/-! ### Two states of one map -/

namespace Caching

open Freezing (s₁ table)

def layer : Map := .layer 1 (.oldest 0)

/-- Key 5 is given the value `v`. -/
def s₂ (v : ℕ) : State := after (Map.set Travel.solver 2 (.oldest 0) (bvv 8 5) (bvv 8 v) s₁)

def conds : List BoolAst := [.boolS (.sym 9), .not (.boolS (.sym 9))]

/-- The state in which key 5 has the value 1, merged with the one in which it has the value 2. -/
def merged : State := after (Map.merge Travel.solver 2 conds layer [⟨(s₂ 2).heap, layer⟩] (s₂ 1))

/-- The merged layer is read. -/
def readState : State := after (Map.get Travel.solver 2 layer (bvv 8 7) none (.boolV true) merged)

def newOp : Op := .call (.new ⟨8, 8⟩ (some (bvv 64 10, [.boolV true])) (.oldest 0))

def setFive (v : ℕ) : Op := .call (.set (.oldest 0) (bvv 8 5) (bvv 8 v) layer)

/-- Key 6 is given the value 1. -/
def setSix : Op := .call (.set layer (bvv 8 6) (bvv 8 1) (.layer 2 (.oldest 0)))

def s₃ : State := after (Map.set Travel.solver 2 layer (bvv 8 6) (bvv 8 1) (s₂ 1))

def mergeOp : Op := .merge layer [⟨(s₂ 2).heap, layer⟩] conds

def getSeven : Op := .call (.get layer (bvv 8 7) (.bvs (.sym 5) 8) (.boolS (.sym 6)))

variable {meets : State → Op → Prop}

theorem history_set (hnew : meets (State.initial 0 table) newOp) (hset : meets s₁ (setFive 1)) :
    History Travel.solver meets (State.initial 0 table) (s₂ 1) := by
  refine History.step (setFive 1) 2 (History.step newOp 2 .init ?_ (exists_after (by decide)) hnew) ?_
    (exists_after (by decide)) hset
  · exact legal_new_free (Claripy.closed_bvv _ _) (.oldest 0)
  · exact ⟨by decide, trivial, by decide, trivial, by decide⟩

end Caching

open Caching in
/-- The layer of a set is merged with another state's, before anything is cached, and then read. -/
theorem knownItems_uncached_merged : layer ∈ readState.created ∧ ∀ ι,
    (knownItemsIn Travel.solver readState.heap layer).1.map (MapItem.at ι) =
      (uncached Travel.solver readState.heap layer).map (MapItem.at ι) := by
  have hset : History Travel.solver (Op.Spares Travel.solver) (State.initial 0 Freezing.table) (s₂ 1) :=
    history_set trivial fun hflat => absurd hflat (by decide)
  have hcreated : (s₂ 1).created = [layer, .oldest 0] := by decide
  have hmerge := History.step mergeOp 2 hset
    ⟨by decide, by decide, fun o ho => by rw [List.mem_singleton.mp ho]; exact ⟨by decide, trivial⟩⟩
    (exists_after (by decide)) fun heap _ => keepsCached_of_uncached heap fun id previous hm => by
      rw [hcreated] at hm
      have hlayer : Map.layer id previous = layer := by simpa using hm
      rw [hlayer]
      decide
  have hget := History.step getSeven 2 hmerge ⟨by decide, trivial, by decide⟩ (exists_after (by decide)) trivial
  have hmem : layer ∈ readState.created := by decide
  exact ⟨hmem, knownItems_uncached Travel.solver hget layer hmem⟩

/-- In every history the list with the cache is the one without. -/
def CacheAgrees (be : Backend) : Prop :=
  ∀ symbols maps st, History be (fun _ _ => True) (State.initial symbols maps) st → ∀ m ∈ st.created, ∀ ι,
    (knownItemsIn be st.heap m).1.map (MapItem.at ι) = (uncached be st.heap m).map (MapItem.at ι)

open Caching in
/-- Key 5 is set, and then key 6: the layer is extended, its cache still lists key 6 with the value from before, and
the key is listed twice. -/
theorem not_cache_agrees : ¬∀ be, CacheAgrees be := by
  intro hall
  have hsix : History Travel.solver (fun _ _ => True) (State.initial 0 Freezing.table) s₃ :=
    .step setSix 2 (history_set trivial trivial) ⟨by decide, trivial, by decide, trivial, by decide⟩
      (exists_after (by decide)) trivial
  have h := hall Travel.solver 0 Freezing.table s₃ hsix (.layer 2 (.oldest 0)) (by decide) ⟨fun _ => 0, fun _ => true⟩
  exact absurd h (by decide)

end Tool
end Klint
