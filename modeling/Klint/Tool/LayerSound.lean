/-
# set and remove are right

A new layer says what its version of the map holds. Where `with_item_layer` extends the
last layer instead of adding one, the items in the layer's cache are taken over as they
are: they stay right if none of them has, under another term, the key that is written.
-/
import Klint.Tool.GetSound

namespace Klint
namespace Tool

variable {be : Backend} {x x' : Exec} {st st' : State}

/-! ### A new map -/

/-- What `create` makes of the state. -/
def State.withMap (st : State) (new : Map) (o : MapObj) : State :=
  { st.put new o with created := new :: st.created }

/-- The execution with the content of a new map. -/
def Exec.withContent (x : Exec) (new : Map) (c : Content) : Exec :=
  { x with content := Function.update x.content new c }

theorem withContent_agree (x : Exec) (n : ℕ) (new : Map) (c : Content) : x.Agree n (x.withContent new c) :=
  ⟨fun _ _ => rfl, fun _ _ => rfl⟩

section WithMap

variable {new : Map} {o : MapObj} {c : Content}

theorem heap_withMap {m : Map} (hnew : new ∉ st.created) (hm : m ∈ st.created) :
    (st.withMap new o).heap m = st.heap m := by
  refine Function.update_of_ne ?_ _ _
  rintro rfl
  exact hnew hm

theorem mapMeta_withMap (new : Map) (o : MapObj) : ((st.withMap new o).heap new).mapMeta = o.mapMeta := by
  simp only [State.withMap, State.put, Function.update_self]

theorem content_withContent {m : Map} (hnew : new ∉ st.created) (hm : m ∈ st.created) :
    (x.withContent new c).content m = x.content m := by
  refine Function.update_of_ne ?_ _ _
  rintro rfl
  exact hnew hm

theorem withMap_later (hnew : new ∉ st.created) (hc : new.isOldest → c = x.content new) :
    Later x st (x.withContent new c) (st.withMap new o) where
  next := le_rfl
  agree := withContent_agree x _ new c
  maps := rfl
  table := rfl
  content _ hm := content_withContent hnew hm
  created _ hm := List.mem_cons_of_mem _ hm
  mapMeta m hm := by rw [heap_withMap hnew hm]
  length m hm := by rw [heap_withMap hnew hm]
  unknownItem m hm := by rw [heap_withMap hnew hm]
  known m hm := by rw [heap_withMap hnew hm]
  oldest id := by
    by_cases hn : new = .oldest id
    · subst hn
      rw [Exec.withContent, hc rfl, Function.update_eq_self]
    · exact Function.update_of_ne (Ne.symm hn) _ _

theorem Sound.listed_withMap (h : Sound be x st) (hnew : new ∉ st.created) : ∀ {m : Map}, m ∈ st.created →
    listed be (st.withMap new o).heap m = listed be st.heap m
  | .oldest id, hm => by simp only [listed, heap_withMap hnew hm]
  | .layer id previous, hm => by
    simp only [listed, heap_withMap hnew hm, Sound.listed_withMap h hnew (h.layer id previous hm).below]

/-- A new map that keeps the invariant itself may be added. -/
theorem Sound.withMap (h : Sound be x st) (hnew : new ∉ st.created) (hid : new.id = st.created.length)
    (hc : new.isOldest → c = x.content new)
    (hmap : MapOk be (x.withContent new c) (st.withMap new o) new)
    (holdest : OldestOk (x.withContent new c) (st.withMap new o) new.oldestVersion)
    (hlayer : ∀ id previous, new = .layer id previous → LayerOk be (x.withContent new c)
      (st.withMap new o) id previous) :
    Sound be (x.withContent new c) (st.withMap new o) := by
  have hl : Later x st (x.withContent new c) (st.withMap new o) := withMap_later hnew hc
  refine ⟨h.maps, fun t ht => ?_, h.closed, fun m hm => ?_, fun m hm => ?_, fun m hm => ?_, fun id previous hm => ?_⟩
  · rw [hl.agree.eval_bool (h.closed t ht)]
    exact h.constraints t ht
  · rcases List.mem_cons.mp hm with rfl | hm
    · simp only [State.withMap, List.length_cons, hid]
      omega
    · exact (h.numbered m hm).trans (Nat.lt_succ_self _)
  · rcases List.mem_cons.mp hm with rfl | hm
    · exact hmap
    · refine h.mapOk_later hl hm ?_ (fun i (hi : i ∈ []) => by cases hi)
      rw [h.listed_withMap hnew hm, List.append_nil]
  · rcases List.mem_cons.mp hm with rfl | hm
    · exact holdest
    · have ho := (h.map m hm).oldest
      refine h.oldestOk_later hl hm ?_ (by rw [heap_withMap hnew ho]) (fun i (hi : i ∈ []) => by cases hi)
      rw [heap_withMap hnew ho, List.append_nil]
  · rcases List.mem_cons.mp hm with heq | hm
    · exact hlayer id previous heq.symm
    · have hok := h.layer id previous hm
      refine h.layerOk_later hl hm (by rw [heap_withMap hnew hm]) ?_ ?_
      · rw [heap_withMap hnew hm, h.listed_withMap hnew hok.below]
        exact hok.count
      · rw [h.listed_withMap hnew hok.below, h.listed_withMap hnew hm]
        exact hok.covers

end WithMap

/-! ### Layers over a content -/

/-- Two different constants of one size have different values. -/
theorem eval_ne_of_not_symbolic (ι : Env) {a b : BV} (ha : a.symbolic = false) (hb : b.symbolic = false)
    (hsize : a.size = b.size) (hne : a ≠ b) : a.eval ι ≠ b.eval ι := by
  cases a with
  | bvv s v =>
    cases b with
    | bvv s' v' =>
      cases hsize
      intro he
      exact hne (by rw [BitVec.eq_of_toNat_eq he])
    | _ => cases hb
  | _ => cases ha

theorem overlay_singleton (item : MapItem) (c : Content) :
    x.overlay [item] c = c.put (item.key.eval x.env) (x.item item) := by
  funext k
  rw [Content.put_apply, Exec.overlay]
  by_cases hk : item.key.eval x.env = k
  · simp [hk]
  · have hb : (item.key.eval x.env == k) = false := by simpa using hk
    simp [hb, Ne.symm hk]

/-- An own item whose key no other own item has. -/
theorem overlay_append {own : List MapItem} {item : MapItem} (c : Content)
    (hne : ∀ i ∈ own, i.key.eval x.env ≠ item.key.eval x.env) :
    x.overlay (own ++ [item]) c = (x.overlay own c).put (item.key.eval x.env) (x.item item) := by
  funext k
  rw [Content.put_apply, Exec.overlay, Exec.overlay, List.find?_append]
  by_cases hk : k = item.key.eval x.env
  · subst hk
    have hnone : (own.find? fun i => i.key.eval x.env == item.key.eval x.env) = none := by
      rw [List.find?_eq_none]
      exact fun i hi => by simpa using hne i hi
    simp [hnone]
  · have hb : (item.key.eval x.env == k) = false := by simpa using Ne.symm hk
    simp [hb, hk]

/-! ### One more item in a layer -/

section OneMore

variable {own cached rest : List MapItem} {item : MapItem}

/-- An item of a layer with one more item is that one, or is in the layer already, or comes from the list
below, changed by one item more than in the layer. -/
theorem mem_oneMore {i : MapItem}
    (hi : i ∈ (own ++ [item]) ++ (cached ++ transformPrevious be (own ++ [item]) rest)) :
    i = item ∨ i ∈ own ++ (cached ++ transformPrevious be own rest) ∨
    ∃ j ∈ rest, transformed be own j ∈ own ++ (cached ++ transformPrevious be own rest) ∧
      transformed be (own ++ [item]) j = i := by
  rcases List.mem_append.mp hi with hi | hi
  · rcases List.mem_append.mp hi with hi | hi
    · exact .inr (.inl (List.mem_append_left _ hi))
    · exact .inl (List.mem_singleton.mp hi)
  · rcases List.mem_append.mp hi with hi | hi
    · exact .inr (.inl (List.mem_append_right _ (List.mem_append_left _ hi)))
    · obtain ⟨j, hj, hjne, rfl⟩ := mem_transformPrevious.mp hi
      have hold : transformed be own j ∈ transformPrevious be own rest :=
        mem_transformPrevious.mpr ⟨j, hj, fun ki hki => hjne ki (List.mem_append_left _ hki), rfl⟩
      exact .inr (.inr ⟨j, hj, List.mem_append_right _ (List.mem_append_right _ hold), rfl⟩)

/-- The same for the first item of a key. What the layer's cache answers has another key term than the item. -/
theorem firstOf_oneMore {t : BV} {i : MapItem}
    (hi : firstOf ((own ++ [item]) ++ (cached ++ transformPrevious be (own ++ [item]) rest)) t = some i) :
    i = item ∨
    (firstOf (own ++ (cached ++ transformPrevious be own rest)) t = some i ∧
      (i ∈ own ∨ i ∈ cached ∧ i.key ≠ item.key)) ∨
    ∃ j, firstOf (own ++ (cached ++ transformPrevious be own rest)) t = some (transformed be own j) ∧
      transformed be (own ++ [item]) j = i := by
  rw [firstOf_append, firstOf_append, firstOf_append] at hi
  rw [firstOf_append, firstOf_append]
  cases hfo : firstOf own t with
  | some j =>
    rw [hfo, Option.some_or, Option.some_or, Option.some.injEq] at hi
    subst hi
    exact .inr (.inl ⟨Option.some_or, .inl (firstOf_mem hfo)⟩)
  | none =>
    rw [hfo, Option.none_or] at hi
    rw [Option.none_or]
    cases hft : firstOf [item] t with
    | some j =>
      rw [hft, Option.some_or, Option.some.injEq] at hi
      exact .inl (hi ▸ List.mem_singleton.mp (firstOf_mem hft))
    | none =>
      have htne : t ≠ item.key := firstOf_eq_none.mp hft item (List.mem_singleton.mpr rfl)
      rw [hft, Option.none_or] at hi
      cases hfc : firstOf cached t with
      | some j =>
        rw [hfc, Option.some_or, Option.some.injEq] at hi
        subst hi
        exact .inr (.inl ⟨Option.some_or, .inr ⟨firstOf_mem hfc, firstOf_key hfc ▸ htne⟩⟩)
      | none =>
        rw [hfc, Option.none_or, firstOf_transformPrevious] at hi
        split at hi
        · next hall =>
          obtain ⟨j, hj, rfl⟩ := Option.map_eq_some_iff.mp hi
          have hallo : ∀ ki ∈ own, t ≠ ki.key := fun ki hki => hall ki (List.mem_append_left _ hki)
          refine .inr (.inr ⟨j, ?_, rfl⟩)
          rw [Option.none_or, firstOf_transformPrevious, if_pos hallo, hj, Option.map_some]
        · cases hi

/-- One more item hides no key. -/
theorem covers_oneMore {j : MapItem} (hj : j ∈ own ++ (cached ++ transformPrevious be own rest)) :
    ∃ j' ∈ (own ++ [item]) ++ (cached ++ transformPrevious be (own ++ [item]) rest), j'.key = j.key := by
  rcases List.mem_append.mp hj with hj | hj
  · exact ⟨j, List.mem_append_left _ (List.mem_append_left _ hj), rfl⟩
  · rcases List.mem_append.mp hj with hj | hj
    · exact ⟨j, List.mem_append_right _ (List.mem_append_left _ hj), rfl⟩
    · obtain ⟨j₀, hj₀, -, rfl⟩ := mem_transformPrevious.mp hj
      obtain ⟨j', hj', hkey⟩ := own_or_transformed be (own ++ [item]) hj₀
      refine ⟨j', ?_, hkey⟩
      rcases List.mem_append.mp hj' with hj' | hj'
      · exact List.mem_append_left _ hj'
      · exact List.mem_append_right _ (List.mem_append_right _ hj')

end OneMore

/-- The object of a new layer. -/
def layerObj (below : MapObj) (length : BV) (invs : List MapInvariant) (items : List MapItem)
    (cache : ℕ × List MapItem) : MapObj :=
  ⟨below.mapMeta, length, invs, items, below.unknownItem, cache⟩

/-- What `with_item_layer` is given. -/
structure LayerPre (be : Backend) (x : Exec) (st : State) (m : Map) (item : MapItem) (length : BV) : Prop where
  sound : Sound be x st
  mem : m ∈ st.created
  itemOk : item.Ok st.next (st.heap m).mapMeta
  settled : Settled x st m (item.key.eval x.env)
  closed : length.Closed st.next
  size : length.eval x.env = ((x.content m).put (item.key.eval x.env) (x.item item)).size (st.heap m).mapMeta.keySize

section Layer

variable {m : Map} {item : MapItem} {length : BV} (p : LayerPre be x st m item length)
include p

theorem LayerPre.not_mem (m' : Map) (hid : m'.id = st.created.length) : m' ∉ st.created := by
  intro hm'
  have hlt := p.sound.numbered m' hm'
  omega

/-- A version of a map that is there is not an oldest one. -/
theorem LayerPre.content_new {new : Map} (hnew : new ∉ st.created) (hold : new.oldestVersion = m.oldestVersion)
    {c d : Content} (hn : new.isOldest) : c = d := by
  cases new with
  | oldest id =>
    change Map.oldest id = m.oldestVersion at hold
    exact absurd (hold ▸ (p.sound.map m p.mem).oldest) hnew
  | layer id previous => cases hn

/-- What does not depend on how the layer is stored. -/
theorem LayerPre.mapOk {new : Map} {invs : List MapInvariant} {items : List MapItem} {cache : ℕ × List MapItem}
    (hid : new.id = st.created.length) (hold : new.oldestVersion = m.oldestVersion)
    {c : Content} (hc : c = (x.content m).put (item.key.eval x.env) (x.item item))
    {st' : State} (hst' : st' = st.withMap new (layerObj (st.heap m) length invs items cache))
    (hitems : ∀ i ∈ listed be st'.heap new, i.Ok st.next (st.heap m).mapMeta)
    (hfirst : FirstRight x c (listed be st'.heap new))
    (hsettled : ∀ i ∈ listed be st'.heap new, Settled x st m (i.key.eval x.env)) :
    MapOk be (x.withContent new c) st' new := by
  have hnew := p.not_mem new hid
  have hok := p.sound.map m p.mem
  have ho := hok.oldest
  have hl : Later x st (x.withContent new c) st' := hst' ▸ withMap_later hnew (p.content_new hnew hold)
  have hself : st'.heap new = layerObj (st.heap m) length invs items cache := by
    rw [hst']
    exact Function.update_self _ _ _
  have hcontent : (x.withContent new c).content new = c := Function.update_self _ _ _
  have hsettled' : ∀ k, Settled x st m k → Settled (x.withContent new c) st' new k := by
    intro k hk
    have hlater := p.sound.settled_later hl p.mem hk
    unfold Settled at hlater ⊢
    rw [hold]
    exact hlater
  refine ⟨hold ▸ hl.created _ ho, ?_, ?_, ?_, ?_, ?_, ?_, ?_, ?_, ?_⟩
  · rw [hself, hold, hl.mapMeta _ ho]
    exact hok.mapMeta
  · rw [hself, hold, hl.unknownItem _ ho]
    exact hok.unknownItem
  · rw [hself, hcontent, hc]
    intro k hk
    rw [Content.put_apply]
    split
    · have hlt := item.value.eval_lt x.env
      rw [p.itemOk.valueSize] at hlt
      exact hlt
    · exact hok.bound k hk
  · rw [hself, hst']
    exact p.closed
  · rw [hself, hcontent]
    exact (hl.agree.eval_bv p.closed).trans (p.size.trans (by rw [hc]; rfl))
  · rw [hself]
    intro i hi
    exact (hitems i hi).mono hl.next
  · rw [hcontent]
    exact hfirst.agree hl.agree hitems
  · intro i hi
    rw [hl.agree.eval_bv (hitems i hi).key]
    exact hsettled' _ (hsettled i hi)
  · rw [hself, hcontent, hold, hl.content _ ho]
    intro k hk hne
    refine hsettled' k ?_
    rw [hc, Content.put_apply] at hne
    split at hne
    · next he => exact he ▸ p.settled
    · exact hok.changed k hk hne

theorem LayerPre.oldestOk {new : Map} {invs : List MapInvariant} {items : List MapItem} {cache : ℕ × List MapItem}
    {c : Content} (hid : new.id = st.created.length) (hold : new.oldestVersion = m.oldestVersion) :
    OldestOk (x.withContent new c)
      (st.withMap new (layerObj (st.heap m) length invs items cache)) new.oldestVersion := by
  have hnew := p.not_mem new hid
  have ho := (p.sound.map m p.mem).oldest
  rw [hold]
  refine p.sound.oldestOk_later (withMap_later hnew (p.content_new hnew hold)) p.mem ?_ (by rw [heap_withMap hnew ho])
    (fun i (hi : i ∈ []) => by cases hi)
  rw [heap_withMap hnew ho, List.append_nil]

/-- A layer of its own, over the map. -/
theorem LayerPre.newLayer {new : Map} (hnew : new = .layer st.created.length m) {c : Content}
    (hc : c = (x.content m).put (item.key.eval x.env) (x.item item)) :
    Sound be (x.withContent new c)
      (st.withMap new (layerObj (st.heap m) length [] [item] (0, []))) := by
  have hid : new.id = st.created.length := hnew ▸ rfl
  have hold : new.oldestVersion = m.oldestVersion := hnew ▸ rfl
  have hmem := p.not_mem new hid
  have hok := p.sound.map m p.mem
  have hbelow : listed be
      (st.withMap new (layerObj (st.heap m) length [] [item] (0, []))).heap m =
      listed be st.heap m := p.sound.listed_withMap hmem p.mem
  have hself : (st.withMap new (layerObj (st.heap m) length [] [item] (0, []))).heap new =
      (layerObj (st.heap m) length [] [item] (0, [])) := Function.update_self _ _ _
  have hlist : listed be
      (st.withMap new (layerObj (st.heap m) length [] [item] (0, []))).heap new =
      [item] ++ transformPrevious be [item] (listed be st.heap m) := by
    subst hnew
    simp only [listed, hself, hbelow]
    simp only [layerObj, List.drop_zero, List.nil_append]
  refine p.sound.withMap hmem hid (p.content_new hmem hold) (p.mapOk hid hold hc rfl ?_ ?_ ?_) (p.oldestOk hid hold) ?_
  · rw [hlist]
    intro i hi
    rcases List.mem_append.mp hi with hi | hi
    · exact List.mem_singleton.mp hi ▸ p.itemOk
    · obtain ⟨j, hj, -, rfl⟩ := mem_transformPrevious.mp hi
      exact transformed_ok (fun ki hki => List.mem_singleton.mp hki ▸ p.itemOk) (hok.items j hj)
  · rw [hlist]
    intro t i hi
    rw [firstOf_append, Option.or_eq_some_iff] at hi
    rcases hi with hi | ⟨-, hi⟩
    · rw [List.mem_singleton.mp (firstOf_mem hi), Exec.Right, hc, Content.put_apply, if_pos rfl]
    · rw [firstOf_transformPrevious] at hi
      split at hi
      · obtain ⟨j, hj, rfl⟩ := Option.map_eq_some_iff.mp hi
        rw [hc, ← overlay_singleton]
        exact right_transformed (hok.first t j hj)
      · cases hi
  · rw [hlist]
    intro i hi
    rcases List.mem_append.mp hi with hi | hi
    · exact List.mem_singleton.mp hi ▸ p.settled
    · obtain ⟨j, hj, -, rfl⟩ := mem_transformPrevious.mp hi
      exact hok.settled j hj
  · rintro id previous rfl
    cases hnew
    refine ⟨List.mem_cons_of_mem _ p.mem, ?_, ?_, ?_, ?_⟩
    · rw [hself, content_withContent hmem p.mem]
      have hcontent : (x.withContent (.layer st.created.length m) c).content (.layer st.created.length m) = c :=
        Function.update_self _ _ _
      rw [hcontent]
      refine (hc.trans (overlay_singleton item _).symm).trans ?_
      have hone : ∀ i ∈ [item], i.Ok st.next (st.heap m).mapMeta := fun i hi => List.mem_singleton.mp hi ▸ p.itemOk
      exact (overlay_agree (withContent_agree x st.next _ c) hone _).symm
    · rw [hself]
      exact List.pairwise_singleton _ _
    · rw [hself]
      exact Nat.zero_le _
    · rw [hbelow, hlist]
      exact fun i hi => own_or_transformed be [item] hi

/-- The last layer with one more item, of a constant key that it does not have. -/
theorem LayerPre.flatLayer {id : ℕ} {previous : Map} (hm : m = .layer id previous)
    (hkey : item.key.symbolic = false)
    (hkeys : ∀ i ∈ (st.heap m).knownItems, i.key.symbolic = false ∧ i.key ≠ item.key)
    (hinherited : ∀ i ∈ (st.heap m).knownItemsCache.2, i.key ≠ item.key → i.key.eval x.env = item.key.eval x.env →
      x.item i = x.item item)
    {new : Map} (hnew : new = .layer st.created.length previous) {c : Content}
    (hc : c = (x.content m).put (item.key.eval x.env) (x.item item)) :
    Sound be (x.withContent new c) (st.withMap new
      (layerObj (st.heap m) length (st.heap m).invariants ((st.heap m).knownItems ++ [item])
        (st.heap m).knownItemsCache)) := by
  have hid : new.id = st.created.length := hnew ▸ rfl
  have hold : new.oldestVersion = m.oldestVersion := by
    rw [hnew, hm]
    rfl
  have hmem := p.not_mem new hid
  have hok := p.sound.map m p.mem
  have hlayer : LayerOk be x st id previous := p.sound.layer id previous (hm ▸ p.mem)
  have hmeta : (st.heap previous).mapMeta = (st.heap m).mapMeta := hm ▸ p.sound.mapMeta_below (hm ▸ p.mem)
  set own := (st.heap m).knownItems with hown
  set cache := (st.heap m).knownItemsCache with hcache
  set st' := st.withMap new (layerObj (st.heap m) length (st.heap m).invariants (own ++ [item]) cache) with hst'
  set rest := (listed be st.heap previous).drop cache.1 with hrest
  have hbelow : listed be st'.heap previous = listed be st.heap previous := p.sound.listed_withMap hmem hlayer.below
  have hself : st'.heap new = layerObj (st.heap m) length (st.heap m).invariants (own ++ [item]) cache :=
    Function.update_self _ _ _
  have hlist : listed be st'.heap new =
      (own ++ [item]) ++ (cache.2 ++ transformPrevious be (own ++ [item]) rest) := by
    subst hnew
    simp only [listed, hself, hbelow]
    simp only [layerObj, hrest]
  have hlistm : listed be st.heap m = own ++ (cache.2 ++ transformPrevious be own rest) := by
    subst hm
    rfl
  have hownOk : ∀ i ∈ own, i.Ok st.next (st.heap m).mapMeta := fun i hi =>
    hok.items i (hlistm ▸ List.mem_append_left _ hi)
  have hrestOk : ∀ i ∈ rest, i.Ok st.next (st.heap m).mapMeta := fun i hi =>
    hmeta ▸ (p.sound.map _ hlayer.below).items i (List.mem_of_mem_drop hi)
  -- the constants differ, so the item's key is none of the layer's
  have hne : ∀ i ∈ own, i.key.eval x.env ≠ item.key.eval x.env := fun i hi =>
    eval_ne_of_not_symbolic x.env (hkeys i hi).1 hkey ((hownOk i hi).keySize.trans p.itemOk.keySize.symm) (hkeys i hi).2
  have hput : ∀ {i : MapItem}, x.Right (x.content m) i → i.key.eval x.env ≠ item.key.eval x.env → x.Right c i := by
    intro i hi hik
    rw [Exec.Right, hc, Content.put_apply, if_neg hik]
    exact hi
  have hallOk : ∀ i ∈ own ++ [item], i.Ok st.next (st.heap m).mapMeta := by
    intro i hi
    rcases List.mem_append.mp hi with hi | hi
    · exact hownOk i hi
    · exact List.mem_singleton.mp hi ▸ p.itemOk
  refine p.sound.withMap hmem hid (p.content_new hmem hold) (p.mapOk hid hold hc hst' ?_ ?_ ?_) (p.oldestOk hid hold) ?_
  · rw [hlist]
    intro i hi
    rcases mem_oneMore hi with rfl | hi | ⟨j, hj, -, rfl⟩
    · exact p.itemOk
    · exact hok.items i (hlistm ▸ hi)
    · exact transformed_ok hallOk (hrestOk j hj)
  · rw [hlist]
    intro t i hi
    rcases firstOf_oneMore hi with rfl | ⟨hfirst, hi⟩ | ⟨j, hfirst, rfl⟩
    · rw [Exec.Right, hc, Content.put_apply, if_pos rfl]
    · have hright := hok.first t i (hlistm ▸ hfirst)
      by_cases hk : i.key.eval x.env = item.key.eval x.env
      · rcases hi with hi | ⟨hi, hine⟩
        · exact absurd hk (hne i hi)
        · rw [Exec.Right, hc, Content.put_apply, if_pos hk]
          exact hinherited i hi hine hk
      · exact hput hright hk
    · have hright := hok.first t _ (hlistm ▸ hfirst)
      rw [Exec.Right, item_transformed] at hright
      have hkey : (transformed be (own ++ [item]) j).key = j.key := rfl
      rw [Exec.Right, item_transformed, overlay_append _ hne, hkey, hc, Content.put_apply, Content.put_apply]
      split
      · rfl
      · exact hright
  · rw [hlist]
    intro i hi
    rcases mem_oneMore hi with rfl | hi | ⟨j, -, hj, rfl⟩
    · exact p.settled
    · exact hok.settled i (hlistm ▸ hi)
    · exact hok.settled (transformed be own j) (hlistm ▸ hj)
  · rintro id' previous' hnew'
    cases hnew.symm.trans hnew'
    have hcontent : (x.withContent new c).content new = c := Function.update_self _ _ _
    refine ⟨List.mem_cons_of_mem _ hlayer.below, ?_, ?_, ?_, ?_⟩
    · rw [← hnew, hself, hcontent, content_withContent hmem hlayer.below]
      have hover : x.content m = x.overlay own (x.content previous) := by
        rw [hown, hm]
        exact hlayer.content
      calc c = (x.overlay own (x.content previous)).put (item.key.eval x.env) (x.item item) := by rw [hc, hover]
        _ = x.overlay (own ++ [item]) (x.content previous) := (overlay_append _ hne).symm
        _ = (x.withContent new c).overlay (own ++ [item]) (x.content previous) :=
          (overlay_agree (withContent_agree x st.next new c) hallOk _).symm
    · rw [← hnew, hself]
      have hdistinct := hlayer.distinct
      rw [← hm, ← hown] at hdistinct
      refine List.pairwise_append.mpr ⟨hdistinct, List.pairwise_singleton _ _, fun a ha b hb => ?_⟩
      rw [List.mem_singleton.mp hb]
      exact (hkeys a ha).2
    · have hcount := hlayer.count
      rw [← hm, ← hcache] at hcount
      rw [← hnew, hself, hbelow]
      exact hcount
    · rw [hbelow, ← hnew, hlist]
      intro i hi
      obtain ⟨j, hj, hji⟩ := hlayer.covers i hi
      rw [← hm, hlistm] at hj
      obtain ⟨j', hj', hj'j⟩ := covers_oneMore hj
      exact ⟨j', hj', hj'j.trans hji⟩

end Layer

/-! ### set and remove -/

/-- A new version of a map, with one key changed. -/
structure Layered (be : Backend) (x : Exec) (st : State) (m : Map) (k : ℕ) (a : ℕ × Bool)
    (m' : Map) (x' : Exec) (st' : State) : Prop where
  sound : Sound be x' st'
  later : Later x st x' st'
  created : m' ∈ st'.created
  content : x'.content m' = (x.content m).put k a
  mapMeta : (st'.heap m').mapMeta = (st.heap m).mapMeta
  oldest : m'.oldestVersion = m.oldestVersion

theorem wlp_withItemLayer (h : Sound be x st) {m : Map} (hm : m ∈ st.created) {item : MapItem} {change : BV}
    (hitem : item.Ok st.next (st.heap m).mapMeta) (hsettled : Settled x st m (item.key.eval x.env))
    (hchange : change.Closed st.next)
    (hsize : ((x.content m).put (item.key.eval x.env) (x.item item)).size (st.heap m).mapMeta.keySize <
        2 ^ (st.heap m).length.size →
      (be.add (st.heap m).length change).eval x.env =
        ((x.content m).put (item.key.eval x.env) (x.item item)).size (st.heap m).mapMeta.keySize) :
    replay.wlp (withItemLayer be m item change) (Layered be x st m (item.key.eval x.env) (x.item item)) x st := by
  have hok := h.map m hm
  have hpre : ((x.content m).put (item.key.eval x.env) (x.item item)).size (st.heap m).mapMeta.keySize <
      2 ^ (st.heap m).length.size → LayerPre be x st m item (be.add (st.heap m).length change) := fun hlt =>
    ⟨h, hm, hitem, hsettled, Claripy.closed_add hok.lengthClosed hchange, hsize hlt⟩
  unfold withItemLayer
  refine Replay.wlp_bind (wlp_object ?_)
  refine Replay.wlp_bind (Replay.wlp_bind (Replay.wlp_read (Replay.wlp_pure ?_)))
  dsimp only
  split
  · next id previous hflat =>
    refine Replay.wlp_bind (Replay.wlp_modify ?_)
    refine Replay.wlp_bind (Replay.wlp_emit fun hev => Replay.wlp_pure ?_)
    obtain ⟨hlt, hinherited⟩ := hev
    rw [Claripy.size_add] at hlt
    have p := hpre hlt
    simp only [Bool.and_eq_true, Bool.not_eq_true', List.all_eq_true, decide_eq_true_eq] at hflat
    have hnew : Map.layer st.created.length previous ∉ st.created := p.not_mem _ rfl
    refine ⟨p.flatLayer rfl hflat.1 hflat.2 hinherited rfl rfl, withMap_later hnew (fun hn => by cases hn),
      List.mem_cons_self, Function.update_self _ _ _, ?_, rfl⟩
    exact mapMeta_withMap _ _
  · refine Replay.wlp_bind (Replay.wlp_modify ?_)
    refine Replay.wlp_bind (Replay.wlp_emit fun hev => Replay.wlp_pure ?_)
    have hlt := hev.1
    rw [Claripy.size_add] at hlt
    have p := hpre hlt
    refine ⟨p.newLayer rfl rfl, withMap_later (p.not_mem _ rfl) (fun hn => by cases hn),
      List.mem_cons_self, Function.update_self _ _ _, ?_, rfl⟩
    exact mapMeta_withMap _ _

/-- A constant that the solver finds is the value. -/
theorem wlp_getIfConstant (hx : ∀ c ∈ st.constraints, c.eval x.env = true) {cond : BoolAst}
    {Q : Option Bool → Exec → State → Prop} (hq : ∀ r, (∀ b, r = some b → cond.eval x.env = b) → Q r x st) :
    replay.wlp (getIfConstant be cond) Q x st := by
  have hfalse : canBeFalse be st.constraints cond = false → cond.eval x.env = true := by
    intro hf
    refine eval_of_definitelyTrue be hx ?_
    rw [definitelyTrue, hf]
    rfl
  have htrue : canBeTrue be st.constraints cond = false → cond.eval x.env = false := by
    intro hf
    by_contra hne
    have hsat : canBeTrue be st.constraints cond = true := by
      refine be.satisfiable_of_eval _ x.env fun c hc => ?_
      rcases List.mem_append.mp hc with hc | hc
      · exact hx c hc
      · rw [List.mem_singleton.mp hc]
        simpa using hne
    rw [hsat] at hf
    cases hf
  unfold getIfConstant
  refine Replay.wlp_bind (Replay.wlp_read ?_)
  split
  · exact Replay.wlp_pure (hq none fun b hb => by cases hb)
  · next hf => exact Replay.wlp_pure (hq (some true) fun b hb => by cases hb; exact hfalse hf)
  · next ht _ => exact Replay.wlp_pure (hq (some false) fun b hb => by cases hb; exact htrue ht)
  · exact Replay.wlp_fail

/-- The length of a map with one key changed. -/
theorem length_put {c : Content} {ks k w l change : ℕ} {a : ℕ × Bool} (hk : k < 2 ^ ks) (hl : l = c.size ks)
    (hlt : (c.put k a).size ks < 2 ^ w)
    (hchange : change % 2 ^ w = (a.2.toNat + 2 ^ w - (c k).2.toNat) % 2 ^ w) :
    (l + change) % 2 ^ w = (c.put k a).size ks := by
  have hsize := c.size_put ks k a hk
  have hpos := Nat.two_pow_pos w
  have hle : (c k).2.toNat ≤ 2 ^ w := (Bool.toNat_le _).trans hpos
  calc (l + change) % 2 ^ w = (l + (a.2.toNat + 2 ^ w - (c k).2.toNat)) % 2 ^ w := by
        rw [Nat.add_mod, hchange, ← Nat.add_mod]
    _ = ((c.put k a).size ks + 2 ^ w) % 2 ^ w := by
        congr 1
        omega
    _ = (c.put k a).size ks := by rw [Nat.add_mod_right, Nat.mod_eq_of_lt hlt]

/-- **`set` makes a version with one key set.** -/
theorem wlp_set (be : Backend) (fuel : ℕ) (h : Sound be x st) {m : Map} (hm : m ∈ st.created) {key value : BV}
    (hc : key.Closed st.next) (hk : key.size = (st.heap m).mapMeta.keySize) (hv : value.Closed st.next)
    (hvs : value.size = (st.heap m).mapMeta.valueSize) :
    replay.wlp (Map.set be fuel m key value) (Layered be x st m (key.eval x.env) (value.eval x.env, true)) x st := by
  unfold Map.set
  have hget := getterSpec_get be fuel m key none (.boolV true) x st h hm hc hk (fun t ht => by cases ht)
    (Claripy.closed_boolV true)
  refine Replay.wlp_bind (Replay.wlp_mono hget ?_)
  intro r x₁ st₁ hr
  have htrue : (BoolAst.boolV true).eval x.env = true := Claripy.eval_boolV _ _
  have hright := hr.right htrue
  have hm₁ := hr.later.created m hm
  have hkey : key.eval x₁.env = key.eval x.env := hr.later.agree.eval_bv hc
  have hcontent := hr.later.content m hm
  refine Replay.wlp_bind (wlp_getIfConstant hr.sound.constraints fun const hconst => ?_)
  have hpresent : (const.elim r.2 BoolAst.boolV).eval x₁.env = (x.content m (key.eval x.env)).2 := by
    rw [← hright]
    cases const with
    | none => rfl
    | some b => rw [Option.elim_some, Claripy.eval_boolV, hconst b rfl]
  have hpresentClosed : (const.elim r.2 BoolAst.boolV).Closed st₁.next := by
    cases const with
    | none => exact hr.present
    | some b => exact Claripy.closed_boolV b
  have hitem : x₁.item ⟨key, value, .boolV true⟩ = (value.eval x.env, true) := by
    rw [Exec.item, Claripy.eval_boolV, hr.later.agree.eval_bv hv]
  refine Replay.wlp_bind (wlp_object ?_)
  refine Replay.wlp_mono (wlp_withItemLayer hr.sound hm₁ ?_ ?_ ?_ ?_) ?_
  · exact ⟨hc.mono hr.later.next, hv.mono hr.later.next, Claripy.closed_boolV true,
      hk.trans (by rw [hr.later.mapMeta m hm]), hvs.trans (by rw [hr.later.mapMeta m hm])⟩
  · have hsettled := hr.settled htrue
    rw [← hkey] at hsettled
    exact hsettled
  · exact Claripy.closed_ite hpresentClosed (Claripy.closed_bvv _ _) (Claripy.closed_bvv _ _)
  · intro hlt
    rw [hitem] at hlt ⊢
    rw [Claripy.eval_add]
    have hk₁ : key.eval x₁.env < 2 ^ (st₁.heap m).mapMeta.keySize := by
      rw [hr.later.mapMeta m hm, ← hk]
      exact key.eval_lt _
    refine length_put hk₁ (hr.sound.map m hm₁).size hlt ?_
    rw [Claripy.eval_ite, hpresent, hcontent, hkey, Claripy.eval_bvv, Claripy.eval_bvv]
    cases (x.content m (key.eval x.env)).2 with
    | true => simp
    | false => simp
  · intro m' x' st' hm'
    refine ⟨hm'.sound, hr.later.trans hm'.later, hm'.created, ?_, ?_, hm'.oldest⟩
    · rw [hm'.content, hitem, hcontent]
      exact congrArg (fun k => (x.content m).put k _) hkey
    · rw [hm'.mapMeta, hr.later.mapMeta m hm]

/-- **`remove` makes a version with one key absent.** -/
theorem wlp_remove (be : Backend) (fuel : ℕ) (h : Sound be x st) {m : Map} (hm : m ∈ st.created) {key : BV}
    (hc : key.Closed st.next) (hk : key.size = (st.heap m).mapMeta.keySize) :
    replay.wlp (Map.remove be fuel m key)
      (Layered be x st m (key.eval x.env) ((x.content m (key.eval x.env)).1, false)) x st := by
  unfold Map.remove
  have hget := getterSpec_get be fuel m key none (.boolV true) x st h hm hc hk (fun t ht => by cases ht)
    (Claripy.closed_boolV true)
  refine Replay.wlp_bind (Replay.wlp_mono hget ?_)
  intro r x₁ st₁ hr
  have htrue : (BoolAst.boolV true).eval x.env = true := Claripy.eval_boolV _ _
  have hright := hr.right htrue
  have hm₁ := hr.later.created m hm
  have hk₁ : key.size = (st₁.heap m).mapMeta.keySize := by rw [hr.later.mapMeta m hm, hk]
  refine Replay.wlp_bind (wlp_badvalue hr.sound hm₁ hk₁ fun t x₂ st₂ q ht hts hteval => ?_)
  have hl := hr.later.trans q.later
  have hm₂ := hl.created m hm
  have hkey : key.eval x₂.env = key.eval x.env := hl.agree.eval_bv hc
  have hkey₁ : key.eval x₁.env = key.eval x.env := hr.later.agree.eval_bv hc
  have hcontent := hl.content m hm
  have hpresent : r.2.eval x₂.env = (x.content m (key.eval x.env)).2 := by
    rw [q.agree.eval_bool hr.present, ← hright]
  have hitem : x₂.item ⟨key, t, .boolV false⟩ = ((x.content m (key.eval x.env)).1, false) := by
    rw [Exec.item, Claripy.eval_boolV, hteval, hkey₁, hr.later.content m hm]
  refine Replay.wlp_bind (wlp_object ?_)
  refine Replay.wlp_mono (wlp_withItemLayer (q.sound hr.sound) hm₂ ?_ ?_ ?_ ?_) ?_
  · exact ⟨hc.mono hl.next, ht, Claripy.closed_boolV false, hk.trans (by rw [hl.mapMeta m hm]),
      hts.trans (by rw [hl.mapMeta m hm, hr.later.mapMeta m hm])⟩
  · have hsettled := hr.sound.settled_later q.later hm₁ (hr.settled htrue)
    rw [← hkey] at hsettled
    exact hsettled
  · exact Claripy.closed_ite (hr.present.mono q.next) (Claripy.closed_bvv _ _) (Claripy.closed_bvv _ _)
  · intro hlt
    rw [hitem] at hlt ⊢
    rw [Claripy.eval_add]
    have hk₂ : key.eval x₂.env < 2 ^ (st₂.heap m).mapMeta.keySize := by
      rw [hl.mapMeta m hm, ← hk]
      exact key.eval_lt _
    refine length_put hk₂ ((q.sound hr.sound).map m hm₂).size hlt ?_
    rw [Claripy.eval_ite, hpresent, hcontent, hkey, Claripy.eval_bvv, Claripy.eval_bvv]
    cases (x.content m (key.eval x.env)).2 with
    | true => simp
    | false => simp
  · intro m' x' st' hm'
    refine ⟨hm'.sound, hl.trans hm'.later, hm'.created, ?_, ?_, hm'.oldest⟩
    · rw [hm'.content, hitem, hcontent]
      exact congrArg (fun k => (x.content m).put k _) hkey
    · rw [hm'.mapMeta, hl.mapMeta m hm]

end Tool
end Klint
