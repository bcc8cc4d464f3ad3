/-
# Version numbers and changes

`version` counts the layers of a map (`ghostmaps.py`, lines 366 to 369), and `infer_invariants` takes a
map for unchanged that has the version it had. A `set` or a `remove` adds a layer, except where
`with_item_layer` extends the last one: then the number stays, and the version that the number leads back
to holds the write too. `versions_detect_iff` says of every sequence of writes when the number tells the
change: the leading writes that extend the last layer must not change what the map holds, and some write
must follow them.
-/
import Klint.Tool.FrozenReads
import Klint.Tool.Histories

namespace Klint
namespace Tool

variable {be : Backend} {st st' st₀ : State} {m m' m₀ : Map} {ι : Env} {c : ℕ → Option ℕ}

/-! ### What a map holds -/

/-- The value of an item that is present. -/
def MapItem.result (ι : Env) (i : MapItem) : Option ℕ := if i.present.eval ι then some (i.value.eval ι) else none

/-- The contents of a list of items over other contents: the first item of a key counts. -/
def itemsOver (ι : Env) (items : List MapItem) (c : ℕ → Option ℕ) (k : ℕ) : Option ℕ :=
  (items.find? fun i => i.key.eval ι == k).elim (c k) (MapItem.result ι)

/-- What a version of a map holds under a valuation, if its oldest version holds `c`. -/
def held (heap : Map → MapObj) (ι : Env) (c : ℕ → Option ℕ) : Map → ℕ → Option ℕ
  | .oldest _ => c
  | .layer id previous => itemsOver ι (heap (.layer id previous)).knownItems (held heap ι c previous)

/-- An item whose key no item before it has. -/
theorem itemsOver_append {own : List MapItem} {item : MapItem} (hne : ∀ i ∈ own, i.key.eval ι ≠ item.key.eval ι) :
    itemsOver ι (own ++ [item]) c = Function.update (itemsOver ι own c) (item.key.eval ι) (item.result ι) := by
  funext k
  rw [Function.update_apply, itemsOver, itemsOver, List.find?_append, List.find?_singleton]
  by_cases hk : k = item.key.eval ι
  · have hnone : (own.find? fun i => i.key.eval ι == k) = none := by
      rw [List.find?_eq_none]
      exact fun i hi => by simpa [hk] using hne i hi
    rw [hnone]
    simp [hk]
  · have hb : (item.key.eval ι == k) = false := by simpa using Ne.symm hk
    simp [hb, hk]

/-! ### Writes -/

/-- A `set` or a `remove`. -/
inductive Write
  | set (key value : BV)
  | remove (key : BV)

namespace Write

def key : Write → BV
  | set key _ => key
  | remove key => key

/-- What the map holds under the key afterwards. -/
def result (ι : Env) : Write → Option ℕ
  | set _ value => some (value.eval ι)
  | remove _ => none

def call (m m' : Map) : Write → Call
  | set key value => .set m key value m'
  | remove key => .remove m key m'

end Write

/-- The contents after some writes. -/
def afterWrites (ι : Env) (c : ℕ → Option ℕ) (ws : List Write) : ℕ → Option ℕ :=
  ws.foldl (fun c w => Function.update c (w.key.eval ι) (w.result ι)) c

theorem afterWrites_of_not_key {k : ℕ} : ∀ (ws : List Write) (c : ℕ → Option ℕ), (∀ w ∈ ws, w.key.eval ι ≠ k) →
    afterWrites ι c ws k = c k
  | [], _, _ => rfl
  | w :: ws, c, h => by
    have hrest := afterWrites_of_not_key ws (Function.update c (w.key.eval ι) (w.result ι))
      fun w' hw' => h w' (List.mem_cons_of_mem _ hw')
    exact hrest.trans (Function.update_of_ne (Ne.symm (h w List.mem_cons_self)) _ _)

/-- Writes under different keys change nothing only if each writes what is there. -/
theorem afterWrites_eq_self : ∀ {ws : List Write} {c : ℕ → Option ℕ},
    ws.Pairwise (fun w w' => w.key.eval ι ≠ w'.key.eval ι) →
    (afterWrites ι c ws = c ↔ ∀ w ∈ ws, c (w.key.eval ι) = w.result ι)
  | [], c, _ => by simp [afterWrites]
  | w :: ws, c, h => by
    obtain ⟨hw, hws⟩ := List.pairwise_cons.mp h
    have hkey := afterWrites_of_not_key ws (Function.update c (w.key.eval ι) (w.result ι)) fun w' hw' =>
      (hw w' hw').symm
    rw [Function.update_self] at hkey
    have hstep : afterWrites ι c (w :: ws) = afterWrites ι (Function.update c (w.key.eval ι) (w.result ι)) ws := rfl
    constructor
    · intro he
      have hsame : c (w.key.eval ι) = w.result ι := by rw [← congrFun he (w.key.eval ι), hstep, hkey]
      have hself : Function.update c (w.key.eval ι) (w.result ι) = c := by rw [← hsame, Function.update_eq_self]
      rw [hstep, hself] at he
      exact List.forall_mem_cons.mpr ⟨hsame, (afterWrites_eq_self hws).mp he⟩
    · intro hall
      obtain ⟨hsame, hrest⟩ := List.forall_mem_cons.mp hall
      have hself : Function.update c (w.key.eval ι) (w.result ι) = c := by rw [← hsame, Function.update_eq_self]
      rw [hstep, hself]
      exact (afterWrites_eq_self hws).mpr hrest

/-! ### Writes that extend a layer -/

/-- The test of `with_item_layer` on the keys of the own items. -/
def extendsKeys (own : List BV) (key : BV) : Bool :=
  !key.symbolic && own.all fun k => !k.symbolic && decide (k ≠ key)

/-- The leading writes that pass the test, each with the keys of those before it. -/
def extending (own : List BV) : List Write → List Write
  | [] => []
  | w :: ws => if extendsKeys own w.key then w :: extending (own ++ [w.key]) ws else []

/-- The leading writes that extend the last layer of a map. -/
def Map.extending (m : Map) (self : MapObj) (ws : List Write) : List Write :=
  if m.isOldest then [] else Tool.extending (self.knownItems.map MapItem.key) ws

theorem flattens_eq (m : Map) (self : MapObj) (key : BV) :
    m.flattens self key = (!m.isOldest && extendsKeys (self.knownItems.map MapItem.key) key) := by
  rw [Map.flattens, extendsKeys, List.all_map]
  rfl

theorem length_extending_le : ∀ (own : List BV) (ws : List Write), (extending own ws).length ≤ ws.length
  | _, [] => le_rfl
  | own, w :: ws => by
    rw [extending]
    split
    · exact Nat.succ_le_succ (length_extending_le _ ws)
    · exact Nat.zero_le _

/-- One more write extends the layer only if all before it did. -/
theorem extending_append : ∀ (own : List BV) (ws : List Write) (w : Write), extending own (ws ++ [w]) =
    if (extending own ws).length = ws.length ∧ extendsKeys (own ++ ws.map Write.key) w.key then
      extending own ws ++ [w] else extending own ws
  | own, [], w => by simp [extending]
  | own, v :: ws, w => by
    rw [List.cons_append, extending, extending]
    split
    · simp only [extending_append (own ++ [v.key]) ws w, List.map_cons, List.append_assoc, List.length_cons,
        Nat.add_right_cancel_iff, List.singleton_append]
      split
      · rfl
      · rfl
    · simp

theorem extending_eq_self : ∀ {own : List BV} {ws : List Write}, (extending own ws).length = ws.length →
    extending own ws = ws
  | _, [], _ => rfl
  | own, w :: ws, h => by
    rw [extending] at h ⊢
    split at h
    · next he =>
      rw [if_pos he, extending_eq_self (Nat.succ.inj h)]
    · cases h

theorem extendsKeys_iff {own : List BV} {key : BV} : extendsKeys own key = true ↔
    key.symbolic = false ∧ ∀ k ∈ own, k.symbolic = false ∧ k ≠ key := by
  simp [extendsKeys]

/-- A write that extends a layer has a key apart from the own keys. -/
theorem extendsKeys_of_mem : ∀ {own : List BV} {ws : List Write}, ∀ w ∈ extending own ws, extendsKeys own w.key = true
  | _, [], w, hw => by cases hw
  | own, v :: ws, w, hw => by
    rw [extending] at hw
    split at hw
    · next hv =>
      rcases List.mem_cons.mp hw with rfl | hw
      · exact hv
      · obtain ⟨hconst, hall⟩ := extendsKeys_iff.mp (extendsKeys_of_mem w hw)
        exact extendsKeys_iff.mpr ⟨hconst, fun k hk => hall k (List.mem_append_left _ hk)⟩
    · cases hw

theorem mem_of_mem_extending : ∀ {own : List BV} {ws : List Write}, ∀ w ∈ extending own ws, w ∈ ws
  | _, [], w, hw => by cases hw
  | own, v :: ws, w, hw => by
    rw [extending] at hw
    split at hw
    · rcases List.mem_cons.mp hw with rfl | hw
      · exact List.mem_cons_self
      · exact List.mem_cons_of_mem _ (mem_of_mem_extending w hw)
    · cases hw

/-- The keys of the writes that extend a layer have different values. -/
theorem pairwise_extending {s : ℕ} : ∀ {own : List BV} {ws : List Write}, (∀ w ∈ ws, w.key.size = s) →
    (extending own ws).Pairwise fun w w' => w.key.eval ι ≠ w'.key.eval ι
  | _, [], _ => List.Pairwise.nil
  | own, w :: ws, h => by
    obtain ⟨hw, hws⟩ := List.forall_mem_cons.mp h
    rw [extending]
    split
    · refine List.pairwise_cons.mpr ⟨fun w' hw' => ?_, pairwise_extending hws⟩
      obtain ⟨hconst', hall⟩ := extendsKeys_iff.mp (extendsKeys_of_mem w' hw')
      obtain ⟨hconst, hne⟩ := hall w.key (List.mem_append_right _ List.mem_cons_self)
      exact eval_ne_of_not_symbolic ι hconst hconst' (hw.trans (hws w' (mem_of_mem_extending w' hw')).symm) hne
    · exact List.Pairwise.nil

/-! ### What a history keeps -/

/-- The own items of every layer have keys of the map's size. -/
structure Shaped (st : State) : Prop extends Linked st where
  sized : ∀ id previous, .layer id previous ∈ st.created →
    ∀ i ∈ (st.heap (.layer id previous)).knownItems, i.key.size = (st.heap (.layer id previous)).mapMeta.keySize

/-- No map is lost, and each keeps its sizes and, if it is a layer, its own items. -/
structure Grown (st st' : State) : Prop where
  created : ∀ m ∈ st.created, m ∈ st'.created
  mapMeta : ∀ m ∈ st.created, (st'.heap m).mapMeta = (st.heap m).mapMeta
  own : ∀ id previous, .layer id previous ∈ st.created →
    (st'.heap (.layer id previous)).knownItems = (st.heap (.layer id previous)).knownItems

theorem Grown.trans {st'' : State} (h : Grown st st') (h' : Grown st' st'') : Grown st st'' where
  created m hm := h'.created m (h.created m hm)
  mapMeta m hm := (h'.mapMeta m (h.created m hm)).trans (h.mapMeta m hm)
  own id previous hm := (h'.own id previous (h.created _ hm)).trans (h.own id previous hm)

theorem SameLayers.grown (h : SameLayers st st') : Grown st st' where
  created _ hm := h.1 ▸ hm
  mapMeta m _ := h.2.1 m
  own id previous _ := h.2.2 id previous

theorem grown_withMap {new : Map} {o : MapObj} (hnew : new ∉ st.created) : Grown st (st.withMap new o) where
  created _ hm := List.mem_cons_of_mem _ hm
  mapMeta _ hm := by rw [heap_withMap hnew hm]
  own _ _ hm := by rw [heap_withMap hnew hm]

section Shaped

variable (h : Shaped st)
include h

theorem Shaped.of_same (hs : SameLayers st st') : Shaped st' where
  toLinked := h.of_created hs.1
  sized id previous hm := by
    rw [hs.1] at hm
    rw [hs.2.1, hs.2.2]
    exact h.sized id previous hm

theorem Shaped.withMap {new : Map} {o : MapObj} (hid : new.id = st.created.length)
    (hlayer : ∀ id previous, new = .layer id previous → previous ∈ st.created ∧
      ∀ i ∈ o.knownItems, i.key.size = o.mapMeta.keySize) : Shaped (st.withMap new o) where
  toLinked := h.toLinked.withMap hid fun id previous he => (hlayer id previous he).1
  sized id previous hm := by
    rcases List.mem_cons.mp hm with heq | hm
    · have hself : (st.withMap new o).heap new = o := Function.update_self _ _ _
      rw [heq, hself]
      exact (hlayer id previous heq.symm).2
    · rw [heap_withMap (h.not_mem hid) hm]
      exact h.sized id previous hm

theorem Shaped.back_mem : ∀ (n : ℕ) {m : Map}, m ∈ st.created → m.back n ∈ st.created
  | 0, _, hm => hm
  | _ + 1, .oldest _, hm => hm
  | n + 1, .layer id previous, hm => Shaped.back_mem n (h.below id previous hm)

/-- What a map holds stays. -/
theorem Shaped.held_grown (hg : Grown st st') (ι : Env) (c : ℕ → Option ℕ) : ∀ {m : Map}, m ∈ st.created →
    held st'.heap ι c m = held st.heap ι c m
  | .oldest _, _ => rfl
  | .layer id previous, hm => by
    rw [held, held, hg.own id previous hm, Shaped.held_grown hg ι c (h.below id previous hm)]

end Shaped

/-! ### Merges keep the sizes -/

section Update

variable {heap heap' : Map → MapObj} {o : MapObj}

theorem structuralEq_update {top : Map} : ∀ (m m' : Map), m.version < top.version →
    structuralEq (Function.update heap top o) heap' m m' = structuralEq heap heap' m m'
  | .oldest id, m', hlt => by
    have hne : Map.oldest id ≠ top := fun he => by rw [he] at hlt; exact lt_irrefl _ hlt
    cases m' with
    | oldest id' => simp only [structuralEq, Function.update_of_ne hne]
    | layer id' previous' => rfl
  | .layer id previous, m', hlt => by
    have hne : Map.layer id previous ≠ top := fun he => by rw [he] at hlt; exact lt_irrefl _ hlt
    have hlt' : previous.version < top.version := by
      rw [Map.version] at hlt
      omega
    cases m' with
    | oldest id' => rfl
    | layer id' previous' =>
      simp only [structuralEq, Function.update_of_ne hne, structuralEq_update previous previous' hlt']

theorem allStructuralEq_update {top m : Map} (hlt : m.version < top.version) (others : List Other) :
    allStructuralEq (Function.update heap top o) m others = allStructuralEq heap m others := by
  unfold allStructuralEq
  exact congrArg (others.all ·) (funext fun other => structuralEq_update m other.map hlt)

/-- `can_merge` looks at the map and what is below it. -/
theorem canMerge_update {top : Map} : ∀ (m : Map) (others : List Other), m.version < top.version →
    m.canMerge (Function.update heap top o) others = m.canMerge heap others
  | .oldest id, others, hlt => by
    have hne : Map.oldest id ≠ top := fun he => by rw [he] at hlt; exact lt_irrefl _ hlt
    simp only [Map.canMerge, allStructuralEq_update hlt, Function.update_of_ne hne]
  | .layer id previous, others, hlt => by
    have hne : Map.layer id previous ≠ top := fun he => by rw [he] at hlt; exact lt_irrefl _ hlt
    have hlt' : previous.version < top.version := by
      rw [Map.version] at hlt
      omega
    have hbelow : previous.canMerge (Function.update heap top o) = previous.canMerge heap :=
      funext fun others' => canMerge_update previous others' hlt'
    simp only [Map.canMerge, allStructuralEq_update hlt, Function.update_of_ne hne, hbelow]

end Update

theorem of_ite_false {p : Prop} [Decidable p] {b : Option Bool} (h : (if p then some false else b) = some true) :
    b = some true := by
  split at h
  · cases h
  · exact h

/-- Maps that may be merged have the same sizes, and those below may be merged. -/
theorem canMerge_layer {heap : Map → MapObj} {id : ℕ} {previous : Map} {others : List Other}
    (hne : allStructuralEq heap (.layer id previous) others ≠ true)
    (h : (Map.layer id previous).canMerge heap others = some true) :
    (∀ o ∈ others, o.obj.mapMeta = (heap (.layer id previous)).mapMeta) ∧
      (others.mapM' Other.previous).bind (previous.canMerge heap) = some true := by
  rw [Map.canMerge, if_neg hne, canMergeLayer] at h
  split at h
  · cases h
  · next hmeta =>
    refine ⟨fun o ho => ?_, ?_⟩
    · by_contra hne
      exact hmeta (List.any_eq_true.mpr ⟨o, ho, decide_eq_true hne⟩)
    · obtain ⟨below, hbelow, h⟩ := Option.bind_eq_some_iff.mp
        (of_ite_false (of_ite_false (of_ite_false (of_ite_false h))))
      cases below with
      | true => exact hbelow
      | false => cases h

theorem mem_of_mapM {α β : Type} {f : α → Option β} : ∀ {as : List α} {bs : List β}, as.mapM' f = some bs →
    ∀ b ∈ bs, ∃ a ∈ as, f a = some b
  | [], bs, h, b, hb => by
    cases h
    cases hb
  | a :: as, bs, h, b, hb => by
    obtain ⟨b', hb', h⟩ := Option.bind_eq_some_iff.mp h
    obtain ⟨bs', hbs', h⟩ := Option.bind_eq_some_iff.mp h
    cases h
    rcases List.mem_cons.mp hb with rfl | hb
    · exact ⟨a, List.mem_cons_self, hb'⟩
    · obtain ⟨a', ha', hf⟩ := mem_of_mapM hbs' b hb
      exact ⟨a', List.mem_cons_of_mem _ ha', hf⟩

theorem of_mapM {α β : Type} {f : α → Option β} : ∀ {as : List α} {bs : List β}, as.mapM' f = some bs →
    ∀ a ∈ as, ∃ b ∈ bs, f a = some b
  | a' :: as, bs, h, a, ha => by
    obtain ⟨b', hb', h⟩ := Option.bind_eq_some_iff.mp h
    obtain ⟨bs', hbs', h⟩ := Option.bind_eq_some_iff.mp h
    cases h
    rcases List.mem_cons.mp ha with rfl | ha
    · exact ⟨b', List.mem_cons_self, hb'⟩
    · obtain ⟨b, hb, hf⟩ := of_mapM hbs' a ha
      exact ⟨b, List.mem_cons_of_mem _ hb, hf⟩

theorem size_mergedItems {conds : List BoolAst} {s : ℕ} {own items : List MapItem} {others : List (List MapItem)}
    (hown : ∀ i ∈ own, i.key.size = s) (hothers : ∀ l ∈ others, ∀ i ∈ l, i.key.size = s)
    (h : mergedItems be conds own others = some items) : ∀ i ∈ items, i.key.size = s := by
  intro i hi
  obtain ⟨p, hp, hmerged⟩ := mem_of_mapM h i hi
  obtain ⟨theirs, htheirs, he⟩ := Option.bind_eq_some_iff.mp hmerged
  cases he
  refine Claripy.size_iteCases (fun q hq => ?_) (hown _ (List.fst_mem_of_mem_zipIdx hp))
  obtain ⟨j, hj, hkey⟩ := List.mem_map.mp (List.of_mem_zip hq).2
  obtain ⟨l, hl, hget⟩ := mem_of_mapM htheirs j hj
  rw [← hkey]
  exact hothers l hl j (List.mem_of_getElem? hget)

/-- The keys of a layer's own items have its size. -/
def Sized (heap : Map → MapObj) (m : Map) : Prop := ∀ i ∈ (heap m).knownItems, i.key.size = (heap m).mapMeta.keySize

/-- Items of maps that may be merged have keys of one size. -/
theorem sized_layersMerged {conds : List BoolAst} : ∀ {m : Map} {others : List Other} {heap heap' : Map → MapObj},
    layersMerged be conds m others heap = some heap' → m.canMerge heap others = some true →
    (∀ o ∈ others, KeysSized o.heap o.map) → ∀ m', Sized heap m' → Sized heap' m'
  | .oldest id, others, heap, heap', h, _, _, m', hm' => by
    cases h
    exact hm'
  | .layer id previous, others, heap, heap', h, hcan, hothers, m', hm' => by
    unfold layersMerged at h
    split at h
    · cases h
      exact hm'
    · next hne =>
      obtain ⟨hmeta, hbelow⟩ := canMerge_layer hne hcan
      obtain ⟨items, hitems, h⟩ := Option.bind_eq_some_iff.mp h
      obtain ⟨below, hprevious, h⟩ := Option.bind_eq_some_iff.mp h
      rw [hprevious] at hbelow
      refine sized_layersMerged h ?_ (fun b hb => ?_) m' ?_
      · exact (canMerge_update previous below (by rw [Map.version]; omega)).trans hbelow
      · obtain ⟨o, ho, hob⟩ := mem_of_mapM hprevious b hb
        have hsized := hothers o ho
        obtain ⟨oheap, omap⟩ := o
        cases omap with
        | oldest id' => cases hob
        | layer id' previous' =>
          cases hob
          exact hsized.2
      · by_cases htop : m' = .layer id previous
        · rw [htop, Sized, Function.update_self]
          rw [htop] at hm'
          refine size_mergedItems hm' (fun l hl => ?_) hitems
          obtain ⟨o, ho, rfl⟩ := List.mem_map.mp hl
          rw [← hmeta o ho]
          have hsized := hothers o ho
          obtain ⟨b, -, hob⟩ := of_mapM hprevious o ho
          obtain ⟨oheap, omap⟩ := o
          cases omap with
          | oldest id' => cases hob
          | layer id' previous' => exact hsized.1
        · rw [Sized, Function.update_of_ne htop]
          exact hm'

/-! ### Steps -/

/-- The map that a write makes of another, once that is read. -/
inductive Write.Makes (w : Write) (st : State) (m : Map) : Map → State → Prop
  | extended {id : ℕ} {previous : Map} (o : MapObj) (item : MapItem) : m = .layer id previous →
    m.flattens (st.heap m) w.key = true → o.mapMeta = (st.heap m).mapMeta →
    o.knownItems = (st.heap m).knownItems ++ [item] → item.key = w.key → (∀ ι, item.result ι = w.result ι) →
    Makes w st m (.layer st.created.length previous) (st.withMap (.layer st.created.length previous) o)
  | layered (o : MapObj) (item : MapItem) : m.flattens (st.heap m) w.key = false → o.mapMeta = (st.heap m).mapMeta →
    o.knownItems = [item] → item.key = w.key →
    Makes w st m (.layer st.created.length m) (st.withMap (.layer st.created.length m) o)

theorem makes_of_withItemLayer {w : Write} {item : MapItem} {change : BV} {l : List Event}
    (h : withItemLayer be m item change st = some (m', st', l)) (hkey : item.key = w.key)
    (hresult : ∀ ι, item.result ι = w.result ι) : w.Makes st m m' st' := by
  rcases withItemLayer_eq h with ⟨id, previous, hm, hflat, rfl, rfl⟩ | ⟨hflat, rfl, rfl⟩
  · exact .extended _ item hm (hkey ▸ hflat) rfl rfl hkey hresult
  · exact .layered _ item (hkey ▸ hflat) rfl rfl hkey

/-- A write reads the map and makes another one. -/
theorem Write.makes (w : Write) {fuel : ℕ} {l : List Event} (h : (w.call m m').Returned be fuel st st' l) :
    ∃ st₁, SameLayers st st₁ ∧ w.Makes st₁ m m' st' := by
  have hR := (assertions_sameLayers be).toReadings
  cases w with
  | set key value =>
    obtain ⟨st₁, l₁, change, hsame, -, hlayer⟩ := set_eq hR h
    exact ⟨st₁, hsame, makes_of_withItemLayer hlayer rfl fun ι => by simp [MapItem.result, Write.result]⟩
  | remove key =>
    obtain ⟨st₁, l₁, change, value, hsame, -, hlayer⟩ := remove_eq hR h
    exact ⟨st₁, hsame, makes_of_withItemLayer hlayer rfl fun ι => by simp [MapItem.result, Write.result]⟩

theorem Write.Makes.grown {w : Write} (h : Linked st) (hw : w.Makes st m m' st') : Grown st st' := by
  cases hw with
  | extended => exact grown_withMap (h.not_mem rfl)
  | layered => exact grown_withMap (h.not_mem rfl)

theorem Write.Makes.shaped {w : Write} (h : Shaped st) (hm : m ∈ st.created)
    (hkey : w.key.size = (st.heap m).mapMeta.keySize) (hw : w.Makes st m m' st') : Shaped st' := by
  cases hw with
  | @extended id previous o item heq hflat hmeta hitems hitem hresult =>
    refine h.withMap rfl fun id' previous' he => ?_
    cases he
    rw [hmeta, hitems]
    rw [heq] at hm
    refine ⟨h.below id previous hm, fun i hi => ?_⟩
    rcases List.mem_append.mp hi with hi | hi
    · rw [heq] at hi ⊢
      exact h.sized id previous hm i hi
    · rw [List.mem_singleton.mp hi, hitem, hkey]
  | layered o item hflat hmeta hitems hitem =>
    refine h.withMap rfl fun id' previous' he => ?_
    cases he
    rw [hmeta, hitems]
    exact ⟨hm, fun i hi => by rw [List.mem_singleton.mp hi, hitem, hkey]⟩

theorem Write.of_legal {w : Write} (h : (w.call m m').Legal st) :
    m ∈ st.created ∧ w.key.size = (st.heap m).mapMeta.keySize := by
  cases w with
  | set => exact ⟨h.1, h.2.2.1⟩
  | remove => exact ⟨h.1, h.2.2⟩

section Call

variable {fuel : ℕ} {l : List Event} (h : Shaped st)
include h

theorem Write.grown (w : Write) (hw : (w.call m m').Legal st) (hr : (w.call m m').Returned be fuel st st' l) :
    Grown st st' ∧ Shaped st' := by
  obtain ⟨st₁, hs, hmakes⟩ := w.makes hr
  obtain ⟨hm, hkey⟩ := Write.of_legal hw
  have h₁ := h.of_same hs
  refine ⟨hs.grown.trans (hmakes.grown h₁.toLinked), hmakes.shaped h₁ (hs.1 ▸ hm) ?_⟩
  rw [hs.2.1, hkey]

/-- Calls keep the maps that are there. -/
theorem Call.grown {c : Call} (hc : c.Legal st) (hr : c.Returned be fuel st st' l) : Grown st st' ∧ Shaped st' := by
  have hR := assertions_sameLayers be
  have hsame : SameLayers st st' → Grown st st' ∧ Shaped st' := fun hs => ⟨hs.grown, h.of_same hs⟩
  cases c with
  | assume c => exact hsame (hR.bind (hR.emit _) (fun _ => hR.addConstraints _) st () st' l hr)
  | new mm given r =>
    obtain ⟨length, unknown, rfl, hnew⟩ := new_eq hR hr
    have hnext : Shaped { st with next := st.next + 3 } := ⟨h.of_created rfl, h.sized⟩
    have hcounted : Grown st { st with next := st.next + 3 } := (hR.next st).grown.trans
      ((hR.next _).grown.trans (hR.next _).grown)
    have hnot : Map.oldest st.created.length ∉ ({ st with next := st.next + 3 } : State).created := hnext.not_mem rfl
    have hmap : Shaped ({ st with next := st.next + 3 }.withMap (.oldest st.created.length)
        ⟨mm, length, [], [], unknown, (0, [])⟩) := hnext.withMap rfl fun _ _ he => by cases he
    exact ⟨hcounted.trans ((grown_withMap hnot).trans hnew.grown), hmap.of_same hnew⟩
  | get m key v p => exact hsame (hR.get fuel m key none _ st (v, p) st' l hr)
  | set m key value r => exact Write.grown h (.set key value) hc hr
  | remove m key r => exact Write.grown h (.remove key) hc hr
  | forAll m pred r => exact hsame (hR.forAll m pred st r st' l hr)

end Call

/-- A step that is no merge keeps the maps that are there. -/
theorem Op.grown (h : Shaped st) {fuel : ℕ} {op : Op} (hop : op.Legal st) (hr : op.Returned be fuel st st')
    (hmerge : ∀ m others conds, op ≠ .merge m others conds) : Grown st st' ∧ Shaped st' := by
  cases op with
  | call c =>
    obtain ⟨l, hr⟩ := hr
    exact Call.grown h hop hr
  | knownItems m =>
    obtain ⟨items, l, hr⟩ := hr
    have hs := (assertions_sameLayers be).listing m st items st' l hr
    exact ⟨hs.grown, h.of_same hs⟩
  | merge m others conds => exact absurd rfl (hmerge m others conds)
  | elsewhere =>
    have hs : SameLayers st st' := ⟨hr.2, fun m => by rw [hr.1], fun id previous => by rw [hr.1]⟩
    exact ⟨hs.grown, h.of_same hs⟩

/-- The keys have the maps' sizes in every state of a history. -/
theorem History.shaped {symbols : ℕ} {maps : List (ℕ × Map)}
    (h : History be (fun _ _ => True) (State.initial symbols maps) st) : Shaped st := by
  induction h with
  | init => exact ⟨Linked.initial symbols maps, fun _ _ hm => by cases hm⟩
  | @step st st' op fuel _ hop hr _ ih =>
    cases op with
    | merge m others conds =>
      obtain ⟨l, hr⟩ := hr
      obtain ⟨heap, hlayers, hs⟩ := (assertions_sameLayers be).toReadings.merge_layers fuel conds m others hr
      have hmerged : Shaped { st with heap := heap } := by
        refine ⟨ih.of_created rfl, fun id previous hm => ?_⟩
        exact sized_layersMerged hlayers hop.2.1 hop.2.2 (.layer id previous) (ih.sized id previous hm)
      exact hmerged.of_same hs
    | call c => exact (Op.grown ih hop hr fun _ _ _ he => by cases he).2
    | knownItems m => exact (Op.grown ih hop hr fun _ _ _ he => by cases he).2
    | elsewhere => exact (Op.grown ih hop hr fun _ _ _ he => by cases he).2

/-! ### Runs of writes -/

/-- A run that leads from one map to another by writes, with other steps in between. -/
inductive Writes (be : Backend) (st₀ : State) (m₀ : Map) : List Write → State → Map → Prop
  | nil : Writes be st₀ m₀ [] st₀ m₀
  | write {ws : List Write} {st st' : State} {m m' : Map} (w : Write) (fuel : ℕ) (l : List Event) :
    Writes be st₀ m₀ ws st m → (w.call m m').Legal st → (w.call m m').Returned be fuel st st' l →
    Writes be st₀ m₀ (ws ++ [w]) st' m'
  | other {ws : List Write} {st st' : State} {m : Map} (op : Op) (fuel : ℕ) : Writes be st₀ m₀ ws st m →
    op.Legal st → op.Returned be fuel st st' → (∀ m others conds, op ≠ .merge m others conds) →
    Writes be st₀ m₀ ws st' m

/-- All writes so far extended the last layer. -/
structure Extended (st₀ : State) (m₀ : Map) (ws : List Write) (st : State) (m : Map) : Prop where
  all : m₀.extending (st₀.heap m₀) ws = ws
  version : m.version = m₀.version
  isOldest : m.isOldest = m₀.isOldest
  own : m₀.isOldest = false →
    (st.heap m).knownItems.map MapItem.key = (st₀.heap m₀).knownItems.map MapItem.key ++ ws.map Write.key
  held : ∀ ι c, held st.heap ι c m = afterWrites ι (Tool.held st₀.heap ι c m₀) ws

/-- Some write added a layer: the version that the number of `m₀` leads back to holds the writes before it. -/
structure Over (st₀ : State) (m₀ : Map) (ws : List Write) (st : State) (m : Map) : Prop where
  some : (m₀.extending (st₀.heap m₀) ws).length < ws.length
  version : m₀.version < m.version
  held : ∀ ι c, held st.heap ι c (m.back (m.version - m₀.version)) =
    afterWrites ι (Tool.held st₀.heap ι c m₀) (m₀.extending (st₀.heap m₀) ws)

/-- What a run of writes keeps. -/
structure Written (st₀ : State) (m₀ : Map) (ws : List Write) (st : State) (m : Map) : Prop where
  shaped : Shaped st
  mem : m ∈ st.created
  mapMeta : (st.heap m).mapMeta = (st₀.heap m₀).mapMeta
  sizes : ∀ w ∈ ws, w.key.size = (st₀.heap m₀).mapMeta.keySize
  reached : Extended st₀ m₀ ws st m ∨ Over st₀ m₀ ws st m

theorem Map.extending_append (m : Map) (self : MapObj) (ws : List Write) (w : Write) : m.extending self (ws ++ [w]) =
    if (m.extending self ws).length = ws.length ∧ m.isOldest = false ∧
      extendsKeys (self.knownItems.map MapItem.key ++ ws.map Write.key) w.key = true then ws ++ [w]
    else m.extending self ws := by
  unfold Map.extending
  cases m.isOldest with
  | true => simp
  | false =>
    simp only [Bool.false_eq_true, if_false, true_and, Tool.extending_append]
    split
    · next h => rw [extending_eq_self h.1]
    · rfl

theorem layer_of_isOldest {m : Map} (h : m.isOldest = false) : ∃ id previous, m = .layer id previous := by
  cases m with
  | oldest id => cases h
  | layer id previous => exact ⟨id, previous, rfl⟩

theorem afterWrites_append (ι : Env) (c : ℕ → Option ℕ) (ws : List Write) (w : Write) :
    afterWrites ι c (ws ++ [w]) = Function.update (afterWrites ι c ws) (w.key.eval ι) (w.result ι) := by
  rw [afterWrites, List.foldl_append]
  rfl

section Grown

variable {ws : List Write} (hshaped : Shaped st) (hm : m ∈ st.created) (hg : Grown st st')
include hshaped hm hg

theorem Extended.grown (h : Extended st₀ m₀ ws st m) : Extended st₀ m₀ ws st' m where
  all := h.all
  version := h.version
  isOldest := h.isOldest
  own ho := by
    obtain ⟨id, previous, rfl⟩ := layer_of_isOldest (h.isOldest.trans ho)
    rw [hg.own id previous hm, h.own ho]
  held ι c := by rw [hshaped.held_grown hg ι c hm, h.held]

theorem Over.grown (h : Over st₀ m₀ ws st m) : Over st₀ m₀ ws st' m where
  some := h.some
  version := h.version
  held ι c := by rw [hshaped.held_grown hg ι c (hshaped.back_mem _ hm), h.held]

end Grown

theorem Written.grown {ws : List Write} (h : Written st₀ m₀ ws st m) (hg : Grown st st') (hshaped : Shaped st') :
    Written st₀ m₀ ws st' m where
  shaped := hshaped
  mem := hg.created m h.mem
  mapMeta := (hg.mapMeta m h.mem).trans h.mapMeta
  sizes := h.sizes
  reached := h.reached.imp (Extended.grown h.shaped h.mem hg) (Over.grown h.shaped h.mem hg)

/-- A write that extends the last layer, after others that did. -/
theorem Extended.extended {ws : List Write} {id : ℕ} {previous : Map} {o : MapObj} {item : MapItem} {w : Write}
    (h : Extended st₀ m₀ ws st (.layer id previous)) (hshaped : Shaped st) (hm : .layer id previous ∈ st.created)
    (hkey : w.key.size = (st.heap (.layer id previous)).mapMeta.keySize)
    (hflat : (Map.layer id previous).flattens (st.heap (.layer id previous)) w.key = true)
    (ho : o.knownItems = (st.heap (.layer id previous)).knownItems ++ [item]) (hitem : item.key = w.key)
    (hresult : ∀ ι, item.result ι = w.result ι) :
    Extended st₀ m₀ (ws ++ [w]) (st.withMap (.layer st.created.length previous) o)
      (.layer st.created.length previous) := by
  have hold : m₀.isOldest = false := h.isOldest.symm
  have hself : (st.withMap (.layer st.created.length previous) o).heap (.layer st.created.length previous) = o :=
    Function.update_self _ _ _
  have hnot : Map.layer st.created.length previous ∉ st.created := hshaped.not_mem rfl
  rw [flattens_eq, Bool.and_eq_true] at hflat
  refine ⟨?_, h.version, h.isOldest, fun _ => ?_, fun ι c => ?_⟩
  · rw [Map.extending_append, h.all, if_pos ⟨rfl, hold, by rw [← h.own hold]; exact hflat.2⟩]
  · rw [hself, ho, List.map_append, h.own hold, List.map_append, List.map_singleton, List.map_singleton, hitem,
      List.append_assoc]
  · have hne : ∀ i ∈ (st.heap (.layer id previous)).knownItems, i.key.eval ι ≠ item.key.eval ι := by
      intro i hi
      obtain ⟨hconst, hall⟩ := extendsKeys_iff.mp hflat.2
      obtain ⟨hi', hne⟩ := hall i.key (List.mem_map_of_mem hi)
      rw [hitem]
      exact eval_ne_of_not_symbolic ι hi' hconst ((hshaped.sized id previous hm i hi).trans hkey.symm) hne
    rw [Tool.held, hself, ho, itemsOver_append hne,
      hshaped.held_grown (grown_withMap hnot) ι c (hshaped.below id previous hm), afterWrites_append, ← h.held, hitem,
      hresult]
    rfl

theorem Over.of_extended {ws : List Write} {o : MapObj} {w : Write} (h : Extended st₀ m₀ ws st m)
    (hshaped : Shaped st) (hm : m ∈ st.created) (hflat : m.flattens (st.heap m) w.key = false) :
    Over st₀ m₀ (ws ++ [w]) (st.withMap (.layer st.created.length m) o) (.layer st.created.length m) := by
  have hnot : Map.layer st.created.length m ∉ st.created := hshaped.not_mem rfl
  have hext : m₀.extending (st₀.heap m₀) (ws ++ [w]) = ws := by
    rw [Map.extending_append, if_neg, h.all]
    rintro ⟨-, hold, hkeys⟩
    rw [flattens_eq, h.isOldest, hold, h.own hold, hkeys] at hflat
    cases hflat
  refine ⟨?_, ?_, fun ι c => ?_⟩
  · rw [hext, List.length_append]
    exact Nat.lt_succ_self _
  · rw [Map.version, h.version]
    omega
  · rw [hext, ← h.held ι c, Map.version, h.version, Nat.add_sub_cancel]
    exact hshaped.held_grown (grown_withMap hnot) ι c hm

/-- A write on top of a layer that some write added. -/
theorem Over.makes {ws : List Write} {w : Write} (h : Over st₀ m₀ ws st m) (hshaped : Shaped st) (hm : m ∈ st.created)
    (hw : w.Makes st m m' st') : Over st₀ m₀ (ws ++ [w]) st' m' := by
  have hext : m₀.extending (st₀.heap m₀) (ws ++ [w]) = m₀.extending (st₀.heap m₀) ws := by
    rw [Map.extending_append, if_neg]
    exact fun hall => h.some.ne hall.1
  have hback : m₀.version < m'.version ∧ m'.back (m'.version - m₀.version) = m.back (m.version - m₀.version) := by
    have hlt := h.version
    cases hw with
    | @extended id previous o item heq _ _ _ _ _ =>
      subst heq
      rw [Map.version] at hlt ⊢
      refine ⟨hlt, ?_⟩
      rw [Map.version, show 1 + previous.version - m₀.version = (previous.version - m₀.version) + 1 by omega, Map.back,
        Map.back]
    | layered o item _ _ _ _ =>
      rw [Map.version]
      refine ⟨by omega, ?_⟩
      rw [show 1 + m.version - m₀.version = (m.version - m₀.version) + 1 by omega, Map.back]
  refine ⟨?_, hback.1, fun ι c => ?_⟩
  · rw [hext, List.length_append]
    exact h.some.trans (Nat.lt_succ_self _)
  · rw [hext, hback.2, ← h.held ι c]
    exact hshaped.held_grown (hw.grown hshaped.toLinked) ι c (hshaped.back_mem _ hm)

theorem Written.makes {ws : List Write} {w : Write} (h : Written st₀ m₀ ws st m)
    (hkey : w.key.size = (st.heap m).mapMeta.keySize) (hw : w.Makes st m m' st') :
      Written st₀ m₀ (ws ++ [w]) st' m' where
  shaped := hw.shaped h.shaped h.mem hkey
  mem := by
    cases hw with
    | extended => exact List.mem_cons_self
    | layered => exact List.mem_cons_self
  mapMeta := by
    have hself : ∀ new o, (st.withMap new o).heap new = o := fun _ _ => Function.update_self _ _ _
    cases hw with
    | extended o item _ _ hmeta _ _ _ => rw [hself, hmeta, h.mapMeta]
    | layered o item _ hmeta _ _ => rw [hself, hmeta, h.mapMeta]
  sizes v hv := by
    rcases List.mem_append.mp hv with hv | hv
    · exact h.sizes v hv
    · rw [List.mem_singleton.mp hv, hkey, h.mapMeta]
  reached := by
    rcases h.reached with hext | hover
    · cases hw with
      | @extended id previous o item heq hflat _ hitems hitem hresult =>
        subst heq
        exact Or.inl (hext.extended h.shaped h.mem hkey hflat hitems hitem hresult)
      | layered o item hflat _ _ _ => exact Or.inr (Over.of_extended hext h.shaped h.mem hflat)
    · exact Or.inr (hover.makes h.shaped h.mem hw)

theorem Writes.written (hshaped : Shaped st₀) (hm : m₀ ∈ st₀.created) {ws : List Write}
    (h : Writes be st₀ m₀ ws st m) : Written st₀ m₀ ws st m := by
  induction h with
  | nil =>
    refine ⟨hshaped, hm, rfl, (fun w hw => by cases hw), Or.inl ⟨?_, rfl, rfl, fun _ => ?_, fun ι c => rfl⟩⟩
    · rw [Map.extending]
      split
      · rfl
      · rfl
    · rw [List.map_nil, List.append_nil]
  | write w fuel l _ hlegal hr ih =>
    obtain ⟨st₁, hs, hmakes⟩ := w.makes hr
    obtain ⟨-, hkey⟩ := Write.of_legal hlegal
    refine (ih.grown hs.grown (ih.shaped.of_same hs)).makes ?_ hmakes
    rw [hs.2.1, hkey]
  | other op fuel _ hop hr hmerge ih =>
    obtain ⟨hg, hshaped'⟩ := Op.grown ih.shaped hop hr hmerge
    exact ih.grown hg hshaped'

/-- **When version numbers tell a change**, for every run of writes from any map of any history: the number
grows, and leads back to what the map held, if and only if some write is not one of the leading ones that
extend the last layer, and each of these writes what the map holds under its key. -/
theorem versions_detect_iff (be : Backend) {symbols : ℕ} {maps : List (ℕ × Map)}
    (hst : History be (fun _ _ => True) (State.initial symbols maps) st) (hm : m ∈ st.created) {ws : List Write}
    (hw : Writes be st m ws st' m') (ι : Env) (c : ℕ → Option ℕ) :
    (m.version < m'.version ∧ held st'.heap ι c (m'.back (m'.version - m.version)) = held st.heap ι c m) ↔
      (m.extending (st.heap m) ws).length < ws.length ∧
        ∀ w ∈ m.extending (st.heap m) ws, held st.heap ι c m (w.key.eval ι) = w.result ι := by
  have h := hw.written hst.shaped hm
  have hpairwise : (m.extending (st.heap m) ws).Pairwise fun w w' => w.key.eval ι ≠ w'.key.eval ι := by
    rw [Map.extending]
    split
    · exact List.Pairwise.nil
    · exact pairwise_extending h.sizes
  rcases h.reached with hext | hover
  · rw [hext.version, hext.all]
    exact ⟨fun he => absurd he.1 (lt_irrefl _), fun he => absurd he.1 (lt_irrefl _)⟩
  · rw [hover.held, afterWrites_eq_self hpairwise]
    exact ⟨fun he => ⟨hover.some, he.2⟩, fun he => ⟨hover.version, he.2⟩⟩

namespace Versions

open Freezing (s₁ table)

def layer : Map := .layer 1 (.oldest 0)

/-- Key 5 is given the value 1, and then key 6. -/
def s₂ : State := after (Map.set Travel.solver 2 (.oldest 0) (bvv 8 5) (bvv 8 1) s₁)

def s₃ : State := after (Map.set Travel.solver 2 layer (bvv 8 6) (bvv 8 1) s₂)

def setFive : Write := .set (bvv 8 5) (bvv 8 1)

def setSix : Write := .set (bvv 8 6) (bvv 8 1)

/-- The layer of key 5 with key 6. -/
def extended : Map := .layer 2 (.oldest 0)

def s₄ : State := after (Map.set Travel.solver 2 extended (bvv 8 5) (bvv 8 1) s₃)

def again : Map := .layer 3 extended

theorem history₁ : History Travel.solver (fun _ _ => True) (State.initial 0 table) s₁ :=
  .step (.call (.new ⟨8, 8⟩ (some (bvv 64 10, [.boolV true])) (.oldest 0))) 2 .init
    (legal_new_free (Claripy.closed_bvv _ _) (.oldest 0)) (exists_after (by decide)) trivial

theorem legal_setFive : (setFive.call (.oldest 0) layer).Legal s₁ := ⟨by decide, trivial, by decide, trivial, by decide⟩

theorem history₂ : History Travel.solver (fun _ _ => True) (State.initial 0 table) s₂ :=
  .step (.call (setFive.call (.oldest 0) layer)) 2 history₁ legal_setFive (exists_after (by decide)) trivial

theorem legal_setSix : (setSix.call layer extended).Legal s₂ := ⟨by decide, trivial, by decide, trivial, by decide⟩

theorem legal_setFiveAgain : (setFive.call extended again).Legal s₃ :=
  ⟨by decide, trivial, by decide, trivial, by decide⟩

/-- The number tells the change, at a content before key 5 was set. -/
def Told (c : ℕ → Option ℕ) : Prop :=
  layer.version < again.version ∧
    held s₄.heap ⟨fun _ => 0, fun _ => true⟩ c (again.back (again.version - layer.version)) =
      held s₂.heap ⟨fun _ => 0, fun _ => true⟩ c layer

end Versions

open Versions in
/-- Key 6 is set after key 5, in the layer of key 5, and then key 5 again, in a new one: the number tells the change
where key 6 had that value before, and not where it had none. -/
theorem versions_detect_extended : Told (fun _ => some 1) ∧ ¬ Told fun _ => none := by
  obtain ⟨l₃, h₃⟩ : ∃ l, (setSix.call layer extended).Returned Travel.solver 2 s₂ s₃ l := exists_after (by decide)
  obtain ⟨l₄, h₄⟩ : ∃ l, (setFive.call extended again).Returned Travel.solver 2 s₃ s₄ l := exists_after (by decide)
  have hw : Writes Travel.solver s₂ layer ([] ++ [setSix] ++ [setFive]) s₄ again :=
    .write setFive 2 l₄ (.write setSix 2 l₃ .nil legal_setSix h₃) legal_setFiveAgain h₄
  have hextending : layer.extending (s₂.heap layer) ([] ++ [setSix] ++ [setFive]) = [setSix] := rfl
  have htold : ∀ c, Told c ↔ c 6 = some 1 := by
    intro c
    rw [Told, versions_detect_iff Travel.solver history₂ (by decide) hw _ c, hextending, List.forall_mem_singleton]
    exact and_iff_right (by decide)
  exact ⟨(htold _).mpr rfl, fun h => nomatch (htold _).mp h⟩

/-- Every run of writes is told from the version numbers. -/
def VersionsDetect (be : Backend) : Prop :=
  ∀ symbols maps st st' m m' ws, History be (fun _ _ => True) (State.initial symbols maps) st → m ∈ st.created →
    Writes be st m ws st' m' → ws ≠ [] → ∀ ι c,
    m.version < m'.version ∧ held st'.heap ι c (m'.back (m'.version - m.version)) = held st.heap ι c m

open Versions in
/-- Key 6 is set after key 5: the layer of key 5 is extended, and the number stays. -/
theorem not_versions_detect : ¬∀ be, VersionsDetect be := by
  intro hall
  obtain ⟨l, hr⟩ : ∃ l, (setSix.call layer extended).Returned Travel.solver 2 s₂ s₃ l := exists_after (by decide)
  have hw : Writes Travel.solver s₂ layer ([] ++ [setSix]) s₃ extended := .write setSix 2 l .nil legal_setSix hr
  have h := hall Travel.solver 0 Freezing.table s₂ s₃ layer extended _ history₂ (by decide) hw (by simp)
    ⟨fun _ => 0, fun _ => true⟩ fun _ => none
  exact absurd h.1 (by decide)

end Tool
end Klint
