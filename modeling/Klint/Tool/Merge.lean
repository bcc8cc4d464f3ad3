/-
# Merging ghost maps

`can_merge` and `merge` (`ghostmaps.py`, lines 282 to 343), with `structural_eq` and `structural_diff`
of `utils.py`. The maps of the other states are read, and the map of the merged state, a copy of the
first one, is changed in place: in each layer the own items get conditional keys, values and presences,
and in the oldest version the items of the others are asked for and equated.

What a merge does to the state is in `merge_layers`: it exchanges the own items of the map's layers
(`layersMerged`), and then does what a `get` does.
-/
import Klint.Tool.Frames

namespace Klint
namespace Tool

/-- `structural_diff`: what is on the left only, on both sides, and on the right only. -/
structure StructuralDiff (α : Type) where
  onlyLeft : List α
  both : List α
  onlyRight : List α

/-- The items of the right are keys of a dictionary: each is there once. -/
def structuralDiff {α : Type} [DecidableEq α] (left right : List α) : StructuralDiff α where
  onlyLeft := left.filter fun item => decide (item ∉ right)
  both := left.filter fun item => decide (item ∈ right)
  onlyRight := right.eraseDups.filter fun item => decide (item ∉ left)

/-- The map of another state, with that state's objects. -/
structure Other where
  heap : Map → MapObj
  map : Map

/-- `_previous` of another state's map; Python's `None._previous` raises. -/
def Other.previous : Other → Option Other
  | ⟨_, .oldest _⟩ => none
  | ⟨heap, .layer _ previous⟩ => some ⟨heap, previous⟩

def Other.obj (o : Other) : MapObj := o.heap o.map

/-- The fields of `_asdict` without `_previous`; two invariants are equal whose expressions are. -/
def MapObj.structuralEq (a b : MapObj) : Bool :=
  decide (a.mapMeta = b.mapMeta ∧ a.length = b.length ∧
    a.invariants.map MapInvariant.expr = b.invariants.map MapInvariant.expr ∧
    a.knownItems = b.knownItems ∧ a.unknownItem = b.unknownItem)

/-- `structural_eq`, of maps -/
def structuralEq (heap heap' : Map → MapObj) : Map → Map → Bool
  | .oldest id, .oldest id' => (heap (.oldest id)).structuralEq (heap' (.oldest id'))
  | .layer id previous, .layer id' previous' =>
    (heap (.layer id previous)).structuralEq (heap' (.layer id' previous')) &&
      structuralEq heap heap' previous previous'
  | _, _ => false

def allStructuralEq (heap : Map → MapObj) (m : Map) (others : List Other) : Bool :=
  others.all fun o => structuralEq heap o.heap m o.map

/-! ### can_merge -/

/-- The most items of another map that this one does not have. -/
def maxToAdd (self : MapObj) (others : List Other) : ℕ :=
  (others.map fun o => (structuralDiff self.knownItems o.obj.knownItems).onlyRight.length).foldr max 0

/-- The tests of `can_merge` on one layer; a `none` is the assertion that fails. -/
def canMergeLayer (self : MapObj) (version : ℕ) (others : List Other) (previous : Option Bool) : Option Bool :=
  if others.any fun o => decide (o.obj.mapMeta ≠ self.mapMeta) then none
  else if others.any fun o => decide (o.map.version ≠ version) then some false
  else if others.any fun o =>
    decide (self.invariants.map MapInvariant.expr ≠ o.obj.invariants.map MapInvariant.expr) then some false
  else if others.any fun o => decide (self.length ≠ o.obj.length) then some false
  else if others.any fun o => decide (self.unknownItem ≠ o.obj.unknownItem) then some false
  else do
    let below ← previous
    if !below then some false
    else if decide (version ≠ 0) && others.any fun o => decide (o.obj.knownItems.length ≠ self.knownItems.length) then
      some false
    else some (decide (maxToAdd self others ≤ 6))

/-- `can_merge` -/
def Map.canMerge (heap : Map → MapObj) : Map → List Other → Option Bool
  | .oldest id, others =>
    if allStructuralEq heap (.oldest id) others then some true
    else canMergeLayer (heap (.oldest id)) 0 others (some true)
  | .layer id previous, others =>
    if allStructuralEq heap (.layer id previous) others then some true
    else canMergeLayer (heap (.layer id previous)) (Map.layer id previous).version others
      ((others.mapM' Other.previous).bind (canMerge heap previous))

/-! ### merge -/

variable (be : Backend) (fuel : ℕ)

/-- The conditions are paired with the others from the first condition on, which is the one of this map. -/
def mergedItem (conds : List BoolAst) (self : MapItem) (others : List MapItem) : MapItem where
  key := be.iteCases (conds.zip (others.map MapItem.key)) self.key
  value := be.iteCases (conds.zip (others.map MapItem.value)) self.value
  present := be.iteCasesBool (conds.zip (others.map MapItem.present)) self.present

/-- The own items of a merged layer; Python raises where another map has fewer items. -/
def mergedItems (conds : List BoolAst) (own : List MapItem) (others : List (List MapItem)) : Option (List MapItem) :=
  own.zipIdx.mapM' fun p => do
    let items ← others.mapM' fun items => items[p.2]?
    pure (mergedItem be conds p.1 items)

/-- The oldest version takes the items of one other map. -/
def mergeItems (m : Map) (o : Other) (mc : BoolAst) : GM Unit := do
  let self ← object m
  let diff := structuralDiff self.knownItems o.obj.knownItems
  let _ ← diff.onlyLeft.mapM' fun i => do
    let invs ← invariantConjunctions m
    let ts ← invs.mapM' fun inv => inv.call be (Map.get be fuel) (.boolV true) i
    addConstraints (ts.map (be.Implies mc))
  let _ ← (diff.both ++ diff.onlyRight).mapM' fun i => do
    let r ← Map.get be fuel m i.key none (.boolV true)
    addConstraints [be.Implies mc (be.and (be.eq r.1 i.value) (be.beq r.2 i.present))]
  pure ()

/-- Each known item against the later ones and the unknown item. -/
def sameItems (unknown : MapItem) : List MapItem → List BoolAst
  | [] => []
  | i :: items => (items ++ [unknown]).map (fun oi =>
      be.Implies (be.eq i.key oi.key) (be.and (be.eq i.value oi.value) (be.beq i.present oi.present))) ++
    sameItems unknown items

/-- What raises in Python, where it does not. -/
def need {α : Type} : Option α → GM α
  | some a => pure a
  | none => Logged.fail

theorem eq_of_need {α : Type} {o : Option α} {a : α} {st st' : State} {l : List Event}
    (h : need o st = some (a, st', l)) : o = some a ∧ st' = st := by
  cases o with
  | none => cases h
  | some b =>
    cases h
    exact ⟨rfl, rfl⟩

/-- `merge` of an oldest version. -/
def mergeOldest (conds : List BoolAst) (m : Map) (others : List Other) : GM Unit := do
  let _ ← (others.zip (conds.drop 1)).mapM' fun p => mergeItems be fuel m p.1 p.2
  let self ← object m
  addConstraints (sameItems be self.unknownItem self.knownItems)
  let full ← isNotOverfull be m
  addConstraints [full]

/-- `merge` -/
def Map.merge (conds : List BoolAst) : Map → List Other → GM Unit
  | .oldest id, others => do
    let st ← Logged.read
    if allStructuralEq st.heap (.oldest id) others then pure ()
    else mergeOldest be fuel conds (.oldest id) others
  | .layer id previous, others => do
    let st ← Logged.read
    if allStructuralEq st.heap (.layer id previous) others then pure ()
    else
      let self := st.heap (.layer id previous)
      let items ← need (mergedItems be conds self.knownItems (others.map fun o => o.obj.knownItems))
      Logged.modify fun st => st.put (.layer id previous) { self with knownItems := items }
      let below ← need (others.mapM' Other.previous)
      merge conds previous below

/-! ### What a merge changes -/

/-- The objects once the layers are merged. -/
def layersMerged (conds : List BoolAst) : Map → List Other → (Map → MapObj) → Option (Map → MapObj)
  | .oldest _, _, heap => some heap
  | .layer id previous, others, heap =>
    if allStructuralEq heap (.layer id previous) others then some heap
    else do
      let self := heap (.layer id previous)
      let items ← mergedItems be conds self.knownItems (others.map fun o => o.obj.knownItems)
      let below ← others.mapM' Other.previous
      layersMerged conds previous below (Function.update heap (.layer id previous) { self with knownItems := items })

section Frame

variable {be} {R : State → State → Prop} (hR : Readings be R)
include hR

theorem Readings.mergeItems (m : Map) (o : Other) (mc : BoolAst) : Logged.Within R (mergeItems be fuel m o mc) := by
  unfold Tool.mergeItems
  refine hR.bind (hR.object m) fun self => ?_
  refine hR.bind (Logged.within_mapM hR.trans hR.refl (fun i => ?_) _) fun _ => ?_
  · refine hR.bind (hR.bind (hR.object _) fun _ => hR.pure _) fun invs => ?_
    refine hR.bind (Logged.within_mapM hR.trans hR.refl (fun inv => ?_) invs) fun ts => hR.addConstraints _
    exact hR.call (hR.get fuel) inv i
  · refine hR.bind (Logged.within_mapM hR.trans hR.refl (fun i => ?_) _) fun _ => hR.pure _
    exact hR.bind (hR.get fuel m i.key none _) fun r => hR.addConstraints _

theorem Readings.mergeOldest (conds : List BoolAst) (m : Map) (others : List Other) :
    Logged.Within R (mergeOldest be fuel conds m others) := by
  unfold Tool.mergeOldest
  refine hR.bind (Logged.within_mapM hR.trans hR.refl (fun p => ?_) _) fun _ => ?_
  · exact hR.mergeItems fuel m p.1 p.2
  · refine hR.bind (hR.object m) fun self => hR.bind (hR.addConstraints _) fun _ => ?_
    exact hR.bind (hR.isNotOverfull m) fun full => hR.addConstraints _

/-- **A merge** exchanges the own items of the layers, and then does what a `get` does. -/
theorem Readings.merge_layers (conds : List BoolAst) : ∀ (m : Map) (others : List Other) {st st' : State}
    {l : List Event},
    Map.merge be fuel conds m others st = some ((), st', l) →
    ∃ heap, layersMerged be conds m others st.heap = some heap ∧ R { st with heap := heap } st'
  | .oldest id, others, st, st', l, h => by
    refine ⟨st.heap, rfl, ?_⟩
    unfold Map.merge at h
    obtain ⟨s, s₁, l₁, l₂, hread, hrest, -⟩ := Logged.bind_eq_some.mp h
    cases hread
    split at hrest
    · cases hrest
      exact hR.refl st
    · exact hR.mergeOldest fuel conds (.oldest id) others st () st' l₂ hrest
  | .layer id previous, others, st, st', l, h => by
    unfold Map.merge at h
    obtain ⟨s, s₁, l₁, l₂, hread, hrest, -⟩ := Logged.bind_eq_some.mp h
    cases hread
    unfold layersMerged
    split at hrest
    · next heq =>
      rw [if_pos heq]
      cases hrest
      exact ⟨st.heap, rfl, hR.refl st⟩
    · next hne =>
      rw [if_neg hne]
      obtain ⟨items, s₂, l₃, l₄, hneed, hrest, -⟩ := Logged.bind_eq_some.mp hrest
      obtain ⟨hitems, rfl⟩ := eq_of_need hneed
      obtain ⟨a, s₃, l₅, l₆, hmod, hrest, -⟩ := Logged.bind_eq_some.mp hrest
      cases hmod
      obtain ⟨below, s₄, l₇, l₈, hneed, hmerge, -⟩ := Logged.bind_eq_some.mp hrest
      obtain ⟨hbelow, rfl⟩ := eq_of_need hneed
      dsimp only
      rw [hitems, hbelow]
      exact Readings.merge_layers conds previous below hmerge

end Frame

end Tool
end Klint
