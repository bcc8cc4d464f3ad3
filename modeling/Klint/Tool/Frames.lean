/-
# What the calls on a ghost map do to the state

`get` and what it calls number symbols, add constraints, bring caches up to date and append items
to oldest versions, and do nothing else. So a relation between states that holds along these four
(`Readings`) holds along every `get`, however deep its invariants nest. `forall` also gives an oldest
version an invariant (`Assertions`).
-/
import Klint.Tool.GhostMaps

namespace Klint
namespace Tool

open Logged

/-- A relation that the steps of a `get` are in. -/
structure Readings (be : Backend) (R : State → State → Prop) : Prop where
  refl : ∀ st, R st st
  trans : ∀ st st' st'', R st st' → R st' st'' → R st st''
  next : ∀ st, R st { st with next := st.next + 1 }
  constraints : ∀ st cs, R st { st with constraints := st.constraints ++ cs }
  knownItems : ∀ st m, R st { st with heap := (knownItemsIn be st.heap m).2 }
  addItem : ∀ (st : State) (m : Map) (item : MapItem), R st (st.put m.oldestVersion
    { st.heap m.oldestVersion with knownItems := (st.heap m.oldestVersion).knownItems ++ [item] })

namespace Readings

variable {be : Backend} {R : State → State → Prop} (hR : Readings be R)
include hR

theorem bind {α β : Type} {m : GM α} {k : α → GM β} (hm : Within R m) (hk : ∀ a, Within R (k a)) : Within R (m >>= k) :=
  within_bind hR.trans hm hk

theorem pure {α : Type} (a : α) : Within R (Pure.pure a : GM α) := within_pure hR.refl a

theorem read : Within R (Logged.read : GM State) := within_read hR.refl

theorem emit (e : Event) : Within R (Logged.emit e : GM Unit) := within_emit hR.refl e

theorem targetMap (r : MapRef) : Within R (targetMap r) := by
  unfold Tool.targetMap
  refine hR.bind hR.read fun st => ?_
  split
  · exact hR.pure _
  · exact within_fail

theorem object (m : Map) : Within R (object m) := hR.bind hR.read fun _ => hR.pure _

theorem freshSym : Within R freshSym :=
  hR.bind hR.read fun _ => hR.bind (within_modify hR.next) fun _ => hR.pure _

theorem addConstraints (cs : List BoolAst) : Within R (addConstraints cs) :=
  within_modify fun st => hR.constraints st cs

theorem listing (m : Map) : Within R (Tool.knownItems be m) := by
  intro st items st' l h
  cases h
  exact hR.knownItems st m

theorem appending (m : Map) (item : MapItem) : Within R (Tool.addItem m item) :=
  within_modify fun st => hR.addItem st m item

theorem badvalue (m : Map) (key : BV) : Within R (badvalue m key) :=
  hR.bind (hR.object m) fun _ => hR.bind hR.freshSym fun _ => hR.bind (hR.emit _) fun _ => hR.pure _

theorem getIfConstant (cond : BoolAst) : Within R (getIfConstant be cond) := by
  unfold Tool.getIfConstant
  refine hR.bind hR.read fun st => ?_
  split
  · exact hR.pure _
  · exact hR.pure _
  · exact hR.pure _
  · exact within_fail

theorem isNotOverfull (m : Map) : Within R (isNotOverfull be m) := by
  unfold Tool.isNotOverfull
  refine hR.bind (hR.object m) fun self => ?_
  refine hR.bind (hR.listing m) fun items => ?_
  refine hR.bind hR.read fun st => ?_
  split
  · exact hR.pure _
  · exact hR.pure _

section Replace

variable {get : Getter} {condition : BoolAst} (hget : ∀ m key hint condition, Within R (get m key hint condition))
include hget

mutual
theorem replaceLeaves_bv : ∀ (e : BV) (D : Dict), Within R (BV.replaceLeaves be get condition e D)
  | .bvs _ _, D => hR.pure D
  | .bvv _ _, D => hR.pure D
  | .bin _ a b, D => hR.bind (replaceLeaves_bv a D) (replaceLeaves_bv b)
  | .extract _ _ a, D => replaceLeaves_bv a D
  | .zeroExt _ a, D => replaceLeaves_bv a D
  | .ite c a b, D => hR.bind (replaceLeaves_bool c D) fun D => hR.bind (replaceLeaves_bv a D) (replaceLeaves_bv b)
  | .mapGet m k s v, D => by
    rw [BV.replaceLeaves]
    split
    · exact hR.pure D
    · refine hR.bind (hR.targetMap m) fun map => ?_
      refine hR.bind (replaceLeaves_bv k D) fun D => ?_
      exact hR.bind (hget _ _ _ _) fun r => hR.pure _

theorem replaceLeaves_bool : ∀ (e : BoolAst) (D : Dict), Within R (BoolAst.replaceLeaves be get condition e D)
  | .boolS _, D => hR.pure D
  | .boolV _, D => hR.pure D
  | .not a, D => replaceLeaves_bool a D
  | .and a b, D => hR.bind (replaceLeaves_bool a D) (replaceLeaves_bool b)
  | .or a b, D => hR.bind (replaceLeaves_bool a D) (replaceLeaves_bool b)
  | .beq a b, D => hR.bind (replaceLeaves_bool a D) (replaceLeaves_bool b)
  | .ite c a b, D =>
    hR.bind (replaceLeaves_bool c D) fun D => hR.bind (replaceLeaves_bool a D) (replaceLeaves_bool b)
  | .cmp _ a b, D => hR.bind (replaceLeaves_bv a D) (replaceLeaves_bv b)
  | .mapHas m k v, D => by
    rw [BoolAst.replaceLeaves]
    split
    · exact hR.pure D
    · refine hR.bind (hR.targetMap m) fun map => ?_
      refine hR.bind (replaceLeaves_bv k D) fun D => ?_
      exact hR.bind (hget _ _ _ _) fun r => hR.pure _
  | .mapHasValue m k y v, D => by
    rw [BoolAst.replaceLeaves]
    split
    · exact hR.pure D
    · refine hR.bind (hR.targetMap m) fun map => ?_
      refine hR.bind (replaceLeaves_bv k D) fun D => ?_
      refine hR.bind (replaceLeaves_bv y D) fun D => ?_
      exact hR.bind (hget _ _ _ _) fun r => hR.pure _
end

theorem call (inv : MapInvariant) (item : MapItem) : Within R (inv.call be get condition item) :=
  hR.bind (hR.replaceLeaves_bool hget inv.expr _) fun _ => hR.pure _

theorem newItem (m : Map) (key : BV) (hint : Option BV) (known : List MapItem) :
    Within R (newItem be get condition m key hint known) := by
  unfold Tool.newItem
  refine hR.bind (hR.object m) fun self => ?_
  refine hR.bind (hR.bind (hR.object _) fun _ => hR.pure _) fun invs => ?_
  refine hR.bind hR.freshSym fun v => ?_
  refine hR.bind hR.freshSym fun p => ?_
  refine hR.bind (hR.emit _) fun _ => ?_
  refine hR.bind (hR.addConstraints _) fun _ => ?_
  refine hR.bind (hR.appending m _) fun _ => ?_
  refine hR.bind (within_mapM hR.trans hR.refl (fun inv => ?_) invs) fun invariants => ?_
  · exact hR.bind (hR.call hget inv _) fun t => hR.pure _
  · refine hR.bind (hR.isNotOverfull m) fun full => ?_
    exact hR.bind (hR.addConstraints _) fun _ => hR.pure _

theorem getStep (m : Map) (key : BV) (hint : Option BV) : Within R (getStep be get condition m key hint) := by
  unfold Tool.getStep
  refine hR.bind (hR.object m) fun self => ?_
  split
  · exact hR.bind (hR.badvalue m key) fun value => hR.pure _
  · refine hR.bind (hR.listing m) fun known => ?_
    refine hR.bind hR.read fun st => ?_
    split
    · split
      · exact hR.pure _
      · exact hR.bind (hR.emit _) fun _ => hR.pure _
    · exact hR.newItem hget m key hint known

end Replace

omit hR in
theorem and {S : State → State → Prop} (hR : Readings be R) (hS : Readings be S) :
    Readings be fun st st' => R st st' ∧ S st st' where
  refl st := ⟨hR.refl st, hS.refl st⟩
  trans _ _ _ h h' := ⟨hR.trans _ _ _ h.1 h'.1, hS.trans _ _ _ h.2 h'.2⟩
  next st := ⟨hR.next st, hS.next st⟩
  constraints st cs := ⟨hR.constraints st cs, hS.constraints st cs⟩
  knownItems st m := ⟨hR.knownItems st m, hS.knownItems st m⟩
  addItem st m item := ⟨hR.addItem st m item, hS.addItem st m item⟩

/-- **Every `get`.** -/
theorem get : ∀ (fuel : ℕ) (m : Map) (key : BV) (hint : Option BV) (condition : BoolAst),
    Within R (Map.get be fuel m key hint condition)
  | 0, _, _, _, _ => within_fail
  | fuel + 1, m, key, hint, _ => hR.getStep (get fuel) m key hint

end Readings

/-! ### Giving invariants -/

/-- A relation that the steps of a `forall` are in too. -/
structure Assertions (be : Backend) (R : State → State → Prop) : Prop extends Readings be R where
  giving : ∀ (st : State) (m : Map) (inv : MapInvariant), R st (st.put m.oldestVersion
    { st.heap m.oldestVersion with invariants := (st.heap m.oldestVersion).invariants ++ [inv] })

namespace Assertions

variable {be : Backend} {R : State → State → Prop} (hR : Assertions be R) {fuel : ℕ}
include hR

theorem addInvariantConjunction (m : Map) (inv : MapInvariant) :
    Within R (addInvariantConjunction be fuel m inv) := by
  unfold Tool.addInvariantConjunction
  refine hR.bind (hR.object _) fun self => ?_
  refine hR.bind (hR.call (hR.get fuel) inv _) fun t => ?_
  exact hR.bind (hR.addConstraints _) fun _ => within_modify fun st => hR.giving st m inv

theorem newInvariant (mapMeta : MapMeta) (expr : BoolAst) : Within R (MapInvariant.new be mapMeta expr) := by
  unfold MapInvariant.new
  refine hR.bind hR.read fun st => ?_
  split
  · exact hR.pure _
  · exact within_fail

theorem forallOldest (m : Map) (pred : MapInvariant) : ∀ left i, Within R (forallOldest be fuel m pred left i)
  | 0, _ => within_fail
  | left + 1, i => by
    unfold Tool.forallOldest
    refine hR.bind (hR.object m) fun self => ?_
    split
    · exact hR.pure _
    · refine hR.bind (hR.call (hR.get fuel) pred _) fun t => ?_
      exact hR.bind (forallOldest m pred left (i + 1)) fun ts => hR.pure _

theorem forallKnown (m : Map) (pred : MapInvariant) : Within R (forallKnown be fuel m pred) := by
  unfold Tool.forallKnown
  refine hR.bind (hR.listing m) fun known => ?_
  split
  · refine hR.bind (hR.forallOldest m pred fuel 0) fun ts => ?_
    exact hR.bind (hR.object m) fun self => hR.pure _
  · refine hR.bind (within_mapM hR.trans hR.refl (fun i => ?_) known) fun ts => hR.pure _
    exact hR.call (hR.get fuel) pred i

theorem forallInvariant (m : Map) (pred : MapInvariant) : Within R (Map.forallInvariant be fuel m pred) := by
  unfold Map.forallInvariant
  refine hR.bind (hR.object m) fun self => ?_
  split
  · exact hR.pure _
  · refine hR.bind (hR.forallKnown m pred) fun known => ?_
    refine hR.bind (hR.isNotOverfull m) fun full => ?_
    refine hR.bind (hR.call (hR.get fuel) pred _) fun t => ?_
    refine hR.bind hR.freshSym fun n => hR.bind (hR.emit _) fun _ => ?_
    refine hR.bind (hR.addConstraints _) fun _ => ?_
    exact hR.bind (hR.addInvariantConjunction m _) fun _ => hR.pure _

/-- **Every `forall`.** -/
theorem forAll (m : Map) (pred : BoolAst) : Within R (Map.forall be fuel m pred) := by
  unfold Map.forall
  refine hR.bind (hR.object m) fun self => ?_
  exact hR.bind (hR.newInvariant _ _) fun pred => hR.forallInvariant m pred

end Assertions

end Tool
end Klint
