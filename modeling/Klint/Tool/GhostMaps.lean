/-
# Ghost maps

`ghostmaps.py`: the maps of the symbolic executor. A map is a chain of layers over
an oldest version. Its oldest version stores what is known of its items, as triples
of terms, and invariants that the other items satisfy; a layer stores the items that
one `set` or `remove` changed. A `get` of a key that no known item has makes a new
item of fresh symbols, stores it in the oldest version and constrains it.

The state is what the Python code mutates: the constraints of the solver, the number
of symbols made so far, the `Map` objects and the plugin's table of maps. Besides
computing, the functions write down what they do (`Event`), so that a run can be
replayed on a concrete map.
-/
import Klint.Lib.Logged
import Klint.Tool.MapAst

namespace Klint
namespace Tool

/-! ### Data -/

structure MapMeta where
  keySize : ℕ
  valueSize : ℕ
deriving DecidableEq, Repr

structure MapItem where
  key : BV
  value : BV
  present : BoolAst
deriving DecidableEq, Repr

/-- An expression over a map item, with its placeholders. -/
structure MapInvariant where
  expr : BoolAst
  key : BV
  value : BV
  present : BoolAst
deriving DecidableEq, Repr

/-- The fields of a `Map` object; `_previous` is part of the object's name, `Map`. -/
structure MapObj where
  mapMeta : MapMeta
  length : BV
  invariants : List MapInvariant
  knownItems : List MapItem
  unknownItem : MapItem
  knownItemsCache : ℕ × List MapItem
deriving Repr

structure State where
  constraints : List BoolAst
  /-- The number of symbols made so far. -/
  next : ℕ
  heap : Map → MapObj
  /-- The objects made so far. -/
  created : List Map
  /-- `_maps` of the plugin. -/
  maps : List (ℕ × Map)

/-- What a function did: it made a map (`new`) and gave it an invariant (`given`), named a
value that is never read (`badvalue`), made a new item for a key (`fresh`), answered with
the unknown item (`outside`), made a layer (`layer`), or named the truth of a predicate
(`forAll`). The executor adds the conditions of the branches it takes (`assumed`). -/
inductive Event
  | assumed (c : BoolAst)
  | new (m : Map) (key value present : ℕ) (mapMeta : MapMeta) (length : BV)
  | given (m : Map) (inv : MapInvariant) (unknown : MapItem) (keySize : ℕ)
  | badvalue (m : Map) (key : BV) (value : ℕ)
  | fresh (m : Map) (key : BV) (value present : ℕ) (known : List MapItem) (hint : Option BV)
      (condition : BoolAst) (invariants : List MapInvariant)
  | outside (m : Map) (key : BV) (condition : BoolAst)
  | layer (m base : Map) (item : MapItem) (inherited : List MapItem) (keySize lengthSize : ℕ)
  | forAll (m : Map) (pred : MapInvariant) (result : ℕ) (known : List MapItem) (unknown : MapItem)
      (keySize : ℕ)
deriving DecidableEq

abbrev GM := Logged State Event

/-- `get`, of a map without a version: key, `conditioned_value` and `condition`. -/
abbrev Getter := Map → BV → Option BV → BoolAst → GM (BV × BoolAst)

/-- Claripy with its solver. The solver finds constraints satisfiable that are. -/
structure Backend extends Claripy where
  satisfiable : List BoolAst → Bool
  satisfiable_of_eval : ∀ (cs : List BoolAst) (ι : Env), (∀ c ∈ cs, c.eval ι = true) →
    satisfiable cs = true

/-- `map = ast.args[0] if isinstance(ast.args[0], Map) else state.maps[ast.args[0]]` -/
def target (maps : List (ℕ × Map)) : MapRef → Option Map
  | .map m => some m
  | .obj o => maps.lookup o

/-- Python's `state.maps[o]` raises for a key that is not there. -/
def targetMap (r : MapRef) : GM Map := do
  let st ← Logged.read
  match target st.maps r with
  | some m => pure m
  | none => Logged.fail

def object (m : Map) : GM MapObj := do
  let st ← Logged.read
  pure (st.heap m)

/-- Replace an object. -/
def State.put (st : State) (m : Map) (o : MapObj) : State :=
  { st with heap := Function.update st.heap m o }

def create (m : Map) (o : MapObj) : GM Unit :=
  Logged.modify fun st => { st.put m o with created := m :: st.created }

/-- The number of a new object or symbol. -/
def freshId : GM ℕ := do
  let st ← Logged.read
  pure st.created.length

def freshSym : GM ℕ := do
  let st ← Logged.read
  Logged.modify fun st => { st with next := st.next + 1 }
  pure st.next

/-- `state.solver.add` -/
def addConstraints (cs : List BoolAst) : GM Unit :=
  Logged.modify fun st => { st with constraints := st.constraints ++ cs }

variable (be : Backend)

/-! ### Solver helpers of utils.py -/

def canBeFalse (constraints : List BoolAst) (cond : BoolAst) : Bool :=
  be.satisfiable (constraints ++ [be.not cond])

def canBeTrue (constraints : List BoolAst) (cond : BoolAst) : Bool :=
  be.satisfiable (constraints ++ [cond])

def definitelyTrue (constraints : List BoolAst) (cond : BoolAst) : Bool :=
  !canBeFalse be constraints cond

/-- What the solver says is definitely true is true. -/
theorem eval_of_definitely {constraints : List BoolAst} {ι : Env} (hc : ∀ c ∈ constraints, c.eval ι = true)
    {cond : BoolAst}
    (hd : definitelyTrue be constraints cond = true) : cond.eval ι = true := by
  by_contra hne
  have hsat : canBeFalse be constraints cond = true := by
    refine be.satisfiable_of_eval _ ι fun c hmem => ?_
    rcases List.mem_append.mp hmem with hmem | hmem
    · exact hc c hmem
    · rw [List.mem_singleton.mp hmem, Claripy.eval_not, Bool.eq_false_of_not_eq_true hne]
      rfl
  rw [definitelyTrue, hsat] at hd
  cases hd

/-- `get_if_constant` of a Boolean; it raises when the constraints have no solution. -/
def getIfConstant (cond : BoolAst) : GM (Option Bool) := do
  let st ← Logged.read
  match canBeTrue be st.constraints cond, canBeFalse be st.constraints cond with
  | true, true => pure none
  | true, false => pure (some true)
  | false, true => pure (some false)
  | false, false => Logged.fail

/-- `get_exact_match`, on items by their key. -/
def getExactMatch (constraints : List BoolAst) (key : BV) (candidates : List MapItem)
    (assumption : BoolAst) : Option MapItem :=
  match candidates.find? fun c => decide (key = c.key) with
  | some c => some c
  | none =>
    if key.symbolic then
      candidates.find? fun c =>
        definitelyTrue be constraints (be.or (be.not assumption) (be.eq key c.key))
    else none

end Tool

/-! ### Evaluating expressions -/

namespace Tool

variable (be : Backend) (get : Getter) (condition : BoolAst)

mutual
/-- What `eval_map_ast` puts for the leaves of a term, in claripy's order; a leaf that was
met before is not evaluated again. -/
def BV.replaceLeaves : BV → Dict → GM Dict
  | .bvs _ _, D => pure D
  | .bvv _ _, D => pure D
  | .bin _ a b, D => do
    let D ← a.replaceLeaves D
    b.replaceLeaves D
  | .extract _ _ a, D => a.replaceLeaves D
  | .zeroExt _ a, D => a.replaceLeaves D
  | .ite c a b, D => do
    let D ← c.replaceLeaves D
    let D ← a.replaceLeaves D
    b.replaceLeaves D
  | .mapGet m k s v, D =>
    if (D.bv.lookup (.mapGet m k s v)).isSome then pure D
    else do
      let map ← targetMap m
      let D ← k.replaceLeaves D
      let r ← get (map.atVersion v) (k.subst be.toClaripy D) none condition
      pure { D with bv := (.mapGet m k s v, r.1) :: D.bv }

def BoolAst.replaceLeaves : BoolAst → Dict → GM Dict
  | .boolS _, D => pure D
  | .boolV _, D => pure D
  | .not a, D => a.replaceLeaves D
  | .and a b, D => do
    let D ← a.replaceLeaves D
    b.replaceLeaves D
  | .or a b, D => do
    let D ← a.replaceLeaves D
    b.replaceLeaves D
  | .beq a b, D => do
    let D ← a.replaceLeaves D
    b.replaceLeaves D
  | .ite c a b, D => do
    let D ← c.replaceLeaves D
    let D ← a.replaceLeaves D
    b.replaceLeaves D
  | .cmp _ a b, D => do
    let D ← a.replaceLeaves D
    b.replaceLeaves D
  | .mapHas m k v, D =>
    if (D.bool.lookup (.mapHas m k v)).isSome then pure D
    else do
      let map ← targetMap m
      let D ← k.replaceLeaves D
      -- the version that is passed is `args[2]`, the value that is not there
      let r ← get (map.atVersion none) (k.subst be.toClaripy D) none condition
      pure { D with bool := (.mapHas m k v, r.2) :: D.bool }
  | .mapHasValue m k x v, D =>
    if (D.bool.lookup (.mapHasValue m k x v)).isSome then pure D
    else do
      let map ← targetMap m
      let D ← k.replaceLeaves D
      let D ← x.replaceLeaves D
      let value := x.subst be.toClaripy D
      let r ← get (map.atVersion v) (k.subst be.toClaripy D) (some value) condition
      pure { D with bool := (.mapHasValue m k x v, be.and r.2 (be.eq r.1 value)) :: D.bool }
end

/-- `eval_map_ast` -/
def evalMapAst (expr : BoolAst) (replaceDict : Dict) : GM BoolAst := do
  let D ← BoolAst.replaceLeaves be get condition expr replaceDict
  pure (expr.subst be.toClaripy D)

/-- `MapInvariant.__call__` -/
def MapInvariant.call (inv : MapInvariant) (item : MapItem) : GM BoolAst :=
  evalMapAst be get (be.and item.present condition) inv.expr
    ⟨[(inv.key, item.key), (inv.value, item.value)], [(inv.present, item.present)]⟩

/-- `with_expr` -/
def MapInvariant.withExpr (inv : MapInvariant) (factory : BoolAst → BoolAst) : MapInvariant :=
  { inv with expr := factory inv.expr }

mutual
/-- `freeze_map_ast_versions` -/
def BV.freezeMapAstVersions (maps : List (ℕ × Map)) : BV → Option BV
  | .bvs n s => some (.bvs n s)
  | .bvv s v => some (.bvv s v)
  | .bin op a b => do
    let a ← a.freezeMapAstVersions maps
    let b ← b.freezeMapAstVersions maps
    pure (be.bv (.bin op a b))
  | .extract hi lo a => do
    let a ← a.freezeMapAstVersions maps
    pure (be.bv (.extract hi lo a))
  | .zeroExt n a => do
    let a ← a.freezeMapAstVersions maps
    pure (be.bv (.zeroExt n a))
  | .ite c a b => do
    let c ← c.freezeMapAstVersions maps
    let a ← a.freezeMapAstVersions maps
    let b ← b.freezeMapAstVersions maps
    pure (be.bv (.ite c a b))
  | .mapGet m k s _ => do
    let map ← target maps m
    let k ← k.freezeMapAstVersions maps
    pure (.mapGet m k s (some map.version))

def BoolAst.freezeMapAstVersions (maps : List (ℕ × Map)) : BoolAst → Option BoolAst
  | .boolS n => some (.boolS n)
  | .boolV b => some (.boolV b)
  | .not a => do
    let a ← a.freezeMapAstVersions maps
    pure (be.bool (.not a))
  | .and a b => do
    let a ← a.freezeMapAstVersions maps
    let b ← b.freezeMapAstVersions maps
    pure (be.bool (.and a b))
  | .or a b => do
    let a ← a.freezeMapAstVersions maps
    let b ← b.freezeMapAstVersions maps
    pure (be.bool (.or a b))
  | .beq a b => do
    let a ← a.freezeMapAstVersions maps
    let b ← b.freezeMapAstVersions maps
    pure (be.bool (.beq a b))
  | .ite c a b => do
    let c ← c.freezeMapAstVersions maps
    let a ← a.freezeMapAstVersions maps
    let b ← b.freezeMapAstVersions maps
    pure (be.bool (.ite c a b))
  | .cmp op a b => do
    let a ← a.freezeMapAstVersions maps
    let b ← b.freezeMapAstVersions maps
    pure (be.bool (.cmp op a b))
  | .mapHas m k _ => do
    let map ← target maps m
    let k ← k.freezeMapAstVersions maps
    pure (.mapHas m k (some map.version))
  | .mapHasValue m k x _ => do
    let map ← target maps m
    let k ← k.freezeMapAstVersions maps
    let x ← x.freezeMapAstVersions maps
    pure (.mapHasValue m k x (some map.version))
end

/-- `MapInvariant.new`, on the expression that the factory makes of the placeholders. -/
def MapInvariant.new (mapMeta : MapMeta) (expr : BoolAst) : GM MapInvariant := do
  let st ← Logged.read
  match expr.freezeMapAstVersions be st.maps with
  | some expr => pure ⟨expr, .bvs .KEY mapMeta.keySize, .bvs .VALUE mapMeta.valueSize, .boolS .PRESENT⟩
  | none => Logged.fail

/-! ### Items -/

/-- `transform_previous` of `known_items` -/
def transformPrevious (knownItems items : List MapItem) : List MapItem :=
  (items.filter fun i => knownItems.all fun ki => decide (i.key ≠ ki.key)).map fun i =>
    { key := i.key
      value := be.iteCases (knownItems.map fun ki => (be.eq i.key ki.key, ki.value)) i.value
      present := be.iteCasesBool (knownItems.map fun ki => (be.eq i.key ki.key, ki.present)) i.present }

/-- `known_items`, and the heap with the caches of the layers brought up to date. -/
def knownItemsIn (heap : Map → MapObj) : Map → List MapItem × (Map → MapObj)
  | .oldest id => ((heap (.oldest id)).knownItems, heap)
  | .layer id previous =>
    let p := knownItemsIn heap previous
    let self := p.2 (.layer id previous)
    let cached := self.knownItemsCache
    if p.1.length ≠ cached.1 then
      let cache := (p.1.length,
        cached.2 ++ transformPrevious be self.knownItems (p.1.drop cached.1))
      (self.knownItems ++ cache.2,
        Function.update p.2 (.layer id previous) { self with knownItemsCache := cache })
    else (self.knownItems ++ cached.2, p.2)

def knownItems (m : Map) : GM (List MapItem) := do
  let st ← Logged.read
  let p := knownItemsIn be st.heap m
  Logged.modify fun st => { st with heap := p.2 }
  pure p.1

/-- `add_item` -/
def addItem (m : Map) (item : MapItem) : GM Unit :=
  Logged.modify fun st =>
    let self := st.heap m.oldestVersion
    st.put m.oldestVersion { self with knownItems := self.knownItems ++ [item] }

/-- `invariant_conjunctions` -/
def invariantConjunctions (m : Map) : GM (List MapInvariant) := do
  let self ← object m.oldestVersion
  pure self.invariants

/-- `is_definitely_empty` -/
def isDefinitelyEmpty (self : MapObj) : Bool := decide (self.length = bvv self.length.size 0)

/-- The loop of `is_not_overfull`: the items left, the keys met, the length so far. -/
def knownLen (size : ℕ) : List MapItem → List BV → BV → BV
  | [], _, len => len
  | item :: items, keys, len =>
    let keyIsNew := be.conj (keys.map fun k => be.ne item.key k)
    knownLen size items (keys ++ [item.key])
      (be.add len (be.ite (be.and keyIsNew item.present) (bvv size 1) (bvv size 0)))

/-- `is_not_overfull` -/
def isNotOverfull (m : Map) : GM BoolAst := do
  let self ← object m
  let items ← knownItems be m
  let st ← Logged.read
  if definitelyTrue be st.constraints (be.ule (bvv self.length.size items.length) self.length) then
    pure (.boolV true)
  else
    pure (be.ule (knownLen be self.length.size items [] (bvv self.length.size 0)) self.length)

/-! ### get -/

/-- Whether `_previous` is `None`. -/
def Map.isOldest : Map → Bool
  | .oldest _ => true
  | .layer _ _ => false

/-- The `badvalue` symbol of a missing key. -/
def badvalue (m : Map) (key : BV) : GM BV := do
  let self ← object m
  let n ← freshSym
  Logged.emit (.badvalue m key n)
  pure (.bvs (.sym n) self.mapMeta.valueSize)

/-- The part of `get` that makes a new item. -/
def newItem (m : Map) (key : BV) (conditionedValue : Option BV) (known : List MapItem) :
    GM (BV × BoolAst) := do
  let self ← object m
  let invs ← invariantConjunctions m
  let v ← freshSym
  let p ← freshSym
  let value : BV := .bvs (.sym v) self.mapMeta.valueSize
  let present : BoolAst := .boolS (.sym p)
  Logged.emit (.fresh m key v p known conditionedValue condition invs)
  addConstraints (conditionedValue.toList.map fun c => be.Implies condition (be.eq value c))
  let unknown := be.conj (known.map fun i => be.ne key i.key)
  let item : MapItem := ⟨key, value, present⟩
  addItem m item
  -- the list that `known_items` returns for an oldest version is the one `add_item` appends to
  let listed := if m.isOldest then known ++ [item] else known
  let same := (listed ++ [self.unknownItem]).map fun i =>
    be.Implies (be.eq key i.key) (be.and (be.eq value i.value) (be.beq present i.present))
  let invariants ← invs.mapM' fun inv => do
    let t ← inv.call be get condition item
    pure (be.Implies unknown t)
  let full ← isNotOverfull be m
  addConstraints (same ++ invariants ++ [full])
  pure (value, present)

/-- The body of `get` without a version; `get` is used for the invariants. -/
def getStep (m : Map) (key : BV) (conditionedValue : Option BV) : GM (BV × BoolAst) := do
  let self ← object m
  if isDefinitelyEmpty self then
    let value ← badvalue m key
    pure (value, .boolV false)
  else
    let known ← knownItems be m
    let st ← Logged.read
    match getExactMatch be st.constraints key (known ++ [self.unknownItem]) condition with
    | some item =>
      if item ∈ known then pure (item.value, item.present)
      else
        Logged.emit (.outside m key condition)
        pure (item.value, item.present)
    | none => newItem be get condition m key conditionedValue known

end Tool

namespace Tool

variable (be : Backend)

/-- `get`, with a bound on how deep the invariants nest. -/
def Map.get : ℕ → Getter
  | 0 => fun _ _ _ _ => Logged.fail
  | fuel + 1 => fun m key conditionedValue condition =>
    getStep be (Map.get fuel) condition m key conditionedValue

/-! ### set and remove -/

/-- `with_item_layer` -/
def withItemLayer (m : Map) (item : MapItem) (lengthChange : BV) : GM Map := do
  let self ← object m
  let id ← freshId
  let length := be.add self.length lengthChange
  let flat := !item.key.symbolic && self.knownItems.all fun i =>
    !i.key.symbolic && decide (i.key ≠ item.key)
  match m, flat with
  | .layer _ previous, true =>
    let new : Map := .layer id previous
    create new { self with length := length, knownItems := self.knownItems ++ [item] }
    Logged.emit (.layer new m item self.knownItemsCache.2 self.mapMeta.keySize length.size)
    pure new
  | _, _ =>
    let new : Map := .layer id m
    create new
      { self with length := length, invariants := [], knownItems := [item], knownItemsCache := (0, []) }
    Logged.emit (.layer new m item [] self.mapMeta.keySize length.size)
    pure new

/-- `set` -/
def Map.set (fuel : ℕ) (m : Map) (key value : BV) : GM Map := do
  let r ← Map.get be fuel m key none (.boolV true)
  let presentConst ← getIfConstant be r.2
  let present := presentConst.elim r.2 BoolAst.boolV
  let self ← object m
  let size := self.length.size
  withItemLayer be m ⟨key, value, .boolV true⟩ (be.ite present (bvv size 0) (bvv size 1))

/-- `remove` -/
def Map.remove (fuel : ℕ) (m : Map) (key : BV) : GM Map := do
  let r ← Map.get be fuel m key none (.boolV true)
  let value ← badvalue m key
  let self ← object m
  let size := self.length.size
  withItemLayer be m ⟨key, value, .boolV false⟩ (be.ite r.2 (bvv size (2 ^ size - 1)) (bvv size 0))

/-! ### Invariants and forall -/

/-- `add_invariant_conjunction` -/
def addInvariantConjunction (fuel : ℕ) (m : Map) (inv : MapInvariant) : GM Unit := do
  let self ← object m.oldestVersion
  let t ← inv.call be (Map.get be fuel) (.boolV true) self.unknownItem
  addConstraints [t]
  Logged.modify fun st =>
    let self := st.heap m.oldestVersion
    st.put m.oldestVersion { self with invariants := self.invariants ++ [inv] }

/-- The loop over the known items of an oldest version, from item `i` on: the list may grow
while it runs. -/
def forallOldest (fuel : ℕ) (m : Map) (pred : MapInvariant) : ℕ → ℕ → GM (List BoolAst)
  | 0, _ => Logged.fail
  | left + 1, i => do
    let self ← object m
    match self.knownItems[i]? with
    | none => pure []
    | some item => do
      let t ← pred.call be (Map.get be fuel) (.boolV true) item
      let ts ← forallOldest fuel m pred left (i + 1)
      pure (t :: ts)

/-- The known items that `forall` looks at, and the predicate's value on each. -/
def forallKnown (fuel : ℕ) (m : Map) (pred : MapInvariant) : GM (List MapItem × List BoolAst) := do
  let known ← knownItems be m
  if m.isOldest then
    let ts ← forallOldest be fuel m pred fuel 0
    let self ← object m
    pure (self.knownItems, ts)
  else
    let ts ← known.mapM' fun i => pred.call be (Map.get be fuel) (.boolV true) i
    pure (known, ts)

/-- `forall`, of a `MapInvariant`. -/
def Map.forallInvariant (fuel : ℕ) (m : Map) (pred : MapInvariant) : GM BoolAst := do
  let self ← object m
  if isDefinitelyEmpty self then pure (.boolV true)
  else
    let known ← forallKnown be fuel m pred
    let knownItemsResult := be.conj known.2
    let unknownIsNotKnown := be.conj (known.1.map fun i => be.ne self.unknownItem.key i.key)
    let full ← isNotOverfull be m
    let t ← pred.call be (Map.get be fuel) (.boolV true) self.unknownItem
    let unknownItemsResult := be.Implies full (be.Implies unknownIsNotKnown t)
    let n ← freshSym
    let result : BoolAst := .boolS (.sym n)
    Logged.emit (.forAll m pred n known.1 self.unknownItem self.mapMeta.keySize)
    addConstraints [be.beq result (be.and knownItemsResult unknownItemsResult)]
    addInvariantConjunction be fuel m (pred.withExpr (be.Implies result))
    pure result

/-- `forall`, of a predicate over the placeholders of the key and of the value. -/
def Map.forall (fuel : ℕ) (m : Map) (pred : BoolAst) : GM BoolAst := do
  let self ← object m
  let pred ← MapInvariant.new be self.mapMeta (be.Implies (.boolS .PRESENT) pred)
  Map.forallInvariant be fuel m pred

/-! ### new -/

/-- `state.sizes.size_t`, in bits. -/
def sizeT : ℕ := 64

/-- `Map.new`, with the length and the invariants given together or not at all. -/
def Map.new (fuel : ℕ) (mapMeta : MapMeta) (given : Option (BV × List BoolAst)) : GM Map := do
  let id ← freshId
  let uk ← freshSym
  let uv ← freshSym
  let up ← freshSym
  let result : Map := .oldest id
  let given := given.getD (bvv sizeT 0, [be.not (.boolS .PRESENT)])
  create result
    { mapMeta := mapMeta, length := given.1, invariants := [], knownItems := []
      unknownItem := ⟨.bvs (.sym uk) mapMeta.keySize, .bvs (.sym uv) mapMeta.valueSize, .boolS (.sym up)⟩
      knownItemsCache := (0, []) }
  Logged.emit (.new result uk uv up mapMeta given.1)
  let _ ← given.2.mapM' fun inv => do
    let inv ← MapInvariant.new be mapMeta inv
    let self ← object result
    Logged.emit (.given result inv self.unknownItem mapMeta.keySize)
    addInvariantConjunction be fuel result inv
  pure result

/-- `state.solver.add` of the executor. -/
def assume (c : BoolAst) : GM Unit := do
  Logged.emit (.assumed c)
  addConstraints [c]

/-- `Map.new_array` -/
def Map.newArray (fuel : ℕ) (mapMeta : MapMeta) (length : BV) : GM Map :=
  Map.new be fuel mapMeta (some (length,
    [be.beq (be.bool (.cmp .ult (.bvs .KEY mapMeta.keySize) length)) (.boolS .PRESENT)]))

end Tool
end Klint
