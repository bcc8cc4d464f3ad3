/-
# The soundness invariant of ghost maps

`Sound x st`: in the execution `x`, every constraint of the state holds and every map
object describes its content. The oldest version's items are right, its invariants hold
of the keys it does not list; a layer is its items over the map below; and in the list
of known items that a map works with, the first item of each key term is right.

`Later` is what a step of the tool leaves as it was.
-/
import Klint.Tool.Concrete

namespace Klint
namespace Tool

/-! ### Terms in an execution -/

/-- Two executions agree on the first `n` symbols. -/
structure Exec.Agree (n : ℕ) (x x' : Exec) : Prop where
  bv : ∀ k < n, x'.bv k = x.bv k
  bool : ∀ k < n, x'.bool k = x.bool k

theorem Exec.Agree.refl (n : ℕ) (x : Exec) : x.Agree n x := ⟨fun _ _ => rfl, fun _ _ => rfl⟩

theorem Exec.Agree.mono {n n' : ℕ} {x x' : Exec} (h : x.Agree n' x') (hn : n ≤ n') : x.Agree n x' :=
  ⟨fun k hk => h.bv k (by omega), fun k hk => h.bool k (by omega)⟩

theorem Exec.Agree.trans {n : ℕ} {x x' x'' : Exec} (h : x.Agree n x') (h' : x'.Agree n x'') :
    x.Agree n x'' :=
  ⟨fun k hk => (h'.bv k hk).trans (h.bv k hk), fun k hk => (h'.bool k hk).trans (h.bool k hk)⟩

theorem Exec.Agree.env_bv {n : ℕ} {x x' : Exec} (h : x.Agree n x') {l : BV} (hl : closedBV n l) :
    x'.env.bv l = x.env.bv l := by
  unfold closedBV at hl
  split at hl
  · simp only [Exec.env, World.env, BV.den, Exec.world, h.bv _ hl]
  · exact hl.elim

theorem Exec.Agree.env_bool {n : ℕ} {x x' : Exec} (h : x.Agree n x') {l : BoolAst}
    (hl : closedBool n l) : x'.env.bool l = x.env.bool l := by
  unfold closedBool at hl
  split at hl
  · simp only [Exec.env, World.env, BoolAst.den, Exec.world, h.bool _ hl]
  · exact hl.elim

theorem Exec.Agree.eval_bv {n : ℕ} {x x' : Exec} (h : x.Agree n x') {e : BV} (he : e.Closed n) :
    e.eval x'.env = e.eval x.env :=
  BV.eval_congr e (BV.all_mono (fun _ hl => h.env_bv hl) (fun _ hl => h.env_bool hl) e he)

theorem Exec.Agree.eval_bool {n : ℕ} {x x' : Exec} (h : x.Agree n x') {e : BoolAst}
    (he : e.Closed n) : e.eval x'.env = e.eval x.env :=
  BoolAst.eval_congr e (BoolAst.all_mono (fun _ hl => h.env_bv hl) (fun _ hl => h.env_bool hl) e he)

/-- The terms of an item are closed and have the map's sizes. -/
structure MapItem.Ok (n : ℕ) (mm : MapMeta) (i : MapItem) : Prop where
  key : i.key.Closed n
  value : i.value.Closed n
  present : i.present.Closed n
  keySize : i.key.size = mm.keySize
  valueSize : i.value.size = mm.valueSize

theorem MapItem.Ok.mono {n n' : ℕ} {mm : MapMeta} {i : MapItem} (h : i.Ok n mm) (hn : n ≤ n') :
    i.Ok n' mm :=
  ⟨h.key.mono hn, h.value.mono hn, h.present.mono hn, h.keySize, h.valueSize⟩

theorem MapItem.Ok.key_lt {n : ℕ} {mm : MapMeta} {i : MapItem} (h : i.Ok n mm) (ι : Env) :
    i.key.eval ι < 2 ^ mm.keySize := h.keySize ▸ i.key.eval_lt ι

theorem Exec.Agree.item {n : ℕ} {x x' : Exec} {mm : MapMeta} {i : MapItem} (h : x.Agree n x')
    (hi : i.Ok n mm) : x'.item i = x.item i := by
  rw [Exec.item, Exec.item, h.eval_bv hi.value, h.eval_bool hi.present]

theorem Exec.Agree.right {n : ℕ} {x x' : Exec} {mm : MapMeta} {i : MapItem} {c : Content}
    (h : x.Agree n x') (hi : i.Ok n mm) : x'.Right c i ↔ x.Right c i := by
  rw [Exec.Right, Exec.Right, h.item hi, h.eval_bv hi.key]

/-! ### Lists of known items -/

section Listed

variable (be : Backend)

/-- What `known_items` returns. -/
def listed (heap : Map → MapObj) : Map → List MapItem
  | .oldest id => (heap (.oldest id)).knownItems
  | .layer id previous =>
    let self := heap (.layer id previous)
    self.knownItems ++ (self.knownItemsCache.2 ++
      transformPrevious be self.knownItems ((listed heap previous).drop self.knownItemsCache.1))

/-- Two heaps that differ in the caches only, and list the same items. -/
structure SameList (h h' : Map → MapObj) : Prop where
  obj : ∀ m, h' m = { h m with knownItemsCache := (h' m).knownItemsCache }
  count : ∀ id previous, (h' (.layer id previous)).knownItemsCache.1 = (h (.layer id previous)).knownItemsCache.1 ∨
    (h' (.layer id previous)).knownItemsCache.1 = (listed be h previous).length
  listed : ∀ m, listed be h' m = listed be h m

variable {be}

theorem transformPrevious_append (own l l' : List MapItem) :
    transformPrevious be own (l ++ l') = transformPrevious be own l ++ transformPrevious be own l' := by
  simp [transformPrevious]

theorem transformPrevious_nil (own : List MapItem) : transformPrevious be own [] = [] := rfl

/-- Changing the cache of one layer, so that it lists the same, changes no list. -/
theorem listed_update_cache (be : Backend) (h : Map → MapObj) (id : ℕ) (previous : Map) (cache : ℕ × List MapItem)
    (hc : cache.2 ++ transformPrevious be (h (.layer id previous)).knownItems
        ((listed be h previous).drop cache.1) =
      (h (.layer id previous)).knownItemsCache.2 ++
        transformPrevious be (h (.layer id previous)).knownItems
          ((listed be h previous).drop (h (.layer id previous)).knownItemsCache.1)) :
    ∀ m, listed be (Function.update h (.layer id previous)
      { h (.layer id previous) with knownItemsCache := cache }) m = listed be h m
  | .oldest _ => rfl
  | .layer id' previous' => by
    have ih := listed_update_cache be h id previous cache hc previous'
    by_cases hm : Map.layer id' previous' = .layer id previous
    · cases hm
      simp only [listed, Function.update_self, ih, hc]
    · simp only [listed, Function.update_of_ne hm, ih]

theorem knownItemsIn_spec (be : Backend) (h : Map → MapObj) : ∀ m, (knownItemsIn be h m).1 = listed be h m ∧
    SameList be h (knownItemsIn be h m).2
  | .oldest _ => ⟨rfl, fun _ => rfl, fun _ _ => Or.inl rfl, fun _ => rfl⟩
  | .layer id previous => by
    obtain ⟨hl, hs⟩ := knownItemsIn_spec be h previous
    have hself := hs.listed (.layer id previous)
    simp only [knownItemsIn]
    split
    · next hne =>
      simp only [hl]
      set h' := (knownItemsIn be h previous).2
      set self := h' (.layer id previous)
      have hc := listed_update_cache be h' id previous ((listed be h previous).length,
          self.knownItemsCache.2 ++ transformPrevious be self.knownItems
            ((listed be h previous).drop self.knownItemsCache.1))
        (by simp only [hs.listed, List.drop_length, transformPrevious_nil, List.append_nil, self])
      refine ⟨?_, fun m => ?_, fun i p => ?_, fun m => (hc m).trans (hs.listed m)⟩
      · rw [← hself]
        simp only [listed, hs.listed, self]
      · by_cases hm : m = .layer id previous
        · subst hm
          simp only [Function.update_self]
          have ho : self = { h (.layer id previous) with knownItemsCache := self.knownItemsCache } :=
            hs.obj _
          rw [ho]
        · rw [Function.update_of_ne hm]
          exact hs.obj m
      · by_cases hm : Map.layer i p = .layer id previous
        · cases hm
          exact Or.inr (by rw [Function.update_self])
        · rw [Function.update_of_ne hm]
          exact hs.count i p
    · next heq =>
      refine ⟨?_, hs⟩
      rw [← hself]
      simp only [listed, hs.listed]
      rw [← not_not.mp heq, hl, List.drop_length, transformPrevious_nil, List.append_nil]

end Listed

/-! ### Expressions in scope -/

mutual
/-- The symbols of an expression are made, its placeholders have the map's sizes, and it reads
maps that are there, at their sizes. -/
def BV.Scoped (st : State) (mm : MapMeta) : BV → Prop
  | .bvs .KEY s => s = mm.keySize
  | .bvs .VALUE s => s = mm.valueSize
  | .bvs .PRESENT _ => False
  | .bvs (.sym k) _ => k < st.next
  | .bvv _ _ => True
  | .bin _ a b => a.Scoped st mm ∧ b.Scoped st mm
  | .extract _ _ a => a.Scoped st mm
  | .zeroExt _ a => a.Scoped st mm
  | .ite c a b => c.Scoped st mm ∧ a.Scoped st mm ∧ b.Scoped st mm
  | .mapGet m k s v => k.Scoped st mm ∧ ∃ map, target st.maps m = some map ∧
    map.atVersion v ∈ st.created ∧ (st.heap (map.atVersion v)).mapMeta = ⟨k.size, s⟩

def BoolAst.Scoped (st : State) (mm : MapMeta) : BoolAst → Prop
  | .boolS .PRESENT => True
  | .boolS (.sym k) => k < st.next
  | .boolS _ => False
  | .boolV _ => True
  | .not a => a.Scoped st mm
  | .and a b => a.Scoped st mm ∧ b.Scoped st mm
  | .or a b => a.Scoped st mm ∧ b.Scoped st mm
  | .beq a b => a.Scoped st mm ∧ b.Scoped st mm
  | .ite c a b => c.Scoped st mm ∧ a.Scoped st mm ∧ b.Scoped st mm
  | .cmp _ a b => a.Scoped st mm ∧ b.Scoped st mm
  | .mapHas m k _ => k.Scoped st mm ∧ ∃ map, target st.maps m = some map ∧
    map ∈ st.created ∧ (st.heap map).mapMeta.keySize = k.size
  | .mapHasValue m k x v => k.Scoped st mm ∧ x.Scoped st mm ∧ ∃ map, target st.maps m = some map ∧
    map.atVersion v ∈ st.created ∧ (st.heap (map.atVersion v)).mapMeta = ⟨k.size, x.size⟩
end

mutual
/-- Scope is a condition on the leaves. -/
theorem BV.scoped_iff_all {st : State} {mm : MapMeta} : ∀ e : BV,
    e.Scoped st mm ↔ e.all (BV.Scoped st mm) (BoolAst.Scoped st mm)
  | .bvs _ _ => Iff.rfl
  | .bvv _ _ => Iff.rfl
  | .bin _ a b => and_congr (BV.scoped_iff_all a) (BV.scoped_iff_all b)
  | .extract _ _ a => BV.scoped_iff_all a
  | .zeroExt _ a => BV.scoped_iff_all a
  | .ite c a b =>
    and_congr (BoolAst.scoped_iff_all c) (and_congr (BV.scoped_iff_all a) (BV.scoped_iff_all b))
  | .mapGet _ _ _ _ => Iff.rfl

theorem BoolAst.scoped_iff_all {st : State} {mm : MapMeta} : ∀ e : BoolAst,
    e.Scoped st mm ↔ e.all (BV.Scoped st mm) (BoolAst.Scoped st mm)
  | .boolS _ => Iff.rfl
  | .boolV _ => Iff.rfl
  | .not a => BoolAst.scoped_iff_all a
  | .and a b => and_congr (BoolAst.scoped_iff_all a) (BoolAst.scoped_iff_all b)
  | .or a b => and_congr (BoolAst.scoped_iff_all a) (BoolAst.scoped_iff_all b)
  | .beq a b => and_congr (BoolAst.scoped_iff_all a) (BoolAst.scoped_iff_all b)
  | .ite c a b => and_congr (BoolAst.scoped_iff_all c)
    (and_congr (BoolAst.scoped_iff_all a) (BoolAst.scoped_iff_all b))
  | .cmp _ a b => and_congr (BV.scoped_iff_all a) (BV.scoped_iff_all b)
  | .mapHas _ _ _ => Iff.rfl
  | .mapHasValue _ _ _ _ => Iff.rfl
end

/-- An invariant whose expression is in scope, over the placeholders. -/
structure MapInvariant.Ok (st : State) (mm : MapMeta) (inv : MapInvariant) : Prop where
  inScope : inv.expr.Scoped st mm
  key : inv.key = .bvs .KEY mm.keySize
  value : inv.value = .bvs .VALUE mm.valueSize
  present : inv.present = .boolS .PRESENT

/-! ### What a step leaves as it was -/

/-- A later state, in a later execution. -/
structure Later (x : Exec) (st : State) (x' : Exec) (st' : State) : Prop where
  next : st.next ≤ st'.next
  agree : x.Agree st.next x'
  maps : x'.maps = x.maps
  table : st'.maps = st.maps
  content : ∀ m ∈ st.created, x'.content m = x.content m
  created : ∀ m ∈ st.created, m ∈ st'.created
  mapMeta : ∀ m ∈ st.created, (st'.heap m).mapMeta = (st.heap m).mapMeta
  length : ∀ m ∈ st.created, (st'.heap m).length = (st.heap m).length
  unknownItem : ∀ m ∈ st.created, (st'.heap m).unknownItem = (st.heap m).unknownItem
  known : ∀ m ∈ st.created, (st.heap m).knownItems <+: (st'.heap m).knownItems
  oldest : ∀ id, x'.content (.oldest id) = x.content (.oldest id)

theorem Later.refl (x : Exec) (st : State) : Later x st x st where
  next := le_rfl
  agree := Exec.Agree.refl _ x
  maps := rfl
  table := rfl
  content _ _ := rfl
  created _ h := h
  mapMeta _ _ := rfl
  length _ _ := rfl
  unknownItem _ _ := rfl
  known _ _ := List.prefix_rfl
  oldest _ := rfl

theorem Later.trans {x x' x'' : Exec} {st st' st'' : State} (h : Later x st x' st')
    (h' : Later x' st' x'' st'') : Later x st x'' st'' where
  next := h.next.trans h'.next
  agree := h.agree.trans (h'.agree.mono h.next)
  maps := h'.maps.trans h.maps
  table := h'.table.trans h.table
  content m hm := (h'.content m (h.created m hm)).trans (h.content m hm)
  created m hm := h'.created m (h.created m hm)
  mapMeta m hm := (h'.mapMeta m (h.created m hm)).trans (h.mapMeta m hm)
  length m hm := (h'.length m (h.created m hm)).trans (h.length m hm)
  unknownItem m hm := (h'.unknownItem m (h.created m hm)).trans (h.unknownItem m hm)
  known m hm := (h.known m hm).trans (h'.known m (h.created m hm))
  oldest id := (h'.oldest id).trans (h.oldest id)

mutual
theorem Later.scoped_bv {x x' : Exec} {st st' : State} (h : Later x st x' st') {mm : MapMeta} :
    ∀ e : BV, e.Scoped st mm → e.Scoped st' mm
  | .bvs .KEY _, he => he
  | .bvs .VALUE _, he => he
  | .bvs .PRESENT _, he => he
  | .bvs (.sym _) _, he => lt_of_lt_of_le (by simpa only [BV.Scoped] using he) h.next
  | .bvv _ _, _ => trivial
  | .bin _ a b, he => ⟨h.scoped_bv a he.1, h.scoped_bv b he.2⟩
  | .extract _ _ a, he => h.scoped_bv a he
  | .zeroExt _ a, he => h.scoped_bv a he
  | .ite c a b, he => ⟨h.scoped_bool c he.1, h.scoped_bv a he.2.1, h.scoped_bv b he.2.2⟩
  | .mapGet m k s v, he => by
    simp only [BV.Scoped] at he ⊢
    obtain ⟨hk, map, ht, hc, hm⟩ := he
    exact ⟨h.scoped_bv k hk, map, h.table ▸ ht, h.created _ hc, (h.mapMeta _ hc).trans hm⟩

theorem Later.scoped_bool {x x' : Exec} {st st' : State} (h : Later x st x' st') {mm : MapMeta} :
    ∀ e : BoolAst, e.Scoped st mm → e.Scoped st' mm
  | .boolS .PRESENT, _ => trivial
  | .boolS .KEY, he => he
  | .boolS .VALUE, he => he
  | .boolS (.sym _), he => lt_of_lt_of_le (by simpa only [BoolAst.Scoped] using he) h.next
  | .boolV _, _ => trivial
  | .not a, he => h.scoped_bool a he
  | .and a b, he => ⟨h.scoped_bool a he.1, h.scoped_bool b he.2⟩
  | .or a b, he => ⟨h.scoped_bool a he.1, h.scoped_bool b he.2⟩
  | .beq a b, he => ⟨h.scoped_bool a he.1, h.scoped_bool b he.2⟩
  | .ite c a b, he => ⟨h.scoped_bool c he.1, h.scoped_bool a he.2.1, h.scoped_bool b he.2.2⟩
  | .cmp _ a b, he => ⟨h.scoped_bv a he.1, h.scoped_bv b he.2⟩
  | .mapHas m k _, he => by
    simp only [BoolAst.Scoped] at he ⊢
    obtain ⟨hk, map, ht, hc, hm⟩ := he
    exact ⟨h.scoped_bv k hk, map, h.table ▸ ht, h.created _ hc, (h.mapMeta _ hc) ▸ hm⟩
  | .mapHasValue m k y v, he => by
    simp only [BoolAst.Scoped] at he ⊢
    obtain ⟨hk, hy, map, ht, hc, hm⟩ := he
    exact ⟨h.scoped_bv k hk, h.scoped_bv y hy, map, h.table ▸ ht, h.created _ hc,
      (h.mapMeta _ hc).trans hm⟩
end

theorem Later.inv_ok {x x' : Exec} {st st' : State} (h : Later x st x' st') {mm : MapMeta}
    {inv : MapInvariant} (hi : inv.Ok st mm) : inv.Ok st' mm :=
  ⟨h.scoped_bool _ hi.inScope, hi.key, hi.value, hi.present⟩

mutual
/-- An expression in scope means the same later. -/
theorem Later.den_bv {x x' : Exec} {st st' : State} (h : Later x st x' st') (hx : x.maps = st.maps)
    {mm : MapMeta} {k : ℕ} {a : ℕ × Bool} :
    ∀ e : BV, e.Scoped st mm → e.den (x'.world k a) = e.den (x.world k a)
  | .bvs .KEY _, _ => rfl
  | .bvs .VALUE _, _ => rfl
  | .bvs .PRESENT _, _ => rfl
  | .bvs (.sym n) _, he => by
    simp only [BV.Scoped] at he
    simp only [BV.den, Exec.world, h.agree.bv n he]
  | .bvv _ _, _ => rfl
  | .bin _ e f, he => by
    simp only [BV.Scoped] at he
    simp only [BV.den, h.den_bv hx e he.1, h.den_bv hx f he.2]
  | .extract _ _ e, he => by
    simp only [BV.Scoped] at he
    simp only [BV.den, h.den_bv hx e he]
  | .zeroExt _ e, he => by
    simp only [BV.Scoped] at he
    simp only [BV.den, h.den_bv hx e he]
  | .ite c e f, he => by
    simp only [BV.Scoped] at he
    simp only [BV.den, h.den_bool hx c he.1, h.den_bv hx e he.2.1, h.den_bv hx f he.2.2]
  | .mapGet m j s v, he => by
    simp only [BV.Scoped] at he
    obtain ⟨hj, map, ht, hc, -⟩ := he
    simp only [BV.den, h.den_bv hx j hj]
    simp only [Exec.world, h.maps, hx, ht, h.content _ hc]

theorem Later.den_bool {x x' : Exec} {st st' : State} (h : Later x st x' st') (hx : x.maps = st.maps)
    {mm : MapMeta} {k : ℕ} {a : ℕ × Bool} :
    ∀ e : BoolAst, e.Scoped st mm → e.den (x'.world k a) = e.den (x.world k a)
  | .boolS .PRESENT, _ => rfl
  | .boolS .KEY, _ => rfl
  | .boolS .VALUE, _ => rfl
  | .boolS (.sym n), he => by
    simp only [BoolAst.Scoped] at he
    simp only [BoolAst.den, Exec.world, h.agree.bool n he]
  | .boolV _, _ => rfl
  | .not e, he => by
    simp only [BoolAst.Scoped] at he
    simp only [BoolAst.den, h.den_bool hx e he]
  | .and e f, he => by
    simp only [BoolAst.Scoped] at he
    simp only [BoolAst.den, h.den_bool hx e he.1, h.den_bool hx f he.2]
  | .or e f, he => by
    simp only [BoolAst.Scoped] at he
    simp only [BoolAst.den, h.den_bool hx e he.1, h.den_bool hx f he.2]
  | .beq e f, he => by
    simp only [BoolAst.Scoped] at he
    simp only [BoolAst.den, h.den_bool hx e he.1, h.den_bool hx f he.2]
  | .ite c e f, he => by
    simp only [BoolAst.Scoped] at he
    simp only [BoolAst.den, h.den_bool hx c he.1, h.den_bool hx e he.2.1, h.den_bool hx f he.2.2]
  | .cmp _ e f, he => by
    simp only [BoolAst.Scoped] at he
    simp only [BoolAst.den, h.den_bv hx e he.1, h.den_bv hx f he.2]
  | .mapHas m j _, he => by
    simp only [BoolAst.Scoped] at he
    obtain ⟨hj, map, ht, hc, -⟩ := he
    simp only [BoolAst.den, h.den_bv hx j hj]
    simp only [Exec.world, h.maps, hx, ht, Map.atVersion, h.content _ hc]
  | .mapHasValue m j y v, he => by
    simp only [BoolAst.Scoped] at he
    obtain ⟨hj, hy, map, ht, hc, -⟩ := he
    simp only [BoolAst.den, h.den_bv hx j hj, h.den_bv hx y hy]
    simp only [Exec.world, h.maps, hx, ht, h.content _ hc]
end

theorem Later.inv_den {x x' : Exec} {st st' : State} (h : Later x st x' st') (hx : x.maps = st.maps)
    {mm : MapMeta} {inv : MapInvariant} (hi : inv.Ok st mm) (k : ℕ) (a : ℕ × Bool) :
    inv.den x' k a = inv.den x k a := h.den_bool hx _ hi.inScope

end Tool
end Klint
