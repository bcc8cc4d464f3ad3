/-
# Ghost maps in one concrete execution

An execution gives a number to each symbol and a content to each version of each
map: a function from keys to a value and a presence. The events of a run are replayed
on it: a new map's unknown item gets a key and what the map holds for it, a fresh item
gets what its map holds, a layer changes the content of the map below at one key, a
`forall` symbol gets the truth of its predicate.

`eventOk` says when the symbolic step agrees with the execution; the conditions under
which ghost maps are sound are stated with it.
-/
import Klint.Tool.GhostMaps

namespace Klint
namespace Tool

/-- What a version of a map holds: the value and the presence of each key. -/
abbrev Content := ℕ → ℕ × Bool

/-- The number of keys of the given width that are present. -/
def Content.size (c : Content) (keySize : ℕ) : ℕ :=
  ((Finset.range (2 ^ keySize)).filter fun k => (c k).2 = true).card

/-- The content with one key changed. -/
def Content.put (c : Content) (k : ℕ) (a : ℕ × Bool) : Content := Function.update c k a

theorem Content.put_apply (c : Content) (k : ℕ) (a : ℕ × Bool) (j : ℕ) :
    c.put k a j = if j = k then a else c j := by
  rw [Content.put, Function.update_apply]

/-- Changing one key changes the size by at most that key. -/
theorem Content.size_put (c : Content) (ks k : ℕ) (a : ℕ × Bool) (hk : k < 2 ^ ks) :
    (c.put k a).size ks + (c k).2.toNat = c.size ks + a.2.toNat := by
  have hsplit : ∀ d : Content, d.size ks =
      (((Finset.range (2 ^ ks)).erase k).filter fun j => (d j).2 = true).card + (d k).2.toNat := by
    intro d
    unfold Content.size
    rw [← Finset.insert_erase (Finset.mem_range.mpr hk), Finset.filter_insert]
    have hnot : k ∉ ((Finset.range (2 ^ ks)).erase k).filter fun j => (d j).2 = true := by simp
    cases h : (d k).2
    · simp
    · simp only [if_true, Finset.card_insert_of_notMem hnot, Finset.erase_insert_eq_erase,
        Bool.toNat_true, Finset.erase_idem]
  have hsame : (((Finset.range (2 ^ ks)).erase k).filter fun j => (c.put k a j).2 = true) =
      (((Finset.range (2 ^ ks)).erase k).filter fun j => (c j).2 = true) := by
    apply Finset.filter_congr
    intro j hj
    rw [Content.put_apply, if_neg (Finset.ne_of_mem_erase hj)]
  rw [hsplit (c.put k a), hsplit c, hsame, Content.put_apply, if_pos rfl]
  omega

/-- A concrete execution, with the key that the unknown item of each new map stands for. -/
structure Exec where
  bv : ℕ → ℕ
  bool : ℕ → Bool
  content : Map → Content
  maps : List (ℕ × Map)
  unknown : Map → ℕ

namespace Exec

/-- The world in which an invariant of an item is read: the placeholders have the item's values. -/
def world (x : Exec) (k : ℕ) (a : ℕ × Bool) : World where
  bv
    | .KEY => k
    | .VALUE => a.1
    | .PRESENT => 0
    | .sym n => x.bv n
  bool
    | .PRESENT => a.2
    | .sym n => x.bool n
    | _ => false
  read r v k :=
    match target x.maps r with
    | some m => x.content (m.atVersion v) k
    | none => (0, false)

/-- The valuation of the symbols. -/
def env (x : Exec) : Env := (x.world 0 (0, false)).env

/-- The value and the presence that an item says its key has. -/
def item (x : Exec) (i : MapItem) : ℕ × Bool := (i.value.eval x.env, i.present.eval x.env)

/-- An item says what a content holds. -/
def Right (x : Exec) (c : Content) (i : MapItem) : Prop := x.item i = c (i.key.eval x.env)

end Exec

/-- An invariant's truth for a key that holds `a`. -/
def MapInvariant.den (inv : MapInvariant) (x : Exec) (k : ℕ) (a : ℕ × Bool) : Bool :=
  inv.expr.den (x.world k a)

/-- An invariant's truth for a key does not depend on what it reads of other maps. -/
def MapInvariant.Blind (inv : MapInvariant) (x : Exec) (k : ℕ) (a : ℕ × Bool) : Prop :=
  ∀ ι : Env, (∀ n s, ι.bv (.bvs n s) = (x.world k a).env.bv (.bvs n s)) →
    (∀ n, ι.bool (.boolS n) = (x.world k a).env.bool (.boolS n)) →
    inv.expr.eval ι = inv.den x k a

/-- The truth of an invariant for all keys of a content. -/
def MapInvariant.truth (inv : MapInvariant) (x : Exec) (c : Content) (keySize : ℕ) : Bool :=
  decide (∀ k < 2 ^ keySize, inv.den x k (c k) = true)

/-! ### Replay -/

/-- What an event does to the execution. -/
def Exec.step (x : Exec) : Event → Exec
  | .assumed _ => x
  | .new m k v p mm _ =>
    let key := x.unknown m % 2 ^ mm.keySize
    { x with
      bv := Function.update (Function.update x.bv k key) v (x.content m key).1
      bool := Function.update x.bool p (x.content m key).2 }
  | .given _ _ _ _ => x
  | .badvalue m key n =>
    { x with bv := Function.update x.bv n (x.content m (key.eval x.env)).1 }
  | .fresh m key v p _ _ _ _ =>
    { x with
      bv := Function.update x.bv v (x.content m (key.eval x.env)).1
      bool := Function.update x.bool p (x.content m (key.eval x.env)).2 }
  | .outside _ _ _ => x
  | .layer new base item _ _ _ =>
    { x with
      content := Function.update x.content new
        ((x.content base).put (item.key.eval x.env) (x.item item)) }
  | .forAll m pred n _ _ keySize =>
    { x with bool := Function.update x.bool n (pred.truth x (x.content m) keySize) }

/-- When a step agrees with the execution.

* The condition of a branch that is taken holds.
* A new map has the size that its length says and values of its width; an invariant that
  it is given holds of all its items, and does not read other maps for an absent unknown item.
* A fresh item of a map is stored in the oldest version, so both must hold the same for the
  key; the known items listed for the same key must not be outdated; a hint must be the
  value; and an invariant is only evaluated where its condition holds, or reads no map.
* The unknown item may only answer where the layers leave the oldest version's item.
* A layer's size fits the length's width; the items that a flattened layer inherits from
  a cache must not be outdated.
* A `forall` that is true must hold of the listed items, outdated or not, and of the unknown
  item; one that is false must fail for a listed item, or for the unknown item and then this
  one's key must not be listed. -/
def eventOk (x : Exec) : Event → Prop
  | .assumed c => c.eval x.env = true
  | .new m _ _ _ mm length =>
    (∀ k < 2 ^ mm.keySize, (x.content m k).1 < 2 ^ mm.valueSize) ∧
    length.eval x.env = (x.content m).size mm.keySize
  | .given m inv unknown keySize =>
    inv.truth x (x.content m) keySize = true ∧
    ((x.item unknown).2 = true ∨ inv.Blind x (unknown.key.eval x.env) (x.item unknown))
  | .badvalue _ _ _ => True
  | .fresh m key _ _ known hint condition invariants =>
    let k := key.eval x.env
    x.content m k = x.content m.oldestVersion k ∧
    (∀ i ∈ known, i.key.eval x.env = k → x.item i = x.content m k) ∧
    (∀ h ∈ hint, condition.eval x.env = true → (x.content m k).1 = h.eval x.env) ∧
    ((∀ i ∈ known, i.key.eval x.env ≠ k) → ∀ inv ∈ invariants,
      (condition.eval x.env = true ∧ (x.content m k).2 = true) ∨ inv.Blind x k (x.content m k))
  | .outside m key condition =>
    condition.eval x.env = true →
      x.content m (key.eval x.env) = x.content m.oldestVersion (key.eval x.env)
  | .layer _ base item inherited keySize lengthSize =>
    ((x.content base).put (item.key.eval x.env) (x.item item)).size keySize < 2 ^ lengthSize ∧
    ∀ i ∈ inherited, i.key ≠ item.key → i.key.eval x.env = item.key.eval x.env →
      x.item i = x.item item
  | .forAll m pred _ known unknown keySize =>
    if pred.truth x (x.content m) keySize then
      (∀ i ∈ known, pred.den x (i.key.eval x.env) (x.item i) = true) ∧
        pred.den x (unknown.key.eval x.env) (x.item unknown) = true
    else
      (∃ i ∈ known, pred.den x (i.key.eval x.env) (x.item i) = false) ∨
        ((∀ i ∈ known, i.key.eval x.env ≠ unknown.key.eval x.env) ∧
          pred.den x (unknown.key.eval x.env) (x.item unknown) = false)

/-- The replay of a run on an execution. -/
def replay : Replay Exec Event := ⟨Exec.step, eventOk⟩

end Tool
end Klint
