/-
# Runs over ghost maps

A run of the executor: maps are made, read, written and asked about in any order, on any
version, and the conditions of branches are added. `Run.sound` is what a whole run keeps: an
execution that every event of the run agrees with satisfies all constraints in the end, and
in it each call answered what the maps hold.
-/
import Klint.Tool.ForallSound

namespace Klint
namespace Tool

variable {be : Backend} {x x' : Exec} {st st' : State}

/-! ### Calls -/

/-- A call on ghost maps, with what it returned. -/
inductive Call
  | assume (c : BoolAst)
  | new (mapMeta : MapMeta) (given : Option (BV × List BoolAst)) (result : Map)
  | get (m : Map) (key value : BV) (present : BoolAst)
  | set (m : Map) (key value : BV) (result : Map)
  | remove (m : Map) (key : BV) (result : Map)
  | forAll (m : Map) (pred result : BoolAst)

namespace Call

/-- The call may be made: its maps are there, and its terms are over the symbols made so far
and of the maps' sizes. -/
def Legal (st : State) : Call → Prop
  | assume c => c.Closed st.next
  | new mm given _ =>
    (∀ g ∈ given, g.1.Closed st.next) ∧ ∀ g ∈ given, ∀ inv ∈ g.2, inv.Scoped st mm ∧ inv.Latest
  | get m key _ _ => m ∈ st.created ∧ key.Closed st.next ∧ key.size = (st.heap m).mapMeta.keySize
  | set m key value _ => m ∈ st.created ∧ key.Closed st.next ∧ key.size = (st.heap m).mapMeta.keySize ∧
    value.Closed st.next ∧ value.size = (st.heap m).mapMeta.valueSize
  | remove m key _ => m ∈ st.created ∧ key.Closed st.next ∧ key.size = (st.heap m).mapMeta.keySize
  | forAll m pred _ => m ∈ st.created ∧ pred.Scoped st (st.heap m).mapMeta ∧ pred.Latest

/-- The call's function returned what it says, in `st'`, and wrote `l`. -/
def Returned (be : Backend) (fuel : ℕ) (st st' : State) (l : List Event) : Call → Prop
  | assume c => Tool.assume c st = some ((), st', l)
  | new mm given r => Map.new be fuel mm given st = some (r, st', l)
  | get m key v p => Map.get be fuel m key none (.boolV true) st = some ((v, p), st', l)
  | set m key value r => Map.set be fuel m key value st = some (r, st', l)
  | remove m key r => Map.remove be fuel m key st = some (r, st', l)
  | forAll m pred r => Map.forall be fuel m pred st = some (r, st', l)

/-- The terms of an answered call. -/
def Made (st : State) : Call → Prop
  | assume c => c.Closed st.next
  | new _ _ r => r ∈ st.created
  | get m key v p => m ∈ st.created ∧ key.Closed st.next ∧ v.Closed st.next ∧ p.Closed st.next
  | set m key value r => m ∈ st.created ∧ key.Closed st.next ∧ value.Closed st.next ∧ r ∈ st.created
  | remove m key r => m ∈ st.created ∧ key.Closed st.next ∧ r ∈ st.created
  | forAll m pred r => m ∈ st.created ∧ pred.Scoped st (st.heap m).mapMeta ∧ r.Closed st.next

/-- The call answered what the maps hold in an execution. -/
def Right (x : Exec) (st : State) : Call → Prop
  | assume c => c.eval x.env = true
  | new mm _ r => (st.heap r).mapMeta = mm
  | get m key v p => (v.eval x.env, p.eval x.env) = x.content m (key.eval x.env)
  | set m key value r => x.content r = (x.content m).put (key.eval x.env) (value.eval x.env, true)
  | remove m key r => x.content r = (x.content m).put (key.eval x.env) ((x.content m (key.eval x.env)).1, false)
  | forAll m pred r => r.eval x.env = forallTruth x m (st.heap m).mapMeta.keySize pred

end Call

theorem Later.made (hl : Later x st x' st') : ∀ c : Call, c.Made st → c.Made st'
  | .assume _, h => h.mono hl.next
  | .new _ _ r, h => hl.created r h
  | .get m _ _ _, h => ⟨hl.created m h.1, h.2.1.mono hl.next, h.2.2.1.mono hl.next, h.2.2.2.mono hl.next⟩
  | .set m _ _ r, h => ⟨hl.created m h.1, h.2.1.mono hl.next, h.2.2.1.mono hl.next, hl.created r h.2.2.2⟩
  | .remove m _ r, h => ⟨hl.created m h.1, h.2.1.mono hl.next, hl.created r h.2.2⟩
  | .forAll m pred _, h => by
    refine ⟨hl.created m h.1, ?_, h.2.2.mono hl.next⟩
    rw [hl.mapMeta m h.1]
    exact hl.scoped_bool pred h.2.1

theorem Later.forallTruth (hl : Later x st x' st') (hx : x.maps = st.maps) {m : Map} (hm : m ∈ st.created)
    {pred : BoolAst} (hp : pred.Scoped st (st.heap m).mapMeta) (ks : ℕ) :
    forallTruth x' m ks pred = forallTruth x m ks pred := by
  unfold Tool.forallTruth
  simp only [hl.content m hm, hl.den_bool hx pred hp]

/-- An answer that was right stays right. -/
theorem Later.right (hl : Later x st x' st') (hx : x.maps = st.maps) :
    ∀ c : Call, c.Made st → c.Right x st → c.Right x' st'
  | .assume _, h, hr => (hl.agree.eval_bool h).trans hr
  | .new _ _ r, h, hr => (hl.mapMeta r h).trans hr
  | .get m _ _ _, ⟨hm, hk, hv, hp⟩, hr => by
    simp only [Call.Right] at hr ⊢
    rw [hl.agree.eval_bv hk, hl.agree.eval_bv hv, hl.agree.eval_bool hp, hl.content m hm, hr]
  | .set m _ _ r, ⟨hm, hk, hv, hr'⟩, hr => by
    simp only [Call.Right] at hr ⊢
    rw [hl.agree.eval_bv hk, hl.agree.eval_bv hv, hl.content m hm, hl.content r hr', hr]
  | .remove m _ r, ⟨hm, hk, hr'⟩, hr => by
    simp only [Call.Right] at hr ⊢
    rw [hl.agree.eval_bv hk, hl.content m hm, hl.content r hr', hr]
  | .forAll m pred r, ⟨hm, hp, hr'⟩, hr => by
    simp only [Call.Right] at hr ⊢
    rw [hl.agree.eval_bool hr', hl.mapMeta m hm, hl.forallTruth hx hm hp, hr]

/-! ### Steps -/

/-- What a call leaves. -/
structure Stepped (be : Backend) (x : Exec) (st : State) (c : Call) (x' : Exec) (st' : State) : Prop where
  sound : Sound be x' st'
  later : Later x st x' st'
  made : c.Made st'
  right : c.Right x' st'

section Step

variable {fuel : ℕ} {l : List Event} (h : Sound be x st)
include h

theorem wlp_assume {c : BoolAst} (hc : c.Closed st.next) :
    replay.wlp (assume c) (fun _ => Stepped be x st (.assume c)) x st := by
  unfold assume
  refine Replay.wlp_bind (Replay.wlp_emit fun hev => ?_)
  refine wlp_addHolding be [c] (fun t ht => ?_) fun st' q => ⟨q.sound h, q.later, hc.mono q.next, hev⟩
  rw [List.mem_singleton.mp ht]
  exact ⟨hc, hev⟩

/-- **Every call keeps the invariant and answers right.** -/
theorem Call.stepped (c : Call) (hc : c.Legal st) (hr : c.Returned be fuel st st' l) (hok : replay.Ok x l) :
    Stepped be x st c (replay.run x l) st' := by
  cases c with
  | assume c => exact wlp_assume h hc () st' l hr hok
  | new mm given r =>
    obtain ⟨hk, hid, hm, hmm, hcontent⟩ := wlp_new be fuel h hc.1 hc.2 r st' l hr hok
    exact ⟨hk.sound, hk.later, hm, hmm⟩
  | get m key v p =>
    obtain ⟨hm, hk, hs⟩ := hc
    have ha := getterSpec_get be fuel m key none (.boolV true) x st h hm hk hs (fun t ht => by cases ht)
      (Claripy.closed_boolV true) (v, p) st' l hr hok
    refine ⟨ha.sound, ha.later, ⟨ha.later.created m hm, hk.mono ha.later.next, ha.value, ha.present⟩, ?_⟩
    simp only [Call.Right]
    rw [ha.right (Claripy.eval_boolV _ _), ha.later.content m hm, ha.later.agree.eval_bv hk]
  | set m key value r =>
    obtain ⟨hm, hk, hs, hv, hvs⟩ := hc
    have ha := wlp_set be fuel h hm hk hs hv hvs r st' l hr hok
    refine ⟨ha.sound, ha.later,
      ⟨ha.later.created m hm, hk.mono ha.later.next, hv.mono ha.later.next, ha.created⟩, ?_⟩
    simp only [Call.Right]
    rw [ha.content, ha.later.content m hm, ha.later.agree.eval_bv hk, ha.later.agree.eval_bv hv]
  | remove m key r =>
    obtain ⟨hm, hk, hs⟩ := hc
    have ha := wlp_remove be fuel h hm hk hs r st' l hr hok
    refine ⟨ha.sound, ha.later, ⟨ha.later.created m hm, hk.mono ha.later.next, ha.created⟩, ?_⟩
    simp only [Call.Right]
    rw [ha.content, ha.later.content m hm, ha.later.agree.eval_bv hk]
  | forAll m pred r =>
    obtain ⟨hm, hs, hv⟩ := hc
    obtain ⟨hk, hclosed, heval⟩ := wlp_forall be fuel h hm hs hv r st' l hr hok
    have hmade : Call.Made st' (.forAll m pred r) := by
      refine ⟨hk.later.created m hm, ?_, hclosed⟩
      rw [hk.later.mapMeta m hm]
      exact hk.later.scoped_bool pred hs
    refine ⟨hk.sound, hk.later, hmade, ?_⟩
    simp only [Call.Right]
    rw [heval, hk.later.mapMeta m hm, hk.later.forallTruth h.maps hm hs]

end Step

/-! ### Runs -/

/-- A run from `init`: the calls it made and the events they wrote. -/
inductive Run (be : Backend) (init : State) : State → List Call → List Event → Prop
  | nil : Run be init init [] []
  | call {st st' : State} {cs : List Call} {log l : List Event} {c : Call} (fuel : ℕ) : Run be init st cs log →
      c.Legal st → c.Returned be fuel st st' l → Run be init st' (cs ++ [c]) (log ++ l)

theorem Run.extend {fuel : ℕ} {init : State} {cs : List Call} {log : List Event} (h : Run be init st cs log)
    (c : Call) (st' : State) (l : List Event) (hc : c.Legal st) (hr : c.Returned be fuel st st' l) :
    Run be init st' (cs ++ [c]) (log ++ l) :=
  Run.call fuel h hc hr

/-- The state before any map is made: the executor's symbols, and the plugin's table. -/
def State.initial (symbols : ℕ) (maps : List (ℕ × Map)) : State where
  constraints := []
  next := symbols
  heap := fun _ => ⟨⟨0, 0⟩, bvv 0 0, [], [], ⟨bvv 0 0, bvv 0 0, .boolV false⟩, (0, [])⟩
  created := []
  maps := maps

theorem sound_initial (be : Backend) (x : Exec) (symbols : ℕ) : Sound be x (State.initial symbols x.maps) where
  maps := rfl
  constraints _ hc := by cases hc
  closed _ hc := by cases hc
  numbered _ hm := by cases hm
  map _ hm := by cases hm
  oldest _ hm := by cases hm
  layer _ _ hm := by cases hm

/-- **What a run keeps**, by induction on its calls. -/
theorem Run.sound {init : State} {cs : List Call} {log : List Event} (h : Run be init st cs log)
    (hs : Sound be x init) (hok : replay.Ok x log) :
    Sound be (replay.run x log) st ∧ Later x init (replay.run x log) st ∧
      ∀ c ∈ cs, c.Made st ∧ c.Right (replay.run x log) st := by
  induction h with
  | nil => exact ⟨hs, Later.refl x init, fun c hc => by cases hc⟩
  | @call st st' cs log l c fuel hrun hlegal hret ih =>
    rw [Replay.ok_append] at hok
    obtain ⟨hsound, hlater, hcalls⟩ := ih hok.1
    have hstep := c.stepped hsound hlegal hret hok.2
    rw [Replay.run_append]
    refine ⟨hstep.sound, hlater.trans hstep.later, fun d hd => ?_⟩
    rcases List.mem_append.mp hd with hd | hd
    · obtain ⟨hmade, hright⟩ := hcalls d hd
      exact ⟨hstep.later.made d hmade, hstep.later.right hsound.maps d hmade hright⟩
    · rw [List.mem_singleton.mp hd]
      exact ⟨hstep.made, hstep.right⟩

/-! ### get, set and remove -/

/-- **Ghost maps are sound for get, set and remove** in the executions that the events of the
run agree with. -/
theorem gets_right (be : Backend) {symbols : ℕ} {cs : List Call} {log : List Event} (x₀ : Exec)
    (hrun : Run be (State.initial symbols x₀.maps) st cs log) (hok : replay.Ok x₀ log) :
    ∃ x : Exec, x₀.Agree symbols x ∧ (∀ id, x.content (.oldest id) = x₀.content (.oldest id)) ∧
      (∀ c ∈ st.constraints, c.eval x.env = true) ∧
      (∀ m key v p, Call.get m key v p ∈ cs → (v.eval x.env, p.eval x.env) = x.content m (key.eval x.env)) ∧
      (∀ m key value r, Call.set m key value r ∈ cs →
        x.content r = (x.content m).put (key.eval x.env) (value.eval x.env, true)) ∧
      (∀ m key r, Call.remove m key r ∈ cs →
        x.content r = (x.content m).put (key.eval x.env) ((x.content m (key.eval x.env)).1, false)) ∧
      ∀ m ∈ st.created, (st.heap m).length.eval x.env = (x.content m).size (st.heap m).mapMeta.keySize := by
  obtain ⟨hs, hl, hcalls⟩ := hrun.sound (sound_initial be x₀ symbols) hok
  refine ⟨replay.run x₀ log, hl.agree, hl.oldest, hs.constraints, ?_, ?_, ?_, fun m hm => (hs.map m hm).size⟩
  · exact fun m key v p hc => (hcalls _ hc).2
  · exact fun m key value r hc => (hcalls _ hc).2
  · exact fun m key r hc => (hcalls _ hc).2

/-! ### Concrete runs -/

/-- A solver that refutes the conditions of a list. -/
def refuting (never : List BoolAst) (h : ∀ c ∈ never, ∀ ι, c.eval ι = false) : Backend where
  toClaripy := plain
  satisfiable cs := cs.all fun c => decide (c ∉ never)
  satisfiable_of_eval cs ι hcs := by
    refine List.all_eq_true.mpr fun c hc => decide_eq_true fun hn => ?_
    have hfalse := h c hn ι
    rw [hcs c hc] at hfalse
    cases hfalse

/-- The state that a call leaves. -/
def after {α : Type} (o : Option (α × State × List Event)) : State :=
  (o.map fun r => r.2.1).getD (State.initial 0 [])

theorem eq_after {α : Type} {o : Option (α × State × List Event)} {a : α} {l : List Event}
    (h : o.map (fun r => (r.1, r.2.2)) = some (a, l)) : o = some (a, after o, l) := by
  rcases o with _ | ⟨a', st, l'⟩
  · cases h
  · cases h
    rfl

theorem exists_after {α : Type} {o : Option (α × State × List Event)} {a : α} (h : o.map Prod.fst = some a) :
    ∃ l, o = some (a, after o, l) := by
  rcases o with _ | ⟨a', st, l⟩
  · cases h
  · cases h
    exact ⟨l, rfl⟩

section Free

-- maps whose only invariant always holds
variable {mm : MapMeta} {m : Map} {inv : MapInvariant} {x : Exec} (hinv : inv.expr = .boolV true)

theorem legal_new_free {st : State} {length : BV} (hl : length.Closed st.next) (r : Map) :
    (Call.new mm (some (length, [.boolV true])) r).Legal st := by
  refine ⟨fun g hg => ?_, fun g hg inv hinv => ?_⟩
  · cases hg
    exact hl
  · cases hg
    rw [List.mem_singleton.mp hinv]
    exact ⟨trivial, trivial⟩

include hinv

theorem given_free (unknown : MapItem) (ks : ℕ) : eventOk x (.given m inv unknown ks) := by
  refine ⟨decide_eq_true fun _ _ => ?_, Or.inr fun _ _ _ => ?_⟩
  · rw [MapInvariant.den, hinv]
    rfl
  · rw [MapInvariant.den, hinv]
    rfl

theorem fresh_free (v p : ℕ) {key : BV} {known : List MapItem} {condition : BoolAst}
    (hc : x.content m (key.eval x.env) = x.content m.oldestVersion (key.eval x.env))
    (hknown : ∀ i ∈ known, i.key.eval x.env = key.eval x.env → x.item i = x.content m (key.eval x.env)) :
    eventOk x (.fresh m key v p known none condition [inv]) := by
  refine ⟨hc, hknown, fun _ hh => (by cases hh), fun _ inv' hinv' => Or.inr fun _ _ _ => ?_⟩
  rw [List.mem_singleton.mp hinv', MapInvariant.den, hinv]
  rfl

end Free

namespace Travel

/-- `1 ≤ 10` and `2 ≤ 10 - 1`, or `2 ≤ 10`. -/
def fits : List BoolAst := [.cmp .ule (bvv 64 1) (bvv 64 10),
  .cmp .ule (bvv 64 2) (.bin .add (bvv 64 10) (.ite (.boolS (.sym 5)) (bvv 64 (2 ^ 64 - 1)) (bvv 64 0)))]

theorem not_fits : ∀ c ∈ fits.map BoolAst.not, ∀ ι, c.eval ι = false := by
  intro c hc ι
  simp only [fits, List.map_cons, List.map_nil, List.mem_cons, List.not_mem_nil, or_false] at hc
  rcases hc with rfl | rfl
  · rfl
  · cases h : ι.bool (.boolS (.sym 5)) <;>
      simp [BoolAst.eval, BV.eval, CmpOp.apply, BinOp.apply, BinOp.size, bvv, BV.size, h]

def solver : Backend := refuting (fits.map .not) not_fits

/-- The key that is removed. -/
def key : BV := .bvs (.sym 0) 8

def removed : Map := .layer 1 (.oldest 0)

def s₁ : State := after (Map.new solver 2 ⟨8, 8⟩ (some (bvv 64 10, [.boolV true])) (State.initial 1 []))
def s₂ : State := after (Map.remove solver 2 (.oldest 0) key s₁)
def s₃ : State := after (Map.get solver 2 removed (bvv 8 5) none (.boolV true) s₂)
def s₄ : State := after (Map.get solver 2 (.oldest 0) (bvv 8 5) none (.boolV true) s₃)

def inv : MapInvariant := ⟨.boolV true, .bvs .KEY 8, .bvs .VALUE 8, .boolS .PRESENT⟩

def unknown : MapItem := ⟨.bvs (.sym 1) 8, .bvs (.sym 2) 8, .boolS (.sym 3)⟩

/-- The item of the removed key, in the new version. -/
def gone : MapItem := ⟨key, .bvs (.sym 6) 8, .boolV false⟩

def log : List Event :=
  [.new (.oldest 0) 1 2 3 ⟨8, 8⟩ (bvv 64 10), .given (.oldest 0) inv unknown 8,
   .fresh (.oldest 0) key 4 5 [] none (.boolV true) [inv], .badvalue (.oldest 0) key 6,
   .layer removed (.oldest 0) gone [] 8 64,
   .fresh removed (bvv 8 5) 7 8 [gone] none (.boolV true) [inv]]

/-- A key is removed, another one read in the new version and then in the old one. -/
def calls : List Call :=
  [.new ⟨8, 8⟩ (some (bvv 64 10, [.boolV true])) (.oldest 0), .remove (.oldest 0) key removed,
   .get removed (bvv 8 5) (.bvs (.sym 7) 8) (.boolS (.sym 8)),
   .get (.oldest 0) (bvv 8 5) (.bvs (.sym 7) 8) (.boolS (.sym 8))]

theorem run : Run solver (State.initial 1 []) s₄ calls log := by
  have h₀ : Run solver (State.initial 1 []) (State.initial 1 []) [] [] := Run.nil
  have h₁ := h₀.extend (.new ⟨8, 8⟩ (some (bvv 64 10, [.boolV true])) (.oldest 0)) s₁ (log.take 2) ?_
    (eq_after (by decide))
  have h₂ := h₁.extend (.remove (.oldest 0) key removed) s₂ ((log.drop 2).take 3) ?_ (eq_after (by decide))
  have h₃ := h₂.extend (.get removed (bvv 8 5) (.bvs (.sym 7) 8) (.boolS (.sym 8))) s₃ (log.drop 5) ?_
    (eq_after (by decide))
  have h₄ := h₃.extend (.get (.oldest 0) (bvv 8 5) (.bvs (.sym 7) 8) (.boolS (.sym 8))) s₄ [] ?_
    (eq_after (by decide))
  · exact h₄
  · exact ⟨by decide, trivial, by decide⟩
  · exact ⟨by decide, trivial, by decide⟩
  · exact ⟨by decide, show 0 < s₁.next by decide, by decide⟩
  · exact legal_new_free (Claripy.closed_bvv _ _) _

/-- Ten items. -/
def ten : Content := fun k => (7, decide (k < 10))

/-- The execution in which the map holds ten items, and the removed key is `k`. -/
def exec (k : ℕ) : Exec := ⟨fun _ => k, fun _ => true, fun _ => ten, [], fun _ => 0⟩

theorem size_ten : ten.size 8 = 10 := by decide

/-- The new map is as its length and its invariant say. -/
theorem given_ok (k : ℕ) : replay.Ok (exec k) (log.take 2) := by
  refine ⟨⟨fun _ _ => ?_, ?_⟩, given_free rfl _ _, trivial⟩
  · show 7 < 2 ^ 8
    omega
  · rw [show (((exec k).content (.oldest 0)).size 8) = 10 from size_ten]
    rfl

theorem ok : replay.Ok (exec 3) log := by
  rw [← List.take_append_drop 2 log, Replay.ok_append]
  refine ⟨given_ok 3, fresh_free rfl 4 5 rfl fun _ hi => ?_, trivial, ⟨?_, fun _ hi => ?_⟩,
    fresh_free rfl 7 8 (by decide) fun i hi => ?_, trivial⟩
  · cases hi
  · decide
  · cases hi
  · rw [List.mem_singleton.mp hi]
    decide

end Travel

/-- The removed key is 3. -/
theorem gets_right_apart : ∃ x : Exec, (Travel.exec 3).Agree 1 x ∧ x.content (.oldest 0) = Travel.ten ∧
    (∀ c ∈ Travel.s₄.constraints, c.eval x.env = true) ∧
    ((BV.bvs (.sym 7) 8).eval x.env, (BoolAst.boolS (.sym 8)).eval x.env) = (7, true) := by
  obtain ⟨x, hagree, hoids, hconstraints, hgets, -⟩ := gets_right Travel.solver (Travel.exec 3) Travel.run Travel.ok
  refine ⟨x, hagree, hoids 0, hconstraints, ?_⟩
  rw [hgets (.oldest 0) (bvv 8 5) (.bvs (.sym 7) 8) (.boolS (.sym 8)) (by simp [Travel.calls]), hoids 0]
  rfl

open Travel in
/-- The removed key is the one that is read: no valuation lets the old version have its item. -/
theorem gets_wrong_aliased : ∃ st log, Run solver (State.initial 1 []) st calls log ∧
    replay.Ok (exec 5) (log.take 2) ∧ (∃ ι, (∀ c ∈ st.constraints, c.eval ι = true) ∧ key.eval ι ≠ 5) ∧
    ¬∃ x : Exec, (exec 5).Agree 1 x ∧ (∀ id, x.content (.oldest id) = (exec 5).content (.oldest id)) ∧
      (∀ c ∈ st.constraints, c.eval x.env = true) ∧
      ∀ m key v p, Call.get m key v p ∈ calls → (v.eval x.env, p.eval x.env) = x.content m (key.eval x.env) := by
  refine ⟨s₄, log, run, given_ok 5, ⟨(replay.run (exec 3) log).env, by decide, by decide⟩, ?_⟩
  rintro ⟨x, hagree, hoids, hconstraints, hgets⟩
  have hk : key.eval x.env = 5 := by
    rw [hagree.eval_bv (show key.Closed 1 from Nat.one_pos)]
    rfl
  -- the new item says that key 5 is absent if it is the removed key
  have hsame := hconstraints (.or (.not (.cmp .eq (bvv 8 5) key))
    (.and (.cmp .eq (.bvs (.sym 7) 8) (.bvs (.sym 6) 8)) (.beq (.boolS (.sym 8)) (.boolV false)))) (by decide)
  have hget := hgets (.oldest 0) (bvv 8 5) (.bvs (.sym 7) 8) (.boolS (.sym 8)) (by simp [calls])
  have hp : (BoolAst.boolS (.sym 8)).eval x.env = true := by
    rw [hoids 0] at hget
    exact congrArg Prod.snd hget
  have h5 : (bvv 8 5).eval x.env = 5 := rfl
  simp only [BoolAst.eval, CmpOp.apply, hk, h5] at hsame hp
  simp [hp] at hsame

/-! ### forall -/

/-- **Asking foralls excludes no execution** that the events of the queries agree with. -/
theorem foralls_right (be : Backend) {symbols : ℕ} {before queries : List Call} {log log' : List Event} (x₀ : Exec)
    (hbefore : Run be (State.initial symbols x₀.maps) st before log) (hok : replay.Ok x₀ log)
    (hqueries : Run be st st' queries log') (hok' : replay.Ok (replay.run x₀ log) log') :
    ∃ x : Exec, (replay.run x₀ log).Agree st.next x ∧
      (∀ m ∈ st.created, x.content m = (replay.run x₀ log).content m) ∧
      (∀ c ∈ st'.constraints, c.eval x.env = true) ∧
      ∀ m pred r, Call.forAll m pred r ∈ queries →
        r.eval x.env = forallTruth x m (st'.heap m).mapMeta.keySize pred := by
  obtain ⟨hs, -, -⟩ := hbefore.sound (sound_initial be x₀ symbols) hok
  obtain ⟨hs', hl, hcalls⟩ := hqueries.sound hs hok'
  exact ⟨_, hl.agree, hl.content, hs'.constraints, fun m pred r hc => (hcalls _ hc).2⟩

namespace Asking

theorem fits : ∀ c ∈ [BoolAst.not (.cmp .ule (bvv 64 0) (bvv 64 2))], ∀ ι, c.eval ι = false := by
  intro c hc ι
  rw [List.mem_singleton.mp hc]
  rfl

def solver : Backend := refuting [.not (.cmp .ule (bvv 64 0) (bvv 64 2))] fits

/-- The key is not `k`. -/
def differs (k : ℕ) : BoolAst := .cmp .ne (.bvs .KEY 8) (bvv 8 k)

def s₁ : State := after (Map.new solver 2 ⟨8, 8⟩ (some (bvv 64 2, [.boolV true])) (State.initial 0 []))
def s₂ : State := after (Map.forall solver 2 (.oldest 0) (differs 1) s₁)
def s₃ : State := after (Map.forall solver 2 (.oldest 0) (differs 2) s₂)

def inv (e : BoolAst) : MapInvariant := ⟨e, .bvs .KEY 8, .bvs .VALUE 8, .boolS .PRESENT⟩

def pred (k : ℕ) : MapInvariant := inv (.or (.not (.boolS .PRESENT)) (differs k))

def unknown : MapItem := ⟨.bvs (.sym 0) 8, .bvs (.sym 1) 8, .boolS (.sym 2)⟩

def made : List Event :=
  [.new (.oldest 0) 0 1 2 ⟨8, 8⟩ (bvv 64 2), .given (.oldest 0) (inv (.boolV true)) unknown 8]

def log : List Event := [.forAll (.oldest 0) (pred 1) 3 [] unknown 8, .forAll (.oldest 0) (pred 2) 4 [] unknown 8]

/-- Whether the keys differ from 1, and whether they differ from 2. -/
def queries : List Call :=
  [.forAll (.oldest 0) (differs 1) (.boolS (.sym 3)), .forAll (.oldest 0) (differs 2) (.boolS (.sym 4))]

/-- A map of two items. -/
def making : List Call := [.new ⟨8, 8⟩ (some (bvv 64 2, [.boolV true])) (.oldest 0)]

theorem run_new : Run solver (State.initial 0 []) s₁ making made := by
  have h₀ : Run solver (State.initial 0 []) (State.initial 0 []) [] [] := Run.nil
  have h₁ := h₀.extend (.new ⟨8, 8⟩ (some (bvv 64 2, [.boolV true])) (.oldest 0)) s₁ made ?_
    (eq_after (by decide))
  · exact h₁
  · exact legal_new_free (Claripy.closed_bvv _ _) _

theorem scoped_differs {st : State} (h : (st.heap (.oldest 0)).mapMeta = ⟨8, 8⟩) (k : ℕ) :
    (differs k).Scoped st (st.heap (.oldest 0)).mapMeta := by
  rw [h]
  exact ⟨rfl, trivial⟩

theorem run_queries : Run solver s₁ s₃ queries log := by
  have h₀ : Run solver s₁ s₁ [] [] := Run.nil
  have h₁ := h₀.extend (.forAll (.oldest 0) (differs 1) (.boolS (.sym 3))) s₂ (log.take 1) ?_
    (eq_after (by decide))
  have h₂ := h₁.extend (.forAll (.oldest 0) (differs 2) (.boolS (.sym 4))) s₃ (log.drop 1) ?_
    (eq_after (by decide))
  · exact h₂
  · exact ⟨by decide, scoped_differs (by decide) 2, trivial, trivial⟩
  · exact ⟨by decide, scoped_differs (by decide) 1, trivial, trivial⟩

/-- The execution in which the map holds keys 1 and `k`, and its unknown item is that of key 1. -/
def exec (k : ℕ) : Exec := ⟨fun _ => 0, fun _ => false, fun _ j => (7, decide (j = 1 ∨ j = k)), [], fun _ => 1⟩

theorem made_ok (k : ℕ) (h : ((exec k).content (.oldest 0)).size 8 = 2) : replay.Ok (exec k) made := by
  refine ⟨⟨fun _ _ => ?_, h.symm⟩, given_free rfl _ _, trivial⟩
  show 7 < 2 ^ 8
  omega

theorem forAll_ok_true {x : Exec} {m : Map} {pred : MapInvariant} {n ks : ℕ} {unknown : MapItem}
    (h : pred.truth x (x.content m) ks = true) (hu : pred.den x (unknown.key.eval x.env) (x.item unknown) = true) :
    eventOk x (.forAll m pred n [] unknown ks) := by
  exact (if_pos h).mpr ⟨fun i (hi : i ∈ []) => (List.not_mem_nil hi).elim, hu⟩

theorem forAll_ok_false {x : Exec} {m : Map} {pred : MapInvariant} {n ks : ℕ} {unknown : MapItem}
    (h : pred.truth x (x.content m) ks = false) (hu : pred.den x (unknown.key.eval x.env) (x.item unknown) = false) :
    eventOk x (.forAll m pred n [] unknown ks) := by
  exact (if_neg (ne_true_of_eq_false h)).mpr (Or.inr ⟨fun i (hi : i ∈ []) => (List.not_mem_nil hi).elim, hu⟩)

set_option maxRecDepth 4000 in
theorem ok : replay.Ok (replay.run (exec 3) made) log := by
  have h₁ : eventOk (replay.run (exec 3) made) (.forAll (.oldest 0) (pred 1) 3 [] unknown 8) := by
    apply forAll_ok_false
    · decide
    · decide
  have h₂ : eventOk (replay.run (exec 3) (made ++ log.take 1)) (.forAll (.oldest 0) (pred 2) 4 [] unknown 8) := by
    apply forAll_ok_true
    · decide
    · decide
  exact ⟨h₁, h₂, trivial⟩

theorem truth_differs {x : Exec} {m : Map} {k : ℕ} (hk : k < 2 ^ 8) :
    forallTruth x m 8 (differs k) = !(x.content m k).2 := by
  have hden : ∀ j < 2 ^ 8, ∀ a, (differs k).den (x.world j a) = (j != k) := by
    intro j hj a
    simp only [differs, BoolAst.den, BV.den, bvv, Exec.world, CmpOp.apply, BitVec.toNat_ofNat, Nat.mod_eq_of_lt hj,
      Nat.mod_eq_of_lt hk]
  unfold forallTruth
  cases h : (x.content m k).2
  · refine decide_eq_true fun j hj hp => ?_
    rw [hden j hj, bne_iff_ne]
    rintro rfl
    rw [h] at hp
    cases hp
  · refine decide_eq_false fun hall => ?_
    have hne := hall k hk h
    rw [hden k hk, bne_self_eq_false] at hne
    cases hne

end Asking

open Tool.Asking in
/-- The keys are 1 and 3. -/
theorem foralls_right_one_false : ∃ x : Exec, (∀ c ∈ s₃.constraints, c.eval x.env = true) ∧
    (BoolAst.boolS (.sym 3)).eval x.env = false ∧ (BoolAst.boolS (.sym 4)).eval x.env = true := by
  obtain ⟨x, hagree, hcontent, hconstraints, hall⟩ :=
    foralls_right solver (exec 3) run_new (made_ok 3 (by decide)) run_queries ok
  have hc : x.content (.oldest 0) = (exec 3).content (.oldest 0) := hcontent _ (by decide)
  have hsize : (s₃.heap (.oldest 0)).mapMeta.keySize = 8 := by decide
  refine ⟨x, hconstraints, ?_, ?_⟩
  · rw [hall (.oldest 0) (differs 1) _ List.mem_cons_self, hsize, truth_differs (by omega), hc]
    rfl
  · rw [hall (.oldest 0) (differs 2) _ (List.mem_cons_of_mem _ List.mem_cons_self), hsize, truth_differs (by omega), hc]
    rfl

open Tool.Asking in
/-- The keys are 1 and 2: both answers are false, and the unknown item has one key only. -/
theorem foralls_wrong_both_false : ∃ st st' log log', Run solver (State.initial 0 []) st making log ∧
    replay.Ok (exec 2) log ∧ Run solver st st' queries log' ∧ (∃ ι, ∀ c ∈ st'.constraints, c.eval ι = true) ∧
    ¬∃ x : Exec, x.content (.oldest 0) = (exec 2).content (.oldest 0) ∧ (∀ c ∈ st'.constraints, c.eval x.env = true) ∧
      ∀ m pred r, Call.forAll m pred r ∈ queries →
        r.eval x.env = forallTruth x m (st'.heap m).mapMeta.keySize pred := by
  refine ⟨s₁, s₃, made, log, run_new, made_ok 2 (by decide), run_queries,
    ⟨(replay.run (exec 3) (made ++ log)).env, by decide +kernel⟩, ?_⟩
  rintro ⟨x, hc, hcs, hall⟩
  have hsize : (s₃.heap (.oldest 0)).mapMeta.keySize = 8 := by decide
  have h₁ : (BoolAst.boolS (.sym 3)).eval x.env = false := by
    rw [hall (.oldest 0) (differs 1) _ List.mem_cons_self, hsize, truth_differs (by omega), hc]
    rfl
  have h₂ : (BoolAst.boolS (.sym 4)).eval x.env = false := by
    rw [hall (.oldest 0) (differs 2) _ (List.mem_cons_of_mem _ List.mem_cons_self), hsize, truth_differs (by omega), hc]
    rfl
  have hmem : ∀ p ∈ [(3, 1), (4, 2)], BoolAst.beq (.boolS (.sym p.1)) (.and (.boolV true)
      (.or (.not (.boolV true)) (.or (.not (.boolV true)) (.or (.not (.boolS (.sym 2)))
        (.cmp .ne (.bvs (.sym 0) 8) (bvv 8 p.2)))))) ∈ s₃.constraints := by decide
  have hfirst := hcs _ (hmem (3, 1) (by decide))
  have hsecond := hcs _ (hmem (4, 2) (by decide))
  simp only [BoolAst.eval, bvv, BV.eval, CmpOp.apply] at h₁ h₂ hfirst hsecond
  simp [h₁, h₂] at hfirst hsecond
  omega

end Tool
end Klint
