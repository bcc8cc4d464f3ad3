/-
# Exploration with merging

`MergingExplorationTechnique`, `triage_for_merge` and `merge_states` of `tool/kalm/merging.py`,
in the loop of `run_state`. One state is stepped at a time; of the states that wait, those with
the lowest instruction pointer come next, and are merged first if they can be. The states, a
step of one state and the merging of one plugin are parameters.

`exploration_accounts`: over a whole run every state that exists is stepped once, or is merged
once into another one, or waits, or is at its end; nothing waits when the run is over; and what
is merged are two or more states of one instruction pointer and one call stack.
`exploration_covers`: so nothing that a state stands for is lost, if one step and the merging of
one plugin lose nothing.
-/
import Mathlib.Data.List.Sort
import Mathlib.Algebra.Order.Group.Multiset
import Mathlib.Tactic.Abel
import Klint.Lib.FirstFit

namespace Klint
namespace Tool

/-- The states that are explored, and what their plugins do. -/
structure Exploration where
  State : Type
  Callstack : Type
  RetVal : Type
  [decCallstack : DecidableEq Callstack]
  [decRetVal : DecidableEq RetVal]
  callstack : State → Callstack
  /-- `regs.rip`, unless it is symbolic. -/
  rip : State → Option ℕ
  /-- `history.jumpkind == 'Ijk_Ret'` -/
  returned : State → Bool
  /-- The states after a state: those that go on, and those that end. -/
  successors : State → List State × List State
  /-- There is a block at an address, and it has no constant jump targets. -/
  noConstantJumpTargets : ℕ → Bool
  /-- `utils.get_ret_val` -/
  getRetVal : ℕ → State → RetVal
  archBits : ℕ
  plugins : State → List String
  /-- `can_merge`, for a plugin that has `merge_triage`. -/
  canMerge : String → Option (State → State → Bool)
  mergeSolver : State → List State → State
  mergePlugin : String → State → List State → State × Bool

namespace Exploration

variable (e : Exploration)

instance : DecidableEq e.Callstack := e.decCallstack
instance : DecidableEq e.RetVal := e.decRetVal

/-! ### Merging -/

def getPlugins (states : List e.State) : List String := states.foldl (fun plugins s => plugins ∪ e.plugins s) []

/-- `plugin_triage`; `merge_triage` puts a state into the first pile whose first state it can be merged with. -/
def pluginTriage (piles : List (List e.State)) (plugin : String) : List (List e.State) :=
  match e.canMerge plugin with
  | none => piles
  | some canMerge => piles.flatMap fun pile => if pile.length = 1 then [pile] else FirstFit.triage canMerge pile

/-- `triage_for_merge`; the groups of a dictionary are in the order of their first states. -/
def triageForMerge (states : List e.State) (plugins : List String) (triageRetWidth : Option ℕ) :
    List (List e.State) :=
  let triaged := FirstFit.triage (fun first s => e.callstack first = e.callstack s) states
  let triaged := match triageRetWidth with
    | none => triaged
    | some width => triaged.flatMap (FirstFit.triage fun first s => e.getRetVal width first = e.getRetVal width s)
  plugins.foldl e.pluginTriage triaged

/-- The loop of `merge_states` over the plugins. -/
def mergePlugins (others : List e.State) : List String → e.State → Option e.State
  | [], merged => some merged
  | plugin :: plugins, merged =>
    if plugin ∈ ["solver", "regs", "mem", "scratch"] then mergePlugins others plugins merged
    else
      let (merged, ok) := e.mergePlugin plugin merged others
      if ok || plugin ∈ ["memory", "registers", "inspect"] then mergePlugins others plugins merged else none

def mergeStates (states : List e.State) (plugins : List String) : Option e.State :=
  match states with
  | [] => none  -- "Zero states to merge??"
  | [_] => none
  | state :: others => e.mergePlugins others plugins (e.mergeSolver state others)

/-! ### Exploration -/

/-- The stashes of the simulation manager. -/
structure Simgr (State : Type) where
  active : List State
  deferred : List State
  ended : List State

/-- What happens to states. -/
inductive Event (State : Type)
  | stepped (state : State) (successors ended : List State)
  | merged (pile : List State) (state : State)

namespace Event

variable {State : Type}

/-- The states that are no more after an event. -/
def consumed : Event State → List State
  | stepped state _ _ => [state]
  | merged pile _ => pile

/-- The states that are new after an event. -/
def produced : Event State → List State
  | stepped _ successors ended => successors ++ ended
  | merged _ state => [state]

end Event

/-- "Find the states with the lowest instruction pointer", in a stash whose last state comes first here. -/
def popLowest : List e.State → List e.State → List e.State × List e.State
  | [], lowest => (lowest, [])
  | current :: rest, [] => popLowest rest [current]
  | current :: rest, first :: lowest =>
    if e.rip current = e.rip first then popLowest rest (first :: lowest ++ [current])
    else (first :: lowest, current :: rest)

/-- The merge of each pile, and the states that are active after it. -/
def mergePile (plugins : List String) (pile : List e.State) : List e.State × List (Event e.State) :=
  match e.mergeStates pile plugins with
  | none => (pile, [])
  | some merged => ([merged], [.merged pile merged])

/-- The part of `step` after the step of a state. -/
def selectLowest (retWidth : Option ℕ) (sm : Simgr e.State) : Option (Simgr e.State × List (Event e.State)) :=
  if sm.deferred.any fun s => (e.rip s).isNone then none  -- "Cannot handle symbolic instruction pointers"
  else
    let sorted := sm.deferred.insertionSort fun s t => (e.rip t).getD 0 ≤ (e.rip s).getD 0
    let (lowest, rest) := e.popLowest sorted.reverse []
    match lowest with
    | [] => some (sm, [])
    | first :: _ =>
      let sm := { sm with deferred := rest.reverse }
      if e.returned first then some ({ sm with active := lowest }, [])
      else
        let width := retWidth.getD 0
        let triageRetWidth := if e.noConstantJumpTargets ((e.rip first).getD 0) then
            some (if width = 0 then e.archBits else width)
          else none
        let plugins := (e.getPlugins lowest).erase "callstack"
        let results := (e.triageForMerge lowest plugins triageRetWidth).map (e.mergePile plugins)
        some ({ sm with active := results.flatMap Prod.fst }, results.flatMap Prod.snd)

def step (retWidth : Option ℕ) (sm : Simgr e.State) : Option (Simgr e.State × List (Event e.State)) :=
  match sm.active with
  | [] => none
  | state :: others =>
    let (active, ended) := e.successors state
    let sm := { active := [], deferred := sm.deferred ++ others ++ active, ended := sm.ended ++ ended }
    (e.selectLowest retWidth sm).map fun (sm, events) => (sm, .stepped state active ended :: events)

/-- The loop of `run_state`, for as many steps as there is fuel. -/
def run (retWidth : Option ℕ) : ℕ → Simgr e.State → Option (Simgr e.State × List (Event e.State))
  | 0, sm => some (sm, [])
  | fuel + 1, sm =>
    if sm.active.isEmpty then some (sm, [])
    else do
      let (sm, events) ← e.step retWidth sm
      let (sm, later) ← run retWidth fuel sm
      return (sm, events ++ later)

variable {e}

/-! ### Piles -/

theorem flatten_flatMap_perm {α : Type} {f : List α → List (List α)} (h : ∀ pile, (f pile).flatten.Perm pile) :
    ∀ piles : List (List α), (piles.flatMap f).flatten.Perm piles.flatten
  | [] => List.Perm.refl _
  | pile :: piles => by
    rw [List.flatMap_cons, List.flatten_append, List.flatten_cons]
    exact (h pile).append (flatten_flatMap_perm h piles)

theorem flatten_pluginTriage (piles : List (List e.State)) (plugin : String) :
    (e.pluginTriage piles plugin).flatten.Perm piles.flatten := by
  unfold pluginTriage
  cases e.canMerge plugin with
  | none => exact List.Perm.refl _
  | some canMerge =>
    refine flatten_flatMap_perm (fun pile => ?_) piles
    split_ifs
    · rw [List.flatten_singleton]
    · exact FirstFit.perm pile

theorem flatten_foldl_pluginTriage : ∀ (plugins : List String) (piles : List (List e.State)),
    (plugins.foldl e.pluginTriage piles).flatten.Perm piles.flatten
  | [], _ => List.Perm.refl _
  | plugin :: plugins, piles =>
    (flatten_foldl_pluginTriage plugins _).trans (flatten_pluginTriage piles plugin)

/-- **Triage loses no state**, and puts none into two piles. -/
theorem flatten_triageForMerge (states : List e.State) (plugins : List String) (width : Option ℕ) :
    (e.triageForMerge states plugins width).flatten.Perm states := by
  refine (flatten_foldl_pluginTriage plugins _).trans ?_
  cases width with
  | none => exact FirstFit.perm states
  | some width => exact (flatten_flatMap_perm (fun pile => FirstFit.perm pile) _).trans (FirstFit.perm states)

/-- A pile is divided by a plugin. -/
theorem subset_of_pluginTriage {piles : List (List e.State)} {plugin : String} {pile : List e.State}
    (h : pile ∈ e.pluginTriage piles plugin) : ∃ whole ∈ piles, pile ⊆ whole := by
  unfold pluginTriage at h
  cases hc : e.canMerge plugin with
  | none =>
    rw [hc] at h
    exact ⟨pile, h, List.Subset.refl _⟩
  | some canMerge =>
    rw [hc] at h
    obtain ⟨whole, hw, hp⟩ := List.mem_flatMap.mp h
    refine ⟨whole, hw, ?_⟩
    split_ifs at hp
    · obtain rfl := List.mem_singleton.mp hp
      exact List.Subset.refl _
    · exact FirstFit.subset_of_mem hp

theorem subset_of_foldl_pluginTriage : ∀ (plugins : List String) {piles : List (List e.State)} {pile : List e.State},
    pile ∈ plugins.foldl e.pluginTriage piles → ∃ whole ∈ piles, pile ⊆ whole
  | [], _, pile, h => ⟨pile, h, List.Subset.refl _⟩
  | plugin :: plugins, piles, pile, h => by
    obtain ⟨part, hpart, hsub⟩ := subset_of_foldl_pluginTriage plugins h
    obtain ⟨whole, hwhole, hsub'⟩ := subset_of_pluginTriage hpart
    exact ⟨whole, hwhole, List.Subset.trans hsub hsub'⟩

/-- The states of a pile have one call stack, and one return value if that was asked for. -/
theorem same_of_triageForMerge {states : List e.State} {plugins : List String} {width : Option ℕ}
    {pile : List e.State} (h : pile ∈ e.triageForMerge states plugins width) : ∀ s ∈ pile, ∀ t ∈ pile,
    e.callstack s = e.callstack t ∧ ∀ w, width = some w → e.getRetVal w s = e.getRetVal w t := by
  obtain ⟨whole, hwhole, hsub⟩ := subset_of_foldl_pluginTriage _ h
  intro s hs t ht
  cases width with
  | none => exact ⟨FirstFit.same_key hwhole s (hsub hs) t (hsub ht), fun w hw => by cases hw⟩
  | some width =>
    obtain ⟨stack, hstack, hret⟩ := List.mem_flatMap.mp hwhole
    have hin := FirstFit.subset_of_mem hret
    refine ⟨FirstFit.same_key hstack s (hin (hsub hs)) t (hin (hsub ht)), fun w hw => ?_⟩
    obtain rfl : width = w := Option.some.inj hw
    exact FirstFit.same_key hret s (hsub hs) t (hsub ht)

theorem two_le_of_mergeStates {pile : List e.State} {plugins : List String} {m : e.State}
    (h : e.mergeStates pile plugins = some m) : 2 ≤ pile.length := by
  match pile, h with
  | [], h => cases h
  | [_], h => cases h
  | _ :: _ :: pile, _ => exact Nat.le_add_left 2 pile.length

/-! ### The lowest instruction pointer -/

/-- The instruction pointer is the lower one of two that are known. -/
def Before (s t : e.State) : Prop := ∃ m n, e.rip s = some m ∧ e.rip t = some n ∧ m < n

theorem popLowest_append : ∀ l lowest : List e.State,
    (e.popLowest l lowest).1 ++ (e.popLowest l lowest).2 = lowest ++ l
  | [], lowest => rfl
  | current :: rest, [] => popLowest_append rest [current]
  | current :: rest, first :: lowest => by
    unfold popLowest
    split_ifs
    · rw [popLowest_append rest, List.append_assoc, List.singleton_append]
    · rfl

/-- One instruction pointer is popped, and the next state has another one. -/
theorem popLowest_same : ∀ (l : List e.State) (r : Option ℕ) (lowest : List e.State), (∀ s ∈ lowest, e.rip s = r) →
    lowest ≠ [] → (∀ s ∈ (e.popLowest l lowest).1, e.rip s = r) ∧ (e.popLowest l lowest).1 ≠ [] ∧
      ∀ t ∈ (e.popLowest l lowest).2.head?, e.rip t ≠ r
  | [], r, lowest, h, hne => ⟨h, hne, fun t ht => by cases ht⟩
  | current :: rest, r, [], h, hne => absurd rfl hne
  | current :: rest, r, first :: lowest, h, hne => by
    unfold popLowest
    have hfirst := h first List.mem_cons_self
    split_ifs with hc
    · refine popLowest_same rest r _ (fun s hs => ?_) (by simp)
      rcases List.mem_append.mp hs with hs | hs
      · exact h s hs
      · rw [List.mem_singleton.mp hs, hc, hfirst]
    · refine ⟨h, hne, fun t ht => ?_⟩
      obtain rfl : current = t := Option.some.inj ht
      rwa [← hfirst]

/-- What the selection finds in a stash. -/
structure Selects (deferred lowest rest : List e.State) : Prop where
  perm : (lowest ++ rest).Perm deferred
  same : ∀ s ∈ lowest, ∀ t ∈ lowest, e.rip s = e.rip t
  before : ∀ s ∈ lowest, ∀ t ∈ rest, Before s t
  ne_nil : deferred ≠ [] → lowest ≠ []

theorem popLowest_selects {deferred : List e.State} (hsome : ∀ s ∈ deferred, (e.rip s).isSome) :
    Selects deferred
      (e.popLowest (deferred.insertionSort fun s t => (e.rip t).getD 0 ≤ (e.rip s).getD 0).reverse []).1
      (e.popLowest (deferred.insertionSort fun s t => (e.rip t).getD 0 ≤ (e.rip s).getD 0).reverse []).2 := by
  set sorted := deferred.insertionSort fun s t => (e.rip t).getD 0 ≤ (e.rip s).getD 0 with hs
  have hperm : sorted.reverse.Perm deferred :=
    (List.reverse_perm _).trans (List.perm_insertionSort _ _)
  have happ : (e.popLowest sorted.reverse []).1 ++ (e.popLowest sorted.reverse []).2 = sorted.reverse :=
    popLowest_append _ _
  have hord : sorted.reverse.Pairwise fun s t => (e.rip s).getD 0 ≤ (e.rip t).getD 0 := by
    rw [List.pairwise_reverse]
    have : Std.Total fun s t : e.State => (e.rip t).getD 0 ≤ (e.rip s).getD 0 := ⟨fun s t => le_total _ _⟩
    have : IsTrans e.State fun s t : e.State => (e.rip t).getD 0 ≤ (e.rip s).getD 0 :=
      ⟨fun s t u hst htu => htu.trans hst⟩
    exact List.pairwise_insertionSort _ _
  cases hl : sorted.reverse with
  | nil =>
    rw [hl] at hperm
    have hnil : deferred = [] := List.nil_perm.mp hperm
    subst hnil
    exact ⟨List.Perm.refl _, fun s h => absurd h List.not_mem_nil, fun s h => absurd h List.not_mem_nil,
      fun h => absurd rfl h⟩
  | cons first others =>
    rw [hl] at hperm happ hord
    obtain ⟨hsame, hne, hhead⟩ := popLowest_same others (e.rip first) [first]
      (fun s h => by rw [List.mem_singleton.mp h]) (by simp)
    change (e.popLowest others [first]).1 ++ (e.popLowest others [first]).2 = _ at happ
    change Selects deferred (e.popLowest others [first]).1 (e.popLowest others [first]).2
    rw [← happ] at hperm hord
    refine ⟨hperm, fun s h t h' => (hsame s h).trans (hsame t h').symm, fun s h t h' => ?_, fun _ => hne⟩
    have hsome' : ∀ u ∈ (e.popLowest others [first]).1 ++ (e.popLowest others [first]).2, (e.rip u).isSome :=
      fun u hu => hsome u (hperm.mem_iff.mp hu)
    obtain ⟨m, hm⟩ := Option.isSome_iff_exists.mp (hsome' s (List.mem_append_left _ h))
    obtain ⟨n, hn⟩ := Option.isSome_iff_exists.mp (hsome' t (List.mem_append_right _ h'))
    refine ⟨m, n, hm, hn, ?_⟩
    -- the state after those popped has another instruction pointer, which is not above that of `t`
    rw [List.pairwise_append] at hord
    cases hr : (e.popLowest others [first]).2 with
    | nil => rw [hr] at h'; cases h'
    | cons next rest =>
      rw [hr] at h' hhead hord hsome'
      obtain ⟨k, hk⟩ := Option.isSome_iff_exists.mp (hsome' next (by simp))
      have hne' : e.rip next ≠ e.rip first := hhead next rfl
      have hle := hord.2.2 s h next List.mem_cons_self
      have hle' : (e.rip next).getD 0 ≤ (e.rip t).getD 0 := by
        rcases List.mem_cons.mp h' with rfl | h'
        · exact le_refl _
        · exact (List.pairwise_cons.mp hord.2.1).1 t h'
      rw [← hsame s h, hk, hm] at hne'
      rw [hk, hm] at hle
      rw [hk, hn] at hle'
      simp only [Option.getD_some, ne_eq, Option.some.injEq] at hle hle' hne'
      omega

/-! ### One step -/

variable (e) in
/-- The merge of all piles. -/
def mergePiles (plugins : List String) (piles : List (List e.State)) : List e.State × List (Event e.State) :=
  ((piles.map (e.mergePile plugins)).flatMap Prod.fst, (piles.map (e.mergePile plugins)).flatMap Prod.snd)

/-- What the selection does: nothing is merged after a return, and else the piles of the lowest states are. -/
theorem selectLowest_cases {retWidth : Option ℕ} {sm sm' : Simgr e.State} {events : List (Event e.State)}
    (h : e.selectLowest retWidth sm = some (sm', events)) (hactive : sm.active = []) :
    ∃ lowest rest, Selects sm.deferred lowest rest ∧ sm'.deferred.Perm rest ∧ sm'.ended = sm.ended ∧
      (sm'.active = lowest ∧ events = [] ∨ ∃ plugins width,
        (sm'.active, events) = e.mergePiles plugins (e.triageForMerge lowest plugins width)) := by
  unfold selectLowest at h
  split_ifs at h with hany
  have hsome : ∀ s ∈ sm.deferred, (e.rip s).isSome := by
    intro s hs
    by_contra hn
    exact hany (List.any_eq_true.mpr ⟨s, hs, by simpa using hn⟩)
  have hsel := popLowest_selects hsome
  dsimp only at h
  generalize e.popLowest _ [] = popped at h hsel
  obtain ⟨lowest, rest⟩ := popped
  refine ⟨lowest, rest, hsel, ?_⟩
  cases lowest with
  | nil =>
    have hnil : sm.deferred = [] := by
      by_contra hne
      exact hsel.ne_nil hne rfl
    obtain ⟨rfl, rfl⟩ := Prod.mk.inj (Option.some.inj h)
    have hrest : rest = [] := by simpa [hnil] using hsel.perm
    rw [hnil, hrest]
    exact ⟨List.Perm.refl _, rfl, Or.inl ⟨hactive, rfl⟩⟩
  | cons first lowest =>
    dsimp only at h
    split at h
    · obtain ⟨rfl, rfl⟩ := Prod.mk.inj (Option.some.inj h)
      exact ⟨List.reverse_perm _, rfl, Or.inl ⟨rfl, rfl⟩⟩
    · obtain ⟨rfl, rfl⟩ := Prod.mk.inj (Option.some.inj h)
      exact ⟨List.reverse_perm _, rfl, Or.inr ⟨_, _, rfl⟩⟩

namespace Simgr

/-- The states of all stashes. -/
def states {State : Type} (sm : Simgr State) : List State := sm.active ++ sm.deferred ++ sm.ended

end Simgr

/-- The states before, and those that are new, are those that are no more, and the states after. -/
def Accounts (before : List e.State) (events : List (Event e.State)) (after : List e.State) : Prop :=
  (before : Multiset e.State) + events.flatMap Event.produced =
    events.flatMap Event.consumed + (after : Multiset e.State)

namespace Accounts

variable {before between after other : List e.State} {events later : List (Event e.State)}

theorem refl (l : List e.State) : Accounts l [] l := by
  unfold Accounts
  rw [List.flatMap_nil, List.flatMap_nil, add_comm]

theorem trans (h : Accounts before events between) (h' : Accounts between later after) :
    Accounts before (events ++ later) after := by
  unfold Accounts at h h' ⊢
  rw [List.flatMap_append, List.flatMap_append, ← Multiset.coe_add, ← Multiset.coe_add, ← add_assoc, h, add_assoc,
    h', add_assoc]

theorem frame (h : Accounts before events after) (other : List e.State) :
    Accounts (before ++ other) events (after ++ other) := by
  unfold Accounts at h ⊢
  rw [← Multiset.coe_add, ← Multiset.coe_add, add_right_comm, h, add_assoc]

theorem congr {before' after' : List e.State} (h : Accounts before events after) (hb : before'.Perm before)
    (ha : after.Perm after') : Accounts before' events after' := by
  unfold Accounts at h ⊢
  rw [Multiset.coe_eq_coe.mpr hb, h, Multiset.coe_eq_coe.mpr ha]

end Accounts

theorem mergePile_accounts (plugins : List String) (pile : List e.State) :
    Accounts pile (e.mergePile plugins pile).2 (e.mergePile plugins pile).1 := by
  unfold mergePile
  cases e.mergeStates pile plugins with
  | none => exact Accounts.refl pile
  | some m =>
    unfold Accounts
    simp only [List.flatMap_cons, List.flatMap_nil, List.append_nil, Event.consumed, Event.produced]

theorem mergePiles_accounts (plugins : List String) : ∀ piles : List (List e.State),
    Accounts piles.flatten (e.mergePiles plugins piles).2 (e.mergePiles plugins piles).1
  | [] => Accounts.refl []
  | pile :: piles => by
    have hpile := (mergePile_accounts plugins pile).frame piles.flatten
    have hpiles := ((mergePiles_accounts plugins piles).frame (e.mergePile plugins pile).1).congr
      List.perm_append_comm List.perm_append_comm
    exact hpile.trans hpiles

theorem selectLowest_accounts {retWidth : Option ℕ} {sm sm' : Simgr e.State} {events : List (Event e.State)}
    (h : e.selectLowest retWidth sm = some (sm', events)) (hactive : sm.active = []) :
    Accounts sm.states events sm'.states := by
  obtain ⟨lowest, rest, hsel, hdeferred, hended, hcases⟩ := selectLowest_cases h hactive
  have hlowest : Accounts lowest events sm'.active := by
    rcases hcases with ⟨ha, rfl⟩ | ⟨plugins, width, heq⟩
    · rw [ha]
      exact Accounts.refl lowest
    · obtain ⟨ha, he⟩ := Prod.mk.inj heq
      rw [ha, he]
      exact (mergePiles_accounts plugins _).congr (flatten_triageForMerge lowest plugins width).symm (List.Perm.refl _)
  refine (hlowest.frame (rest ++ sm.ended)).congr ?_ ?_
  · unfold Simgr.states
    rw [hactive, List.nil_append, ← List.append_assoc]
    exact hsel.perm.symm.append_right _
  · unfold Simgr.states
    rw [hended, ← List.append_assoc]
    exact (hdeferred.symm.append_left _).append_right _

theorem step_accounts {retWidth : Option ℕ} {sm sm' : Simgr e.State} {events : List (Event e.State)}
    (h : e.step retWidth sm = some (sm', events)) : Accounts sm.states events sm'.states := by
  unfold step at h
  cases ha : sm.active with
  | nil => rw [ha] at h; cases h
  | cons state others =>
    rw [ha] at h
    obtain ⟨⟨sm₁, events₁⟩, hsel, heq⟩ := Option.map_eq_some_iff.mp h
    obtain ⟨rfl, rfl⟩ := Prod.mk.inj heq
    have hstep : Accounts sm.states [.stepped state (e.successors state).1 (e.successors state).2]
        (Simgr.states ⟨[], sm.deferred ++ others ++ (e.successors state).1, sm.ended ++ (e.successors state).2⟩) := by
      unfold Accounts Simgr.states
      rw [ha]
      simp only [List.flatMap_cons, List.flatMap_nil, Event.produced, Event.consumed, ← Multiset.coe_add,
        ← Multiset.cons_coe, ← Multiset.singleton_add, Multiset.coe_nil, add_zero, zero_add]
      abel
    exact hstep.trans (selectLowest_accounts hsel rfl)

/-! ### Runs -/

/-- A pile of states that may be merged into one. -/
structure Mergeable (pile : List e.State) : Prop where
  two_le : 2 ≤ pile.length
  rip : ∀ s ∈ pile, ∀ t ∈ pile, e.rip s = e.rip t
  callstack : ∀ s ∈ pile, ∀ t ∈ pile, e.callstack s = e.callstack t

/-- The state is stepped as the parameters say, or the pile is merged as they say. -/
def Event.Genuine : Event e.State → Prop
  | .stepped state successors ended => e.successors state = (successors, ended)
  | .merged pile state => Mergeable pile ∧ ∃ plugins, e.mergeStates pile plugins = some state

namespace Event

variable {State : Type}

/-- The last step of a state and the merges after it. -/
def lastStep (events : List (Event State)) : List (Event State) :=
  events.foldl (fun last event => match event with
    | stepped _ _ _ => [event]
    | merged _ _ => last ++ [event]) []

theorem lastStep_append (earlier : List (Event State)) (state : State) (successors ended : List State)
    {merges : List (Event State)} (h : ∀ event ∈ merges, ∃ pile m, event = merged pile m) :
    lastStep (earlier ++ stepped state successors ended :: merges) = stepped state successors ended :: merges := by
  have hmerges : ∀ {merges : List (Event State)} (last : List (Event State)),
      (∀ event ∈ merges, ∃ pile m, event = merged pile m) → merges.foldl (fun last event => match event with
        | stepped _ _ _ => [event]
        | merged _ _ => last ++ [event]) last = last ++ merges := by
    intro merges
    induction merges with
    | nil => exact fun last _ => (List.append_nil last).symm
    | cons event merges ih =>
      intro last h
      obtain ⟨pile, m, rfl⟩ := h event List.mem_cons_self
      rw [List.foldl_cons, ih _ fun event hevent => h event (List.mem_cons_of_mem _ hevent), List.append_assoc]
      rfl
  rw [lastStep, List.foldl_append, List.foldl_cons, hmerges _ h]
  rfl

end Event

/-- An active state was merged in the last step, or comes before all that wait; and nothing waits for no active
state. -/
structure Waiting (last : List (Event e.State)) (sm : Simgr e.State) : Prop where
  before : ∀ s ∈ sm.active, (∃ pile, .merged pile s ∈ last) ∨ ∀ t ∈ sm.deferred, Before s t
  finished : sm.active = [] → sm.deferred = []

theorem mem_mergePiles {plugins : List String} {piles : List (List e.State)} {s : e.State}
    (h : s ∈ (e.mergePiles plugins piles).1) :
    (∃ pile ∈ piles, s ∈ pile) ∨ ∃ pile, .merged pile s ∈ (e.mergePiles plugins piles).2 := by
  obtain ⟨result, hresult, hs⟩ := List.mem_flatMap.mp h
  obtain ⟨pile, hpile, rfl⟩ := List.mem_map.mp hresult
  cases hm : e.mergeStates pile plugins with
  | none =>
    unfold mergePile at hs
    rw [hm] at hs
    exact Or.inl ⟨pile, hpile, hs⟩
  | some m =>
    have hpair : e.mergePile plugins pile = ([m], [.merged pile m]) := by
      unfold mergePile
      rw [hm]
    rw [hpair] at hs
    rw [List.mem_singleton.mp hs]
    refine Or.inr ⟨pile, List.mem_flatMap.mpr ⟨_, List.mem_map_of_mem hpile, ?_⟩⟩
    rw [hpair]
    exact List.mem_singleton_self _

theorem mergePiles_merged {plugins : List String} {piles : List (List e.State)} {event : Event e.State}
    (h : event ∈ (e.mergePiles plugins piles).2) :
    ∃ pile ∈ piles, ∃ m, event = .merged pile m ∧ e.mergeStates pile plugins = some m := by
  obtain ⟨result, hresult, hs⟩ := List.mem_flatMap.mp h
  obtain ⟨pile, hpile, rfl⟩ := List.mem_map.mp hresult
  unfold mergePile at hs
  cases hm : e.mergeStates pile plugins with
  | none => rw [hm] at hs; cases hs
  | some m =>
    rw [hm] at hs
    exact ⟨pile, hpile, m, List.mem_singleton.mp hs, hm⟩

theorem mergePiles_ne_nil {plugins : List String} {piles : List (List e.State)} (h : piles.flatten ≠ []) :
    (e.mergePiles plugins piles).1 ≠ [] := by
  intro hnil
  obtain ⟨s, hs⟩ := List.exists_mem_of_ne_nil _ h
  obtain ⟨pile, hpile, hs⟩ := List.mem_flatten.mp hs
  have hnone := List.flatMap_eq_nil_iff.mp hnil (e.mergePile plugins pile) (List.mem_map_of_mem hpile)
  unfold mergePile at hnone
  cases hm : e.mergeStates pile plugins with
  | none =>
    rw [hm] at hnone
    rw [show pile = [] from hnone] at hs
    cases hs
  | some m => rw [hm] at hnone; cases hnone

/-- The events of one step are genuine, and it leaves the lowest states active. -/
theorem step_spec {retWidth : Option ℕ} {sm sm' : Simgr e.State} {events : List (Event e.State)}
    (h : e.step retWidth sm = some (sm', events)) :
    (∀ earlier, Waiting (Event.lastStep (earlier ++ events)) sm') ∧ ∀ event ∈ events, event.Genuine := by
  unfold step at h
  cases ha : sm.active with
  | nil => rw [ha] at h; cases h
  | cons state others =>
    rw [ha] at h
    obtain ⟨⟨sm₁, events₁⟩, hsel, heq⟩ := Option.map_eq_some_iff.mp h
    obtain ⟨rfl, rfl⟩ := Prod.mk.inj heq
    obtain ⟨lowest, rest, hs, hdeferred, -, hcases⟩ := selectLowest_cases hsel rfl
    have hbefore : ∀ s ∈ lowest, ∀ t ∈ sm₁.deferred, Before s t := fun s h t h' =>
      hs.before s h t (hdeferred.mem_iff.mp h')
    have hover : lowest = [] → sm₁.deferred = [] := by
      intro hnil
      have hd := mt hs.ne_nil (not_not.mpr hnil)
      have hp := hs.perm
      rw [not_not.mp hd, hnil, List.nil_append] at hp
      exact List.perm_nil.mp (hdeferred.trans hp)
    rcases hcases with ⟨hactive, rfl⟩ | ⟨plugins, width, heq⟩
    · refine ⟨fun earlier => ⟨fun s h => Or.inr (hbefore s (hactive ▸ h)), fun h => hover (hactive ▸ h)⟩,
        fun event hevent => ?_⟩
      rw [List.mem_singleton.mp hevent]
      rfl
    · obtain ⟨hactive, rfl⟩ := Prod.mk.inj heq
      have hperm := flatten_triageForMerge lowest plugins width
      have hin : ∀ pile ∈ e.triageForMerge lowest plugins width, ∀ s ∈ pile, s ∈ lowest := fun pile hp s h =>
        hperm.mem_iff.mp (List.mem_flatten.mpr ⟨pile, hp, h⟩)
      refine ⟨fun earlier => ⟨fun s h => ?_, fun h => hover ?_⟩, fun event hevent => ?_⟩
      · rcases mem_mergePiles (hactive ▸ h) with ⟨pile, hp, hsp⟩ | ⟨pile, hm⟩
        · exact Or.inr (hbefore s (hin pile hp s hsp))
        · have hmerges : ∀ event ∈ (e.mergePiles plugins (e.triageForMerge lowest plugins width)).2,
              ∃ pile m, event = .merged pile m := fun event hevent =>
            let ⟨pile, _, m, he, _⟩ := mergePiles_merged hevent
            ⟨pile, m, he⟩
          have hlast := Event.lastStep_append earlier state (e.successors state).1 (e.successors state).2 hmerges
          exact Or.inl ⟨pile, hlast.symm ▸ List.mem_cons_of_mem _ hm⟩
      · by_contra hne
        refine mergePiles_ne_nil (fun hnil => hne ?_) (hactive ▸ h)
        rw [hnil] at hperm
        exact List.nil_perm.mp hperm
      · rcases List.mem_cons.mp hevent with rfl | hevent
        · rfl
        · obtain ⟨pile, hp, m, rfl, hm⟩ := mergePiles_merged hevent
          exact ⟨⟨two_le_of_mergeStates hm, fun s h t h' => hs.same s (hin pile hp s h) t (hin pile hp t h'),
            fun s h t h' => (same_of_triageForMerge hp s h t h').1⟩, plugins, hm⟩

/-- What holds of no step and of one step, and composes, holds of a run. -/
theorem run_of_step {R : Simgr e.State → List (Event e.State) → Simgr e.State → Prop} {retWidth : Option ℕ}
    (hrefl : ∀ sm, R sm [] sm)
    (htrans : ∀ {sm sm' sm'' events later}, R sm events sm' → R sm' later sm'' → R sm (events ++ later) sm'')
    (hstep : ∀ {sm sm' events}, e.step retWidth sm = some (sm', events) → R sm events sm') :
    ∀ (fuel : ℕ) {sm sm' : Simgr e.State} {events : List (Event e.State)},
      e.run retWidth fuel sm = some (sm', events) → R sm events sm'
  | 0, sm, sm', events, h => by
    obtain ⟨rfl, rfl⟩ := Prod.mk.inj (Option.some.inj h)
    exact hrefl sm
  | fuel + 1, sm, sm', events, h => by
    unfold run at h
    split_ifs at h
    · obtain ⟨rfl, rfl⟩ := Prod.mk.inj (Option.some.inj h)
      exact hrefl sm
    · simp only [Option.bind_eq_bind, Option.bind_eq_some_iff, Option.pure_def, Option.some.injEq, Prod.mk.injEq] at h
      obtain ⟨⟨sm₁, events₁⟩, hone, ⟨sm₂, events₂⟩, hlater, rfl, rfl⟩ := h
      exact htrans (hstep hone) (run_of_step hrefl htrans hstep fuel hlater)

theorem waiting_init (state : e.State) : Waiting (Event.lastStep []) (⟨[state], [], []⟩ : Simgr e.State) :=
  ⟨fun s _ => Or.inr fun t ht => absurd ht List.not_mem_nil, fun h => by cases h⟩

theorem run_waiting {retWidth : Option ℕ} {fuel : ℕ} {state : e.State} {sm : Simgr e.State}
    {events : List (Event e.State)} (h : e.run retWidth fuel ⟨[state], [], []⟩ = some (sm, events)) :
    Waiting (Event.lastStep events) sm :=
  -- whatever came before the run
  run_of_step
    (R := fun sm events sm' => ∀ earlier, Waiting (Event.lastStep earlier) sm →
      Waiting (Event.lastStep (earlier ++ events)) sm')
    (fun sm earlier hw => by rwa [List.append_nil])
    (fun h h' earlier hw => by rw [← List.append_assoc]; exact h' _ (h earlier hw))
    (fun h earlier _ => (step_spec h).1 earlier) fuel h [] (waiting_init state)

/-- **Every state is accounted for.** In a run from a state, each state that exists is stepped once, or merged once
with at least one other state of its instruction pointer and call stack, or is active, waits or has ended. What is
active comes before all that waits, unless it was merged in the last step, and nothing waits when the run is over. -/
theorem exploration_accounts (e : Exploration) (retWidth : Option ℕ) (fuel : ℕ) (state : e.State)
    {sm : Simgr e.State} {events : List (Event e.State)}
    (h : e.run retWidth fuel ⟨[state], [], []⟩ = some (sm, events)) :
    (state :: events.flatMap Event.produced).Perm
        (events.flatMap Event.consumed ++ (sm.active ++ sm.deferred ++ sm.ended)) ∧
      (∀ event ∈ events, event.Genuine) ∧ Waiting (Event.lastStep events) sm := by
  obtain ⟨hacc, hgen⟩ := run_of_step
    (R := fun sm events sm' => Accounts sm.states events sm'.states ∧ ∀ event ∈ events, event.Genuine)
    (fun sm => ⟨Accounts.refl _, fun event h => absurd h List.not_mem_nil⟩)
    (fun h h' => ⟨h.1.trans h'.1, fun event hevent => (List.mem_append.mp hevent).elim (h.2 event) (h'.2 event)⟩)
    (fun h => ⟨step_accounts h, (step_spec h).2⟩) fuel h
  unfold Accounts at hacc
  rw [Multiset.coe_add, Multiset.coe_add] at hacc
  exact ⟨Multiset.coe_eq_coe.mp hacc, hgen, run_waiting h⟩

/-- Two branches that meet again; a state is an address and the numbers that reach it. -/
def diamond : Exploration where
  State := ℕ × List ℕ
  Callstack := Unit
  RetVal := Unit
  callstack _ := ()
  rip s := some s.1
  returned _ := false
  successors s :=
    if s.1 = 0 then ([(4, s.2.filter (· % 2 = 0)), (8, s.2.filter (· % 2 ≠ 0))], [])
    else if s.1 = 12 then ([], [s])
    else ([(12, s.2)], [])
  noConstantJumpTargets _ := false
  getRetVal _ _ := ()
  archBits := 64
  plugins _ := ["callstack", "solver"]
  canMerge _ := none
  mergeSolver s others := (s.1, s.2 ++ others.flatMap Prod.snd)
  mergePlugin _ s _ := (s, true)

/-- The theorem at two branches. After two steps the second branch comes before the state after the first one, which
waits; at the end three steps, the merge where they meet and the last step account for all states. -/
theorem exploration_accounts_diamond :
    (∃ sm events, diamond.run none 2 ⟨[((0, [1, 2]) : ℕ × List ℕ)], [], []⟩ = some (sm, events) ∧
      sm.active = [((8, [1]) : ℕ × List ℕ)] ∧ sm.deferred = [((12, [2]) : ℕ × List ℕ)] ∧
        Waiting (Event.lastStep events) sm) ∧
    ∃ sm events, diamond.run none 5 ⟨[((0, [1, 2]) : ℕ × List ℕ)], [], []⟩ = some (sm, events) ∧
      events.length = 5 ∧ sm.ended.length = 1 ∧
        (((0, [1, 2]) : ℕ × List ℕ) :: events.flatMap Event.produced).Perm
            (events.flatMap Event.consumed ++ (sm.active ++ sm.deferred ++ sm.ended)) ∧
          (∀ event ∈ events, event.Genuine) ∧ Waiting (Event.lastStep events) sm :=
  ⟨⟨_, _, rfl, rfl, rfl, (exploration_accounts diamond none 2 ((0, [1, 2]) : ℕ × List ℕ) rfl).2.2⟩,
    _, _, rfl, rfl, rfl, exploration_accounts diamond none 5 ((0, [1, 2]) : ℕ × List ℕ) rfl⟩

/-! ### What states stand for -/

variable {X : Type} {Holds : e.State → X → Prop}

/-- Some of the states stands for it. -/
def Covered (Holds : e.State → X → Prop) (states : List e.State) (x : X) : Prop := ∃ s ∈ states, Holds s x

theorem mergePlugins_holds (hplugin : ∀ plugin s others x, Holds s x → Holds (e.mergePlugin plugin s others).1 x)
    {others : List e.State} {x : X} : ∀ (plugins : List String) {s m : e.State},
      e.mergePlugins others plugins s = some m → Holds s x → Holds m x
  | [], s, m, h, hs => by
    obtain rfl : s = m := Option.some.inj h
    exact hs
  | plugin :: plugins, s, m, h, hs => by
    unfold mergePlugins at h
    dsimp only at h
    split_ifs at h
    · exact mergePlugins_holds hplugin plugins h hs
    · exact mergePlugins_holds hplugin plugins h (hplugin plugin s others x hs)

theorem mergeStates_holds (hsolver : ∀ s others x, Covered Holds (s :: others) x → Holds (e.mergeSolver s others) x)
    (hplugin : ∀ plugin s others x, Holds s x → Holds (e.mergePlugin plugin s others).1 x) {pile : List e.State}
    {plugins : List String} {m : e.State} {x : X} (h : e.mergeStates pile plugins = some m)
    (hx : Covered Holds pile x) : Holds m x := by
  match pile, h with
  | [], h => cases h
  | [_], h => cases h
  | first :: second :: others, h => exact mergePlugins_holds hplugin plugins h (hsolver first (second :: others) x hx)

theorem Covered.of_subset {l l' : List e.State} {x : X} (h : Covered Holds l x) (hsub : l ⊆ l') : Covered Holds l' x :=
  let ⟨s, hs, hx⟩ := h
  ⟨s, hsub hs, hx⟩

theorem Covered.append {l l' : List e.State} {x : X} (h : Covered Holds (l ++ l') x) :
    Covered Holds l x ∨ Covered Holds l' x := by
  obtain ⟨s, hs, hx⟩ := h
  exact (List.mem_append.mp hs).imp (fun h => ⟨s, h, hx⟩) fun h => ⟨s, h, hx⟩

theorem mergePiles_covered (hmerge : ∀ pile plugins m x, e.mergeStates pile plugins = some m →
      Covered Holds pile x → Holds m x) {plugins : List String} {piles : List (List e.State)} {x : X}
    (hx : Covered Holds piles.flatten x) : Covered Holds (e.mergePiles plugins piles).1 x := by
  obtain ⟨s, hs, hsx⟩ := hx
  obtain ⟨pile, hpile, hs⟩ := List.mem_flatten.mp hs
  have hsub : (e.mergePile plugins pile).1 ⊆ (e.mergePiles plugins piles).1 := fun t ht =>
    List.mem_flatMap.mpr ⟨_, List.mem_map_of_mem hpile, ht⟩
  refine Covered.of_subset ?_ hsub
  unfold mergePile
  cases hm : e.mergeStates pile plugins with
  | none => exact ⟨s, hs, hsx⟩
  | some m => exact ⟨m, List.mem_singleton.mpr rfl, hmerge pile plugins m x hm ⟨s, hs, hsx⟩⟩

theorem step_covered (hstep : ∀ s x, Holds s x → Covered Holds ((e.successors s).1 ++ (e.successors s).2) x)
    (hmerge : ∀ pile plugins m x, e.mergeStates pile plugins = some m → Covered Holds pile x → Holds m x)
    {retWidth : Option ℕ} {sm sm' : Simgr e.State} {events : List (Event e.State)}
    (h : e.step retWidth sm = some (sm', events)) {x : X} (hx : Covered Holds sm.states x) :
    Covered Holds sm'.states x := by
  unfold step at h
  cases ha : sm.active with
  | nil => rw [ha] at h; cases h
  | cons state others =>
    rw [ha] at h
    obtain ⟨⟨sm₁, events₁⟩, hsel, heq⟩ := Option.map_eq_some_iff.mp h
    obtain ⟨rfl, -⟩ := Prod.mk.inj heq
    obtain ⟨lowest, rest, hs, hdeferred, hended, hcases⟩ := selectLowest_cases hsel rfl
    -- after the step of the first state
    have hmid : Covered Holds (sm.deferred ++ others ++ (e.successors state).1) x ∨
        Covered Holds (sm.ended ++ (e.successors state).2) x := by
      obtain ⟨s, hmem, hsx⟩ := hx
      simp only [Simgr.states, ha, List.cons_append, List.mem_cons, List.mem_append, or_assoc] at hmem
      rcases hmem with rfl | hmem | hmem | hmem
      · exact (hstep s x hsx).append.imp (·.of_subset (by simp)) (·.of_subset (by simp))
      · exact Or.inl ⟨s, by simp [hmem], hsx⟩
      · exact Or.inl ⟨s, by simp [hmem], hsx⟩
      · exact Or.inr ⟨s, by simp [hmem], hsx⟩
    have hactive : Covered Holds lowest x → Covered Holds sm₁.active x := by
      intro hl
      rcases hcases with ⟨hactive, -⟩ | ⟨plugins, width, heq⟩
      · rwa [hactive]
      · rw [(Prod.mk.inj heq).1]
        exact mergePiles_covered hmerge (hl.of_subset (flatten_triageForMerge lowest plugins width).symm.subset)
    rcases hmid with hmid | hmid
    · rcases (hmid.of_subset hs.perm.symm.subset).append with hl | hr
      · exact (hactive hl).of_subset (by simp [Simgr.states])
      · exact (hr.of_subset hdeferred.symm.subset).of_subset (by simp [Simgr.states])
    · rw [show sm.ended ++ (e.successors state).2 = sm₁.ended from hended.symm] at hmid
      exact hmid.of_subset (by simp [Simgr.states])

/-- **Exploration loses nothing.** If every step of a state goes on to, or ends in, states for all that it stands for,
and neither the merge of solvers nor that of a plugin loses anything, then all that the first state stands for is
covered in every state of the run, and by the ended states when it is over. -/
theorem exploration_covers (e : Exploration) {X : Type} (Holds : e.State → X → Prop)
    (hstep : ∀ s x, Holds s x → Covered Holds ((e.successors s).1 ++ (e.successors s).2) x)
    (hsolver : ∀ s others x, Covered Holds (s :: others) x → Holds (e.mergeSolver s others) x)
    (hplugin : ∀ plugin s others x, Holds s x → Holds (e.mergePlugin plugin s others).1 x)
    (retWidth : Option ℕ) (fuel : ℕ) (state : e.State) {sm : Simgr e.State} {events : List (Event e.State)}
    (h : e.run retWidth fuel ⟨[state], [], []⟩ = some (sm, events)) (x : X) (hx : Holds state x) :
    Covered Holds (sm.active ++ sm.deferred ++ sm.ended) x ∧ (sm.active = [] → Covered Holds sm.ended x) := by
  have hmerge : ∀ pile plugins m x, e.mergeStates pile plugins = some m → Covered Holds pile x → Holds m x :=
    fun pile plugins m x hm hp => mergeStates_holds hsolver hplugin hm hp
  have hcovered := run_of_step (R := fun sm _ sm' => Covered Holds sm.states x → Covered Holds sm'.states x)
    (fun _ => id) (fun h h' => h' ∘ h) (fun h => step_covered hstep hmerge h) fuel h
  have hall := hcovered ⟨state, by simp [Simgr.states], hx⟩
  refine ⟨hall, fun hnil => ?_⟩
  rwa [Simgr.states, hnil, (run_waiting h).finished hnil] at hall

/-- The theorem at two branches: the numbers of both are in the state at the end. -/
theorem exploration_covers_diamond : ∃ sm events,
    diamond.run none 5 ⟨[((0, [1, 2]) : ℕ × List ℕ)], [], []⟩ = some (sm, events) ∧
      Covered (fun (s : ℕ × List ℕ) x => x ∈ s.2) sm.ended 1 := by
  refine ⟨_, _, rfl, (exploration_covers diamond (fun (s : ℕ × List ℕ) x => x ∈ s.2) ?_ ?_ ?_ none 5
    ((0, [1, 2]) : ℕ × List ℕ) rfl 1 (by simp)).2 rfl⟩
  · rintro ⟨r, l⟩ x (hx : x ∈ l)
    simp only [Covered, diamond]
    split_ifs
    · by_cases h : x % 2 = 0
      · exact ⟨(4, l.filter (· % 2 = 0)), List.mem_cons_self, List.mem_filter.mpr ⟨hx, decide_eq_true h⟩⟩
      · exact ⟨(8, l.filter (· % 2 ≠ 0)), List.mem_cons_of_mem _ List.mem_cons_self,
          List.mem_filter.mpr ⟨hx, decide_eq_true h⟩⟩
    · exact ⟨(r, l), List.mem_cons_self, hx⟩
    · exact ⟨(12, l), List.mem_cons_self, hx⟩
  · rintro ⟨r, l⟩ others x ⟨s, hs, hx⟩
    rcases List.mem_cons.mp hs with rfl | hs
    · exact List.mem_append_left _ hx
    · exact List.mem_append_right _ (List.mem_flatMap.mpr ⟨s, hs, hx⟩)
  · exact fun _ _ _ _ hx => hx

end Exploration
end Tool
end Klint
