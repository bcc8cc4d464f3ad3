/-
# The search for the choices

The outer loop of `_symbex`. All the runs of one round, over every state and path,
are one computation that asks for choices (`askingAll`), so the rounds are a search
over choices by running again, and `dfs` says how it ends.

It stops at the first assignment that makes every path return, but also at the first
round that raises a built-in exception, and at a list of candidates that the maps
chosen before it leave empty. A failed `assert` is such an exception. `symbex_finds_iff`
says when none of this comes before an assignment that is good.
-/
import Klint.Tool.SymbexPaths

namespace Klint
namespace Tool
namespace Symbex

variable {F V O : Type} [DecidableEq O] (sv : Solver F V)

/-! ### Assignments -/

/-- How the paths of a specification end, where `choose` answers with `answers`: they return
(`ends none`), raise, or ask for more choices. -/
def Spec.endings (answers : List O) : Spec F O → List F → List (F × Bool) → ℕ → List (Asking.Event O (Option Exn))
  | .ret, _, _, _ => [.ends none]
  | .raise ex, _, _, _ => [.ends (some ex)]
  | .test f next, cs, p, i =>
    match sv.evalUpto cs f 3 (sv.conditions p) with
    | .error ex => [.ends (some ex)]
    | .ok [b] => (next b).endings answers cs p i
    | .ok [_, _] =>
      (next true).endings answers (cs ++ [sv.literal (f, true)]) (p ++ [(f, true)]) i ++
        (next false).endings answers (cs ++ [sv.literal (f, false)]) (p ++ [(f, false)]) i
    | .ok _ => [.ends (some .assertionError)]
  | .add f next, cs, p, i => next.endings answers (cs ++ [f]) p i
  | .choose choices next, cs, p, i =>
    if choices = [] then [.ends (some .assertionError)]
    else match answers[i]? with
      | some o => (next o).endings answers cs p (i + 1)
      | none => [.asks choices]

/-- The endings of all paths of all states, in their order. -/
def allEndings (stateData : List (List F × Spec F O)) (answers : List O) : List (Asking.Event O (Option Exn)) :=
  stateData.flatMap fun d => d.2.endings sv answers d.1 [] 0

/-- The first ending that is not a return. -/
def attempt (stateData : List (List F × Spec F O)) (answers : List O) : Asking.Event O (Option Exn) :=
  ((allEndings sv stateData answers).find? fun e => decide (e ≠ .ends none)).getD (.ends none)

/-- An assignment of one map to each call of `choose`, a candidate of the call that no call before it
has, with which every path of every state returns. -/
def Good (stateData : List (List F × Spec F O)) (answers : List O) : Prop :=
  Asking.Offered [] (attempt sv stateData) answers ∧ ∀ e ∈ allEndings sv stateData answers, e = .ends none

/-- The search goes on after these choices: they raise an exception that is not built in, or the
list of the next call ends in a map that was not chosen before. -/
def Backtracks (stateData : List (List F × Spec F O)) (answers : List O) : Prop :=
  match attempt sv stateData answers with
  | .ends none => False
  | .ends (some ex) => ex.isBuiltin = false
  | .asks choices => ∃ o, choices.getLast? = some o ∧ o ∉ answers

/-- `_symbex` ends so, with enough fuel. -/
def Symbexes (stateData : List (List F × Spec F O)) (out : Except Exn (List O × List (List (List F)))) : Prop :=
  ∃ N, ∀ n, N ≤ n → symbex sv stateData n = some out

def Returns (stateData : List (List F × Spec F O)) (answers : List O) : Prop :=
  ∃ results, Symbexes sv stateData (.ok (answers, results))

def Raises (stateData : List (List F × Spec F O)) : Prop :=
  ∃ ex, Symbexes sv stateData (.error ex)

variable {sv}

theorem attempt_eq_returned {stateData : List (List F × Spec F O)} {answers : List O} :
    attempt sv stateData answers = .ends none ↔ ∀ e ∈ allEndings sv stateData answers, e = .ends none := by
  unfold attempt
  constructor
  · intro h e he
    by_contra hne
    rcases hf : (allEndings sv stateData answers).find? (fun e => decide (e ≠ .ends none)) with _ | x
    · exact absurd (List.find?_eq_none.mp hf e he) (by simpa using hne)
    · rw [hf] at h
      have := List.find?_some hf
      simp only [Option.getD_some] at h
      simp [h] at this
  · intro h
    rw [List.find?_eq_none.mpr fun e he => by simp [h e he]]
    rfl

/-! ### One round asks -/

/-- The paths of a specification as a computation that asks, after the answers `a`; `k` is what comes
after the last path. -/
def Spec.asking (sv : Solver F V) : Spec F O → List F → List (F × Bool) → ℕ → List O →
    (List O → Asking O (Option Exn)) → Asking O (Option Exn)
  | .ret, _, _, _, a, k => k a
  | .raise ex, _, _, _, _, _ => .ret (some ex)
  | .test f next, cs, p, i, a, k =>
    match sv.evalUpto cs f 3 (sv.conditions p) with
    | .error ex => .ret (some ex)
    | .ok [b] => (next b).asking sv cs p i a k
    | .ok [_, _] =>
      (next true).asking sv (cs ++ [sv.literal (f, true)]) (p ++ [(f, true)]) i a fun a =>
        (next false).asking sv (cs ++ [sv.literal (f, false)]) (p ++ [(f, false)]) i a k
    | .ok _ => .ret (some .assertionError)
  | .add f next, cs, p, i, a, k => next.asking sv (cs ++ [f]) p i a k
  | .choose choices next, cs, p, i, a, k =>
    if choices = [] then .ret (some .assertionError)
    else match a[i]? with
      | some o => (next o).asking sv cs p (i + 1) a k
      | none => .ask choices fun o => (next o).asking sv cs p (i + 1) (a ++ [o]) k

/-- All the runs of one round. -/
def askingAll (sv : Solver F V) : List (List F × Spec F O) → List O → Asking O (Option Exn)
  | [], _ => .ret none
  | (state, func) :: stateData, a => func.asking sv state [] 0 a (askingAll sv stateData)

/-- The first of the events that is not a return, or else what comes after them. -/
def firstEvent (es : List (Asking.Event O (Option Exn))) (e : Asking.Event O (Option Exn)) :
    Asking.Event O (Option Exn) :=
  (es.find? fun e => decide (e ≠ .ends none)).getD e

theorem firstEvent_append (es es' : List (Asking.Event O (Option Exn))) (e : Asking.Event O (Option Exn)) :
    firstEvent (es ++ es') e = firstEvent es (firstEvent es' e) := by
  unfold firstEvent
  rw [List.find?_append]
  cases es.find? fun e => decide (e ≠ .ends none) <;> rfl

/-- After the answers, the computation does what the first path does that does not return. -/
theorem eventAt_asking : ∀ (s : Spec F O) {cs : List F} {p : List (F × Bool)} {i : ℕ} {a : List O} (w : List O)
    {k : List O → Asking O (Option Exn)} {e : Asking.Event O (Option Exn)}, i ≤ a.length →
    (∀ a' w', a' ++ w' = a ++ w → a.length ≤ a'.length → (k a').eventAt w' = e) →
    (s.asking sv cs p i a k).eventAt w = firstEvent (s.endings sv (a ++ w) cs p i) e
  | .ret, cs, p, i, a, w, k, e, hi, hk => hk a w rfl le_rfl
  | .raise ex, cs, p, i, a, w, k, e, hi, hk => rfl
  | .add f next, cs, p, i, a, w, k, e, hi, hk => eventAt_asking next w hi hk
  | .test f next, cs, p, i, a, w, k, e, hi, hk => by
    unfold Spec.asking Spec.endings
    rcases sv.evalUpto cs f 3 (sv.conditions p) with ex | outs
    · rfl
    · match outs with
      | [b] => exact eventAt_asking (next b) w hi hk
      | [_, _] =>
        dsimp only
        rw [firstEvent_append]
        refine eventAt_asking (next true) w hi fun a' w' haw hle => ?_
        rw [← haw]
        exact eventAt_asking (next false) w' (hi.trans hle) fun a'' w'' haw' hle' =>
          hk a'' w'' (haw'.trans haw) (hle.trans hle')
      | [] => rfl
      | _ :: _ :: _ :: _ => rfl
  | .choose choices next, cs, p, i, a, w, k, e, hi, hk => by
    unfold Spec.asking Spec.endings
    by_cases hc : choices = []
    · rw [if_pos hc, if_pos hc]
      rfl
    · rw [if_neg hc, if_neg hc]
      rcases Nat.lt_or_eq_of_le hi with hi | rfl
      · rw [List.getElem?_append_left hi, List.getElem?_eq_getElem hi]
        exact eventAt_asking (next a[i]) w hi hk
      · rw [List.getElem?_eq_none le_rfl, List.getElem?_append_right le_rfl, Nat.sub_self]
        cases w with
        | nil => rfl
        | cons o w =>
          have h : ((next o).asking sv cs p (a.length + 1) (a ++ [o]) k).eventAt w = _ :=
            eventAt_asking (next o) w (by simp) fun a' w' haw hle =>
              hk a' w' (by rw [haw, List.append_assoc, List.singleton_append])
                ((by simp : a.length ≤ (a ++ [o]).length).trans hle)
          rw [List.append_assoc, List.singleton_append] at h
          exact h

theorem eventAt_askingAll : ∀ (stateData : List (List F × Spec F O)) (a w : List O),
    (askingAll sv stateData a).eventAt w = firstEvent (allEndings sv stateData (a ++ w)) (.ends none)
  | [], _, _ => rfl
  | (state, func) :: stateData, a, w => by
    unfold askingAll allEndings
    rw [List.flatMap_cons, firstEvent_append]
    refine eventAt_asking func w (Nat.zero_le _) fun a' w' haw _ => ?_
    rw [eventAt_askingAll stateData a' w', haw]
    rfl

theorem attempt_eq_eventAt (stateData : List (List F × Spec F O)) :
    (askingAll sv stateData []).eventAt = attempt sv stateData := by
  funext w
  exact eventAt_askingAll stateData [] w

/-! ### One round is a run -/

/-- A round is a run of the computation: the run ends with the exception, if any, and leaves the
lists. An emptied list is a built-in exception. -/
def SameRound (run : Option (Option Exn) × List (List O)) (raised : Option Exn) (choices : List (List O)) : Prop :=
  run = (some raised, choices) ∨ run.1 = none ∧ ∃ ex, raised = some ex ∧ ex.isBuiltin = true

/-- A run of `Spec.asking` from the lists that are left, with all the lists it ends with. -/
def runFrom (t : Asking O (Option Exn)) (a : List O) (S lists : List (List O)) :
    Option (Option Exn) × List (List O) :=
  ((t.run a lists).1, S ++ (t.run a lists).2)

theorem runFrom_snoc {choices : List O} {next : O → Asking O (Option Exn)} {a : List O} {S lists : List (List O)}
    {o : O} {rest : List O} (h : ((lists.headD choices).dropWhile fun c => decide (c ∈ a)) = o :: rest) :
    runFrom (.ask choices next) a S lists = runFrom (next o) (a ++ [o]) (S ++ [o :: rest]) lists.tail := by
  unfold runFrom
  rw [Asking.run, h, List.append_assoc, List.singleton_append]

/-- What a run of a specification does where its visit is `r`: it ends with the exception, or it goes
on with `k`. -/
def RunsAs (k : List O → Asking O (Option Exn)) (a : List O) (run : Option (Option Exn) × List (List O))
    (r : Runs (List F) O) : Prop :=
  match r.raised with
  | some ex => SameRound run (some ex) r.choices
  | none => ∃ S' a' rest, r.choices = S' ++ rest ∧ Settled S' a' ∧ a <+: a' ∧ run = runFrom (k a') a' S' rest

theorem run_asking : ∀ (s : Spec F O) {cs : List F} {p : List (F × Bool)} {i : ℕ} {S : List (List O)} {a : List O}
    (lists : List (List O)) (k : List O → Asking O (Option Exn)), Settled S a → i ≤ a.length →
    RunsAs k a (runFrom (s.asking sv cs p i a k) a S lists) (s.visit sv cs p i (S ++ lists))
  | .ret, cs, p, i, S, a, lists, k, hS, hi => ⟨S, a, lists, rfl, hS, List.prefix_rfl, rfl⟩
  | .raise ex, cs, p, i, S, a, lists, k, hS, hi => Or.inl rfl
  | .add f next, cs, p, i, S, a, lists, k, hS, hi => run_asking next lists k hS hi
  | .test f next, cs, p, i, S, a, lists, k, hS, hi => by
    unfold Spec.asking Spec.visit
    rcases sv.evalUpto cs f 3 (sv.conditions p) with ex | outs
    · exact Or.inl rfl
    · rcases outs with _ | ⟨b, _ | ⟨b', _ | _⟩⟩
      · exact Or.inl rfl
      · exact run_asking (next b) lists k hS hi
      · have htrue : RunsAs _ a _
            ((next true).visit sv (cs ++ [sv.literal (f, true)]) (p ++ [(f, true)]) i (S ++ lists)) :=
          run_asking (next true) lists (fun a =>
            (next false).asking sv (cs ++ [sv.literal (f, false)]) (p ++ [(f, false)]) i a k) hS hi
        dsimp only
        rcases hr : (next true).visit sv (cs ++ [sv.literal (f, true)]) (p ++ [(f, true)]) i (S ++ lists)
          with ⟨rs, _ | ex, L⟩ <;> rw [hr] at htrue
        · obtain ⟨S', a', rest, rfl, hS', haa', hrun⟩ := htrue
          have hfalse : RunsAs k a' _ ((next false).visit sv (cs ++ [sv.literal (f, false)]) (p ++ [(f, false)]) i
              (S' ++ rest)) := run_asking (next false) rest k hS' (hi.trans haa'.length_le)
          dsimp only
          rw [hrun]
          rcases hr' : (next false).visit sv (cs ++ [sv.literal (f, false)]) (p ++ [(f, false)]) i (S' ++ rest)
            with ⟨rs', _ | ex, L⟩ <;> rw [hr'] at hfalse
          · obtain ⟨S'', a'', rest', hL, hS'', haa'', hrun'⟩ := hfalse
            exact ⟨S'', a'', rest', hL, hS'', haa'.trans haa'', hrun'⟩
          · exact hfalse
        · exact htrue
      · exact Or.inl rfl
  | .choose choices next, cs, p, i, S, a, lists, k, hS, hi => by
    unfold Spec.asking Spec.visit
    by_cases hc : choices = []
    · rw [if_pos hc, chooseAt, if_pos hc]
      exact Or.inl rfl
    · rw [if_neg hc]
      rcases Nat.lt_or_eq_of_le hi with hi | rfl
      · rw [chooseAt_settled hS hi hc, List.getElem?_eq_getElem hi]
        exact run_asking (next a[i]) lists k hS hi
      · have hnew := chooseAt_new hS hc lists
        rw [List.getElem?_eq_none le_rfl]
        rcases hd : (lists.headD choices).dropWhile fun c => decide (c ∈ a) with _ | ⟨o, rest⟩ <;> rw [hd] at hnew
        · obtain ⟨ex, rest, hex, herr⟩ := hnew
          rw [herr]
          exact Or.inr ⟨by unfold runFrom; rw [Asking.run, hd], ex, rfl, hex⟩
        · have h : RunsAs k (a ++ [o]) _ ((next o).visit sv cs p (a.length + 1) ((S ++ [o :: rest]) ++ lists.tail)) :=
            run_asking (next o) lists.tail k (hS.snoc (head_dropWhile_used hd) rest) (by simp)
          rw [List.append_assoc, List.singleton_append] at h
          dsimp only
          rw [hnew, runFrom_snoc hd]
          dsimp only
          rcases hr : (next o).visit sv cs p (a.length + 1) (S ++ (o :: rest) :: lists.tail)
            with ⟨rs, _ | ex, L⟩ <;> rw [hr] at h
          · obtain ⟨S', a', rest', hL, hS', haa', hrun⟩ := h
            exact ⟨S', a', rest', hL, hS', (List.prefix_append _ _).trans haa', hrun⟩
          · exact h

/-- The states one after the other. -/
def visitAll (sv : Solver F V) : List (List F × Spec F O) → List (List O) → List (List (List F)) →
    Runs (List (List F)) O
  | [], lists, results => ⟨results, none, lists⟩
  | (state, func) :: stateData, lists, results =>
    let r := func.visit sv state [] 0 lists
    match r.raised with
    | some ex => ⟨results ++ [r.results], some ex, r.choices⟩
    | none => visitAll sv stateData r.choices (results ++ [r.results])

/-- The loops for all states come to their end. -/
theorem exploreAll_eq : ∀ (stateData : List (List F × Spec F O)) (lists : List (List O))
    (results : List (List (List F))),
    ∃ N, ∀ n, N ≤ n → exploreAll sv n stateData lists results = some (visitAll sv stateData lists results)
  | [], lists, results => ⟨0, fun _ _ => rfl⟩
  | (state, func) :: stateData, lists, results => by
    obtain ⟨N, hN⟩ : Explores sv state func [] lists [] _ := explores_root state func lists
    obtain ⟨N', hN'⟩ := exploreAll_eq stateData (func.visit sv state [] 0 lists).choices
      (results ++ [(func.visit sv state [] 0 lists).results])
    refine ⟨max N N', fun n hn => ?_⟩
    rw [exploreAll, hN n ((le_max_left _ _).trans hn), visitAll]
    dsimp only
    cases hr : (func.visit sv state [] 0 lists).raised with
    | none => exact hN' n ((le_max_right _ _).trans hn)
    | some ex => rfl

theorem run_askingAll : ∀ (stateData : List (List F × Spec F O)) {S : List (List O)} {a : List O}
    (lists : List (List O)) (results : List (List (List F))), Settled S a →
    SameRound (runFrom (askingAll sv stateData a) a S lists) (visitAll sv stateData (S ++ lists) results).raised
      (visitAll sv stateData (S ++ lists) results).choices
  | [], S, a, lists, results, hS => Or.inl rfl
  | (state, func) :: stateData, S, a, lists, results, hS => by
    have h : RunsAs _ a _ (func.visit sv state [] 0 (S ++ lists)) :=
      run_asking func lists (askingAll sv stateData) hS (Nat.zero_le _)
    rw [visitAll, askingAll]
    rcases hr : func.visit sv state [] 0 (S ++ lists) with ⟨rs, _ | ex, L⟩ <;> rw [hr] at h
    · obtain ⟨S', a', rest, rfl, hS', -, hrun⟩ := h
      rw [hrun]
      exact run_askingAll stateData rest (results ++ [rs]) hS'
    · exact h

/-! ### The rounds are a search -/

/-- What ends the search: success, or an exception that is built in. -/
def stops : Option Exn → Bool
  | none => true
  | some ex => ex.isBuiltin

omit [DecidableEq O] in
theorem nextChoices_eq_advance (lists : List (List O)) : nextChoices lists = Asking.advance lists := by
  induction lists using List.reverseRecOn with
  | nil => rfl
  | append_singleton S l ih =>
    rw [Asking.advance_append_singleton, ← ih]
    unfold nextChoices
    by_cases h : l.length = 1
    · rw [if_pos h, List.rdropWhile_concat_pos _ _ _ (by simpa using h)]
    · rw [if_neg h, List.rdropWhile_concat_neg _ _ _ (by simpa using h)]
      simp

/-- The result of `_symbex` for an outcome of the search. -/
def IsResult (out : Asking.Outcome O (Option Exn)) (res : Except Exn (List O × List (List (List F)))) : Prop :=
  match out with
  | .found none answers => ∃ results, res = .ok (answers, results)
  | .found (some ex) _ => res = .error ex
  | .emptied => ∃ ex, res = .error ex
  | .exhausted r => ∃ ex, r = some ex ∧ res = .error ex

theorem symbexFrom_of_search (stateData : List (List F × Spec F O)) : ∀ (m : ℕ) (lists : List (List O))
    {out : Asking.Outcome O (Option Exn)}, (askingAll sv stateData []).search stops m lists = some out →
    ∃ res, IsResult out res ∧ ∃ N, ∀ fuel n, N ≤ fuel → N ≤ n → symbexFrom sv stateData fuel n lists = some res
  | 0, _, _, h => by cases h
  | m + 1, lists, out, h => by
    obtain ⟨N, hN⟩ : ∃ N, ∀ n, N ≤ n → _ = some (visitAll sv stateData lists []) := exploreAll_eq stateData lists []
    have hround : SameRound _ (visitAll sv stateData ([] ++ lists) []).raised _ :=
      run_askingAll stateData lists [] Settled.nil
    rw [List.nil_append] at hround
    -- one round, of which enough fuel tells the end
    have hstep : ∀ {res}, (∃ N', ∀ fuel n, N ≤ fuel → N' ≤ fuel → N' ≤ n →
        symbexFrom sv stateData fuel (n + 1) lists = some res) →
        ∃ N, ∀ fuel n, N ≤ fuel → N ≤ n → symbexFrom sv stateData fuel n lists = some res := by
      rintro res ⟨N', hN'⟩
      refine ⟨max N N' + 1, fun fuel n hf hn => ?_⟩
      obtain ⟨n, rfl⟩ : ∃ m, n = m + 1 := ⟨n - 1, by omega⟩
      exact hN' fuel n (by omega) (by omega) (by omega)
    rcases hv : visitAll sv stateData lists [] with ⟨results, raised, choices⟩
    rw [hv] at hround hN
    unfold Asking.search at h
    rcases hround with hrun | ⟨hrun, ex, rfl, hex⟩
    · have hrun' : (askingAll sv stateData []).run [] lists = (some raised, choices) := hrun
      rw [hrun'] at h
      dsimp only at h
      cases raised with
      | none =>
        rw [if_pos (show stops none = true from rfl), Option.some.injEq] at h
        subst h
        exact ⟨.ok (choices.filterMap List.head?, results), ⟨results, rfl⟩, hstep ⟨0, fun fuel n hf _ _ => by
          rw [symbexFrom, hN fuel hf]⟩⟩
      | some ex =>
        by_cases hex : ex.isBuiltin = true
        · rw [if_pos (show stops (some ex) = true from hex), Option.some.injEq] at h
          subst h
          exact ⟨.error ex, rfl, hstep ⟨0, fun fuel n hf _ _ => by
            rw [symbexFrom, hN fuel hf]
            simp only [if_pos hex]⟩⟩
        · rw [if_neg (show ¬stops (some ex) = true from hex)] at h
          cases hadv : Asking.advance choices with
          | none =>
            rw [hadv] at h
            cases h
            exact ⟨.error ex, ⟨ex, rfl, rfl⟩, hstep ⟨0, fun fuel n hf _ _ => by
              rw [symbexFrom, hN fuel hf]
              simp only [if_neg hex, nextChoices_eq_advance, hadv]⟩⟩
          | some lists' =>
            rw [hadv] at h
            obtain ⟨res, hres, N', hN'⟩ := symbexFrom_of_search stateData m lists' h
            exact ⟨res, hres, hstep ⟨N', fun fuel n hf hf' hn => by
              rw [symbexFrom, hN fuel hf]
              simp only [if_neg hex, nextChoices_eq_advance, hadv]
              exact hN' fuel n hf' hn⟩⟩
    · have hrun' : ((askingAll sv stateData []).run [] lists).1 = none := hrun
      rcases hr : (askingAll sv stateData []).run [] lists with ⟨x, ls⟩
      rw [hr] at hrun' h
      obtain rfl : x = none := hrun'
      cases h
      exact ⟨.error ex, ⟨ex, rfl⟩, hstep ⟨0, fun fuel n hf _ _ => by
        rw [symbexFrom, hN fuel hf]
        simp only [if_pos hex]⟩⟩

theorem Symbexes.unique {stateData : List (List F × Spec F O)} {out out' : Except Exn (List O × List (List (List F)))}
    (h : Symbexes sv stateData out) (h' : Symbexes sv stateData out') : out = out' := by
  obtain ⟨N, hN⟩ := h
  obtain ⟨N', hN'⟩ := h'
  have := (hN (max N N') (le_max_left _ _)).symm.trans (hN' (max N N') (le_max_right _ _))
  exact Option.some.inj this

/-- `_symbex` ends as the traversal does. -/
theorem symbexes_dfs (stateData : List (List F × Spec F O)) :
    ∃ res, IsResult ((askingAll sv stateData []).dfs stops []) res ∧ Symbexes sv stateData res := by
  obtain ⟨M, hM⟩ := Asking.search_eq_dfs stops (askingAll sv stateData [])
  obtain ⟨res, hres, N, hN⟩ := symbexFrom_of_search stateData M [] (hM M le_rfl)
  exact ⟨res, hres, N, fun n hn => hN n n hn hn⟩

theorem goesOn_iff {stateData : List (List F × Spec F O)} {p : List O} :
    Asking.GoesOn stops [] (attempt sv stateData) p ↔ Backtracks sv stateData p := by
  unfold Asking.GoesOn Backtracks
  rcases attempt sv stateData p with r | choices
  · cases r with
    | none => exact ⟨fun h => (by cases h), False.elim⟩
    | some ex => exact Iff.rfl
  · exact Iff.rfl

/-! ### Completeness -/

/-- What a search that finds something says of the choices before. -/
theorem good_of_found {stateData : List (List F × Spec F O)} {r : Option Exn} {answers : List O}
    (h : (askingAll sv stateData []).dfs stops [] = .found r answers) :
    Asking.Offered [] (attempt sv stateData) answers ∧ attempt sv stateData answers = .ends r ∧
      ∀ p, Asking.Offered [] (attempt sv stateData) p → Asking.Precedes (attempt sv stateData) p answers →
        Backtracks sv stateData p := by
  obtain ⟨as, has, hoff, hends, -, hbefore⟩ := Asking.dfs_eq_found _ h
  rw [attempt_eq_eventAt] at hoff hends hbefore
  rw [List.nil_append] at has
  subst has
  exact ⟨hoff, hends, fun p hp hprec => goesOn_iff.mp (hbefore p hp hprec)⟩

/-- What is good and has only choices before it that make the search go on is found. -/
theorem found_of_good {stateData : List (List F × Spec F O)} {answers : List O} (h : Good sv stateData answers)
    (hbefore : ∀ p, Asking.Offered [] (attempt sv stateData) p → Asking.Precedes (attempt sv stateData) p answers →
      Backtracks sv stateData p) : (askingAll sv stateData []).dfs stops [] = .found none answers := by
  have hoff : Asking.Offered [] (askingAll sv stateData []).eventAt answers := by
    rw [attempt_eq_eventAt]
    exact h.1
  have hends : (askingAll sv stateData []).eventAt answers = .ends none := by
    rw [attempt_eq_eventAt]
    exact attempt_eq_returned.mpr h.2
  have := Asking.dfs_of_first _ hoff hends (show stops none = true from rfl) fun p hp hprec => by
    rw [attempt_eq_eventAt] at hp hprec ⊢
    exact goesOn_iff.mpr (hbefore p hp hprec)
  rwa [List.nil_append] at this

/-- The search finds a good assignment if there is one, and otherwise raises, exactly when there is
none, or when there is one before which every choice that is tried makes the search go on. -/
theorem symbex_finds_iff (sv : Solver F V) (stateData : List (List F × Spec F O)) :
    (((∃ a, Good sv stateData a) → ∃ a, Good sv stateData a ∧ Returns sv stateData a) ∧
        ((¬∃ a, Good sv stateData a) → Raises sv stateData)) ↔
      ((∃ a, Good sv stateData a) → ∃ a, Good sv stateData a ∧
        ∀ p, Asking.Offered [] (attempt sv stateData) p → Asking.Precedes (attempt sv stateData) p a →
          Backtracks sv stateData p) := by
  obtain ⟨res, hres, hsym⟩ : ∃ res, _ ∧ Symbexes sv stateData res := symbexes_dfs stateData
  constructor
  · intro hP hgood
    obtain ⟨a, ha, results, hret⟩ := hP.1 hgood
    obtain rfl := hsym.unique hret
    refine ⟨a, ha, ?_⟩
    -- only a search that finds has this result
    rcases hd : (askingAll sv stateData []).dfs stops [] with ⟨_ | ex, answers⟩ | _ | r <;> rw [hd] at hres
    · obtain ⟨results', heq⟩ := hres
      cases heq
      exact (good_of_found hd).2.2
    · cases hres
    · obtain ⟨ex, heq⟩ := hres
      cases heq
    · obtain ⟨ex, -, heq⟩ := hres
      cases heq
  · intro hcond
    refine ⟨fun hgood => ?_, fun hnone => ?_⟩
    · obtain ⟨a, ha, hbefore⟩ := hcond hgood
      rw [found_of_good ha hbefore] at hres
      obtain ⟨results, rfl⟩ := hres
      exact ⟨a, ha, results, hsym⟩
    · rcases hd : (askingAll sv stateData []).dfs stops [] with ⟨_ | ex, answers⟩ | _ | r <;> rw [hd] at hres
      · obtain ⟨hoff, hends, -⟩ := good_of_found hd
        exact absurd ⟨answers, hoff, attempt_eq_returned.mp hends⟩ hnone
      · exact ⟨ex, hres ▸ hsym⟩
      · obtain ⟨ex, rfl⟩ := hres
        exact ⟨ex, hsym⟩
      · obtain ⟨ex, -, rfl⟩ := hres
        exact ⟨ex, hsym⟩

/-- A choice that a failed `assert` rules out: of the maps 3 and 4 only the second will do. -/
def assertSecond : List (List (Bool → Bool) × Spec (Bool → Bool) ℕ) :=
  [([], .choose [3, 4] fun o => if o = 4 then .ret else .raise .assertionError)]

/-- Two calls, of which the second has only the candidate that the first one tries first. -/
def sharedCandidate : List (List (Bool → Bool) × Spec (Bool → Bool) ℕ) :=
  [([], .choose [3, 4] fun _ => .choose [3] fun _ => .ret)]

/-- In both cases there is a good assignment, and the search raises. -/
theorem not_symbex_finds :
    ¬(((∃ a, Good oneBool assertSecond a) → ∃ a, Good oneBool assertSecond a ∧ Returns oneBool assertSecond a) ∧
        ((¬∃ a, Good oneBool assertSecond a) → Raises oneBool assertSecond)) ∧
      ¬(((∃ a, Good oneBool sharedCandidate a) →
          ∃ a, Good oneBool sharedCandidate a ∧ Returns oneBool sharedCandidate a) ∧
        ((¬∃ a, Good oneBool sharedCandidate a) → Raises oneBool sharedCandidate)) := by
  refine ⟨fun h => ?_, fun h => ?_⟩
  · have hgood : Good oneBool assertSecond [4] := by
      refine ⟨fun p a s hp => ?_, by decide⟩
      rcases p with _ | ⟨x, p⟩
      · cases hp
        exact ⟨[3, 4], rfl, by decide, by decide⟩
      · simp at hp
    obtain ⟨a, -, results, hret⟩ := h.1 ⟨_, hgood⟩
    have hraise : Symbexes oneBool assertSecond (.error .assertionError) := ⟨1, fun n hn => by
      obtain ⟨n, rfl⟩ : ∃ m, n = m + 1 := ⟨n - 1, by omega⟩
      rfl⟩
    cases hraise.unique hret
  · have hgood : Good oneBool sharedCandidate [4, 3] := by
      refine ⟨fun p a s hp => ?_, by decide⟩
      rcases p with _ | ⟨x, _ | ⟨y, p⟩⟩
      · cases hp
        exact ⟨[3, 4], rfl, by decide, by decide⟩
      · cases hp
        exact ⟨[3], rfl, by decide, by decide⟩
      · simp at hp
    obtain ⟨a, -, results, hret⟩ := h.1 ⟨_, hgood⟩
    have hraise : Symbexes oneBool sharedCandidate (.error .indexError) := ⟨1, fun n hn => by
      obtain ⟨n, rfl⟩ : ∃ m, n = m + 1 := ⟨n - 1, by omega⟩
      rfl⟩
    cases hraise.unique hret

end Symbex
end Tool
end Klint
