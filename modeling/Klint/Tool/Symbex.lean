/-
# Symbolic execution of specifications

`verif/symbex.py`, `ValueProxy.__bool__` and `choose`: a specification is run again
and again. A run tests conditions; where both outcomes are possible it takes the one
that the list of branches says, or the true one, which it adds to the list. The last
true branch of the list is then made false for the next run. The choices are lists as
well, of which the first item is used; a run that raises makes the search change the
last choice, unless the exception is a built-in one.

A specification is a tree: what it does next depends on the outcomes of its tests and
on the choices so far, and on nothing else. Formulas and valuations are parameters, and
so is the solver. A loop of the source is a function with fuel, which has no result
when the fuel does not last.
-/
import Mathlib.Data.List.DropRight
import Klint.Lib.Asking

namespace Klint
namespace Tool
namespace Symbex

/-! ### Specifications -/

/-- Exceptions. The engine itself raises `AssertionError` and `IndexError`; `builtin` stands for
the other built-in ones, `simUnsat` for the solver's, `custom` for those that other modules define. -/
inductive Exn
  | assertionError
  | indexError
  | builtin
  | simUnsat
  | custom
deriving DecidableEq, Repr

/-- `ex.__class__.__module__ == 'builtins'` -/
def Exn.isBuiltin : Exn → Bool
  | assertionError => true
  | indexError => true
  | builtin => true
  | simUnsat => false
  | custom => false

/-- Claripy's formulas and the state's solver. -/
structure Solver (F V : Type) where
  /-- `~f` -/
  neg : F → F
  eval : V → F → Bool
  eval_neg : ∀ v f, eval v (neg f) = !eval v f
  /-- `eval_upto(ast, n, extra_constraints)`, of a solver with the given constraints. -/
  evalUpto : List F → F → ℕ → List F → Except Exn (List Bool)

/-- A specification that runs on a state: it returns or raises, asks for the truth of a condition,
adds a constraint to the state, or calls `choose`. -/
inductive Spec (F O : Type)
  | ret
  | raise (ex : Exn)
  | test (value : F) (next : Bool → Spec F O)
  | add (constraint : F) (next : Spec F O)
  | choose (choices : List O) (next : O → Spec F O)

variable {F V O : Type} [DecidableEq O] (sv : Solver F V)

/-! ### One run -/

/-- `SymbexData`, `constraints` are those of its state. -/
structure SymbexData (F O : Type) where
  branches : List (F × Bool)
  branchIndex : ℕ
  choices : List (List O)
  choiceIndex : ℕ
  constraints : List F

/-- `f if b else ~f` -/
def Solver.literal (b : F × Bool) : F := if b.2 then b.1 else sv.neg b.1

/-- `[f if b else ~f for (f, b) in branches]` -/
def Solver.conditions (branches : List (F × Bool)) : List F := branches.map sv.literal

/-- `ValueProxy.__bool__` -/
def SymbexData.bool (symbex : SymbexData F O) (value : F) : Except Exn Bool × SymbexData F O :=
  match sv.evalUpto symbex.constraints value 3 (sv.conditions (symbex.branches.take symbex.branchIndex)) with
  | .error ex => (.error ex, symbex)
  | .ok [outcome] => (.ok outcome, symbex)
  | .ok [_, _] =>
    let branches :=
      if symbex.branchIndex = symbex.branches.length then symbex.branches ++ [(value, true)] else symbex.branches
    let result := (branches.getD symbex.branchIndex (value, true)).2
    (.ok result, { symbex with
      branches
      branchIndex := symbex.branchIndex + 1
      constraints := symbex.constraints ++ [sv.literal (value, result)] })
  | .ok _ => (.error .assertionError, symbex)

/-- `while any(cs[0] is choices[choice_index][0] …): choices[choice_index].pop(0)` -/
def dismissDupes (earlier : List (List O)) (choices : List O) : List O :=
  choices.dropWhile fun c => earlier.any fun cs => cs.head? == some c

/-- What `choose` does to the lists of choices: it adds its candidates if it is the first to get
this far, and takes those out that an earlier call uses. -/
def chooseAt (lists : List (List O)) (index : ℕ) (choices : List O) : Except Exn O × List (List O) :=
  if choices = [] then (.error .assertionError, lists)
  else if index ≠ lists.length ∧ choices.zip (lists.getD index []) = [] then (.error .assertionError, lists)
  else
    let lists := if index = lists.length then lists ++ [choices] else lists
    match dismissDupes (lists.take index) (lists.getD index []) with
    | [] => (.error .indexError, lists.set index [])
    | result :: rest => (.ok result, lists.set index (result :: rest))

/-- `choose` -/
def SymbexData.choose (symbex : SymbexData F O) (choices : List O) : Except Exn O × SymbexData F O :=
  match chooseAt symbex.choices symbex.choiceIndex choices with
  | (.error ex, lists) => (.error ex, { symbex with choices := lists })
  | (.ok result, lists) => (.ok result, { symbex with choices := lists, choiceIndex := symbex.choiceIndex + 1 })

/-- `func()`: the exception that it raises, if any. -/
def Spec.run : Spec F O → SymbexData F O → Option Exn × SymbexData F O
  | .ret, symbex => (none, symbex)
  | .raise ex, symbex => (some ex, symbex)
  | .test value next, symbex =>
    match symbex.bool sv value with
    | (.error ex, symbex) => (some ex, symbex)
    | (.ok b, symbex) => (next b).run symbex
  | .add constraint next, symbex => next.run { symbex with constraints := symbex.constraints ++ [constraint] }
  | .choose choices next, symbex =>
    match symbex.choose choices with
    | (.error ex, symbex) => (some ex, symbex)
    | (.ok o, symbex) => (next o).run symbex

/-- `_symbex_one`, on a copy of the state. -/
def symbexOne (state : List F) (func : Spec F O) (branches : List (F × Bool)) (choices : List (List O)) :
    Option Exn × SymbexData F O :=
  func.run sv { branches, branchIndex := 0, choices, choiceIndex := 0, constraints := state }

/-! ### The loops -/

/-- The branches for the next run: those that were fully explored are pruned, and the last one left
is flipped. -/
def nextBranches (branches : List (F × Bool)) : Option (List (F × Bool)) :=
  match (branches.rdropWhile fun b => !b.2).getLast? with
  | none => none
  | some b => some ((branches.rdropWhile fun b => !b.2).dropLast ++ [(b.1, false)])

/-- The same for the choices, of which the last one loses its first item. -/
def nextChoices (choices : List (List O)) : Option (List (List O)) :=
  match (choices.rdropWhile fun cs => decide (cs.length = 1)).getLast? with
  | none => none
  | some cs => some ((choices.rdropWhile fun cs => decide (cs.length = 1)).dropLast ++ [cs.tail])

/-- Runs of one state or of all: what was recorded of each, the exception that ended them, and the
choices then. -/
structure Runs (α O : Type) where
  results : List α
  raised : Option Exn
  choices : List (List O)

/-- The inner `while True`. The conditions that the run which raised recorded are the last result. -/
def explore (state : List F) (func : Spec F O) : ℕ → List (F × Bool) → List (List O) → List (List F) →
    Option (Runs (List F) O)
  | 0, _, _, _ => none
  | fuel + 1, branches, choices, results =>
    match symbexOne sv state func branches choices with
    | (some ex, symbex) => some ⟨results ++ [sv.conditions symbex.branches], some ex, symbex.choices⟩
    | (none, symbex) =>
      match nextBranches symbex.branches with
      | none => some ⟨results ++ [sv.conditions symbex.branches], none, symbex.choices⟩
      | some branches => explore state func fuel branches symbex.choices (results ++ [sv.conditions symbex.branches])

/-- `for (state, func) in state_data` -/
def exploreAll (fuel : ℕ) : List (List F × Spec F O) → List (List O) → List (List (List F)) →
    Option (Runs (List (List F)) O)
  | [], choices, results => some ⟨results, none, choices⟩
  | (state, func) :: stateData, choices, results =>
    match explore sv state func fuel [] choices [] with
    | none => none
    | some r =>
      match r.raised with
      | some ex => some ⟨results ++ [r.results], some ex, r.choices⟩
      | none => exploreAll fuel stateData r.choices (results ++ [r.results])

/-- The outer `while True`. A run that returns leaves no empty list of choices. -/
def symbexFrom (stateData : List (List F × Spec F O)) (fuel : ℕ) : ℕ → List (List O) →
    Option (Except Exn (List O × List (List (List F))))
  | 0, _ => none
  | n + 1, choices =>
    match exploreAll sv fuel stateData choices [] with
    | none => none
    | some ⟨results, none, choices⟩ => some (.ok (choices.filterMap List.head?, results))
    | some ⟨_, some ex, choices⟩ =>
      if ex.isBuiltin then some (.error ex)
      else match nextChoices choices with
        | none => some (.error ex)
        | some choices => symbexFrom stateData fuel n choices

/-- `_symbex` -/
def symbex (stateData : List (List F × Spec F O)) (fuel : ℕ) :
    Option (Except Exn (List O × List (List (List F)))) :=
  symbexFrom sv stateData fuel fuel []

end Symbex
end Tool
end Klint
