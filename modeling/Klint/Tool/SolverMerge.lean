/-
# Merging solvers

`KalmSolver.merge` of `tool/kalm/solver.py`, and the merge conditions that `merge_states` of
`tool/kalm/merging.py` gives it. What all solvers begin with is kept as it is and the rest of each
is guarded by its condition. Constraints are compared by identity, so the solver holds references;
the frontend below `KalmSolver` is a parameter, of which it is used that adding a constraint adds
this constraint.
-/
import Klint.Tool.Claripy
import Mathlib.Data.Nat.Log

namespace Klint
namespace Tool

/-! ### The merge -/

/-- The frontend of `KalmSolver`. -/
structure Frontend where
  Solver : Type
  /-- References to terms, which `is` compares. -/
  Constraint : Type
  [decEq : DecidableEq Constraint]
  ast : Constraint → BoolAst
  constraints : Solver → List Constraint
  blankCopy : Solver → Solver
  add : Solver → BoolAst → Solver
  holds_blankCopy : ∀ ι s, ∀ c ∈ constraints (blankCopy s), (ast c).eval ι = true
  holds_add : ∀ ι s e, (∀ c ∈ constraints (add s e), (ast c).eval ι = true) ↔
    (∀ c ∈ constraints s, (ast c).eval ι = true) ∧ e.eval ι = true

namespace Frontend

instance (fr : Frontend) : DecidableEq fr.Constraint := fr.decEq

variable (fr : Frontend) (cl : Claripy)

/-- `claripy.Or(*l)` -/
def disj : List BoolAst → BoolAst
  | [] => .boolV false
  | a :: l => cl.or a (disj l)

/-- The first loop, with the number of indexes it has left: the solver and `divergence_index`. -/
def commonLoop (own : List fr.Constraint) (others : List (List fr.Constraint)) :
    ℕ → ℕ → fr.Solver → fr.Solver × ℕ
  | 0, divergenceIndex, merged => (merged, divergenceIndex)
  | left + 1, divergenceIndex, merged =>
    match own[divergenceIndex]? with
    | none => (merged, divergenceIndex)
    | some c =>
      if others.all fun s => s[divergenceIndex]? = some c then
        commonLoop own others left (divergenceIndex + 1) (fr.add merged (fr.ast c))
      else (merged, divergenceIndex)

/-- The rest of one solver: `merged.add(~cond | extra)`. -/
def addGuarded (cond : BoolAst) (extras : List fr.Constraint) (merged : fr.Solver) : fr.Solver :=
  extras.foldl (fun merged extra => fr.add merged (cl.or (cl.not cond) (fr.ast extra))) merged

/-- `KalmSolver.merge`: without others, `min` of one number raises. -/
def merge (self : fr.Solver) (others : List fr.Solver) (mergeConditions : List BoolAst) : Option fr.Solver :=
  if others = [] then none
  else
    let own := fr.constraints self
    let minLength := (others.map fun s => (fr.constraints s).length).foldl min own.length
    let (merged, divergenceIndex) := fr.commonLoop own (others.map fr.constraints) minLength 0 (fr.blankCopy self)
    let merged := ((self :: others).zip mergeConditions).foldl
      (fun merged p => fr.addGuarded cl p.2 ((fr.constraints p.1).drop divergenceIndex) merged) merged
    some (fr.add merged (disj cl mergeConditions))

/-- All constraints of the solver hold. -/
def Holds (ι : Env) (s : fr.Solver) : Prop := ∀ c ∈ fr.constraints s, (fr.ast c).eval ι = true

/-! ### What it means -/

variable {fr cl} {ι : Env}

@[simp] theorem holds_blank (s : fr.Solver) : fr.Holds ι (fr.blankCopy s) := fr.holds_blankCopy ι s

@[simp] theorem holds_add_iff (s : fr.Solver) (e : BoolAst) :
    fr.Holds ι (fr.add s e) ↔ fr.Holds ι s ∧ e.eval ι = true := fr.holds_add ι s e

theorem eval_disj (l : List BoolAst) : (disj cl l).eval ι = true ↔ ∃ a ∈ l, a.eval ι = true := by
  induction l with
  | nil => simp [disj]
  | cons a l ih =>
    rw [disj, Claripy.eval_or, Bool.or_eq_true, ih, List.exists_mem_cons_iff]

/-- The first loop: the merged solver has what all solvers have before the index. -/
theorem commonLoop_spec {own : List fr.Constraint} {others : List (List fr.Constraint)} :
    ∀ (left i : ℕ) (merged : fr.Solver), (∀ s ∈ others, s.take i = own.take i) →
    (fr.Holds ι merged ↔ ∀ c ∈ own.take i, (fr.ast c).eval ι = true) →
    (∀ s ∈ others, s.take (fr.commonLoop own others left i merged).2 =
        own.take (fr.commonLoop own others left i merged).2) ∧
      (fr.Holds ι (fr.commonLoop own others left i merged).1 ↔
        ∀ c ∈ own.take (fr.commonLoop own others left i merged).2, (fr.ast c).eval ι = true)
  | 0, _, _, hi, hm => ⟨hi, hm⟩
  | left + 1, i, merged, hi, hm => by
    unfold commonLoop
    split
    · exact ⟨hi, hm⟩
    · next c hc =>
      split
      · next hall =>
        apply commonLoop_spec left (i + 1)
        · intro s hs
          have hsc : s[i]? = some c := of_decide_eq_true (List.all_eq_true.mp hall s hs)
          rw [List.take_add_one, List.take_add_one, hi s hs, hsc, hc]
        · rw [holds_add_iff, hm, List.take_add_one, hc]
          simp [or_imp, forall_and]
      · exact ⟨hi, hm⟩

theorem holds_addGuarded (cond : BoolAst) (extras : List fr.Constraint) : ∀ merged : fr.Solver,
    fr.Holds ι (fr.addGuarded cl cond extras merged) ↔
      fr.Holds ι merged ∧ (cond.eval ι = true → ∀ c ∈ extras, (fr.ast c).eval ι = true) := by
  unfold addGuarded
  induction extras with
  | nil => simp
  | cons c extras ih =>
    intro merged
    rw [List.foldl_cons, ih, holds_add_iff, Claripy.eval_or, Claripy.eval_not, List.forall_mem_cons]
    cases cond.eval ι <;> simp [and_assoc]

/-- The second loop. -/
theorem holds_guarded (i : ℕ) (pairs : List (fr.Solver × BoolAst)) : ∀ merged : fr.Solver,
    fr.Holds ι (pairs.foldl (fun merged p => fr.addGuarded cl p.2 ((fr.constraints p.1).drop i) merged) merged) ↔
      fr.Holds ι merged ∧ ∀ p ∈ pairs, p.2.eval ι = true → ∀ c ∈ (fr.constraints p.1).drop i,
        (fr.ast c).eval ι = true := by
  induction pairs with
  | nil => simp
  | cons p pairs ih =>
    intro merged
    rw [List.foldl_cons, ih, holds_addGuarded, List.forall_mem_cons, and_assoc]

/-- A solver is its common part and the rest. -/
theorem holds_split {own : List fr.Constraint} {s : fr.Solver} {i : ℕ}
    (h : (fr.constraints s).take i = own.take i) : fr.Holds ι s ↔
      (∀ c ∈ own.take i, (fr.ast c).eval ι = true) ∧ ∀ c ∈ (fr.constraints s).drop i, (fr.ast c).eval ι = true := by
  rw [← h, ← List.forall_mem_append, List.take_append_drop]
  rfl

/-- At most one of the conditions holds. -/
def Exclusive (conds : List BoolAst) : Prop :=
  ∀ ι : Env, conds.Pairwise fun a b => ¬ (a.eval ι = true ∧ b.eval ι = true)

/-- Where conditions are exclusive, only one solver goes with one that holds. -/
theorem Exclusive.unique {conds : List BoolAst} (hex : Exclusive conds) {solvers : List fr.Solver} {i j : ℕ}
    {p q : fr.Solver × BoolAst} (hp : (solvers.zip conds)[i]? = some p) (hq : (solvers.zip conds)[j]? = some q)
    (hpi : p.2.eval ι = true) (hqj : q.2.eval ι = true) : p = q := by
  have hpair := (List.pairwise_iff_getElem.mp (hex ι))
  rw [List.getElem?_zip_eq_some] at hp hq
  obtain ⟨hi, hi'⟩ := List.getElem?_eq_some_iff.mp hp.2
  obtain ⟨hj, hj'⟩ := List.getElem?_eq_some_iff.mp hq.2
  rcases lt_trichotomy i j with hlt | heq | hgt
  · exact absurd ⟨by rwa [hi'], by rwa [hj']⟩ (hpair i j hi hj hlt)
  · subst heq
    exact Prod.ext (Option.some.inj (hp.1.symm.trans hq.1)) (Option.some.inj (hp.2.symm.trans hq.2))
  · exact absurd ⟨by rwa [hj'], by rwa [hi']⟩ (hpair j i hj hi hgt)

/-- **Merging solvers.** There is a merged solver when there is another solver, and it holds
exactly where one of the conditions does together with its solver. -/
theorem merge_exact (fr : Frontend) (cl : Claripy) (self : fr.Solver) (others : List fr.Solver)
    (conds : List BoolAst) (hlen : conds.length = others.length + 1) (hex : Exclusive conds) :
    (others ≠ [] → ∃ merged, fr.merge cl self others conds = some merged) ∧
    ∀ merged, fr.merge cl self others conds = some merged → ∀ ι, (fr.Holds ι merged ↔
      ∃ (k : ℕ) (s : fr.Solver) (cond : BoolAst), (self :: others)[k]? = some s ∧ conds[k]? = some cond ∧
        cond.eval ι = true ∧ fr.Holds ι s) := by
  refine ⟨fun hne => ⟨_, if_neg hne⟩, fun merged hm ι => ?_⟩
  unfold merge at hm
  split_ifs at hm
  obtain ⟨hsame, hcommon⟩ := @commonLoop_spec fr ι (fr.constraints self) (others.map fr.constraints)
    ((others.map fun s => (fr.constraints s).length).foldl min (fr.constraints self).length) 0 (fr.blankCopy self)
    (fun s _ => rfl) (by simp)
  set found := fr.commonLoop (fr.constraints self) (others.map fr.constraints)
    ((others.map fun s => (fr.constraints s).length).foldl min (fr.constraints self).length) 0 (fr.blankCopy self)
  have hparts : ∀ s ∈ self :: others, (fr.constraints s).take found.2 = (fr.constraints self).take found.2 :=
    List.forall_mem_cons.mpr ⟨rfl, fun s hs => hsame _ (List.mem_map_of_mem hs)⟩
  cases Option.some.inj hm
  rw [holds_add_iff, holds_guarded, hcommon, eval_disj]
  constructor
  · rintro ⟨⟨hstart, hrest⟩, cond, hcond, hholds⟩
    obtain ⟨k, hk, hkc⟩ := List.mem_iff_getElem.mp hcond
    have hks : k < (self :: others).length := by
      rw [List.length_cons]
      omega
    have hzip : ((self :: others)[k], cond) ∈ (self :: others).zip conds := by
      rw [List.mem_iff_getElem]
      exact ⟨k, by rw [List.length_zip]; omega, by rw [List.getElem_zip, hkc]⟩
    refine ⟨k, _, cond, List.getElem?_eq_getElem hks, by rw [List.getElem?_eq_getElem hk, hkc], hholds, ?_⟩
    exact (holds_split (hparts _ (List.getElem_mem hks))).mpr ⟨hstart, hrest _ hzip hholds⟩
  · rintro ⟨k, s, cond, hs, hcond, hholds, hsolver⟩
    have hpart := (holds_split (hparts s (List.mem_of_getElem? hs))).mp hsolver
    refine ⟨⟨hpart.1, fun p hp hpc => ?_⟩, cond, List.mem_of_getElem? hcond, hholds⟩
    obtain ⟨j, hj⟩ := List.mem_iff_getElem?.mp hp
    have hk : ((self :: others).zip conds)[k]? = some (s, cond) := List.getElem?_zip_eq_some.mpr ⟨hs, hcond⟩
    rw [hex.unique hj hk hpc hholds]
    exact hpart.2

/-- A frontend that keeps the constraints as they are. -/
def listing : Frontend where
  Solver := List BoolAst
  Constraint := BoolAst
  ast := id
  constraints := id
  blankCopy _ := []
  add s e := s ++ [e]
  holds_blankCopy _ _ _ hc := absurd hc List.not_mem_nil
  holds_add ι s e := by simp [or_imp, forall_and]

/-- Two solvers that begin with the same constraint, merged under the two values of a symbol. -/
theorem merge_exact_two : ∃ merged : List BoolAst,
    listing.merge plain [.boolS (.sym 0), .boolS (.sym 1)] [[.boolS (.sym 0), .not (.boolS (.sym 1))]]
      [.boolS (.sym 2), .not (.boolS (.sym 2))] = some merged ∧
    merged.length = 4 ∧ ∀ ι, (listing.Holds ι merged ↔
      ∃ (k : ℕ) (s : List BoolAst) (cond : BoolAst),
        [[.boolS (.sym 0), .boolS (.sym 1)], [.boolS (.sym 0), .not (.boolS (.sym 1))]][k]? = some s ∧
        [BoolAst.boolS (.sym 2), .not (.boolS (.sym 2))][k]? = some cond ∧ cond.eval ι = true ∧ listing.Holds ι s) := by
  have hex : Exclusive [.boolS (.sym 2), .not (.boolS (.sym 2))] := fun ι => by simp [BoolAst.eval]
  exact ⟨_, rfl, rfl, (merge_exact listing plain _ _ _ rfl hex).2 _ rfl⟩

/-! ### The conditions of `merge_states` -/

/-- `merge_flag == n`, for a flag of as many bits as the number of states needs. -/
def mergeConds (cl : Claripy) (flag count : ℕ) : List BoolAst :=
  let mergeFlag : BV := .bvs (.sym flag) (Nat.clog 2 count)
  (List.range count).map fun n => cl.eq mergeFlag (bvv (Nat.clog 2 count) n)

theorem eval_mergeConds {flag count k : ℕ} {cond : BoolAst} (h : (mergeConds cl flag count)[k]? = some cond) :
    cond.eval ι = true ↔ (BV.bvs (.sym flag) (Nat.clog 2 count)).eval ι = k := by
  simp only [mergeConds, List.getElem?_map, Option.map_eq_some_iff] at h
  obtain ⟨n, hn, rfl⟩ := h
  obtain ⟨hlt, rfl⟩ := List.getElem?_eq_some_iff.mp hn
  rw [List.length_range] at hlt
  rw [Claripy.eval_eq, Claripy.eval_bvv, beq_iff_eq, List.getElem_range,
    Nat.mod_eq_of_lt (hlt.trans_le (Nat.le_pow_clog (by decide) count))]

theorem mergeConds_exclusive (flag count : ℕ) : Exclusive (mergeConds cl flag count) := by
  intro ι
  rw [List.pairwise_iff_getElem]
  intro i j hi hj hij
  rw [eval_mergeConds (List.getElem?_eq_getElem hi), eval_mergeConds (List.getElem?_eq_getElem hj)]
  omega

/-- The solver of merged states: each value of the flag chooses the constraints of one state. -/
theorem mergeStates_exact (fr : Frontend) (cl : Claripy) (flag : ℕ) (first second : fr.Solver)
    (rest : List fr.Solver) : ∃ merged,
    fr.merge cl first (second :: rest) (mergeConds cl flag (rest.length + 2)) = some merged ∧
    ∀ ι, (fr.Holds ι merged ↔ ∃ s,
      (first :: second :: rest)[(BV.bvs (.sym flag) (Nat.clog 2 (rest.length + 2))).eval ι]? = some s ∧
        fr.Holds ι s) := by
  have hlen : (mergeConds cl flag (rest.length + 2)).length = (second :: rest).length + 1 := by simp [mergeConds]
  obtain ⟨hsome, hexact⟩ := merge_exact fr cl first (second :: rest) _ hlen (mergeConds_exclusive flag _)
  obtain ⟨merged, hm⟩ := hsome (List.cons_ne_nil _ _)
  refine ⟨merged, hm, fun ι => (hexact merged hm ι).trans ⟨?_, ?_⟩⟩
  · rintro ⟨k, s, cond, hs, hcond, hholds, hsolver⟩
    exact ⟨s, by rw [(eval_mergeConds hcond).mp hholds, hs], hsolver⟩
  · rintro ⟨s, hs, hsolver⟩
    have hlt := (List.getElem?_eq_some_iff.mp hs).1
    have hcond := List.getElem?_eq_getElem (hlt.trans_eq hlen.symm)
    exact ⟨_, s, _, hs, hcond, (eval_mergeConds hcond).mpr rfl, hsolver⟩

end Frontend
end Tool
end Klint
