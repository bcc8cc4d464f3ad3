/-
# The paths that are explored

The inner loop of `_symbex` for one state. Every run starts at the root of the
specification, so what the loop does below a node is told by `visit`, which goes
through the tree once, the true outcome of a test before the false one, and passes
the choices on from path to path: `explores_visit`.

A path is known by the conditions it recorded. `explored_paths` says that they
tell the paths apart, and that none is missing when the loop has come to its end.
-/
import Mathlib.Data.List.GetD
import Mathlib.Data.Fintype.Card
import Klint.Tool.Symbex

namespace Klint
namespace Tool
namespace Symbex

variable {F V O : Type} [DecidableEq O] {sv : Solver F V}

/-! ### Choices that were made -/

/-- The lists of the calls so far answer with `answers`, which are different maps. -/
structure Settled (lists : List (List O)) (answers : List O) : Prop where
  nodup : answers.Nodup
  heads : lists.map List.head? = answers.map some

variable {S : List (List O)} {a : List O}

omit [DecidableEq O] in
theorem Settled.nil : Settled ([] : List (List O)) [] := ⟨List.nodup_nil, rfl⟩

omit [DecidableEq O] in
theorem Settled.snoc (h : Settled S a) {o : O} (ho : o ∉ a) (rest : List O) :
    Settled (S ++ [o :: rest]) (a ++ [o]) := by
  refine ⟨List.nodup_append.mpr ⟨h.nodup, List.nodup_singleton o, ?_⟩, ?_⟩
  · intro x hx y hy hxy
    rw [List.mem_singleton] at hy
    exact ho (hy ▸ hxy ▸ hx)
  · rw [List.map_append, List.map_append, h.heads]
    rfl

omit [DecidableEq O] in
theorem Settled.length_eq (h : Settled S a) : S.length = a.length := by
  simpa using congrArg List.length h.heads

omit [DecidableEq O] in
theorem Settled.head (h : Settled S a) {i : ℕ} (hi : i < a.length) : ∃ rest, S.getD i [] = a[i] :: rest := by
  have hS : i < S.length := by rw [h.length_eq]; exact hi
  have hget : (S.map List.head?)[i]? = (a.map some)[i]? := by rw [h.heads]
  rw [List.getElem?_map, List.getElem?_map, List.getElem?_eq_getElem hS, List.getElem?_eq_getElem hi] at hget
  rw [List.getD_eq_getElem _ _ hS]
  exact List.head?_eq_some_iff.mp (Option.some.inj hget)

omit [DecidableEq O] in
/-- The heads of all lists are the answers, and those of the lists that are left. -/
theorem Settled.filterMap_head (h : Settled S a) (lists : List (List O)) :
    (S ++ lists).filterMap List.head? = a ++ lists.filterMap List.head? := by
  have hS : S.filterMap List.head? = (S.map List.head?).filterMap id := by rw [List.filterMap_map]; rfl
  rw [List.filterMap_append, hS, h.heads, List.filterMap_map]
  simp

/-- The maps that the calls before have. -/
theorem Settled.earlier (h : Settled S a) (i : ℕ) (c : O) :
    ((S.take i).any fun cs => cs.head? == some c) = decide (c ∈ a.take i) := by
  have hany : ((S.take i).any fun cs => cs.head? == some c) =
      (((S.map List.head?).take i).any fun o => o == some c) := by
    rw [← List.map_take, List.any_map]
    rfl
  rw [hany, h.heads, ← List.map_take, Bool.eq_iff_iff]
  simp [-List.map_take]

/-- A call that was answered before is answered the same, and changes nothing. -/
theorem chooseAt_settled (h : Settled S a) {i : ℕ} (hi : i < a.length) {choices : List O} (hc : choices ≠ [])
    (lists : List (List O)) : chooseAt (S ++ lists) i choices = (.ok a[i], S ++ lists) := by
  obtain ⟨rest, hrest⟩ := h.head hi
  have hS : i < S.length := by rw [h.length_eq]; exact hi
  have hl : i < (S ++ lists).length := by rw [List.length_append]; omega
  rw [← List.getD_append S lists [] i hS] at hrest
  have hzip : choices.zip ((S ++ lists).getD i []) ≠ [] := by
    cases choices with
    | nil => exact absurd rfl hc
    | cons c cs => rw [hrest]; simp
  have hnot : a[i] ∉ a.take i := by
    intro hmem
    obtain ⟨j, hj, hja⟩ := List.mem_take_iff_getElem.mp hmem
    have := (List.Nodup.getElem_inj_iff h.nodup).mp hja
    omega
  unfold chooseAt
  rw [if_neg hc, if_neg fun hcon => hzip hcon.2, if_neg (by omega)]
  simp only [dismissDupes, List.take_append_of_le_length hS.le, h.earlier, hrest, List.dropWhile_cons, hnot,
    decide_false, Bool.false_eq_true, if_false]
  rw [← hrest, List.getD_eq_getElem _ _ hl, List.set_getElem_self]

/-- A new call takes the first of its candidates, or of what an earlier run left of them, that no
call before it has. -/
theorem chooseAt_new (h : Settled S a) {choices : List O} (hc : choices ≠ []) (lists : List (List O)) :
    match (lists.headD choices).dropWhile (fun c => decide (c ∈ a)) with
    | [] => ∃ ex rest, ex.isBuiltin = true ∧ chooseAt (S ++ lists) a.length choices = (.error ex, S ++ rest)
    | o :: rest => chooseAt (S ++ lists) a.length choices = (.ok o, S ++ (o :: rest) :: lists.tail) := by
  have hSl := h.length_eq
  have htake : ∀ ls : List (List O), (S ++ ls).take a.length = S := fun ls => by rw [← hSl, List.take_left]
  have hget : ∀ l ls, (S ++ l :: ls).getD a.length [] = l := fun l ls => by
    rw [List.getD_append_right _ _ _ _ hSl.le, hSl, Nat.sub_self]
    rfl
  have hset : ∀ l l' ls, (S ++ l :: ls).set a.length l' = S ++ l' :: ls := fun l l' ls => by
    rw [List.set_append_right _ _ hSl.le, hSl, Nat.sub_self]
    rfl
  have hdupes : ∀ l, dismissDupes S l = l.dropWhile fun c => decide (c ∈ a) := fun l => by
    have := h.earlier a.length
    rw [← hSl, List.take_length, hSl, List.take_length] at this
    unfold dismissDupes
    simp only [this]
  cases lists with
  | nil =>
    have heq : chooseAt (S ++ []) a.length choices =
        match choices.dropWhile fun c => decide (c ∈ a) with
        | [] => (.error .indexError, S ++ [[]])
        | o :: rest => (.ok o, S ++ [o :: rest]) := by
      unfold chooseAt
      rw [List.append_nil, if_neg hc, if_neg (by simp [hSl])]
      rcases hd : choices.dropWhile fun c => decide (c ∈ a) with _ | ⟨o, rest⟩ <;>
        simp only [hSl, if_true, htake, hget, hset, hdupes, hd]
    rw [List.headD_nil, heq]
    cases hd : choices.dropWhile fun c => decide (c ∈ a) with
    | nil => exact ⟨_, _, rfl, rfl⟩
    | cons o rest => rfl
  | cons l ls =>
    have hne : a.length ≠ (S ++ l :: ls).length := by
      rw [List.length_append, List.length_cons]
      omega
    rw [List.headD_cons, List.tail_cons]
    cases l with
    | nil =>
      refine ⟨.assertionError, [] :: ls, rfl, ?_⟩
      unfold chooseAt
      rw [if_neg hc, if_pos ⟨hne, by rw [hget, List.zip_nil_right]⟩]
    | cons c cs =>
      have heq : chooseAt (S ++ (c :: cs) :: ls) a.length choices =
          match (c :: cs).dropWhile fun c => decide (c ∈ a) with
          | [] => (.error .indexError, S ++ [] :: ls)
          | o :: rest => (.ok o, S ++ (o :: rest) :: ls) := by
        unfold chooseAt
        rw [if_neg hc, if_neg fun hcon => by
          rw [hget] at hcon
          cases choices with
          | nil => exact hc rfl
          | cons c' cs' => simp at hcon, if_neg hne]
        rcases hd : (c :: cs).dropWhile fun c => decide (c ∈ a) with _ | ⟨o, rest⟩ <;>
          simp only [htake, hget, hset, hdupes, hd]
      rw [heq]
      cases hd : (c :: cs).dropWhile fun c => decide (c ∈ a) with
      | nil => exact ⟨_, _, rfl, rfl⟩
      | cons o rest => rfl

/-! ### What the loop does below a node -/

/-- The paths below a node that is reached with the constraints `cs`, the branches `p` and `i`
calls of `choose`. -/
def Spec.visit (sv : Solver F V) : Spec F O → List F → List (F × Bool) → ℕ → List (List O) → Runs (List F) O
  | .ret, _, p, _, lists => ⟨[sv.conditions p], none, lists⟩
  | .raise ex, _, p, _, lists => ⟨[sv.conditions p], some ex, lists⟩
  | .test f next, cs, p, i, lists =>
    match sv.evalUpto cs f 3 (sv.conditions p) with
    | .error ex => ⟨[sv.conditions p], some ex, lists⟩
    | .ok [b] => (next b).visit sv cs p i lists
    | .ok [_, _] =>
      let r := (next true).visit sv (cs ++ [sv.literal (f, true)]) (p ++ [(f, true)]) i lists
      match r.raised with
      | some ex => ⟨r.results, some ex, r.choices⟩
      | none =>
        let r' := (next false).visit sv (cs ++ [sv.literal (f, false)]) (p ++ [(f, false)]) i r.choices
        ⟨r.results ++ r'.results, r'.raised, r'.choices⟩
    | .ok _ => ⟨[sv.conditions p], some .assertionError, lists⟩
  | .add f next, cs, p, i, lists => next.visit sv (cs ++ [f]) p i lists
  | .choose choices next, cs, p, i, lists =>
    match chooseAt lists i choices with
    | (.error ex, lists) => ⟨[sv.conditions p], some ex, lists⟩
    | (.ok o, lists) => (next o).visit sv cs p (i + 1) lists

/-- The loop ends with these runs, with enough fuel. -/
def Explores (sv : Solver F V) (state : List F) (func : Spec F O) (p : List (F × Bool)) (lists : List (List O))
    (results : List (List F)) (out : Runs (List F) O) : Prop :=
  ∃ N, ∀ n, N ≤ n → explore sv state func n p lists results = some out

/-- The same of the loop after the last path below the branches `p`. -/
def ExploresAfter (sv : Solver F V) (state : List F) (func : Spec F O) (p : List (F × Bool)) (lists : List (List O))
    (results : List (List F)) (out : Runs (List F) O) : Prop :=
  match nextBranches p with
  | none => out = ⟨results, none, lists⟩
  | some p => Explores sv state func p lists results out

theorem nextBranches_true (p : List (F × Bool)) (f : F) :
    nextBranches (p ++ [(f, true)]) = some (p ++ [(f, false)]) := by
  unfold nextBranches
  rw [List.rdropWhile_concat_neg _ _ _ (by simp)]
  simp

theorem nextBranches_false (p : List (F × Bool)) (f : F) : nextBranches (p ++ [(f, false)]) = nextBranches p := by
  unfold nextBranches
  rw [List.rdropWhile_concat_pos _ _ _ (by simp)]

variable {state : List F} {func : Spec F O} {p : List (F × Bool)} {lists : List (List O)} {results : List (List F)}
  {out : Runs (List F) O} {symbex : SymbexData F O}

theorem Explores.unique {out' : Runs (List F) O} (h : Explores sv state func p lists results out)
    (h' : Explores sv state func p lists results out') : out = out' := by
  obtain ⟨N, hN⟩ := h
  obtain ⟨N', hN'⟩ := h'
  exact Option.some.inj ((hN (max N N') (le_max_left _ _)).symm.trans (hN' (max N N') (le_max_right _ _)))

theorem Explores.of_succ (h : ∃ N, ∀ n, N ≤ n → explore sv state func (n + 1) p lists results = some out) :
    Explores sv state func p lists results out := by
  obtain ⟨N, hN⟩ := h
  refine ⟨N + 1, fun n hn => ?_⟩
  obtain ⟨n, rfl⟩ : ∃ m, n = m + 1 := ⟨n - 1, by omega⟩
  exact hN n (by omega)

theorem explores_raised {ex : Exn} (h : symbexOne sv state func p lists = (some ex, symbex)) :
    Explores sv state func p lists results ⟨results ++ [sv.conditions symbex.branches], some ex, symbex.choices⟩ :=
  .of_succ ⟨0, fun n _ => by rw [explore, h]⟩

theorem explores_returned (h : symbexOne sv state func p lists = (none, symbex))
    (ha : ExploresAfter sv state func symbex.branches symbex.choices (results ++ [sv.conditions symbex.branches]) out) :
    Explores sv state func p lists results out := by
  unfold ExploresAfter at ha
  cases hn : nextBranches symbex.branches with
  | none =>
    rw [hn] at ha
    exact .of_succ ⟨0, fun n _ => by simp only [explore, h, hn, ha]⟩
  | some p' =>
    rw [hn] at ha
    obtain ⟨N, hN⟩ := ha
    exact .of_succ ⟨N, fun n hle => by simp only [explore, h, hn]; exact hN n hle⟩

theorem Explores.congr {p' : List (F × Bool)} {lists' : List (List O)}
    (h : symbexOne sv state func p lists = symbexOne sv state func p' lists')
    (he : Explores sv state func p' lists' results out) : Explores sv state func p lists results out := by
  obtain ⟨N, hN⟩ := he
  refine .of_succ ⟨N, fun n hn => ?_⟩
  rw [← hN (n + 1) (by omega), explore, explore, h]

/-- A run that has the branches `p` and the lists `S` to go by comes to the node `s`. -/
def Leads (sv : Solver F V) (state : List F) (func : Spec F O) (cs : List F) (p : List (F × Bool)) (i : ℕ)
    (S : List (List O)) (s : Spec F O) : Prop :=
  ∀ p' lists, symbexOne sv state func (p ++ p') (S ++ lists) =
    s.run sv
      { branches := p ++ p', branchIndex := p.length, choices := S ++ lists, choiceIndex := i, constraints := cs }

section Leads

variable {cs : List F} {i : ℕ} {f : F} {next : Bool → Spec F O}

theorem Leads.root (sv : Solver F V) (state : List F) (func : Spec F O) : Leads sv state func state [] 0 [] func :=
  fun _ _ => rfl

/-- What a run does at the end of its branches. -/
theorem Leads.run {s : Spec F O} (h : Leads sv state func cs p i S s) (lists : List (List O)) :
    symbexOne sv state func p (S ++ lists) =
      s.run sv
        { branches := p, branchIndex := p.length, choices := S ++ lists, choiceIndex := i, constraints := cs } := by
  have := h [] lists
  rwa [List.append_nil] at this

theorem Leads.add {s : Spec F O} (h : Leads sv state func cs p i S (.add f s)) :
    Leads sv state func (cs ++ [f]) p i S s := h

theorem Leads.mono {s : Spec F O} {S' : List (List O)} (h : Leads sv state func cs p i S s) (hS : S <+: S') :
    Leads sv state func cs p i S' s := by
  obtain ⟨T, rfl⟩ := hS
  intro p' lists
  rw [List.append_assoc]
  exact h p' _

/-- A condition with one outcome is not recorded. -/
theorem Leads.one (h : Leads sv state func cs p i S (.test f next)) {b : Bool}
    (hb : sv.evalUpto cs f 3 (sv.conditions p) = .ok [b]) : Leads sv state func cs p i S (next b) := by
  intro p' lists
  rw [h, Spec.run, SymbexData.bool, List.take_left, hb]

/-- A condition with two outcomes has the one that the branches say. -/
theorem Leads.two (h : Leads sv state func cs p i S (.test f next)) {x y : Bool}
    (hxy : sv.evalUpto cs f 3 (sv.conditions p) = .ok [x, y]) (b : Bool) :
    Leads sv state func (cs ++ [sv.literal (f, b)]) (p ++ [(f, b)]) i S (next b) := by
  intro p' lists
  have hne : p.length ≠ (p ++ (f, b) :: p').length := by
    rw [List.length_append, List.length_cons]
    omega
  have hget : (p ++ (f, b) :: p').getD p.length (f, true) = (f, b) := by
    rw [List.getD_append_right _ _ _ _ le_rfl, Nat.sub_self]
    rfl
  rw [List.append_assoc, List.singleton_append, h, Spec.run, SymbexData.bool, List.take_left, hxy]
  simp only [if_neg hne, hget]
  rw [List.length_append, List.length_singleton]

/-- At the end of its branches the run takes the true outcome. -/
theorem Leads.two_true (h : Leads sv state func cs p i S (.test f next)) {x y : Bool}
    (hxy : sv.evalUpto cs f 3 (sv.conditions p) = .ok [x, y]) (lists : List (List O)) :
    symbexOne sv state func p (S ++ lists) = symbexOne sv state func (p ++ [(f, true)]) (S ++ lists) := by
  have hget : (p ++ [(f, true)]).getD p.length (f, true) = (f, true) := by
    rw [List.getD_append_right _ _ _ _ le_rfl, Nat.sub_self]
    rfl
  rw [(h.two hxy true).run, h.run, Spec.run, SymbexData.bool, List.take_length, hxy]
  simp only [if_true, hget, List.length_append, List.length_singleton]

/-- A call that was answered before. -/
theorem Leads.settled {choices : List O} {next : O → Spec F O} (h : Leads sv state func cs p i S (.choose choices next))
    (hS : Settled S a) (hi : i < a.length) (hc : choices ≠ []) :
    Leads sv state func cs p (i + 1) S (next a[i]) := by
  intro p' lists
  rw [h, Spec.run, SymbexData.choose, chooseAt_settled hS hi hc]

/-- A new call that was answered. -/
theorem Leads.snoc {choices : List O} {next : O → Spec F O}
    (h : Leads sv state func cs p a.length S (.choose choices next))
    (hS : Settled S a) {o : O} (ho : o ∉ a) (rest : List O) (hc : choices ≠ []) :
    Leads sv state func cs p (a.length + 1) (S ++ [o :: rest]) (next o) := by
  have h' := h.mono (List.prefix_append S [o :: rest])
  have hi : a.length < (a ++ [o]).length := by simp
  have := h'.settled (hS.snoc ho rest) hi hc
  rwa [List.getElem_concat_length rfl] at this

end Leads

/-- An answer that was not used before. -/
theorem head_dropWhile_used {l : List O} {o : O} {rest : List O}
    (h : (l.dropWhile fun c => decide (c ∈ a)) = o :: rest) : o ∉ a := by
  have := List.head?_dropWhile_not (fun c => decide (c ∈ a)) l
  rw [h] at this
  simpa using this

/-- The lists that a visit leaves: the calls that were answered keep their answers. -/
def Extends (S : List (List O)) (a : List O) (lists : List (List O)) : Prop :=
  ∃ S' a' rest, lists = S' ++ rest ∧ Settled S' a' ∧ S <+: S' ∧ a <+: a'

omit [DecidableEq O] in
theorem Settled.extends (h : Settled S a) (lists : List (List O)) : Extends S a (S ++ lists) :=
  ⟨S, a, lists, rfl, h, List.prefix_rfl, List.prefix_rfl⟩

/-- What the loop does below the branches `p`, where the visit is `r`. -/
def ExploresAs (sv : Solver F V) (state : List F) (func : Spec F O) (p : List (F × Bool)) (lists : List (List O))
    (r : Runs (List F) O) : Prop :=
  ∀ results, match r.raised with
    | some ex => Explores sv state func p lists results ⟨results ++ r.results, some ex, r.choices⟩
    | none => ∀ out, ExploresAfter sv state func p r.choices (results ++ r.results) out →
        Explores sv state func p lists results out

theorem exploresAs_raised {cs : List F} {i : ℕ} {s : Spec F O} {ex : Exn} {lists' : List (List O)}
    (hl : Leads sv state func cs p i S s)
    (h : s.run sv
        { branches := p, branchIndex := p.length, choices := S ++ lists, choiceIndex := i, constraints := cs } =
      (some ex, { branches := p, branchIndex := p.length, choices := lists', choiceIndex := i, constraints := cs })) :
    ExploresAs sv state func p (S ++ lists) ⟨[sv.conditions p], some ex, lists'⟩ :=
  fun _ => explores_raised ((hl.run lists).trans h)

theorem ExploresAs.congr {L L' : List (List O)} {r : Runs (List F) O}
    (hr : ExploresAs sv state func p L' r) (h : symbexOne sv state func p L = symbexOne sv state func p L') :
    ExploresAs sv state func p L r := by
  intro results
  have hr := hr results
  rcases r with ⟨rs, _ | ex, lists⟩
  · exact fun out hout => (hr out hout).congr h
  · exact Explores.congr h hr

/-- Both outcomes of a condition: the loop flips the branch once the true outcome is done. -/
theorem ExploresAs.two {f : F} {L L' : List (List O)} {rs : List (List F)} {r' : Runs (List F) O}
    (hcongr : symbexOne sv state func p L = symbexOne sv state func (p ++ [(f, true)]) L)
    (htrue : ExploresAs sv state func (p ++ [(f, true)]) L ⟨rs, none, L'⟩)
    (hfalse : ExploresAs sv state func (p ++ [(f, false)]) L' r') :
    ExploresAs sv state func p L ⟨rs ++ r'.results, r'.raised, r'.choices⟩ := by
  intro results
  have hflip : ∀ out, Explores sv state func (p ++ [(f, false)]) L' (results ++ rs) out →
      Explores sv state func p L results out := fun out h => by
    refine (htrue results out ?_).congr hcongr
    unfold ExploresAfter
    rwa [nextBranches_true]
  have hfalse := hfalse (results ++ rs)
  rcases r' with ⟨rs', _ | ex, L''⟩
  · intro out hout
    refine hflip out (hfalse out ?_)
    unfold ExploresAfter at hout ⊢
    rwa [nextBranches_false, List.append_assoc]
  · have := hflip _ hfalse
    rwa [List.append_assoc] at this

/-- The loop below a node: the paths that `visit` tells, and then the next run. -/
theorem explores_visit : ∀ (s : Spec F O) {cs : List F} {p : List (F × Bool)} {i : ℕ} {S : List (List O)} {a : List O}
    (lists : List (List O)), Leads sv state func cs p i S s → Settled S a → i ≤ a.length →
    Extends S a (s.visit sv cs p i (S ++ lists)).choices ∧
      ExploresAs sv state func p (S ++ lists) (s.visit sv cs p i (S ++ lists))
  | .ret, cs, p, i, S, a, lists, hl, hS, hi =>
    ⟨hS.extends lists, fun results out ha => explores_returned (hl.run lists) ha⟩
  | .raise ex, cs, p, i, S, a, lists, hl, hS, hi =>
    ⟨hS.extends lists, exploresAs_raised hl rfl⟩
  | .add f next, cs, p, i, S, a, lists, hl, hS, hi => explores_visit next lists hl.add hS hi
  | .test f next, cs, p, i, S, a, lists, hl, hS, hi => by
    rcases hev : sv.evalUpto cs f 3 (sv.conditions p) with ex | outs
    · simp only [Spec.visit, hev]
      refine ⟨hS.extends lists, exploresAs_raised hl ?_⟩
      rw [Spec.run, SymbexData.bool, List.take_length, hev]
    · match outs, hev with
      | [b], hev =>
        simp only [Spec.visit, hev]
        exact explores_visit (next b) lists (hl.one hev) hS hi
      | [x, y], hev =>
        obtain ⟨hext, htrue⟩ := explores_visit (next true) lists (hl.two hev true) hS hi
        have hcongr := hl.two_true hev lists
        simp only [Spec.visit, hev]
        rcases hr : (next true).visit sv (cs ++ [sv.literal (f, true)]) (p ++ [(f, true)]) i (S ++ lists)
          with ⟨rs, _ | ex, L⟩ <;> rw [hr] at hext htrue
        · -- the true outcome came to its end, and the flipped branch is run with the lists that it left
          obtain ⟨S', a', rest, rfl, hS', hSS', haa'⟩ : Extends S a L := hext
          obtain ⟨⟨S'', a'', rest', hL, hS'', hSS'', haa''⟩, hfalse⟩ :=
            explores_visit (next false) rest ((hl.two hev false).mono hSS') hS' (hi.trans haa'.length_le)
          exact ⟨⟨S'', a'', rest', hL, hS'', hSS'.trans hSS'', haa'.trans haa''⟩, htrue.two hcongr hfalse⟩
        · exact ⟨hext, fun results => (htrue results).congr hcongr⟩
      | [], hev =>
        simp only [Spec.visit, hev]
        refine ⟨hS.extends lists, exploresAs_raised hl ?_⟩
        rw [Spec.run, SymbexData.bool, List.take_length, hev]
      | _ :: _ :: _ :: _, hev =>
        simp only [Spec.visit, hev]
        refine ⟨hS.extends lists, exploresAs_raised hl ?_⟩
        rw [Spec.run, SymbexData.bool, List.take_length, hev]
  | .choose choices next, cs, p, i, S, a, lists, hl, hS, hi => by
    by_cases hc : choices = []
    · have herr : chooseAt (S ++ lists) i choices = (.error .assertionError, S ++ lists) := by
        rw [chooseAt, if_pos hc]
      simp only [Spec.visit, herr]
      refine ⟨hS.extends lists, exploresAs_raised hl ?_⟩
      rw [Spec.run, SymbexData.choose, herr]
    · rcases Nat.lt_or_eq_of_le hi with hi | rfl
      · simp only [Spec.visit, chooseAt_settled hS hi hc]
        exact explores_visit (next a[i]) lists (hl.settled hS hi hc) hS hi
      · have hnew := chooseAt_new hS hc lists
        rcases hd : (lists.headD choices).dropWhile fun c => decide (c ∈ a) with _ | ⟨o, rest⟩ <;> rw [hd] at hnew
        · obtain ⟨ex, rest, -, herr⟩ := hnew
          simp only [Spec.visit, herr]
          refine ⟨hS.extends rest, exploresAs_raised hl ?_⟩
          rw [Spec.run, SymbexData.choose, herr]
        · have ho := head_dropWhile_used hd
          have hl' := hl.snoc hS ho rest hc
          obtain ⟨⟨S', a', rest', hL, hS', hSS', haa'⟩, hnext⟩ :=
            explores_visit (next o) lists.tail hl' (hS.snoc ho rest) (by simp)
          simp only [Spec.visit, hnew]
          rw [List.append_assoc, List.singleton_append] at hL hnext
          refine ⟨⟨S', a', rest', hL, hS', (List.prefix_append _ _).trans hSS',
            (List.prefix_append _ _).trans haa'⟩, ?_⟩
          -- a run with the new list does the same as the one that added it
          refine hnext.congr ?_
          have hrun := hl'.run lists.tail
          rw [List.append_assoc, List.singleton_append] at hrun
          rw [hrun, hl.run, Spec.run, SymbexData.choose, hnew]

/-- The loop for a state comes to its end. -/
theorem explores_root (state : List F) (func : Spec F O) (lists : List (List O)) :
    Explores sv state func [] lists [] (func.visit sv state [] 0 lists) := by
  have h := (explores_visit func lists (Leads.root sv state func) Settled.nil (Nat.zero_le _)).2 []
  rw [List.nil_append, List.nil_append] at h
  rcases hr : func.visit sv state [] 0 lists with ⟨results, _ | ex, choices⟩ <;> rw [hr] at h
  · exact h _ rfl
  · exact h

/-! ### What the paths are -/

/-- The valuation satisfies the formulas. -/
def Solver.sat (sv : Solver F V) (v : V) (cs : List F) : Bool := cs.all fun f => sv.eval v f

/-- `eval_upto` finds up to `n` values that the formula has where the constraints hold: all of them
if they are fewer. -/
def Solver.Exact (sv : Solver F V) : Prop :=
  ∀ cs f n extra, (∃ v, sv.sat v (cs ++ extra) = true) → ∃ outcomes, sv.evalUpto cs f n extra = .ok outcomes ∧
    outcomes.Nodup ∧ outcomes.length ≤ n ∧
    (∀ b ∈ outcomes, ∃ v, sv.sat v (cs ++ extra) = true ∧ sv.eval v f = b) ∧
    (outcomes.length < n → ∀ v, sv.sat v (cs ++ extra) = true → sv.eval v f ∈ outcomes)

/-- The constraints that the specification adds hold, where the conditions are as the valuation
says and `choose` answers with `answers`. Where nothing is added this is true. -/
def Spec.Admits (sv : Solver F V) (v : V) (answers : List O) : ℕ → Spec F O → Prop
  | _, .ret => True
  | _, .raise _ => True
  | i, .test f next => (next (sv.eval v f)).Admits sv v answers i
  | i, .add f next => sv.eval v f = true ∧ next.Admits sv v answers i
  | i, .choose _ next => ∀ o, answers[i]? = some o → (next o).Admits sv v answers (i + 1)

/-- How the specification ends there: it returns (`ends none`), raises, or asks for more choices. -/
def Spec.ending (sv : Solver F V) (v : V) (answers : List O) : ℕ → Spec F O → Asking.Event O (Option Exn)
  | _, .ret => .ends none
  | _, .raise ex => .ends (some ex)
  | i, .test f next => (next (sv.eval v f)).ending sv v answers i
  | i, .add _ next => next.ending sv v answers i
  | i, .choose choices next =>
    if choices = [] then .ends (some .assertionError)
    else match answers[i]? with
      | some o => (next o).ending sv v answers (i + 1)
      | none => .asks choices

@[simp] theorem sat_append (v : V) (cs cs' : List F) : sv.sat v (cs ++ cs') = (sv.sat v cs && sv.sat v cs') :=
  List.all_append

@[simp] theorem sat_singleton (v : V) (f : F) : sv.sat v [f] = sv.eval v f := by simp [Solver.sat]

@[simp] theorem eval_literal (v : V) (f : F) (b : Bool) : sv.eval v (sv.literal (f, b)) = (sv.eval v f == b) := by
  cases b
  · simp [Solver.literal, sv.eval_neg]
  · simp [Solver.literal]

theorem conditions_append (p q : List (F × Bool)) :
    sv.conditions (p ++ q) = sv.conditions p ++ sv.conditions q := List.map_append

theorem conditions_snoc (p : List (F × Bool)) (b : F × Bool) :
    sv.conditions (p ++ [b]) = sv.conditions p ++ [sv.literal b] := conditions_append p [b]

/-- No valuation satisfies both. -/
def Contradictory (sv : Solver F V) (p q : List F) : Prop := ∀ v, ¬(sv.sat v p = true ∧ sv.sat v q = true)

/-- A path below a node has the conditions of the node. -/
theorem visit_results : ∀ (s : Spec F O) {cs : List F} {p : List (F × Bool)} {i : ℕ} {lists : List (List O)},
    ∀ q ∈ (s.visit sv cs p i lists).results, sv.conditions p <+: q
  | .ret, cs, p, i, lists, q, hq => by
    rw [List.mem_singleton.mp hq]
  | .raise ex, cs, p, i, lists, q, hq => by
    rw [List.mem_singleton.mp hq]
  | .add f next, cs, p, i, lists, q, hq => visit_results next q hq
  | .test f next, cs, p, i, lists, q, hq => by
    have hbelow : ∀ b cs' lists', q ∈ ((next b).visit sv cs' (p ++ [(f, b)]) i lists').results →
      sv.conditions p <+: q :=
      fun b cs' lists' h => by
        have := visit_results (next b) q h
        rw [conditions_snoc] at this
        exact (List.prefix_append _ _).trans this
    unfold Spec.visit at hq
    split at hq
    · rw [List.mem_singleton.mp hq]
    · exact visit_results (next _) q hq
    · dsimp only at hq
      split at hq
      · exact hbelow true _ _ hq
      · rcases List.mem_append.mp hq with h | h
        · exact hbelow true _ _ h
        · exact hbelow false _ _ h
    · rw [List.mem_singleton.mp hq]
  | .choose choices next, cs, p, i, lists, q, hq => by
    unfold Spec.visit at hq
    split at hq
    · rw [List.mem_singleton.mp hq]
    · exact visit_results (next _) q hq

/-- A valuation of the other outcome satisfies no path below. -/
theorem not_sat_of_literal {v : V} {f : F} {b : Bool} {p : List (F × Bool)} {q : List F}
    (hq : sv.conditions (p ++ [(f, b)]) <+: q) (hv : sv.eval v f ≠ b) : sv.sat v q = false := by
  obtain ⟨t, rfl⟩ := hq
  rw [conditions_snoc, sat_append, sat_append, sat_singleton, eval_literal, beq_false_of_ne hv]
  simp

theorem countP_of_literal {v : V} {f : F} {b : Bool} {p : List (F × Bool)} {results : List (List F)}
    (hres : ∀ q ∈ results, sv.conditions (p ++ [(f, b)]) <+: q) (hv : sv.eval v f ≠ b) :
    results.countP (fun q => sv.sat v q) = 0 := by
  refine List.countP_eq_zero.mpr fun q hq => ?_
  rw [not_sat_of_literal (hres q hq) hv]
  decide

/-- A valuation is on the side of a test that it says. -/
theorem sat_of_literal {v : V} {f : F} {b : Bool} {cs : List F} (hcs : sv.sat v cs = true) (hv : sv.eval v f = b) :
    sv.sat v (cs ++ [sv.literal (f, b)]) = true := by
  rw [sat_append, sat_singleton, eval_literal, hcs, hv]
  simp

theorem sat_conditions_of_literal {v : V} {f : F} {b : Bool} {p : List (F × Bool)}
    (hp : sv.sat v (sv.conditions p) = true) (hv : sv.eval v f = b) :
    sv.sat v (sv.conditions (p ++ [(f, b)])) = true := by
  rw [conditions_snoc]
  exact sat_of_literal hp hv

/-- Two paths contradict each other: where they part, one has the condition and the other its
negation. -/
theorem visit_contradictory : ∀ (s : Spec F O) {cs : List F} {p : List (F × Bool)} {i : ℕ} {lists : List (List O)},
    (s.visit sv cs p i lists).results.Pairwise (Contradictory sv)
  | .ret, cs, p, i, lists => List.pairwise_singleton _ _
  | .raise ex, cs, p, i, lists => List.pairwise_singleton _ _
  | .add f next, cs, p, i, lists => visit_contradictory next
  | .test f next, cs, p, i, lists => by
    unfold Spec.visit
    split
    · exact List.pairwise_singleton _ _
    · exact visit_contradictory (next _)
    · dsimp only
      split
      · exact visit_contradictory (next true)
      · refine List.pairwise_append.mpr ⟨visit_contradictory (next true), visit_contradictory (next false), ?_⟩
        intro q hq q' hq' v hv
        rcases hf : sv.eval v f with _ | _
        · rw [not_sat_of_literal (visit_results (next true) q hq) (by rw [hf]; decide)] at hv
          exact absurd hv.1 (by decide)
        · rw [not_sat_of_literal (visit_results (next false) q' hq') (by rw [hf]; decide)] at hv
          exact absurd hv.2 (by decide)
    · exact List.pairwise_singleton _ _
  | .choose choices next, cs, p, i, lists => by
    unfold Spec.visit
    split
    · exact List.pairwise_singleton _ _
    · exact visit_contradictory (next _)

/-- A condition has the outcomes that its valuations give it. -/
theorem Solver.Exact.outcomes (hsv : sv.Exact) {cs extra : List F} {f : F} {v : V} (hv : sv.sat v (cs ++ extra) = true)
    {outcomes : List Bool} (h : sv.evalUpto cs f 3 extra = .ok outcomes) : sv.eval v f ∈ outcomes := by
  obtain ⟨outs, hok, hnd, -, -, hall⟩ := hsv cs f 3 extra ⟨v, hv⟩
  rw [h] at hok
  cases hok
  have hlen : outcomes.length ≤ 2 := by
    have := hnd.length_le_card
    rwa [Fintype.card_bool] at this
  exact hall (by omega) v hv

omit [DecidableEq O] in
theorem getElem?_of_prefix {b : List O} {i : ℕ} (hi : i < a.length) (h : a <+: b) : b[i]? = some a[i] := by
  obtain ⟨t, rfl⟩ := h
  rw [List.getElem?_append_left hi, List.getElem?_eq_getElem hi]

/-- If nothing raises, every valuation on the way to a node satisfies one path below it. -/
theorem visit_count : ∀ (s : Spec F O) {cs : List F} {p : List (F × Bool)} {i : ℕ} {lists : List (List O)},
    (s.visit sv cs p i lists).raised = none → ∀ v, sv.sat v (sv.conditions p) = true →
    (s.visit sv cs p i lists).results.countP (fun q => sv.sat v q) = 1
  | .ret, cs, p, i, lists, _, v, hp => by simp [Spec.visit, hp]
  | .raise ex, cs, p, i, lists, h, v, hp => by cases h
  | .add f next, cs, p, i, lists, h, v, hp => visit_count next h v hp
  | .test f next, cs, p, i, lists, h, v, hp => by
    unfold Spec.visit at h ⊢
    split at h
    · cases h
    · exact visit_count (next _) h v hp
    · dsimp only at h ⊢
      split at h
      · cases h
      · next hr =>
        rw [List.countP_append]
        -- the valuation is on one side, and satisfies no path of the other
        rcases hf : sv.eval v f with _ | _
        · rw [countP_of_literal (visit_results (next true)) (by rw [hf]; decide),
            visit_count (next false) h v (sat_conditions_of_literal hp hf)]
        · rw [countP_of_literal (visit_results (next false)) (by rw [hf]; decide),
            visit_count (next true) hr v (sat_conditions_of_literal hp hf)]
    · cases h
  | .choose choices next, cs, p, i, lists, h, v, hp => by
    unfold Spec.visit at h ⊢
    split at h
    · cases h
    · exact visit_count (next _) h v hp

/-- What a visit that raises nothing says of the valuations. -/
theorem visit_exact (hsv : sv.Exact) : ∀ (s : Spec F O) {cs : List F} {p : List (F × Bool)} {i : ℕ} {S : List (List O)}
    {a : List O} (lists : List (List O)), Settled S a → i ≤ a.length → (s.visit sv cs p i (S ++ lists)).raised = none →
    ∃ S' a' rest, (s.visit sv cs p i (S ++ lists)).choices = S' ++ rest ∧ Settled S' a' ∧ a <+: a' ∧
      ∀ b v, a' <+: b → sv.sat v cs = true → sv.sat v (sv.conditions p) = true → s.Admits sv v b i →
        s.ending sv v b i = .ends none
  | .ret, cs, p, i, S, a, lists, hS, hi, _ =>
    ⟨S, a, lists, rfl, hS, List.prefix_rfl, fun _ _ _ _ _ _ => rfl⟩
  | .raise ex, cs, p, i, S, a, lists, hS, hi, h => by cases h
  | .add f next, cs, p, i, S, a, lists, hS, hi, h => by
    obtain ⟨S', a', rest, hL, hS', haa', hex⟩ := visit_exact hsv next lists hS hi h
    refine ⟨S', a', rest, hL, hS', haa', fun b v hb hcs hp had => hex b v hb ?_ hp had.2⟩
    rw [sat_append, hcs, sat_singleton, had.1]
    rfl
  | .test f next, cs, p, i, S, a, lists, hS, hi, h => by
    rcases hev : sv.evalUpto cs f 3 (sv.conditions p) with ex | outs
    · simp [Spec.visit, hev] at h
    · have hout : ∀ v, sv.sat v cs = true → sv.sat v (sv.conditions p) = true → sv.eval v f ∈ outs :=
        fun v hcs hp => hsv.outcomes (by rw [sat_append, hcs, hp]; rfl) hev
      match outs, hev, hout with
      | [x], hev, hout =>
        simp only [Spec.visit, hev] at h ⊢
        obtain ⟨S', a', rest, hL, hS', haa', hex⟩ := visit_exact hsv (next x) lists hS hi h
        refine ⟨S', a', rest, hL, hS', haa', fun b v hb hcs hp had => ?_⟩
        obtain rfl : sv.eval v f = x := List.mem_singleton.mp (hout v hcs hp)
        exact hex b v hb hcs hp had
      | [x, y], hev, hout =>
        simp only [Spec.visit, hev] at h ⊢
        have htrue : ((next true).visit sv (cs ++ [sv.literal (f, true)]) (p ++ [(f, true)]) i (S ++ lists)).raised =
            none → _ := visit_exact hsv (next true) lists hS hi
        rcases hr : (next true).visit sv (cs ++ [sv.literal (f, true)]) (p ++ [(f, true)]) i (S ++ lists)
          with ⟨rs, _ | ex, L⟩ <;> rw [hr] at h htrue
        · obtain ⟨S', a', rest, rfl, hS', haa', hex⟩ := htrue rfl
          obtain ⟨S'', a'', rest', hL, hS'', haa'', hex'⟩ :=
            visit_exact hsv (next false) rest hS' (hi.trans haa'.length_le) h
          refine ⟨S'', a'', rest', hL, hS'', haa'.trans haa'', fun b v hb hcs hp had => ?_⟩
          simp only [Spec.Admits, Spec.ending] at had ⊢
          rcases hf : sv.eval v f with _ | _ <;> rw [hf] at had
          · exact hex' b v hb (sat_of_literal hcs hf) (sat_conditions_of_literal hp hf) had
          · exact hex b v (haa''.trans hb) (sat_of_literal hcs hf) (sat_conditions_of_literal hp hf) had
        · cases h
      | [], hev, hout => simp [Spec.visit, hev] at h
      | _ :: _ :: _ :: _, hev, hout => simp [Spec.visit, hev] at h
  | .choose choices next, cs, p, i, S, a, lists, hS, hi, h => by
    by_cases hc : choices = []
    · simp [Spec.visit, chooseAt, hc] at h
    · rcases Nat.lt_or_eq_of_le hi with hi | rfl
      · simp only [Spec.visit, chooseAt_settled hS hi hc] at h ⊢
        obtain ⟨S', a', rest, hL, hS', haa', hex⟩ := visit_exact hsv (next a[i]) lists hS hi h
        refine ⟨S', a', rest, hL, hS', haa', fun b v hb hcs hp had => ?_⟩
        have ho := getElem?_of_prefix hi (haa'.trans hb)
        simp only [Spec.Admits, Spec.ending, if_neg hc, ho] at had ⊢
        exact hex b v hb hcs hp (had _ rfl)
      · have hnew := chooseAt_new hS hc lists
        rcases hd : (lists.headD choices).dropWhile fun c => decide (c ∈ a) with _ | ⟨o, rest⟩ <;> rw [hd] at hnew
        · obtain ⟨ex, rest, -, herr⟩ := hnew
          simp [Spec.visit, herr] at h
        · simp only [Spec.visit, hnew] at h ⊢
          rw [← List.singleton_append, ← List.append_assoc] at h ⊢
          obtain ⟨S', a', rest', hL, hS', haa', hex⟩ :=
            visit_exact hsv (next o) lists.tail (hS.snoc (head_dropWhile_used hd) rest) (by simp) h
          refine ⟨S', a', rest', hL, hS', (List.prefix_append _ _).trans haa', fun b v hb hcs hp had => ?_⟩
          have ho := getElem?_of_prefix (by simp : a.length < (a ++ [o]).length) (haa'.trans hb)
          rw [List.getElem_concat_length rfl] at ho
          simp only [Spec.Admits, Spec.ending, if_neg hc, ho] at had ⊢
          exact hex b v hb hcs hp (had _ rfl)

/-! ### The loop -/

/-- The loop comes to its end for every state and specification, and whatever the choices are at its
start: those that were made stay. The conditions of its paths contradict each other. If no path
raises, every valuation satisfies those of one path, and the specification returns for each that the
state admits. -/
theorem explored_paths (hsv : sv.Exact) (state : List F) (func : Spec F O) (choices : List (List O)) :
    ∃ r : Runs (List F) O, Explores sv state func [] choices [] r ∧
      (∀ answers, Settled choices answers → answers <+: r.choices.filterMap List.head?) ∧
      r.results.Pairwise (Contradictory sv) ∧
      (r.raised = none → (∀ v, r.results.countP (fun q => sv.sat v q) = 1) ∧
        ∀ v, sv.sat v state = true → func.Admits sv v (r.choices.filterMap List.head?) 0 →
          func.ending sv v (r.choices.filterMap List.head?) 0 = .ends none) := by
  refine ⟨func.visit sv state [] 0 choices, explores_root state func choices, fun answers hset => ?_,
    visit_contradictory func, fun hr => ⟨fun v => visit_count func hr v rfl, fun v hv had => ?_⟩⟩
  · have hl := (Leads.root sv state func).mono (List.nil_prefix : [] <+: choices)
    obtain ⟨S', a', rest, hL, hS', -, haa'⟩ := (explores_visit func [] hl hset (Nat.zero_le _)).1
    rw [List.append_nil] at hL
    rw [hL, hS'.filterMap_head]
    exact haa'.trans (List.prefix_append _ _)
  · obtain ⟨S', a', rest, hL, hS', -, hex⟩ := visit_exact hsv func choices Settled.nil (Nat.zero_le _) hr
    rw [List.nil_append] at hL
    rw [hL, hS'.filterMap_head] at had ⊢
    exact hex _ v (List.prefix_append _ _) hv rfl had

/-- The values that a formula over one Boolean has where the constraints hold. -/
def oneBoolValues (cs : List (Bool → Bool)) (f : Bool → Bool) : List Bool :=
  [true, false].filter fun b => [true, false].any fun v => (cs.all fun g => g v) && f v == b

/-- A solver for the formulas over one Boolean. -/
def oneBool : Solver (Bool → Bool) Bool where
  neg f := fun v => !f v
  eval v f := f v
  eval_neg _ _ := rfl
  evalUpto cs f n extra :=
    if oneBoolValues (cs ++ extra) f = [] then .error .simUnsat else .ok ((oneBoolValues (cs ++ extra) f).take n)

theorem mem_oneBoolValues {cs : List (Bool → Bool)} {f : Bool → Bool} {b : Bool} :
    b ∈ oneBoolValues cs f ↔ ∃ v, oneBool.sat v cs = true ∧ oneBool.eval v f = b := by
  have hmem : ∀ x : Bool, x ∈ [true, false] := by decide
  simp only [oneBoolValues, List.mem_filter, hmem, true_and, List.any_eq_true, Bool.and_eq_true, beq_iff_eq]
  rfl

theorem oneBool_exact : oneBool.Exact := by
  rintro cs f n extra ⟨v, hv⟩
  have hne : oneBoolValues (cs ++ extra) f ≠ [] :=
    List.ne_nil_of_mem (mem_oneBoolValues.mpr ⟨v, hv, rfl⟩)
  have hnd : (oneBoolValues (cs ++ extra) f).Nodup := List.Nodup.filter _ (by decide)
  refine ⟨(oneBoolValues (cs ++ extra) f).take n, if_neg hne, hnd.sublist (List.take_sublist _ _),
    List.length_take_le _ _, fun b hb => mem_oneBoolValues.mp (List.mem_of_mem_take hb), fun hlt v hv => ?_⟩
  rw [List.length_take] at hlt
  rw [List.take_of_length_le (by omega)]
  exact mem_oneBoolValues.mpr ⟨v, hv, rfl⟩

/-- One test, and a choice on the side where it is true. -/
def testThenChoose : Spec (Bool → Bool) ℕ :=
  .test id fun b => if b then .choose [3, 4] fun o => if o = 4 then .ret else .raise .custom else .ret

/-- With map 4 both outcomes return. -/
theorem explored_paths_two : ∃ r : Runs (List (Bool → Bool)) ℕ, Explores oneBool [] testThenChoose [] [[4]] [] r ∧
    r.raised = none ∧ (∀ v, r.results.countP (fun q => oneBool.sat v q) = 1) ∧
    ∀ v, testThenChoose.ending oneBool v [4] 0 = .ends none := by
  obtain ⟨r, hr, -, -, hends⟩ := explored_paths oneBool_exact [] testThenChoose [[4]]
  obtain rfl := hr.unique (explores_root [] testThenChoose [[4]])
  obtain ⟨hcount, hend⟩ := hends rfl
  refine ⟨_, hr, rfl, hcount, fun v => hend v rfl ?_⟩
  cases v with
  | false => exact trivial
  | true =>
    intro o ho
    cases ho
    exact trivial

/-- A path that raises ends the loop: here the false outcome is never run. -/
theorem not_explored_paths : oneBool.Exact ∧ ∃ r : Runs (List (Bool → Bool)) ℕ,
    Explores oneBool [] testThenChoose [] [[3]] [] r ∧
      ∃ v, oneBool.sat v [] = true ∧ testThenChoose.Admits oneBool v [3] 0 ∧
        r.results.countP (fun q => oneBool.sat v q) ≠ 1 := by
  refine ⟨oneBool_exact, ⟨[[id]], some .custom, [[3]]⟩, .of_succ ⟨0, fun n _ => rfl⟩, false, rfl, ?_, ?_⟩
  · exact trivial
  · decide

end Symbex
end Tool
end Klint
