/-
# Search over choices by running again

A computation asks for choices on its way, each out of a list of alternatives. The
search cannot go back to a choice: it runs the computation again from the start, with
the lists as it left them, and the head of each list is the answer. A run that asks
for more adds lists. After a run that fails, the lists with one alternative left are
dropped from the end, and the last list that remains loses its head.

No alternative may answer two questions: those at the head of a list that answered
before are taken out of it, and a list that this empties ends the search.

`search` is this loop, `dfs` the traversal of the tree of all answers that it stands
for (`search_eq_dfs`). `dfs_eq_found` and `dfs_of_first` say which answers the
traversal stops at, in terms of the answers alone.
-/
import Mathlib.Data.List.DropRight
import Mathlib.Tactic.Common

namespace Klint

/-- A computation that asks; `alts` are the alternatives. -/
inductive Asking (A R : Type)
  | ret (r : R)
  | ask (alts : List A) (next : A → Asking A R)

namespace Asking

/-- How a search ends: a result that stops it, with the answers that led there; a list
that was emptied; the last result when there is no alternative left. -/
inductive Outcome (A R : Type)
  | found (r : R) (answers : List A)
  | emptied
  | exhausted (r : R)
deriving DecidableEq

variable {A R : Type} [DecidableEq A]

/-- A run, after the answers `used`; the lists are those of the questions to come. There is
no result when a list is emptied. -/
def run : Asking A R → List A → List (List A) → Option R × List (List A)
  | ret r, _, lists => (some r, lists)
  | ask alts next, used, lists =>
    match (lists.headD alts).dropWhile fun a => decide (a ∈ used) with
    | [] => (none, [] :: lists.tail)
    | a :: rest =>
      ((run (next a) (used ++ [a]) lists.tail).1, (a :: rest) :: (run (next a) (used ++ [a]) lists.tail).2)

/-- The lists for the next run. -/
def advance : List (List A) → Option (List (List A))
  | [] => none
  | l :: ls =>
    match advance ls with
    | some ls' => some (l :: ls')
    | none => if l.length = 1 then none else some [l.tail]

/-- The loop, `stop` says which results end it. -/
def search (stop : R → Bool) (t : Asking A R) : ℕ → List (List A) → Option (Outcome A R)
  | 0, _ => none
  | n + 1, lists =>
    match run t [] lists with
    | (none, _) => some .emptied
    | (some r, lists) =>
      if stop r then some (.found r (lists.filterMap List.head?))
      else match advance lists with
        | none => some (.exhausted r)
        | some lists => search stop t n lists

/-- The alternatives one after the other, `f` the outcome below each. -/
def firstOf (used : List A) (f : A → Outcome A R) : List A → Outcome A R
  | [] => .emptied
  | a :: rest =>
    if a ∈ used then firstOf used f rest
    else match f a with
      | .exhausted r => if rest = [] then .exhausted r else firstOf used f rest
      | .found r answers => .found r answers
      | .emptied => .emptied

/-- The traversal, depth first. -/
def dfs (stop : R → Bool) : Asking A R → List A → Outcome A R
  | ret r, used => if stop r then .found r used else .exhausted r
  | ask alts next, used => firstOf used (fun a => dfs stop (next a) (used ++ [a])) alts

/-! ### The loop is the traversal -/

/-- With enough fuel, and from then on. -/
def Searches (stop : R → Bool) (t : Asking A R) (lists : List (List A)) (out : Outcome A R) : Prop :=
  ∃ N, ∀ n, N ≤ n → search stop t n lists = some out

/-- What the loop does after a run below the lists `S`, with result `r`, was the last one there. -/
def After (stop : R → Bool) (t : Asking A R) (S : List (List A)) (r : R) (out : Outcome A R) : Prop :=
  match advance S with
  | none => out = .exhausted r
  | some lists => Searches stop t lists out

omit [DecidableEq A] in
theorem advance_append_singleton (S : List (List A)) (l : List A) :
    advance (S ++ [l]) = if l.length = 1 then advance S else some (S ++ [l.tail]) := by
  induction S with
  | nil => simp [advance]
  | cons s S ih =>
    rw [List.cons_append, advance, ih]
    by_cases h : l.length = 1
    · simp only [if_pos h, advance]
    · simp only [if_neg h, List.cons_append]

variable {stop : R → Bool} {t : Asking A R} {lists : List (List A)} {out : Outcome A R} {r : R}

/-- Enough fuel after the first run is enough fuel. -/
theorem Searches.of_succ (h : ∃ N, ∀ n, N ≤ n → search stop t (n + 1) lists = some out) :
    Searches stop t lists out := by
  obtain ⟨N, hN⟩ := h
  refine ⟨N + 1, fun n hn => ?_⟩
  obtain ⟨n, rfl⟩ : ∃ m, n = m + 1 := ⟨n - 1, by omega⟩
  exact hN n (by omega)

/-- The loop ends one way only. -/
theorem Searches.unique {out' : Outcome A R} (h : Searches stop t lists out) (h' : Searches stop t lists out') :
    out = out' := by
  obtain ⟨N, hN⟩ := h
  obtain ⟨N', hN'⟩ := h'
  have := (hN (max N N') (le_max_left _ _)).symm.trans (hN' (max N N') (le_max_right _ _))
  exact Option.some.inj this

theorem searches_emptied {ls : List (List A)} (h : run t [] lists = (none, ls)) : Searches stop t lists .emptied :=
  Searches.of_succ ⟨0, fun n _ => by rw [search, h]⟩

theorem searches_found {ls : List (List A)} (h : run t [] lists = (some r, ls)) (hr : stop r = true) :
    Searches stop t lists (.found r (ls.filterMap List.head?)) :=
  Searches.of_succ ⟨0, fun n _ => by simp only [search, h, hr, if_true]⟩

theorem searches_after {ls : List (List A)} (h : run t [] lists = (some r, ls)) (hr : stop r = false)
    (ha : After stop t ls r out) : Searches stop t lists out := by
  unfold After at ha
  rcases hadv : advance ls with _ | next
  · rw [hadv] at ha
    exact Searches.of_succ ⟨0, fun n _ => by simp only [search, h, hr, hadv, ha, Bool.false_eq_true, if_false]⟩
  · rw [hadv] at ha
    obtain ⟨N, hN⟩ := ha
    exact Searches.of_succ ⟨N, fun n hn => by
      simp only [search, h, hr, hadv, Bool.false_eq_true, if_false]; exact hN n hn⟩

/-- Two sets of lists that start the same run are the same to the loop. -/
theorem Searches.congr {lists' : List (List A)} (h : run t [] lists = run t [] lists')
    (hs : Searches stop t lists' out) : Searches stop t lists out := by
  obtain ⟨N, hN⟩ := hs
  refine Searches.of_succ ⟨N, fun n hn => ?_⟩
  rw [← hN (n + 1) (by omega), search, search, h]

/-- The lists `S` lead to `t` with the answers `used`: a run of the whole is a run of `t`. -/
def Leads (root : Asking A R) (S : List (List A)) (used : List A) (t : Asking A R) : Prop :=
  ∀ ls, run root [] (S ++ ls) = ((run t used ls).1, S ++ (run t used ls).2)

theorem Leads.snoc {root : Asking A R} {S : List (List A)} {used alts : List A} {next : A → Asking A R}
    (h : Leads root S used (ask alts next)) {a : A} (rest : List A) (ha : a ∉ used) :
    Leads root (S ++ [a :: rest]) (used ++ [a]) (next a) := by
  intro ls
  rw [List.append_assoc, h]
  simp only [run, List.singleton_append, List.headD_cons, List.dropWhile_cons, ha, decide_false,
    Bool.false_eq_true, if_false, List.tail_cons, List.append_assoc]

/-- What the loop does from the lists `S'` on where a traversal ends so: with the result that stops it, or, after
its last run, as after a run below the lists `S`. -/
def Ends (stop : R → Bool) (root : Asking A R) (S S' : List (List A)) : Outcome A R → Prop
  | .found r answers => Searches stop root S' (.found r answers)
  | .emptied => Searches stop root S' .emptied
  | .exhausted r => ∀ out, After stop root S r out → Searches stop root S' out

theorem Ends.congr {root : Asking A R} {S S' S'' : List (List A)} (h : run root [] S'' = run root [] S') :
    ∀ {o : Outcome A R}, Ends stop root S S' o → Ends stop root S S'' o
  | .found _ _, hs => Searches.congr h hs
  | .emptied, hs => Searches.congr h hs
  | .exhausted _, hs => fun out hout => (hs out hout).congr h

/-- After the last run below `S'` the loop goes on with the lists `S''`. -/
theorem Ends.advance {root : Asking A R} {S S' S'' : List (List A)} (h : Ends stop root S' S' (.exhausted r))
    (hadv : Asking.advance S' = some S'') : ∀ {o : Outcome A R}, Ends stop root S S'' o → Ends stop root S S' o := by
  have hafter : ∀ out, Searches stop root S'' out → Searches stop root S' out := by
    intro out hs
    apply h
    unfold After
    rwa [hadv]
  intro o hs
  cases o with
  | found r answers => exact hafter _ hs
  | emptied => exact hafter _ hs
  | exhausted r => exact fun out hout => hafter out (hs out hout)

/-- What the loop does below a node: the traversal of the node, and then the next run. -/
theorem searches_below (stop : R → Bool) {root : Asking A R} : ∀ (t : Asking A R) {S : List (List A)} {used : List A},
    Leads root S used t → S.filterMap List.head? = used → Ends stop root S S (dfs stop t used)
  | ret r, S, used, hl, hS => by
    have hrun : run root [] S = (some r, S) := by
      have := hl []
      rwa [List.append_nil, run, List.append_nil] at this
    unfold dfs
    by_cases hr : stop r = true
    · rw [if_pos hr, ← hS]
      exact searches_found hrun hr
    · rw [if_neg hr]
      exact fun out ha => searches_after hrun (eq_false_of_ne_true hr) ha
  | ask alts next, S, used, hl, hS => by
    -- what is left of the list of alternatives, from any moment on
    have hlist : ∀ l : List A,
        Ends stop root S (S ++ [l]) (firstOf used (fun a => dfs stop (next a) (used ++ [a])) l) := by
      intro l
      induction l with
      | nil =>
        have hrun := hl [[]]
        simp only [run, List.headD_cons, List.dropWhile_nil] at hrun
        exact searches_emptied hrun
      | cons a rest ih =>
        unfold firstOf
        by_cases ha : a ∈ used
        · -- the head answered before, so the list is taken for its tail
          rw [if_pos ha]
          refine ih.congr ?_
          rw [hl, hl]
          simp only [run, List.headD_cons, List.dropWhile_cons, ha, decide_true, if_true, List.tail_cons]
        · rw [if_neg ha]
          have hbelow := searches_below stop (next a) (hl.snoc rest ha) (by
            rw [List.filterMap_append, hS]
            rfl)
          rcases hd : dfs stop (next a) (used ++ [a]) with ⟨r, answers⟩ | _ | r <;> rw [hd] at hbelow
          · exact hbelow
          · exact hbelow
          · have hadv := advance_append_singleton S (a :: rest)
            by_cases hrest : rest = []
            · subst hrest
              rw [if_pos List.length_singleton] at hadv
              dsimp only
              rw [if_pos rfl]
              intro out hout
              apply hbelow
              unfold After at hout ⊢
              rwa [hadv]
            · rw [if_neg (by simpa using hrest), List.tail_cons] at hadv
              dsimp only
              rw [if_neg hrest]
              exact hbelow.advance hadv ih
    refine (hlist alts).congr ?_
    have h := hl []
    rw [List.append_nil] at h
    rw [h, hl]
    simp only [run, List.headD_nil, List.headD_cons, List.tail_nil, List.tail_cons]

/-- The loop ends, and as the traversal does. -/
theorem search_eq_dfs (stop : R → Bool) (t : Asking A R) : Searches stop t [] (dfs stop t []) := by
  have hl : Leads t [] [] t := fun ls => by simp only [List.nil_append]
  have h := searches_below stop t hl (rfl : ([] : List (List A)).filterMap List.head? = [])
  cases hd : dfs stop t [] with
  | found r answers =>
    rw [hd] at h
    exact h
  | emptied =>
    rw [hd] at h
    exact h
  | exhausted r =>
    rw [hd] at h
    exact h _ rfl

/-! ### Which answers the traversal stops at -/

/-- What a computation does first: it ends, or it asks. -/
inductive Event (A R : Type)
  | ends (r : R)
  | asks (alts : List A)
deriving DecidableEq

/-- What a computation does after the given answers. -/
def eventAt : Asking A R → List A → Event A R
  | ret r, _ => .ends r
  | ask alts _, [] => .asks alts
  | ask _ next, a :: as => eventAt (next a) as

/-! The definitions are about the events `f` after each list of answers; `used` are the answers
to earlier questions. -/

/-- Every answer is an alternative that no question before it had. -/
def Offered (used : List A) (f : List A → Event A R) (answers : List A) : Prop :=
  ∀ p a s, answers = p ++ a :: s → ∃ alts, f p = .asks alts ∧ a ∈ alts ∧ a ∉ used ++ p

/-- Where the answers differ first, those of `p` are the earlier alternative. -/
def Precedes (f : List A → Event A R) (p answers : List A) : Prop :=
  ∃ q x y r s alts, p = q ++ x :: r ∧ answers = q ++ y :: s ∧ f q = .asks alts ∧ alts.idxOf x < alts.idxOf y

/-- The search goes on: the result does not stop it, or the last alternative, and so the list
when it is down to that one, was not used before. -/
def GoesOn (stop : R → Bool) (used : List A) (f : List A → Event A R) (p : List A) : Prop :=
  match f p with
  | .ends r => stop r = false
  | .asks alts => ∃ a, alts.getLast? = some a ∧ a ∉ used ++ p

variable {used alts answers p : List A} {next : A → Asking A R} {a : A}

omit [DecidableEq A] in
theorem offered_nil {f : List A → Event A R} : Offered used f [] :=
  fun p a s h => absurd h.symm (by simp)

omit [DecidableEq A] in
/-- The first answer, and then the others. -/
theorem offered_ask : Offered used (eventAt (ask alts next)) (a :: p) ↔
    a ∈ alts ∧ a ∉ used ∧ Offered (used ++ [a]) (eventAt (next a)) p := by
  constructor
  · intro h
    obtain ⟨alts', he, ha, hu⟩ := h [] a p rfl
    cases he
    refine ⟨ha, by rwa [List.append_nil] at hu, fun q x s hq => ?_⟩
    obtain ⟨alts', he, hx, hu'⟩ := h (a :: q) x s (by rw [hq, List.cons_append])
    exact ⟨alts', he, hx, by rwa [List.append_assoc]⟩
  · rintro ⟨ha, hu, h⟩ q x s hq
    cases q with
    | nil =>
      obtain ⟨rfl, rfl⟩ := List.cons.inj hq
      exact ⟨alts, rfl, ha, by rwa [List.append_nil]⟩
    | cons b q =>
      obtain ⟨rfl, hq'⟩ := List.cons.inj hq
      obtain ⟨alts', he, hx, hu'⟩ := h q x s hq'
      exact ⟨alts', he, hx, by rwa [List.append_assoc] at hu'⟩

omit [DecidableEq A] in
theorem offered_ret : Offered used (eventAt (ret r : Asking A R)) p ↔ p = [] := by
  refine ⟨fun h => ?_, fun h => h ▸ offered_nil⟩
  cases p with
  | nil => rfl
  | cons a p =>
    obtain ⟨alts, he, -⟩ := h [] a p rfl
    cases he

theorem precedes_ask {b : A} : Precedes (eventAt (ask alts next)) (b :: p) (a :: answers) ↔
    alts.idxOf b < alts.idxOf a ∨ b = a ∧ Precedes (eventAt (next a)) p answers := by
  constructor
  · rintro ⟨q, x, y, r, s, alts', hp, ha, he, hlt⟩
    cases q with
    | nil =>
      obtain ⟨rfl, -⟩ := List.cons.inj hp
      obtain ⟨rfl, -⟩ := List.cons.inj ha
      cases he
      exact Or.inl hlt
    | cons c q =>
      obtain ⟨rfl, hp'⟩ := List.cons.inj hp
      obtain ⟨rfl, ha'⟩ := List.cons.inj ha
      exact Or.inr ⟨rfl, q, x, y, r, s, alts', hp', ha', he, hlt⟩
  · rintro (hlt | ⟨rfl, q, x, y, r, s, alts', hp, ha, he, hlt⟩)
    · exact ⟨[], b, a, p, answers, alts, rfl, rfl, rfl, hlt⟩
    · exact ⟨b :: q, x, y, r, s, alts', by rw [hp, List.cons_append], by rw [ha, List.cons_append], he, hlt⟩

theorem not_precedes_nil {f : List A → Event A R} : ¬Precedes f p [] := by
  rintro ⟨q, x, y, r, s, alts, -, h, -⟩
  exact absurd h.symm (by simp)

omit [DecidableEq A] in
theorem goesOn_ask : GoesOn stop used (eventAt (ask alts next)) (a :: p) ↔
    GoesOn stop (used ++ [a]) (eventAt (next a)) p := by
  unfold GoesOn
  rw [eventAt, List.append_assoc, List.singleton_append]

/-- What stops the traversal of a list of alternatives: one of them, after others that are used
or exhausted. -/
theorem firstOf_eq_found {f : A → Outcome A R} {r : R} : ∀ {l : List A}, firstOf used f l = .found r answers →
    ∃ pre a post, l = pre ++ a :: post ∧ a ∉ used ∧ f a = .found r answers ∧
      ∀ x ∈ pre, x ∈ used ∨ ∃ r, f x = .exhausted r
  | [], h => by cases h
  | a :: l, h => by
    unfold firstOf at h
    by_cases ha : a ∈ used
    · rw [if_pos ha] at h
      obtain ⟨pre, b, post, rfl, hb, hf, hpre⟩ := firstOf_eq_found h
      exact ⟨a :: pre, b, post, rfl, hb, hf, List.forall_mem_cons.mpr ⟨Or.inl ha, hpre⟩⟩
    · rw [if_neg ha] at h
      rcases hfa : f a with ⟨r', answers'⟩ | _ | r' <;> simp only [hfa] at h
      · rw [← h]
        exact ⟨[], a, l, rfl, ha, hfa, by simp⟩
      · cases h
      · by_cases hl : l = []
        · rw [if_pos hl] at h
          cases h
        · rw [if_neg hl] at h
          obtain ⟨pre, b, post, rfl, hb, hf, hpre⟩ := firstOf_eq_found h
          exact ⟨a :: pre, b, post, rfl, hb, hf, List.forall_mem_cons.mpr ⟨Or.inr ⟨r', hfa⟩, hpre⟩⟩

/-- A list of alternatives is exhausted when each is, and the last was not used before. -/
theorem firstOf_eq_exhausted {f : A → Outcome A R} {r : R} : ∀ {l : List A}, firstOf used f l = .exhausted r →
    (∃ a, l.getLast? = some a ∧ a ∉ used) ∧ ∀ x ∈ l, x ∈ used ∨ ∃ r, f x = .exhausted r
  | [], h => by cases h
  | a :: l, h => by
    unfold firstOf at h
    by_cases ha : a ∈ used
    · rw [if_pos ha] at h
      obtain ⟨⟨b, hb, hbu⟩, hall⟩ := firstOf_eq_exhausted h
      refine ⟨⟨b, ?_, hbu⟩, List.forall_mem_cons.mpr ⟨Or.inl ha, hall⟩⟩
      rw [List.getLast?_cons, hb]
      rfl
    · rw [if_neg ha] at h
      rcases hfa : f a with ⟨r', answers'⟩ | _ | r' <;> simp only [hfa] at h
      · cases h
      · cases h
      · by_cases hl : l = []
        · subst hl
          exact ⟨⟨a, rfl, ha⟩, by simpa using Or.inr ⟨r', hfa⟩⟩
        · rw [if_neg hl] at h
          obtain ⟨⟨b, hb, hbu⟩, hall⟩ := firstOf_eq_exhausted h
          refine ⟨⟨b, ?_, hbu⟩, List.forall_mem_cons.mpr ⟨Or.inr ⟨r', hfa⟩, hall⟩⟩
          rw [List.getLast?_cons, hb]
          rfl

/-- The traversal exhausts what goes on everywhere. -/
theorem dfs_eq_exhausted : ∀ (t : Asking A R) {used : List A} {r : R}, dfs stop t used = .exhausted r →
    ∀ p, Offered used (eventAt t) p → GoesOn stop used (eventAt t) p
  | ret r, used, r', h, p, _ => by
    unfold dfs at h
    by_cases hr : stop r = true
    · rw [if_pos hr] at h
      cases h
    · exact eq_false_of_ne_true hr
  | ask alts next, used, r', h, [], _ => by
    obtain ⟨⟨a, ha, hu⟩, -⟩ := firstOf_eq_exhausted h
    exact ⟨a, ha, by rwa [List.append_nil]⟩
  | ask alts next, used, r', h, a :: p, hp => by
    obtain ⟨ha, hu, hp⟩ := offered_ask.mp hp
    obtain ⟨-, hall⟩ := firstOf_eq_exhausted h
    obtain ⟨r'', hr''⟩ := (hall a ha).resolve_left hu
    exact goesOn_ask.mpr (dfs_eq_exhausted (next a) hr'' p hp)

/-- The answers that the traversal stops at were offered, and the search goes on at all answers
before them. -/
theorem dfs_eq_found : ∀ (t : Asking A R) {used : List A} {r : R} {answers : List A},
    dfs stop t used = .found r answers →
    ∃ as, answers = used ++ as ∧ Offered used (eventAt t) as ∧ eventAt t as = .ends r ∧ stop r = true ∧
      ∀ p, Offered used (eventAt t) p → Precedes (eventAt t) p as → GoesOn stop used (eventAt t) p
  | ret r, used, r', answers, h => by
    unfold dfs at h
    by_cases hr : stop r = true
    · rw [if_pos hr] at h
      cases h
      exact ⟨[], by simp, offered_nil, rfl, hr, fun p _ hp => absurd hp not_precedes_nil⟩
    · rw [if_neg hr] at h
      cases h
  | ask alts next, used, r', answers, h => by
    obtain ⟨pre, a, post, halts, hu, hf, hpre⟩ := firstOf_eq_found h
    obtain ⟨as, rfl, hoff, hends, hr, hbefore⟩ := dfs_eq_found (next a) hf
    have hmem : a ∈ alts := by rw [halts]; simp
    refine ⟨a :: as, by rw [List.append_assoc, List.singleton_append], offered_ask.mpr ⟨hmem, hu, hoff⟩, hends,
      hr, ?_⟩
    rintro (_ | ⟨b, p⟩) hp hprec
    · obtain ⟨q, x, y, r, s, alts', h', -⟩ := hprec
      exact absurd h'.symm (by simp)
    · obtain ⟨hb, hbu, hp⟩ := offered_ask.mp hp
      refine goesOn_ask.mpr ?_
      rcases precedes_ask.mp hprec with hlt | ⟨rfl, hprec⟩
      · -- an earlier alternative: everything below it went on
        have hbpre : b ∈ pre := by
          by_contra hne
          have hanot : a ∉ pre := fun hmem' => by
            obtain ⟨r'', hr''⟩ := (hpre a hmem').resolve_left hu
            rw [hf] at hr''
            cases hr''
          rw [halts, List.idxOf_append_of_notMem hne, List.idxOf_append_of_notMem hanot, List.idxOf_cons_self] at hlt
          omega
        obtain ⟨r'', hr''⟩ := (hpre b hbpre).resolve_left hbu
        exact dfs_eq_exhausted (next b) hr'' p hp
      · exact hbefore p hp hprec

/-- The last alternative is reached. -/
theorem firstOf_of_exhausted {f : A → Outcome A R} : ∀ {l : List A}, l.getLast? = some a → a ∉ used →
    (∀ x ∈ l, x ∉ used → ∃ r, f x = .exhausted r) → ∃ r, firstOf used f l = .exhausted r
  | [], h, _, _ => by cases h
  | [b], h, ha, hall => by
    obtain rfl : b = a := by simpa using h
    obtain ⟨r, hr⟩ := hall b List.mem_cons_self ha
    exact ⟨r, by simp [firstOf, ha, hr]⟩
  | b :: c :: l, h, ha, hall => by
    obtain ⟨r, hr⟩ := firstOf_of_exhausted (l := c :: l) (by rwa [List.getLast?_cons_cons] at h) ha
      fun x hx => hall x (List.mem_cons_of_mem _ hx)
    by_cases hb : b ∈ used
    · exact ⟨r, by rw [firstOf, if_pos hb, hr]⟩
    · obtain ⟨r', hr'⟩ := hall b List.mem_cons_self hb
      exact ⟨r, by simp only [firstOf, if_neg hb, hr', List.cons_ne_nil, if_false]; exact hr⟩

/-- Where the search goes on everywhere, the traversal is exhausted. -/
theorem dfs_of_goesOn : ∀ (t : Asking A R) {used : List A},
    (∀ p, Offered used (eventAt t) p → GoesOn stop used (eventAt t) p) → ∃ r, dfs stop t used = .exhausted r
  | ret r, used, h => ⟨r, by
    have hr : stop r = false := h [] offered_nil
    rw [dfs, hr]
    rfl⟩
  | ask alts next, used, h => by
    obtain ⟨a, ha, hu⟩ : ∃ a, alts.getLast? = some a ∧ a ∉ used ++ [] := h [] offered_nil
    rw [List.append_nil] at hu
    have hall : ∀ x ∈ alts, x ∉ used → ∃ r, dfs stop (next x) (used ++ [x]) = .exhausted r := fun x hx hxu =>
      dfs_of_goesOn (next x) fun p hp => goesOn_ask.mp (h (x :: p) (offered_ask.mpr ⟨hx, hxu, hp⟩))
    exact firstOf_of_exhausted ha hu hall

/-- The alternatives before the one that stops the traversal are used or exhausted. -/
theorem firstOf_of_found {f : A → Outcome A R} {r : R} (hu : a ∉ used) (hf : f a = .found r answers) :
    ∀ {l : List A}, a ∈ l → (∀ x ∈ l, x ∉ used → l.idxOf x < l.idxOf a → ∃ r, f x = .exhausted r) →
    firstOf used f l = .found r answers
  | [], h, _ => by cases h
  | b :: l, h, hexh => by
    by_cases hba : b = a
    · subst hba
      simp only [firstOf, if_neg hu, hf]
    · have hal : a ∈ l := (List.mem_cons.mp h).resolve_left fun h => hba h.symm
      have hrec : firstOf used f l = .found r answers := firstOf_of_found hu hf hal fun x hx hxu hlt => by
        by_cases hbx : b = x
        · subst hbx
          exact hexh b List.mem_cons_self hxu (by
            rw [List.idxOf_cons_self, List.idxOf_cons_ne _ hba]
            omega)
        · exact hexh x (List.mem_cons_of_mem _ hx) hxu (by
            rw [List.idxOf_cons_ne _ hbx, List.idxOf_cons_ne _ hba]
            omega)
      by_cases hb : b ∈ used
      · rw [firstOf, if_pos hb, hrec]
      · obtain ⟨r', hr'⟩ := hexh b List.mem_cons_self hb (by
          rw [List.idxOf_cons_self, List.idxOf_cons_ne _ hba]
          omega)
        have hne : l ≠ [] := List.ne_nil_of_mem hal
        simp only [firstOf, if_neg hb, hr', if_neg hne, hrec]

/-- Answers that were offered and stop the search are what the traversal stops at, if the search
goes on at all answers before them. -/
theorem dfs_of_first : ∀ (t : Asking A R) {used as : List A} {r : R}, Offered used (eventAt t) as →
    eventAt t as = .ends r → stop r = true →
    (∀ p, Offered used (eventAt t) p → Precedes (eventAt t) p as → GoesOn stop used (eventAt t) p) →
    dfs stop t used = .found r (used ++ as)
  | ret r, used, as, r', hoff, hends, hr, _ => by
    cases offered_ret.mp hoff
    cases hends
    rw [dfs, if_pos hr, List.append_nil]
  | ask alts next, used, [], r', _, hends, _, _ => by cases hends
  | ask alts next, used, a :: as, r', hoff, hends, hr, hbefore => by
    obtain ⟨ha, hu, hoff⟩ := offered_ask.mp hoff
    have hbelow : dfs stop (next a) (used ++ [a]) = .found r' (used ++ a :: as) := by
      rw [dfs_of_first (next a) hoff hends hr fun p hp hprec => goesOn_ask.mp
        (hbefore (a :: p) (offered_ask.mpr ⟨ha, hu, hp⟩) (precedes_ask.mpr (Or.inr ⟨rfl, hprec⟩))),
        List.append_assoc, List.singleton_append]
    have hexh : ∀ x ∈ alts, x ∉ used → alts.idxOf x < alts.idxOf a →
        ∃ r, dfs stop (next x) (used ++ [x]) = .exhausted r := fun x hx hxu hlt =>
      dfs_of_goesOn (next x) fun p hp => goesOn_ask.mp
        (hbefore (x :: p) (offered_ask.mpr ⟨hx, hxu, hp⟩) (precedes_ask.mpr (Or.inl hlt)))
    exact firstOf_of_found hu hbelow ha hexh

end Asking

end Klint
