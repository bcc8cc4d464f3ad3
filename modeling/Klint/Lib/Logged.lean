/-
# Logged computations and their replay

A computation over a state that may fail and that writes down what it did, and a
second reading of what it wrote: each entry moves a world on and asks something
of it. `wlp` is the partial-correctness rule of such programs: when the
computation returns, and every entry it wrote was in order when it was replayed,
then the postcondition holds of the result, of the replayed world and of the state.
-/
import Mathlib.Data.List.Basic
import Mathlib.Data.List.Forall2
import Mathlib.Tactic.Common

namespace Klint

/-- A computation over `σ` that may fail and that writes entries of type `ε`. -/
def Logged (σ ε α : Type) : Type := σ → Option (α × σ × List ε)

namespace Logged

variable {σ ε α β X : Type}

/-- One computation after the other; the second's entries follow the first's. -/
def seq (m : Logged σ ε α) (f : α → Logged σ ε β) : Logged σ ε β := fun s =>
  match m s with
  | none => none
  | some (a, s₁, l₁) =>
    match f a s₁ with
    | none => none
    | some (b, s₂, l₂) => some (b, s₂, l₁ ++ l₂)

instance : Monad (Logged σ ε) where
  pure a := fun s => some (a, s, [])
  bind := seq

/-- The computation that fails. -/
def fail : Logged σ ε α := fun _ => none

/-- The state. -/
def read : Logged σ ε σ := fun s => some (s, s, [])

def modify (f : σ → σ) : Logged σ ε Unit := fun s => some ((), f s, [])

/-- Write one entry. -/
def emit (e : ε) : Logged σ ε Unit := fun s => some ((), s, [e])

theorem bind_eq_some {m : Logged σ ε α} {f : α → Logged σ ε β} {s s₂ : σ} {b : β} {l : List ε} :
    (m >>= f) s = some (b, s₂, l) ↔ ∃ a s₁ l₁ l₂, m s = some (a, s₁, l₁) ∧
      f a s₁ = some (b, s₂, l₂) ∧ l = l₁ ++ l₂ := by
  change seq m f s = _ ↔ _
  unfold seq
  constructor
  · intro h
    split at h
    · cases h
    · next a s₁ l₁ hm =>
      split at h
      · cases h
      · next b' s' l' hf =>
        cases h
        exact ⟨a, s₁, l₁, l', hm, hf, rfl⟩
  · rintro ⟨a, s₁, l₁, l₂, hm, hf, rfl⟩
    simp only [hm, hf]

/-! ### Frames -/

/-- A computation moves the state along a relation. -/
def Within (R : σ → σ → Prop) (m : Logged σ ε α) : Prop :=
  ∀ s a s' l, m s = some (a, s', l) → R s s'

section Within

variable {R : σ → σ → Prop}

theorem within_fail : Within R (fail : Logged σ ε α) := by
  intro s a s' l h
  cases h

theorem within_modify {g : σ → σ} (hg : ∀ s, R s (g s)) : Within R (modify g : Logged σ ε Unit) := by
  intro s a s' l h
  cases h
  exact hg s

section Refl

variable (hr : ∀ s, R s s)
include hr

theorem within_pure (a : α) : Within R (pure a : Logged σ ε α) := by
  intro s a' s' l h
  cases h
  exact hr s

theorem within_read : Within R (read : Logged σ ε σ) := by
  intro s a s' l h
  cases h
  exact hr s

theorem within_emit (e : ε) : Within R (emit e) := by
  intro s a s' l h
  cases h
  exact hr s

end Refl

variable (ht : ∀ s s' s'', R s s' → R s' s'' → R s s'')
include ht

theorem within_bind {m : Logged σ ε α} {k : α → Logged σ ε β} (hm : Within R m) (hk : ∀ a, Within R (k a)) :
    Within R (m >>= k) := by
  intro s b s₂ l h
  obtain ⟨a, s₁, l₁, l₂, h₁, h₂, -⟩ := bind_eq_some.mp h
  exact ht s s₁ s₂ (hm s a s₁ l₁ h₁) (hk a s₁ b s₂ l₂ h₂)

theorem within_mapM (hr : ∀ s, R s s) {k : α → Logged σ ε β} (hk : ∀ a, Within R (k a)) :
    ∀ as : List α, Within R (as.mapM' k)
  | [] => within_pure hr []
  | a :: as => within_bind ht (hk a) fun b =>
      within_bind ht (within_mapM hr hk as) fun bs => within_pure hr (b :: bs)

end Within

end Logged

/-- How a log is replayed on a world `X`: what an entry does to it, and what must
hold of it for the entry to be in order. -/
structure Replay (X ε : Type) where
  step : X → ε → X
  ok : X → ε → Prop

namespace Replay

variable {σ ε α β X : Type} (R : Replay X ε)

/-- The world after a log. -/
def run : X → List ε → X
  | x, [] => x
  | x, e :: l => run (R.step x e) l

/-- Every entry is in order in the world it is replayed on. -/
def Ok : X → List ε → Prop
  | _, [] => True
  | x, e :: l => R.ok x e ∧ Ok (R.step x e) l

theorem run_append : ∀ (x : X) (l₁ l₂ : List ε), R.run x (l₁ ++ l₂) = R.run (R.run x l₁) l₂
  | _, [], _ => rfl
  | x, e :: l₁, l₂ => run_append (R.step x e) l₁ l₂

theorem ok_append : ∀ (x : X) (l₁ l₂ : List ε),
    R.Ok x (l₁ ++ l₂) ↔ R.Ok x l₁ ∧ R.Ok (R.run x l₁) l₂
  | _, [], _ => by simp [Ok, run]
  | x, e :: l₁, l₂ => by simp only [List.cons_append, Ok, run, ok_append, and_assoc]

/-! ### The rules -/

/-- The weakest liberal precondition of a logged computation under a replay. -/
def wlp (m : Logged σ ε α) (Q : α → X → σ → Prop) (x : X) (s : σ) : Prop :=
  ∀ a s' l, m s = some (a, s', l) → R.Ok x l → Q a (R.run x l) s'

variable {R} {x : X} {s : σ}

theorem wlp_mono {m : Logged σ ε α} {Q Q' : α → X → σ → Prop} (h : R.wlp m Q x s)
    (hq : ∀ a x' s', Q a x' s' → Q' a x' s') : R.wlp m Q' x s :=
  fun a s' l hm hl => hq a _ s' (h a s' l hm hl)

theorem wlp_pure {a : α} {Q : α → X → σ → Prop} (h : Q a x s) :
    R.wlp (pure a : Logged σ ε α) Q x s := by
  intro a' s' l hm _
  cases hm
  exact h

theorem wlp_bind {m : Logged σ ε α} {f : α → Logged σ ε β} {Q : β → X → σ → Prop}
    (h : R.wlp m (fun a x' s' => R.wlp (f a) Q x' s') x s) : R.wlp (m >>= f) Q x s := by
  intro b s₂ l hm hl
  obtain ⟨a, s₁, l₁, l₂, hm₁, hm₂, rfl⟩ := Logged.bind_eq_some.mp hm
  rw [ok_append] at hl
  rw [run_append]
  exact h a s₁ l₁ hm₁ hl.1 b s₂ l₂ hm₂ hl.2

theorem wlp_fail {Q : α → X → σ → Prop} : R.wlp (Logged.fail : Logged σ ε α) Q x s := by
  intro a s' l hm
  cases hm

theorem wlp_read {Q : σ → X → σ → Prop} (h : Q s x s) :
    R.wlp (Logged.read : Logged σ ε σ) Q x s := by
  intro a s' l hm _
  cases hm
  exact h

theorem wlp_modify {f : σ → σ} {Q : Unit → X → σ → Prop} (h : Q () x (f s)) :
    R.wlp (Logged.modify f : Logged σ ε Unit) Q x s := by
  intro a s' l hm _
  cases hm
  exact h

theorem wlp_emit {e : ε} {Q : Unit → X → σ → Prop} (h : R.ok x e → Q () (R.step x e) s) :
    R.wlp (Logged.emit e : Logged σ ε Unit) Q x s := by
  intro a s' l hm hl
  cases hm
  exact h hl.1

/-- Each element of a list has its partner in a related one. -/
theorem forall₂_right {r : α → β → Prop} : ∀ {as : List α} {bs : List β}, List.Forall₂ r as bs →
    ∀ a ∈ as, ∃ b ∈ bs, r a b
  | _, _, .nil, _, ha => by cases ha
  | _, _, .cons hr h, a, ha => by
    rcases List.mem_cons.mp ha with rfl | ha
    · exact ⟨_, List.mem_cons_self, hr⟩
    · obtain ⟨b, hb, hab⟩ := forall₂_right h a ha
      exact ⟨b, List.mem_cons_of_mem _ hb, hab⟩

theorem forall₂_left {r : α → β → Prop} {as : List α} {bs : List β} (h : List.Forall₂ r as bs) :
    ∀ b ∈ bs, ∃ a ∈ as, r a b :=
  forall₂_right (List.Forall₂.flip (R := flip r) h)

/-- A loop that collects results: what the body establishes of one element must
survive the steps for the other ones. -/
theorem wlp_mapM {f : α → Logged σ ε β} (I : X → σ → Prop) (Good : α → β → X → σ → Prop) :
    ∀ (as : List α) {x : X} {s : σ},
    (∀ a ∈ as, ∀ x s, I x s → R.wlp (f a) (fun b x' s' => I x' s' ∧ Good a b x' s' ∧
      ∀ a' b', Good a' b' x s → Good a' b' x' s') x s) → I x s →
    R.wlp (as.mapM' f) (fun bs x' s' => I x' s' ∧ List.Forall₂ (fun a b => Good a b x' s') as bs ∧
      ∀ a' b', Good a' b' x s → Good a' b' x' s') x s
  | [], _, _, _, hI => wlp_pure ⟨hI, List.Forall₂.nil, fun _ _ h => h⟩
  | a :: as, x, s, hf, hI => by
    refine wlp_bind (wlp_mono (hf a List.mem_cons_self x s hI) ?_)
    rintro b x₁ s₁ ⟨hI₁, hb, hkeep₁⟩
    refine wlp_bind (wlp_mono (wlp_mapM I Good as (fun a' ha' => hf a' (List.mem_cons_of_mem _ ha')) hI₁) ?_)
    rintro bs x₂ s₂ ⟨hI₂, hbs, hkeep₂⟩
    exact wlp_pure ⟨hI₂, List.Forall₂.cons (hkeep₂ _ _ hb) hbs, fun a' b' h => hkeep₂ _ _ (hkeep₁ _ _ h)⟩

end Replay
end Klint
