/-
# Checking every step of a run

A machine takes a step for each input, and a monitor checks each step: it sees the state
before the step and the input. `checkAll` runs both and stops at the first check that fails.

`checkAll_iff`: when a step from a good state passes its check exactly under a condition,
and leads to a good state again, a whole run passes exactly when every step of it meets the
condition. Inputs come at times that do not decrease, and a state is good at a time.
-/
import Mathlib.Data.List.Basic
import Mathlib.Order.Basic

namespace Monitor

variable {S P T ε : Type*} (step : S → P → S)

/-- The checks of a run, up to the first that fails. -/
def checkAll (check : S → P → Except ε Unit) : S → List P → Except ε Unit
  | _, [] => .ok ()
  | s, p :: ps =>
    match check s p with
    | .error e => .error e
    | .ok () => checkAll check (step s p) ps

/-- A property of every step of a run, in the state it meets. -/
def Always (Q : S → P → Prop) : S → List P → Prop
  | _, [] => True
  | s, p :: ps => Q s p ∧ Always Q (step s p) ps

variable {step} {check : S → P → Except ε Unit}

theorem checkAll_ok_iff_always : ∀ {ps : List P} {s : S},
    checkAll step check s ps = .ok () ↔ Always step (fun s p => check s p = .ok ()) s ps
  | [], s => by simp [checkAll, Always]
  | p :: ps, s => by
    unfold checkAll Always
    cases hc : check s p with
    | error e => simp
    | ok u =>
      rw [← checkAll_ok_iff_always]
      simp

/-- What holds of every step that a run can take holds of every step of the run. -/
theorem always_of_inv [Preorder T] {time : P → T} {Good : S → T → Prop} {Legal : P → Prop} {Q : S → P → Prop}
    (hstep : ∀ s now p, Good s now → now ≤ time p → Legal p → Q s p ∧ Good (step s p) (time p)) :
    ∀ {ps : List P} {s : S} {now : T}, Good s now → (∀ p ∈ ps, now ≤ time p ∧ Legal p) →
      (ps.Pairwise fun p q => time p ≤ time q) → Always step Q s ps
  | [], _, _, _, _, _ => trivial
  | p :: ps, s, now, hs, hps, hm => by
    rw [List.pairwise_cons] at hm
    obtain ⟨hle, hlegal⟩ := hps p List.mem_cons_self
    obtain ⟨hq, hgood⟩ := hstep s now p hs hle hlegal
    exact ⟨hq, always_of_inv hstep hgood (fun q hq => ⟨hm.1 q hq, (hps q (List.mem_cons_of_mem _ hq)).2⟩) hm.2⟩

theorem always_congr [Preorder T] {time : P → T} {Good : S → T → Prop} {Legal : P → Prop} {Q R : S → P → Prop}
    (hstep : ∀ s now p, Good s now → now ≤ time p → Legal p → (Q s p ↔ R s p) ∧ Good (step s p) (time p)) :
    ∀ {ps : List P} {s : S} {now : T}, Good s now → (∀ p ∈ ps, now ≤ time p ∧ Legal p) →
      (ps.Pairwise fun p q => time p ≤ time q) → (Always step Q s ps ↔ Always step R s ps)
  | [], _, _, _, _, _ => Iff.rfl
  | p :: ps, s, now, hs, hps, hm => by
    rw [List.pairwise_cons] at hm
    obtain ⟨hle, hlegal⟩ := hps p List.mem_cons_self
    obtain ⟨hq, hgood⟩ := hstep s now p hs hle hlegal
    exact and_congr hq (always_congr hstep hgood
      (fun q hq => ⟨hm.1 q hq, (hps q (List.mem_cons_of_mem _ hq)).2⟩) hm.2)

/-- A run passes all its checks exactly when every step of it meets the condition. -/
theorem checkAll_iff [Preorder T] (time : P → T) (Good : S → T → Prop) (Legal : P → Prop) {Q : S → P → Prop}
    (hstep : ∀ s now p, Good s now → now ≤ time p → Legal p →
      (check s p = .ok () ↔ Q s p) ∧ Good (step s p) (time p))
    {ps : List P} {s : S} {now : T} (hs : Good s now) (hps : ∀ p ∈ ps, now ≤ time p ∧ Legal p)
    (hm : ps.Pairwise fun p q => time p ≤ time q) :
    checkAll step check s ps = .ok () ↔ Always step Q s ps :=
  checkAll_ok_iff_always.trans (always_congr hstep hs hps hm)

/-- A run passes all its checks if every step from a good state does. -/
theorem checkAll_ok [Preorder T] (time : P → T) (Good : S → T → Prop) (Legal : P → Prop)
    (hstep : ∀ s now p, Good s now → now ≤ time p → Legal p → check s p = .ok () ∧ Good (step s p) (time p))
    {ps : List P} {s : S} {now : T} (hs : Good s now) (hps : ∀ p ∈ ps, now ≤ time p ∧ Legal p)
    (hm : ps.Pairwise fun p q => time p ≤ time q) : checkAll step check s ps = .ok () :=
  checkAll_ok_iff_always.mpr (always_of_inv hstep hs hps hm)

end Monitor
