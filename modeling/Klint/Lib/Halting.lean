/-
# Computations that may halt

A computation over a state that may stop the program. What it did to the state
until then stays, so there are two postconditions, one for where it returns and
one for where it halts: `Keeps` is the rule for them, and for an invariant in
between. If the second cannot hold, the computation returns (`Keeps.returns`).
-/
import Mathlib.Data.List.Basic
import Mathlib.Tactic.Common

namespace Klint

/-- A computation over `σ`; it halts where there is no result. -/
def Halting (σ α : Type) : Type := σ → Option α × σ

namespace Halting

variable {σ α β : Type}

def seq (m : Halting σ α) (f : α → Halting σ β) : Halting σ β := fun s =>
  match m s with
  | (none, s) => (none, s)
  | (some a, s) => f a s

instance : Monad (Halting σ) where
  pure a := fun s => (some a, s)
  bind := seq

/-- Halt unless the condition holds, with what is left then. -/
def require (b : Bool) (f : σ → σ) : Halting σ Unit := fun s => if b then (some (), s) else (none, f s)

def modify (f : σ → σ) : Halting σ Unit := fun s => (some (), f s)

def read (f : σ → α) : Halting σ α := fun s => (some (f s), s)

/-- The invariant and the first postcondition hold where the computation returns, the second one
where it halts. -/
structure Keeps (I H : σ → Prop) (m : Halting σ α) (Q : α → σ → Prop) (s : σ) : Prop where
  returned : ∀ a, (m s).1 = some a → I (m s).2 ∧ Q a (m s).2
  halted : (m s).1 = none → H (m s).2

variable {I H : σ → Prop} {s : σ}

theorem Keeps.mono {m : Halting σ α} {Q Q' : α → σ → Prop} (h : Keeps I H m Q s)
    (hq : ∀ a s', I s' → Q a s' → Q' a s') : Keeps I H m Q' s where
  returned := fun a ha => ⟨(h.returned a ha).1, hq a _ (h.returned a ha).1 (h.returned a ha).2⟩
  halted := h.halted

/-- An invariant that holds where the computation halts as well holds wherever it ends. -/
theorem Keeps.ended {m : Halting σ α} {Q : α → σ → Prop} (h : Keeps I H m Q s) {J : σ → Prop}
    (hI : ∀ s', I s' → J s') (hH : ∀ s', H s' → J s') : J (m s).2 := by
  cases ha : (m s).1 with
  | none => exact hH _ (h.halted ha)
  | some a => exact hI _ (h.returned a ha).1

theorem Keeps.returns {m : Halting σ α} {Q : α → σ → Prop} (h : Keeps I H m Q s) (hH : ∀ s', ¬ H s') :
    ∃ a, (m s).1 = some a ∧ Q a (m s).2 := by
  cases ha : (m s).1 with
  | none => exact absurd (h.halted ha) (hH _)
  | some a => exact ⟨a, rfl, (h.returned a ha).2⟩

theorem keeps_pure {a : α} {Q : α → σ → Prop} (hI : I s) (h : Q a s) : Keeps I H (pure a : Halting σ α) Q s where
  returned := fun a' ha' => by cases ha'; exact ⟨hI, h⟩
  halted := fun hc => by cases hc

theorem keeps_require {b : Bool} {f : σ → σ} {Q : Unit → σ → Prop} (hI : I s) (hH : b = false → H (f s))
    (h : b = true → Q () s) : Keeps I H (require b f) Q s := by
  cases b with
  | false => exact { returned := fun a ha => (by cases ha), halted := fun _ => hH rfl }
  | true => exact keeps_pure hI (h rfl)

theorem keeps_modify {f : σ → σ} {Q : Unit → σ → Prop} (hI : I (f s)) (h : Q () (f s)) :
    Keeps I H (modify f : Halting σ Unit) Q s where
  returned := fun a ha => by cases ha; exact ⟨hI, h⟩
  halted := fun hc => by cases hc

theorem keeps_read {f : σ → α} {Q : α → σ → Prop} (hI : I s) (h : Q (f s) s) : Keeps I H (read f) Q s where
  returned := fun a ha => by cases ha; exact ⟨hI, h⟩
  halted := fun hc => by cases hc

theorem keeps_bind {m : Halting σ α} {f : α → Halting σ β} {Q : β → σ → Prop}
    (h : Keeps I H m (fun a s' => Keeps I H (f a) Q s') s) : Keeps I H (m >>= f) Q s := by
  change Keeps I H (seq m f) Q s
  rcases hm : m s with ⟨_ | a, s'⟩
  · have hH := h.halted (by rw [hm])
    have hseq : seq m f s = (none, s') := by rw [seq, hm]
    rw [hm] at hH
    refine ⟨fun b hb => ?_, fun _ => ?_⟩
    · rw [hseq] at hb
      cases hb
    · rw [hseq]
      exact hH
  · have hf := (h.returned a (by rw [hm])).2
    have hseq : seq m f s = f a s' := by rw [seq, hm]
    rw [hm] at hf
    refine ⟨fun b hb => ?_, fun hc => ?_⟩
    · rw [hseq] at hb ⊢
      exact hf.returned b hb
    · rw [hseq] at hc ⊢
      exact hf.halted hc

/-- A loop: what holds of the accumulator before each step holds after it. -/
theorem keeps_foldlM {f : β → α → Halting σ β} {Q : β → σ → Prop} : ∀ (as : List α) {b : β} {s : σ},
    (∀ b, ∀ a ∈ as, ∀ s, I s → Q b s → Keeps I H (f b a) Q s) → I s → Q b s → Keeps I H (as.foldlM f b) Q s
  | [], _, _, _, hI, h => keeps_pure hI h
  | a :: as, b, s, hf, hI, h =>
    keeps_bind ((hf b a List.mem_cons_self s hI h).mono fun _ _ hI' h' =>
      keeps_foldlM as (fun b a' ha' => hf b a' (List.mem_cons_of_mem _ ha')) hI' h')

/-- A counting loop: each step takes what holds at its index to what holds at the next one. -/
theorem keeps_range' {f : β → ℕ → Halting σ β} {Q : ℕ → β → σ → Prop} : ∀ (n k : ℕ) {b : β} {s : σ},
    (∀ i, k ≤ i → i < k + n → ∀ b s, I s → Q i b s → Keeps I H (f b i) (Q (i + 1)) s) → I s → Q k b s →
    Keeps I H ((List.range' k n).foldlM f b) (Q (k + n)) s
  | 0, _, _, _, _, hI, h => keeps_pure hI h
  | n + 1, k, b, s, hf, hI, h => by
    rw [List.range'_succ, List.foldlM_cons]
    refine keeps_bind ((hf k (Nat.le_refl k) (by omega) b s hI h).mono fun b' s' hI' h' => ?_)
    have hrest := keeps_range' n (k + 1) (fun i hk hi => hf i (by omega) (by omega)) hI' h'
    rwa [Nat.add_right_comm] at hrest

theorem keeps_range {f : β → ℕ → Halting σ β} {Q : ℕ → β → σ → Prop} (n : ℕ) {b : β}
    (hf : ∀ i < n, ∀ b s, I s → Q i b s → Keeps I H (f b i) (Q (i + 1)) s) (hI : I s) (h : Q 0 b s) :
    Keeps I H ((List.range n).foldlM f b) (Q n) s := by
  have hrange := keeps_range' n 0 (fun i _ hi => hf i (by omega)) hI h
  rwa [← List.range_eq_range', Nat.zero_add] at hrange

end Halting
end Klint
