import Mathlib

/-!
# Bounded loops

A `while` loop as a partial step iterated under a bound. An invariant of the
step is an invariant of the loop, and a measure that every step lowers turns
a large enough bound into a loop that has run to its end.
-/

set_option autoImplicit false

namespace Adg.Loop

section Iteration
variable {σ : Type*} (step : σ → Option σ)

/-- Iterate until the step has nothing left to do, at most `n` times. -/
def iterate : ℕ → σ → σ
  | 0, s => s
  | n+1, s =>
    match step s with
    | none => s
    | some s' => iterate n s'

def Finished (s : σ) : Prop := step s = none

variable {step}

theorem iterate_finished {s : σ} (h : Finished step s) (n : ℕ) : iterate step n s = s := by
  unfold Finished at h
  cases n with
  | zero => rfl
  | succ n => simp [iterate, h]

theorem iterate_step {s s' : σ} (h : step s = some s') (n : ℕ) :
    iterate step (n+1) s = iterate step n s' := by
  simp [iterate, h]

theorem iterate_invariant {I : σ → Prop} (hstep : ∀ s s', I s → step s = some s' → I s')
    (n : ℕ) {s : σ} (hs : I s) : I (iterate step n s) := by
  induction n generalizing s with
  | zero => exact hs
  | succ n ih =>
    cases h : step s with
    | none => rwa [iterate_finished h]
    | some s' => rw [iterate_step h]; exact ih (hstep s s' hs h)

/-- A measure lowered by every step from an invariant state ends the loop. -/
theorem iterate_ends {I : σ → Prop} (μ : σ → ℕ) (hstep : ∀ s s', I s → step s = some s' → I s')
    (hμ : ∀ s s', I s → step s = some s' → μ s' < μ s) {n : ℕ} {s : σ} (hs : I s)
    (hn : μ s ≤ n) : Finished step (iterate step n s) := by
  induction n generalizing s with
  | zero =>
    cases h : step s with
    | none => exact h
    | some s' =>
      have := hμ s s' hs h
      omega
  | succ n ih =>
    cases h : step s with
    | none => rwa [iterate_finished h]
    | some s' =>
      rw [iterate_step h]
      have := hμ s s' hs h
      exact ih (hstep s s' hs h) (by omega)

end Iteration

end Adg.Loop
