import Mathlib.Data.Nat.Notation

/-!
# Bounded loops

A loop runs a body on a state until the body leaves it. The body is told how many
iterations came before. Fuel bounds the number of iterations; the rule of this file
gives both that a bound suffices and what holds of the result, from an invariant and
a measure.
-/

namespace Loop

variable {S R : Type*}

/-- What one iteration does: go on with another state, or leave with a result. -/
inductive Step (S R : Type*) where
  | next (s : S)
  | done (r : R)

/-- The iteration goes on within `I`, or leaves with a result in `Q`. -/
def Step.Sat (I : S → Prop) (Q : R → Prop) : Step S R → Prop
  | .next s => I s
  | .done r => Q r

theorem Step.Sat.imp {I I' : S → Prop} {Q Q' : R → Prop} {step : Step S R} (h : step.Sat I Q)
    (hI : ∀ s, I s → I' s) (hQ : ∀ r, Q r → Q' r) : step.Sat I' Q' := by
  cases step with
  | next s => exact hI s h
  | done r => exact hQ r h

/-- Run the body from iteration `i` on, for at most `fuel` iterations. -/
def run (body : ℕ → S → Step S R) : ℕ → ℕ → S → Option R
  | 0, _, _ => none
  | fuel + 1, i, s =>
    match body i s with
    | .next s => run body fuel (i + 1) s
    | .done r => some r

variable {body : ℕ → S → Step S R} {I : S → Prop} {Q : R → Prop} {m : S → ℕ}

/-- **Loop rule.** If every iteration keeps the invariant and lowers the measure, or
leaves with a result as required, then enough fuel leads to such a result. -/
theorem run_rule
    (hbody : ∀ i s, I s → (body i s).Sat (fun t => I t ∧ m t < m s) Q)
    {fuel i : ℕ} {s : S} (hs : I s) (hfuel : m s < fuel) :
    ∃ r, run body fuel i s = some r ∧ Q r := by
  induction fuel generalizing i s with
  | zero => omega
  | succ fuel ih =>
    have hstep := hbody i s hs
    rw [run]
    cases hcase : body i s with
    | next t =>
      rw [hcase] at hstep
      exact ih hstep.1 (Nat.lt_of_lt_of_le hstep.2 (Nat.lt_succ_iff.mp hfuel))
    | done r =>
      rw [hcase] at hstep
      exact ⟨r, rfl, hstep⟩

/-- The loop gets from one iteration, about to run in a state, to another. -/
inductive Reaches (body : ℕ → S → Step S R) : ℕ → S → ℕ → S → Prop
  | here (i : ℕ) (s : S) : Reaches body i s i s
  | next {i j : ℕ} {s t u : S} (hbody : body i s = .next t) (hrest : Reaches body (i + 1) t j u) :
      Reaches body i s j u

/-- What every iteration that goes on keeps holds where the loop gets to. -/
theorem Reaches.invariant (hbody : ∀ i s t, I s → body i s = .next t → I t) {i j : ℕ} {s t : S}
    (h : Reaches body i s j t) (hs : I s) : I t := by
  induction h with
  | here i s => exact hs
  | next hnext _ ih => exact ih (hbody _ _ _ hs hnext)

end Loop
