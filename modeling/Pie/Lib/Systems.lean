import Mathlib.Logic.Function.Basic

/-!
# Systems

A state, and steps between states. What holds at the start and is kept by every
step holds of every state reached. The steps of a system of threads change the
entry of one thread.
-/

namespace Pie.Lib.Systems

variable {σ : Type*} {init : σ → Prop} {step : σ → σ → Prop}

/-- The states reached from an initial one. -/
inductive Reachable (init : σ → Prop) (step : σ → σ → Prop) : σ → Prop
  | init {s : σ} (h : init s) : Reachable init step s
  | step {s s' : σ} (hr : Reachable init step s) (h : step s s') : Reachable init step s'

/-- **An invariant holds of every state reached.** -/
theorem Reachable.invariant {I : σ → Prop} (h0 : ∀ s, init s → I s)
    (hstep : ∀ s s', Reachable init step s → I s → step s s' → I s') {s : σ} (h : Reachable init step s) : I s := by
  induction h with
  | init h => exact h0 _ h
  | step hr h ih => exact hstep _ _ hr ih h

end Pie.Lib.Systems
