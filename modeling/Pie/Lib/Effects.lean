import Pie.Lib.Fallible

/-!
# Programs with a state, that may fail

A program that fails leaves the state as it was when it failed. `Ends r Q E`
says of an outcome that it is a value and a state in `Q`, or a failure in a
state in `E`; there is one rule for each way to build a program.
-/

namespace Pie.Lib.Effects

variable {ε σ τ α β : Type}

/-- The state a program ends in. -/
def after : EStateM.Result ε σ α → σ
  | .ok _ s => s
  | .error _ s => s

/-- A program without a state. -/
def lift (x : Except ε α) : EStateM ε σ α := fun s =>
  match x with
  | .ok a => .ok a s
  | .error e => .error e s

/-- A program on a part of the state. -/
def zoom (part : σ → τ) (put : σ → τ → σ) (x : EStateM ε τ α) : EStateM ε σ α := fun s =>
  match x (part s) with
  | .ok a t => .ok a (put s t)
  | .error e t => .error e (put s t)

def Ends (r : EStateM.Result ε σ α) (Q : α → σ → Prop) (E : σ → Prop) : Prop :=
  match r with
  | .ok a s => Q a s
  | .error _ s => E s

namespace Ends

variable {r : EStateM.Result ε σ α} {Q Q' : α → σ → Prop} {R : β → σ → Prop} {E E' : σ → Prop} {s : σ}

theorem mono (h : Ends r Q E) (hQ : ∀ a s, Q a s → Q' a s) (hE : ∀ s, E s → E' s) : Ends r Q' E' := by
  cases r with
  | ok a s => exact hQ a s h
  | error e s => exact hE s h

theorem after {P : σ → Prop} (h : Ends r (fun _ => P) P) : P (Effects.after r) := by
  cases r with
  | ok a s => exact h
  | error e s => exact h

theorem and (h : Ends r Q E) (h' : Ends r Q' E') : Ends r (fun a s => Q a s ∧ Q' a s) (fun s => E s ∧ E' s) := by
  cases r with
  | ok a s => exact ⟨h, h'⟩
  | error e s => exact ⟨h, h'⟩

theorem pure {a : α} (h : Q a s) : Ends ((Pure.pure a : EStateM ε σ α) s) Q E := h

theorem bind {x : EStateM ε σ α} {f : α → EStateM ε σ β} (h : Ends (x s) (fun a s' => Ends (f a s') R E) E) :
    Ends ((x >>= f) s) R E := by
  change Ends (EStateM.bind x f s) R E
  unfold EStateM.bind
  cases hx : x s with
  | ok a s' => rw [hx] at h; exact h
  | error e s' => rw [hx] at h; exact h

theorem get {Q : σ → σ → Prop} (h : Q s s) : Ends ((MonadState.get : EStateM ε σ σ) s) Q E := h

theorem set {Q : PUnit → σ → Prop} {s' : σ} (h : Q ⟨⟩ s') : Ends ((MonadStateOf.set s' : EStateM ε σ PUnit) s) Q E := h

theorem modify {Q : PUnit → σ → Prop} {f : σ → σ} (h : Q ⟨⟩ (f s)) : Ends ((modifyThe σ f : EStateM ε σ PUnit) s) Q E := h

theorem throw {e : ε} (h : E s) : Ends ((MonadExcept.throw e : EStateM ε σ α) s) Q E := h

theorem lift {x : Except ε α} (h : ∀ a, x = .ok a → Q a s) (hE : ∀ e, x = .error e → E s) :
    Ends ((Effects.lift x : EStateM ε σ α) s) Q E := by
  cases x with
  | ok a => exact h a rfl
  | error e => exact hE e rfl

theorem zoom {part : σ → τ} {put : σ → τ → σ} {x : EStateM ε τ α}
    (h : Ends (x (part s)) (fun a t => Q a (put s t)) (fun t => E (put s t))) : Ends (Effects.zoom part put x s) Q E := by
  unfold Effects.zoom
  cases hx : x (part s) with
  | ok a t => rw [hx] at h; exact h
  | error e t => rw [hx] at h; exact h

theorem ite {c : Prop} [Decidable c] {x y : EStateM ε σ α} (ht : c → Ends (x s) Q E) (hf : ¬ c → Ends (y s) Q E) :
    Ends ((if c then x else y) s) Q E := by
  split
  · rename_i h; exact ht h
  · rename_i h; exact hf h

end Ends

end Pie.Lib.Effects
