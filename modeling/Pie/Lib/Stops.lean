import Pie.Lib.Reading

/-!
# Programs with a state, that may fail or panic

`Outcome p r Q E` says of an outcome that it is a value and a state in `Q`, or a
failure and a state in `E`; `p` is what is said of a panic: `False` if there is
none, `True` if nothing is said of it. There is one rule for each way to build a
program.
-/

namespace Pie.Lib

open List

variable {ε σ α β : Type} {p : Prop}

def Outcome (p : Prop) (r : EStateM.Result (Stop ε) σ α) (Q : α → σ → Prop) (E : ε → σ → Prop) : Prop :=
  match r with
  | .ok a s => Q a s
  | .error (.error e) s => E e s
  | .error .panic _ => p

namespace Outcome

variable {r : EStateM.Result (Stop ε) σ α} {Q Q' : α → σ → Prop} {R : β → σ → Prop} {E E' : ε → σ → Prop} {s : σ}

theorem mono (h : Outcome p r Q E) (hQ : ∀ a s, Q a s → Q' a s) : Outcome p r Q' E := by
  match r, h with
  | .ok a s, h => exact hQ a s h
  | .error (.error _) _, h => exact h
  | .error .panic _, h => exact h

theorem mono_error (h : Outcome p r Q E) (hE : ∀ e s, E e s → E' e s) : Outcome p r Q E' := by
  match r, h with
  | .ok _ _, h => exact h
  | .error (.error e) s, h => exact hE e s h
  | .error .panic _, h => exact h

theorem pure {a : α} (h : Q a s) : Outcome p ((Pure.pure a : EStateM (Stop ε) σ α) s) Q E := h

variable {x : EStateM (Stop ε) σ α} {s' : σ}

theorem bind {f : α → EStateM (Stop ε) σ β}
    (h : Outcome p (x s) (fun a s' => Outcome p (f a s') R E) E) : Outcome p ((x >>= f) s) R E := by
  change Outcome p (EStateM.bind x f s) R E
  unfold EStateM.bind
  match hx : x s with
  | .ok a s' => rw [hx] at h; exact h
  | .error (.error _) s' => rw [hx] at h; exact h
  | .error .panic s' => rw [hx] at h; exact h

theorem map {f : α → β} (h : Outcome p (x s) (fun a s' => R (f a) s') E) : Outcome p ((f <$> x) s) R E := by
  change Outcome p (EStateM.map f x s) R E
  unfold EStateM.map
  match hx : x s with
  | .ok a s' => rw [hx] at h; exact h
  | .error (.error _) s' => rw [hx] at h; exact h
  | .error .panic s' => rw [hx] at h; exact h

theorem get {Q : σ → σ → Prop} (h : Q s s) : Outcome p ((MonadState.get : EStateM (Stop ε) σ σ) s) Q E := h

theorem set {Q : PUnit → σ → Prop} (h : Q ⟨⟩ s') :
    Outcome p ((MonadStateOf.set s' : EStateM (Stop ε) σ PUnit) s) Q E := h

theorem modify {Q : PUnit → σ → Prop} {f : σ → σ} (h : Q ⟨⟩ (f s)) :
    Outcome p ((modifyThe σ f : EStateM (Stop ε) σ PUnit) s) Q E := h

theorem of_ok {a : α} (h : Outcome p r Q E) (hr : r = .ok a s') : Q a s' := by
  subst hr
  exact h

theorem of_error {e : ε} (h : Outcome p r Q E) (hr : r = .error (.error e) s') : E e s' := by
  subst hr
  exact h

/-- A program that does not panic stops with a failure. -/
theorem of_stop {E : σ → Prop} {stop : Stop ε} (h : Outcome False r Q fun _ => E) (hr : r = .error stop s') :
    E s' := by
  subst hr
  cases stop with
  | error e => exact h
  | panic => exact absurd h id

theorem exists_ok (h : Outcome False r Q fun _ _ => False) : ∃ a s, r = .ok a s ∧ Q a s := by
  match r, h with
  | .ok a s, h => exact ⟨a, s, rfl, h⟩

theorem foldlM {f : α → β → EStateM (Stop ε) σ α} (I : List β → α → σ → Prop)
    (step : ∀ b l a s, I (b :: l) a s → Outcome p (f a b s) (I l) E) :
    ∀ {l : List β} {a : α} {s : σ}, I l a s → Outcome p (l.foldlM f a s) (I []) E := by
  intro l
  induction l with
  | nil => exact fun h => h
  | cons b l ih =>
    intro a s h
    rw [foldlM_cons]
    exact bind ((step b l a s h).mono fun a s h => ih h)

end Outcome

/-! ## Without a state -/

/-- It fails with no error: it gives something, or panics. -/
def Errorless (x : Except (Stop ε) α) : Prop := ∀ e, x ≠ .error (.error e)

namespace Errorless

theorem ok {a : α} : Errorless (.ok a : Except (Stop ε) α) := fun _ h => nomatch h

theorem panic : Errorless (.error .panic : Except (Stop ε) α) := fun _ h => nomatch h

variable {f : α → Except (Stop ε) β}

theorem bind {x : Except (Stop ε) α} (hx : Errorless x) (hf : ∀ a, Errorless (f a)) : Errorless (x >>= f) := by
  match x, hx with
  | .ok a, _ => exact hf a
  | .error .panic, _ => exact panic
  | .error (.error e), hx => exact absurd rfl (hx e)

theorem foldlM {f : α → β → Except (Stop ε) α} {l : List β} {a : α} (hf : ∀ a, ∀ b ∈ l, Errorless (f a b)) :
    Errorless (l.foldlM f a) := by
  induction l generalizing a with
  | nil => exact ok
  | cons b l ih =>
    rw [foldlM_cons]
    exact bind (hf a b mem_cons_self) fun a => ih fun a b hb => hf a b (mem_cons_of_mem _ hb)

theorem mapM {l : List α} (hf : ∀ a ∈ l, Errorless (f a)) : Errorless (l.mapM f) := by
  induction l with
  | nil => exact ok
  | cons a l ih =>
    rw [mapM_cons]
    refine bind (hf a mem_cons_self) fun _ => ?_
    exact bind (ih fun a ha => hf a (mem_cons_of_mem _ ha)) fun _ => ok

end Errorless

end Pie.Lib
