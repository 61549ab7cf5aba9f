import Mathlib.Tactic

/-!
# Programs that may fail

Inversion of a program that gave a result, loops among them, and the judgment
`Sound E P`: what the program gives satisfies `P`, and what it fails with
satisfies `E`. With `E` empty the program cannot fail.
-/

namespace Pie.Lib

open List

variable {ε α β σ : Type}

namespace Fallible

variable {f : α → Except ε β} {l : List α}

theorem bind_eq_ok {x : Except ε α} {b : β} : x >>= f = .ok b ↔ ∃ a, x = .ok a ∧ f a = .ok b := by
  cases x with
  | error e => exact ⟨nofun, fun ⟨_, h, _⟩ => (nomatch h)⟩
  | ok a => exact ⟨fun h => ⟨a, rfl, h⟩, fun ⟨a', h, hf⟩ => by cases h; exact hf⟩

theorem map_eq_ok {x : Except ε α} {f : α → β} {b : β} : f <$> x = .ok b ↔ ∃ a, x = .ok a ∧ f a = b := by
  cases x with
  | error e => exact ⟨nofun, fun ⟨_, h, _⟩ => (nomatch h)⟩
  | ok a => exact ⟨fun h => ⟨a, rfl, Except.ok.inj h⟩, fun ⟨a', h, hf⟩ => by cases h; cases hf; rfl⟩

theorem mapM_nil : [].mapM f = (.ok [] : Except ε (List β)) := rfl

theorem mapM_cons_eq_ok {a : α} {bs : List β} :
    (a :: l).mapM f = .ok bs ↔ ∃ b bs', f a = .ok b ∧ l.mapM f = .ok bs' ∧ bs = b :: bs' := by
  rw [mapM_cons, bind_eq_ok]
  constructor
  · rintro ⟨b, hb, h⟩
    obtain ⟨bs', hbs, h⟩ := bind_eq_ok.mp h
    exact ⟨b, bs', hb, hbs, (Except.ok.inj h).symm⟩
  · rintro ⟨b, bs', hb, hbs, rfl⟩
    exact ⟨b, hb, bind_eq_ok.mpr ⟨bs', hbs, rfl⟩⟩

theorem mapM_eq_ok : ∀ {l : List α} {bs : List β}, l.mapM f = .ok bs ↔ Forall₂ (fun a b => f a = .ok b) l bs := by
  intro l
  induction l with
  | nil =>
    intro bs
    rw [mapM_nil, forall₂_nil_left_iff]
    exact ⟨fun h => (Except.ok.inj h).symm, fun h => by rw [h]⟩
  | cons a l ih =>
    intro bs
    rw [mapM_cons_eq_ok, forall₂_cons_left_iff]
    exact ⟨fun ⟨b, bs', hb, hbs, h⟩ => ⟨b, bs', hb, ih.mp hbs, h⟩,
      fun ⟨b, bs', hb, hbs, h⟩ => ⟨b, bs', hb, ih.mpr hbs, h⟩⟩

theorem forall₂_imp_mem {R S : α → β → Prop} {l' : List β} (h : Forall₂ R l l')
    (hS : ∀ a b, a ∈ l → R a b → S a b) : Forall₂ S l l' := by
  induction h with
  | nil => exact .nil
  | cons hab _ ih =>
    exact .cons (hS _ _ mem_cons_self hab) (ih (fun a b ha => hS a b (mem_cons_of_mem _ ha)))

theorem forall₂_left {R : α → β → Prop} {P : α → Prop} {l' : List β} (h : Forall₂ R l l')
    (hP : ∀ a b, R a b → P a) : ∀ a ∈ l, P a := by
  induction h with
  | nil => exact nofun
  | cons hab _ ih => exact forall_mem_cons.mpr ⟨hP _ _ hab, ih⟩

theorem mapM_length {bs : List β} (h : l.mapM f = .ok bs) : bs.length = l.length := (mapM_eq_ok.mp h).length_eq.symm

theorem foldlM_cons_eq_ok {f : σ → α → Except ε σ} {a : α} {s s' : σ} :
    (a :: l).foldlM f s = .ok s' ↔ ∃ s₁, f s a = .ok s₁ ∧ l.foldlM f s₁ = .ok s' := by
  rw [foldlM_cons, bind_eq_ok]

end Fallible

/-! ## The judgment -/

/-- The program gives what satisfies `P`, or fails with what satisfies `E`. -/
def Sound (E : ε → Prop) (P : α → Prop) : Except ε α → Prop
  | .ok a => P a
  | .error e => E e

namespace Sound

variable {E : ε → Prop} {P : α → Prop} {Q : β → Prop} {x : Except ε α}

theorem pure {a : α} (h : P a) : Sound E P (.ok a) := h

theorem mono {P' : α → Prop} (h : Sound E P x) (hP : ∀ a, P a → P' a) : Sound E P' x := by
  cases x with
  | ok a => exact hP a h
  | error e => exact h

variable {f : α → Except ε β}

theorem bind (hx : Sound E P x) (hf : ∀ a, P a → Sound E Q (f a)) : Sound E Q (x >>= f) := by
  cases x with
  | ok a => exact hf a hx
  | error e => exact hx

theorem map {f : α → β} (hx : Sound E P x) (hf : ∀ a, P a → Q (f a)) : Sound E Q (f <$> x) := by
  cases x with
  | ok a => exact hf a hx
  | error e => exact hx

theorem mapM : ∀ {l : List α}, (∀ a ∈ l, Sound E Q (f a)) →
    Sound E (fun bs => bs.length = l.length ∧ ∀ b ∈ bs, Q b) (l.mapM f) := by
  intro l
  induction l with
  | nil => intro _; exact ⟨rfl, fun b hb => absurd hb not_mem_nil⟩
  | cons a l ih =>
    intro h
    rw [mapM_cons]
    refine (h a mem_cons_self).bind (fun b hb => ?_)
    refine (ih (fun a' ha' => h a' (mem_cons_of_mem _ ha'))).bind (fun bs hbs => ?_)
    refine Sound.pure ⟨by rw [length_cons, length_cons, hbs.1], ?_⟩
    intro b' hb'
    rcases mem_cons.mp hb' with rfl | hb'
    · exact hb
    · exact hbs.2 b' hb'

theorem foldlM {f : σ → α → Except ε σ} {I : σ → Prop} : ∀ {l : List α},
    (∀ a ∈ l, ∀ s, I s → Sound E I (f s a)) → ∀ {s : σ}, I s → Sound E I (l.foldlM f s) := by
  intro l
  induction l with
  | nil => intro _ s hs; exact hs
  | cons a l ih =>
    intro h s hs
    rw [foldlM_cons]
    exact (h a mem_cons_self s hs).bind
      (fun s' hs' => ih (fun a' ha' => h a' (mem_cons_of_mem _ ha')) hs')

theorem exists_ok (h : Sound (fun _ => False) P x) : ∃ a, x = .ok a ∧ P a := by
  cases x with
  | ok a => exact ⟨a, rfl, h⟩
  | error e => exact h.elim

theorem of_ok {a : α} (hx : x = .ok a) (h : Sound E P x) : P a := by
  subst hx
  exact h

end Sound

end Pie.Lib
