import Mathlib

/-!
# Paths that read words

A graph whose edges read words; a path reads the words of its edges, one after
the other. A state that is entered by one edge and left by one edge can be taken
out: the two edges become one, which reads what both read.
-/

namespace Pie.Lib.Paths

open List

variable {σ α : Type*} {E R : σ → List α → σ → Prop} {s t m a b : σ} {u v w : List α}

inductive Path (E : σ → List α → σ → Prop) : σ → List α → σ → Prop
  | nil {s : σ} : Path E s [] s
  | cons {s t r : σ} {u v : List α} (h : E s u t) (p : Path E t v r) : Path E s (u ++ v) r

/-- The edge from `s` to `t` that reads the words of `L`. -/
def only (s : σ) (L : Language α) (t : σ) : σ → List α → σ → Prop := fun a w b => a = s ∧ w ∈ L ∧ b = t

theorem Path.single (h : E s u t) : Path E s u t := by
  have hp := Path.cons h .nil
  rwa [append_nil] at hp

theorem Path.append (p : Path E s u t) (q : Path E t v m) : Path E s (u ++ v) m := by
  induction p with
  | nil => exact q
  | cons h _ ih =>
    rw [append_assoc]
    exact .cons h (ih q)

/-- A path takes the way that its edges have in another graph. -/
theorem Path.lift (h : ∀ s u t, E s u t → Path R s u t) (p : Path E s u t) : Path R s u t := by
  induction p with
  | nil => exact .nil
  | cons he _ ih => exact (h _ _ _ he).append ih

/-- Two edges between the same states are one that reads the words of both. -/
theorem only_sup (s t : σ) (A B : Language α) : only s A t ⊔ only s B t = only s (A + B) t := by
  funext a w b
  refine propext ⟨?_, ?_⟩
  · rintro (⟨ha, hw, hb⟩ | ⟨ha, hw, hb⟩)
    · exact ⟨ha, .inl hw, hb⟩
    · exact ⟨ha, .inr hw, hb⟩
  · rintro ⟨ha, hw | hw, hb⟩
    · exact .inl ⟨ha, hw, hb⟩
    · exact .inr ⟨ha, hw, hb⟩

theorem only_zero (s t : σ) : only s (0 : Language α) t = ⊥ := by
  funext a w b
  exact propext ⟨fun h => h.2.1.elim, False.elim⟩

theorem path_only {L : Language α} (h : s ≠ t) : Path (only s L t) s w t ↔ w ∈ L := by
  refine ⟨fun p => ?_, fun hw => .single ⟨rfl, hw, rfl⟩⟩
  cases p with
  | nil => exact absurd rfl h
  | cons he p =>
    obtain ⟨-, hu, rfl⟩ := he
    cases p with
    | nil => rwa [append_nil]
    | cons he => exact absurd he.1.symm h

section Eliminate

variable {A B : Language α} (hE : ∀ s w t, E s w t → s ≠ m ∧ t ≠ m) (ha : a ≠ m)
include hE ha

/-- On a path that ends elsewhere, the state between is left again. -/
theorem Path.through (hb : b ≠ m) (ht : t ≠ m) (p : Path (E ⊔ only a A m ⊔ only m B b) s w t) :
    (s ≠ m → Path (E ⊔ only a (A * B) b) s w t)
      ∧ (s = m → ∃ u ∈ B, ∃ v, w = u ++ v ∧ Path (E ⊔ only a (A * B) b) b v t) := by
  induction p with
  | nil => exact ⟨fun _ => .nil, fun he => absurd he ht⟩
  | @cons s s' t u v h p ih =>
    obtain ⟨ih, ihm⟩ := ih ht
    refine ⟨fun hs => ?_, fun hs => ?_⟩
    · rcases h with (h | ⟨rfl, hu, rfl⟩) | ⟨he, -, -⟩
      · exact .cons (.inl h) (ih (hE _ _ _ h).2)
      · obtain ⟨u', hu', v', rfl, p'⟩ := ihm rfl
        rw [← append_assoc]
        exact .cons (.inr ⟨rfl, Language.append_mem_mul hu hu', rfl⟩) p'
      · exact absurd he hs
    · rcases h with (h | ⟨he, -, -⟩) | ⟨-, hu, rfl⟩
      · exact absurd hs (hE _ _ _ h).1
      · exact absurd (he.symm.trans hs) ha
      · exact ⟨u, hu, v, rfl, ih hb⟩

/-- **A state between two edges is taken out.** -/
theorem eliminate (hb : b ≠ m) (hs : s ≠ m) (ht : t ≠ m) :
    Path (E ⊔ only a A m ⊔ only m B b) s w t ↔ Path (E ⊔ only a (A * B) b) s w t := by
  refine ⟨fun p => (p.through hE ha hb ht).1 hs, fun p => p.lift ?_⟩
  rintro s u t (h | ⟨rfl, hu, rfl⟩)
  · exact .single (.inl (.inl h))
  · obtain ⟨x, hx, y, hy, rfl⟩ := hu
    exact (Path.single (.inl (.inr ⟨rfl, hx, rfl⟩))).append (.single (.inr ⟨rfl, hy, rfl⟩))

end Eliminate

end Pie.Lib.Paths
