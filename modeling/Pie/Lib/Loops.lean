import Mathlib

/-!
# Loops that may fail

Rules for `mapM` and `foldlM` in `Option`: when every step succeeds the loop
does, and an invariant of the steps is one of the loop.
-/

namespace Pie.Lib

open List Option

variable {α β σ : Type*}

variable {f : α → Option β} (I : List α → σ → Prop)

theorem mapM_eq_map {g : α → β} : ∀ {l : List α}, (∀ a ∈ l, f a = some (g a)) → l.mapM f = some (l.map g)
  | [], _ => rfl
  | a :: l, h => by
    rw [mapM_cons, h a mem_cons_self, mapM_eq_map (fun b hb => h b (mem_cons_of_mem _ hb))]
    rfl

theorem mapM_eq_some : ∀ {l : List α} {bs : List β}, l.mapM f = some bs ↔ Forall₂ (fun a b => f a = some b) l bs := by
  intro l
  induction l with
  | nil =>
    intro bs
    rw [mapM_nil, forall₂_nil_left_iff]
    exact ⟨fun h => (some.inj h).symm, fun h => by rw [h]; rfl⟩
  | cons a l ih =>
    intro bs
    rw [mapM_cons, forall₂_cons_left_iff]
    constructor
    · intro h
      obtain ⟨b, hb, h⟩ := bind_eq_some_iff.mp h
      obtain ⟨bs', hbs, h⟩ := bind_eq_some_iff.mp h
      exact ⟨b, bs', hb, ih.mp hbs, (some.inj h).symm⟩
    · rintro ⟨b, bs', hb, hbs, rfl⟩
      exact bind_eq_some_iff.mpr ⟨b, hb, bind_eq_some_iff.mpr ⟨bs', ih.mpr hbs, rfl⟩⟩

theorem exists_mapM : ∀ {l : List α}, (∀ a ∈ l, ∃ b, f a = some b) → ∃ bs, l.mapM f = some bs := by
  intro l
  induction l with
  | nil => exact fun _ => ⟨[], rfl⟩
  | cons a l ih =>
    intro h
    obtain ⟨b, hb⟩ := h a mem_cons_self
    obtain ⟨bs, hbs⟩ := ih (fun a' ha' => h a' (mem_cons_of_mem _ ha'))
    exact ⟨b :: bs, by rw [mapM_cons, hb, hbs]; rfl⟩

theorem map_filterMap_sublist {γ : Type*} {g : β → γ} {h : α → γ}
    (hf : ∀ a b, f a = some b → g b = h a) : ∀ l : List α, Sublist ((l.filterMap f).map g) (l.map h) := by
  intro l
  induction l with
  | nil => exact Sublist.refl _
  | cons a l ih =>
    cases hfa : f a with
    | none =>
      rw [filterMap_cons_none hfa]
      exact ih.cons _
    | some b =>
      rw [filterMap_cons_some hfa, map_cons, map_cons, hf a b hfa]
      exact ih.cons_cons _

/-- **The loop rule.** `I` holds of the elements still to come and the state so far. -/
theorem foldlM_rule {f : σ → α → Option σ} (step : ∀ a l s, I (a :: l) s → ∃ s', f s a = some s' ∧ I l s') :
    ∀ {l : List α} {s : σ}, I l s → ∃ s', l.foldlM f s = some s' ∧ I [] s' := by
  intro l
  induction l with
  | nil => intro s h; exact ⟨s, rfl, h⟩
  | cons a l ih =>
    intro s h
    obtain ⟨s₁, h₁, hI⟩ := step a l s h
    obtain ⟨s', h', hend⟩ := ih hI
    refine ⟨s', ?_, hend⟩
    rw [foldlM_cons, h₁]
    exact h'

theorem foldlM_keeps {f : σ → α → Option σ} {I : σ → Prop} (step : ∀ s a s', I s → f s a = some s' → I s') :
    ∀ {l : List α} {s s' : σ}, I s → l.foldlM f s = some s' → I s' := by
  intro l
  induction l with
  | nil =>
    intro s s' h hl
    rw [← some.inj hl]
    exact h
  | cons a l ih =>
    intro s s' h hl
    rw [foldlM_cons] at hl
    obtain ⟨s₁, h₁, hl⟩ := bind_eq_some_iff.mp hl
    exact ih (step s a s₁ h h₁) hl

/-- A counted loop whose steps all succeed keeps an invariant that says how far it got. -/
theorem foldlM_range_rule {f : σ → Nat → Option σ} (I : Nat → σ → Prop) {s : σ} (h0 : I 0 s) {n : Nat}
    (step : ∀ k < n, ∀ s, I k s → ∃ s', f s k = some s' ∧ I (k + 1) s') :
    ∃ s', (range n).foldlM f s = some s' ∧ I n s' := by
  induction n with
  | zero => exact ⟨s, rfl, h0⟩
  | succ n ih =>
    obtain ⟨s₁, h₁, hI₁⟩ := ih fun k hk => step k (by omega)
    obtain ⟨s₂, h₂, hI₂⟩ := step n (by omega) s₁ hI₁
    refine ⟨s₂, ?_, hI₂⟩
    rw [range_succ, foldlM_append, h₁]
    show (f s₁ n >>= pure) = some s₂
    rw [h₂]
    rfl

theorem foldlM_eq_none {f : σ → α → Option σ} {a : α} (hf : ∀ s, f s a = none) : ∀ {l : List α} {s : σ},
    a ∈ l → l.foldlM f s = none := by
  intro l
  induction l with
  | nil => intro s h; cases h
  | cons b l ih =>
    intro s h
    rw [foldlM_cons]
    rcases mem_cons.mp h with rfl | h
    · rw [hf]
      rfl
    · cases hb : f s b with
      | none => rfl
      | some s' => exact ih h

/-- A counted loop keeps an invariant that says how far it got. -/
theorem foldl_range_rule {f : σ → Nat → σ} (I : Nat → σ → Prop) {s : σ} (h0 : I 0 s) :
    ∀ {n : Nat}, (∀ k < n, ∀ s, I k s → I (k + 1) (f s k)) → I n ((range n).foldl f s)
  | 0, _ => h0
  | n + 1, step => by
    rw [range_succ, foldl_append]
    exact step n (by omega) _ (foldl_range_rule I h0 (fun k hk => step k (by omega)))

/-- A loop over a list keeps an invariant of the elements it has seen. -/
theorem foldl_seen_rule {f : σ → α → σ} (step : ∀ seen a s, I seen s → I (seen ++ [a]) (f s a)) :
    ∀ {l seen : List α} {s : σ}, I seen s → I (seen ++ l) (l.foldl f s) := by
  intro l
  induction l with
  | nil => intro seen s h; rwa [append_nil]
  | cons a l ih =>
    intro seen s h
    have hstep := ih (step seen a s h)
    rwa [append_assoc, singleton_append] at hstep

section Cells

variable {α β : Type*} {cells : List (Nat × β)} {f : β → α} {i : Nat}

theorem foldl_set_length : ∀ {out : List α},
    (cells.foldl (fun out c => out.set c.1 (f c.2)) out).length = out.length := by
  induction cells with
  | nil => intro out; rfl
  | cons c cells ih =>
    intro out
    rw [foldl_cons, ih, length_set]

theorem foldl_set_of_not_mem : ∀ {out : List α}, (∀ c ∈ cells, c.1 ≠ i) →
    (cells.foldl (fun out c => out.set c.1 (f c.2)) out)[i]? = out[i]? := by
  induction cells with
  | nil => intro out _; rfl
  | cons c cells ih =>
    intro out h
    rw [foldl_cons, ih (fun d hd => h d (mem_cons_of_mem _ hd)), getElem?_set_ne (h c mem_cons_self)]

theorem foldl_set_of_mem {c : Nat × β} : ∀ {out : List α}, (cells.map Prod.fst).Nodup → c ∈ cells → c.1 < out.length →
      (cells.foldl (fun out c => out.set c.1 (f c.2)) out)[c.1]? = some (f c.2) := by
  induction cells with
  | nil => intro out _ h _; cases h
  | cons d cells ih =>
    intro out hnd hmem hlt
    rw [map_cons, nodup_cons] at hnd
    rw [foldl_cons]
    rcases mem_cons.mp hmem with rfl | hmem
    · rw [foldl_set_of_not_mem, getElem?_set_self hlt]
      intro d hd heq
      exact hnd.1 (by rw [← heq]; exact mem_map_of_mem hd)
    · exact ih hnd.2 hmem (by rw [length_set]; exact hlt)

end Cells

end Pie.Lib
