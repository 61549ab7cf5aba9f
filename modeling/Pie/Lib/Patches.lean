import Pie.Lib.Records

/-!
# A list drawn patch by patch

What stands in a list at a place, and drawing a list over another: each patch
puts there what the list to be drawn has at that place, so that once the patches
cover it the list is drawn.
-/

namespace Pie.Lib.Patches

open List Records

variable {α β : Type} {l m xs ys : List α} {here there w : Nat}

/-! ## What stands where -/

/-- `xs` stands in `l` at a place. -/
def Stands (l : List α) (here : Nat) (xs : List α) : Prop := ∃ a c, l = a ++ xs ++ c ∧ a.length = here

namespace Stands

section

variable (h : Stands l here xs)
include h

theorem le : here + xs.length ≤ l.length := by
  obtain ⟨a, c, rfl, rfl⟩ := h
  rw [length_append, length_append]
  omega

theorem slice_eq : slice l here xs.length = xs := by
  obtain ⟨a, c, rfl, ha⟩ := h
  exact slice_append ha rfl

/-- A slice of what stands there is a slice of the whole. -/
theorem slice_within {off k : Nat} (hk : off + k ≤ xs.length) :
    Records.slice xs off k = Records.slice l (here + off) k := by
  conv_lhs => rw [← h.slice_eq]
  exact slice_slice hk

theorem getElem? {i : Nat} (hi : i < xs.length) : l[here + i]? = xs[i]? := by
  obtain ⟨a, c, rfl, rfl⟩ := h
  rw [append_assoc, getElem?_append_right (Nat.le_add_right _ _), Nat.add_sub_cancel_left, getElem?_append_left hi]

theorem trans (h' : Stands xs there ys) : Stands l (here + there) ys := by
  obtain ⟨a, c, rfl, rfl⟩ := h
  obtain ⟨a', c', rfl, rfl⟩ := h'
  exact ⟨a ++ a', c' ++ c, by simp only [append_assoc], length_append⟩

end

theorem slice {o n k : Nat} (h : here + k ≤ n) (hn : o + n ≤ l.length) :
    Stands (Records.slice l o n) here (Records.slice l (o + here) k) := by
  refine ⟨Records.slice l o here, Records.slice l (o + (here + k)) (n - (here + k)), ?_, slice_length (by omega)⟩
  rw [slice_append_slice, slice_append_slice, Nat.add_sub_cancel' h]

/-- An element's piece, after the pieces of those before it. -/
theorem flatMap (g : β → List α) (pre post : List β) (b : β) :
    Stands ((pre ++ b :: post).flatMap g) (pre.flatMap g).length (g b) :=
  ⟨pre.flatMap g, post.flatMap g, by rw [flatMap_append, flatMap_cons, append_assoc], rfl⟩

end Stands

theorem length_flatMap_range {n : Nat} {g : Nat → List α} (hw : ∀ i < n, (g i).length = w) :
    ((range n).flatMap g).length = n * w := by
  rw [length_flatMap, map_congr_left fun i hi => hw i (mem_range.mp hi), map_const', sum_replicate,
    length_range, smul_eq_mul]

theorem range_split {n i k : Nat} (h : i + k ≤ n) :
    range n = range i ++ (range k).map (i + ·) ++ (range (n - (i + k))).map (i + k + ·) := by
  rw [← range_add, ← range_add, Nat.add_sub_cancel' h]

/-- Pieces of one width: those from the `i`th on. -/
theorem Stands.range {n i k : Nat} {g : Nat → List α} (hw : ∀ i < n, (g i).length = w) (h : i + k ≤ n) :
    Stands ((range n).flatMap g) (i * w) ((range k).flatMap fun j => g (i + j)) := by
  refine ⟨(List.range i).flatMap g, ((List.range (n - (i + k))).map (i + k + ·)).flatMap g, ?_, ?_⟩
  · rw [range_split h, flatMap_append, flatMap_append, flatMap_map]
  · exact length_flatMap_range fun j hj => hw j (by omega)

theorem Stands.range_one {n i : Nat} {g : Nat → List α} (hw : ∀ i < n, (g i).length = w) (h : i < n) :
    Stands ((List.range n).flatMap g) (i * w) (g i) := by
  have := Stands.range hw (k := 1) h
  rwa [List.range_one, List.flatMap_singleton, add_zero] at this

theorem exists_piece {g : β → Nat} : ∀ {l : List β} {i : Nat}, i < (l.map g).sum →
    ∃ pre b post, l = pre ++ b :: post ∧ (pre.map g).sum ≤ i ∧ i < (pre.map g).sum + g b := by
  intro l
  induction l with
  | nil => exact fun h => absurd h (Nat.not_lt_zero _)
  | cons b l ih =>
    intro i hi
    rw [map_cons, sum_cons] at hi
    by_cases hb : i < g b
    · exact ⟨[], b, l, rfl, Nat.zero_le _, by rw [map_nil, sum_nil, Nat.zero_add]; exact hb⟩
    · obtain ⟨pre, c, post, rfl, hle, hlt⟩ := ih (i := i - g b) (by omega)
      refine ⟨b :: pre, c, post, rfl, ?_, ?_⟩
      · rw [map_cons, sum_cons]
        omega
      · rw [map_cons, sum_cons]
        omega

/-! ## Drawing -/

/-- Every element is what it was or what it is to be, and those of `P` are what they are to be. -/
structure Draws (target : List α) (P : Nat → Prop) (out out' : List α) : Prop where
  length : out'.length = out.length
  either : ∀ i : Nat, out'[i]? = target[i]? ∨ out'[i]? = out[i]?
  drawn : ∀ i : Nat, P i → out'[i]? = target[i]?

namespace Draws

variable {target out out₁ out₂ : List α} {P Q : Nat → Prop}

theorem refl : Draws target (fun _ => False) out out := ⟨rfl, fun _ => .inr rfl, fun _ h => h.elim⟩

theorem trans (h₁ : Draws target P out out₁) (h₂ : Draws target Q out₁ out₂) :
    Draws target (fun i => P i ∨ Q i) out out₂ := by
  refine ⟨h₂.length.trans h₁.length, fun i => ?_, fun i hi => ?_⟩
  · rcases h₂.either i with h | h
    · exact .inl h
    · rw [h]
      exact h₁.either i
  · rcases hi with hi | hi
    · -- the second drawing keeps what the first one drew, or draws it again
      rcases h₂.either i with h | h
      · exact h
      · rw [h]
        exact h₁.drawn i hi
    · exact h₂.drawn i hi

theorem mono (h : Draws target P out out₁) (hPQ : ∀ i, Q i → P i) : Draws target Q out out₁ :=
  ⟨h.length, h.either, fun i hi => h.drawn i (hPQ i hi)⟩

/-- What is drawn all over is the list to be drawn. -/
theorem eq (h : Draws target P out out₁) (hlen : out.length = target.length) (hP : ∀ i < target.length, P i) :
    out₁ = target := by
  refine ext_getElem? fun i => ?_
  by_cases hi : i < target.length
  · exact h.drawn i (hP i hi)
  · rw [getElem?_eq_none (by rw [h.length, hlen]; omega), getElem?_eq_none (by omega)]

theorem patch (h : Stands target here xs) (hlen : out.length = target.length) :
    Draws target (fun i => here ≤ i ∧ i < here + xs.length) out (out.take here ++ xs ++ out.drop (here + xs.length)) := by
  have hle := h.le
  have htake : (out.take here).length = here := by rw [length_take]; omega
  have hin : ∀ i, here ≤ i → i < here + xs.length →
      (out.take here ++ xs ++ out.drop (here + xs.length))[i]? = target[i]? := by
    intro i h₁ h₂
    have := h.getElem? (i := i - here) (by omega)
    rw [Nat.add_sub_cancel' h₁] at this
    rw [this, append_assoc, getElem?_append_right (by omega), htake, getElem?_append_left (by omega)]
  refine ⟨?_, fun i => ?_, fun i hi => hin i hi.1 hi.2⟩
  · rw [length_append, length_append, htake, length_drop]
    omega
  · by_cases h₁ : here ≤ i
    · by_cases h₂ : i < here + xs.length
      · exact .inl (hin i h₁ h₂)
      · right
        rw [getElem?_append_right (by rw [length_append]; omega), length_append, htake, getElem?_drop]
        congr 1
        omega
    · right
      rw [append_assoc, getElem?_append_left (by omega), getElem?_take_of_lt (by omega)]

theorem foldlM {f : List α → β → Option (List α)} {P : β → Nat → Prop} {l : List β}
    (step : ∀ b ∈ l, ∀ out : List α, out.length = target.length → ∃ out', f out b = some out' ∧ Draws target (P b) out out') :
    ∀ {out : List α}, out.length = target.length →
      ∃ out', l.foldlM f out = some out' ∧ Draws target (fun i => ∃ b ∈ l, P b i) out out' := by
  induction l with
  | nil => exact fun _ => ⟨_, rfl, refl.mono fun i ⟨b, hb, _⟩ => nomatch hb⟩
  | cons b l ih =>
    intro out hlen
    obtain ⟨out₁, h₁, hd₁⟩ := step b mem_cons_self out hlen
    obtain ⟨out₂, h₂, hd₂⟩ := ih (fun c hc => step c (mem_cons_of_mem _ hc)) (hd₁.length.trans hlen)
    refine ⟨out₂, by rw [foldlM_cons, h₁]; exact h₂, (hd₁.trans hd₂).mono fun i hi => ?_⟩
    obtain ⟨c, hc, hi⟩ := hi
    rcases mem_cons.mp hc with rfl | hc
    · exact .inl hi
    · exact .inr ⟨c, hc, hi⟩

end Draws

end Pie.Lib.Patches
