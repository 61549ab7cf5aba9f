import Mathlib.Tactic

/-!
# Ranges that follow each other

A range of rows is cut at some ends. The pieces follow each other without a gap,
and what they hold of a list, one after the other, is the list.
-/

namespace Pie.Lib

open List

variable {α β : Type*}

/-- Ranges that follow each other from `a` to `b`. -/
def Tiles : Nat → Nat → List (Nat × Nat) → Prop
  | a, b, [] => a = b
  | a, b, c :: cuts => c.1 = a ∧ c.1 ≤ c.2 ∧ Tiles c.2 b cuts

/-- The ranges from `a` on that end where the list says. -/
def cutsFrom : Nat → List Nat → List (Nat × Nat)
  | _, [] => []
  | a, b :: ends => (a, b) :: cutsFrom b ends

/-- The elements of a range. -/
def stretch (l : List α) (c : Nat × Nat) : List α := (l.drop c.1).take (c.2 - c.1)

namespace Tiles

theorem le : ∀ {cuts : List (Nat × Nat)} {a b : Nat}, Tiles a b cuts → a ≤ b := by
  intro cuts
  induction cuts with
  | nil => exact fun h => le_of_eq h
  | cons c cuts ih =>
    intro a b h
    obtain ⟨rfl, hc, h⟩ := h
    exact hc.trans (ih h)

theorem le_of_mem : ∀ {cuts : List (Nat × Nat)} {a b : Nat}, Tiles a b cuts →
    ∀ c ∈ cuts, a ≤ c.1 ∧ c.1 ≤ c.2 ∧ c.2 ≤ b := by
  intro cuts
  induction cuts with
  | nil => exact fun _ c hc => (nomatch hc)
  | cons d cuts ih =>
    intro a b h c hc
    obtain ⟨rfl, hd, h⟩ := h
    rcases mem_cons.mp hc with rfl | hc
    · exact ⟨le_rfl, hd, h.le⟩
    · obtain ⟨h₁, h₂, h₃⟩ := ih h c hc
      exact ⟨hd.trans h₁, h₂, h₃⟩

/-- What the pieces hold, one after the other, is what the whole holds. -/
theorem flatMap_stretch {l : List α} : ∀ {cuts : List (Nat × Nat)} {a b : Nat}, Tiles a b cuts →
    cuts.flatMap (stretch l) = stretch l (a, b) := by
  intro cuts
  induction cuts with
  | nil =>
    intro a b h
    obtain rfl : a = b := h
    rw [stretch, Nat.sub_self, take_zero, flatMap_nil]
  | cons c cuts ih =>
    intro a b h
    obtain ⟨rfl, hc, h⟩ := h
    have hsplit : b - c.1 = (c.2 - c.1) + (b - c.2) := by
      have := h.le
      omega
    have hdrop : c.1 + (c.2 - c.1) = c.2 := by omega
    rw [flatMap_cons, ih h, stretch, stretch, stretch, hsplit, take_add, drop_drop, hdrop]

theorem last_snd : ∀ {cuts : List (Nat × Nat)} {a b : Nat}, Tiles a b cuts → ∀ {c : Nat × Nat},
    cuts.getLast? = some c → c.2 = b := by
  intro cuts
  induction cuts with
  | nil => exact fun _ _ hc => (nomatch hc)
  | cons d cuts ih =>
    intro a b h c hc
    cases cuts with
    | nil =>
      obtain rfl : d = c := Option.some.inj hc
      exact h.2.2
    | cons e cuts =>
      rw [getLast?_cons_cons] at hc
      exact ih h.2.2 hc

end Tiles

theorem stretch_whole {l : List α} : stretch l (0, l.length) = l := by
  rw [stretch, Nat.sub_zero, drop_zero, take_length]

theorem stretch_length {l : List α} {c : Nat × Nat} (h : c.2 ≤ l.length) : (stretch l c).length = c.2 - c.1 := by
  rw [stretch, length_take, length_drop]
  omega

/-! ## Cutting at ends -/

theorem cutsFrom_tiles : ∀ {ends : List Nat} {a b : Nat}, (a :: ends).Pairwise (· < ·) → (a :: ends).getLast? = some b →
    Tiles a b (cutsFrom a ends) ∧ ∀ c ∈ cutsFrom a ends, c.1 < c.2 := by
  intro ends
  induction ends with
  | nil =>
    intro a b _ hlast
    exact ⟨Option.some.inj hlast, fun c hc => (nomatch hc)⟩
  | cons e ends ih =>
    intro a b hsort hlast
    obtain ⟨hlt, hsort⟩ := pairwise_cons.mp hsort
    obtain ⟨htiles, hpos⟩ := ih hsort (by rwa [getLast?_cons_cons] at hlast)
    have hae := hlt e mem_cons_self
    exact ⟨⟨rfl, hae.le, htiles⟩, forall_mem_cons.mpr ⟨hae, hpos⟩⟩

theorem snd_mem_of_cutsFrom : ∀ {ends : List Nat} {a : Nat}, ∀ c ∈ cutsFrom a ends, c.2 ∈ ends := by
  intro ends
  induction ends with
  | nil => exact fun c hc => (nomatch hc)
  | cons e ends ih =>
    intro a c hc
    rcases mem_cons.mp hc with rfl | hc
    · exact mem_cons_self
    · exact mem_cons_of_mem _ (ih c hc)

theorem fst_mem_of_cutsFrom : ∀ {ends : List Nat} {a : Nat}, ∀ c ∈ cutsFrom a ends, c.1 ∈ a :: ends := by
  intro ends
  induction ends with
  | nil => exact fun c hc => (nomatch hc)
  | cons e ends ih =>
    intro a c hc
    rcases mem_cons.mp hc with rfl | hc
    · exact mem_cons_self
    · exact mem_cons_of_mem _ (ih c hc)

theorem cutsFrom_gap : ∀ {ends : List Nat} {a : Nat}, (a :: ends).Pairwise (· < ·) → ∀ c ∈ cutsFrom a ends,
    ∀ e ∈ a :: ends, e < c.2 → e ≤ c.1 := by
  intro ends
  induction ends with
  | nil => exact fun _ c hc => (nomatch hc)
  | cons d ends ih =>
    intro a hsort c hc e he hlt
    obtain ⟨had, htail⟩ := pairwise_cons.mp hsort
    rcases mem_cons.mp hc with rfl | hrest
    · rcases mem_cons.mp he with rfl | he
      · exact le_rfl
      · rcases mem_cons.mp he with rfl | he
        · exact absurd hlt (lt_irrefl _)
        · exact absurd hlt (not_lt.mpr ((pairwise_cons.mp htail).1 e he).le)
    · rcases mem_cons.mp he with rfl | he
      · have hle := ih htail c hrest d mem_cons_self
        have hd := (pairwise_cons.mp htail).1 c.2 (snd_mem_of_cutsFrom c hrest)
        exact (had d mem_cons_self).le.trans (hle hd)
      · exact ih htail c hrest e he hlt

theorem Tiles.dropLast_lt : ∀ {cuts : List (Nat × Nat)} {a b : Nat}, Tiles a b cuts → (∀ c ∈ cuts, c.1 < c.2) →
    ∀ c ∈ cuts.dropLast, c.2 < b := by
  intro cuts
  induction cuts with
  | nil => exact fun _ _ c hc => (nomatch hc)
  | cons d cuts ih =>
    intro a b h hpos c hc
    obtain ⟨rfl, -, h⟩ := h
    cases cuts with
    | nil => cases hc
    | cons e cuts =>
      rw [dropLast_cons_cons] at hc
      rcases mem_cons.mp hc with rfl | hc
      · have hfirst := hpos e (mem_cons_of_mem _ mem_cons_self)
        have hend := (h.le_of_mem e mem_cons_self).2.2
        have hstart : e.1 = c.2 := h.1
        omega
      · exact ih h (fun c hc => hpos c (mem_cons_of_mem _ hc)) c hc

/-! ## Sorted ends -/

/-- `sort_unstable` and `dedup`. -/
def ascending (l : List Nat) : List Nat := (l.insertionSort (· ≤ ·)).dedup

theorem mem_ascending {l : List Nat} {x : Nat} : x ∈ ascending l ↔ x ∈ l := by
  rw [ascending, mem_dedup, mem_insertionSort]

theorem ascending_pairwise (l : List Nat) : (ascending l).Pairwise (· < ·) := by
  have hle : (ascending l).Pairwise (· ≤ ·) := (pairwise_insertionSort _ l).sublist (dedup_sublist _)
  have hne : (ascending l).Pairwise (· ≠ ·) := nodup_dedup _
  exact (hle.and hne).imp fun h => lt_of_le_of_ne h.1 h.2

theorem getLast?_of_max {l : List Nat} {b : Nat} (hsort : l.Pairwise (· < ·)) (hb : b ∈ l) (hmax : ∀ x ∈ l, x ≤ b) :
    l.getLast? = some b := by
  obtain ⟨front, back, rfl⟩ := append_of_mem hb
  cases back with
  | nil => exact getLast?_concat
  | cons c back =>
    have hlt := (pairwise_cons.mp (pairwise_append.mp hsort).2.1).1 c mem_cons_self
    have hle := hmax c (mem_append_right _ (mem_cons_of_mem _ mem_cons_self))
    omega

/-! ## Places of what is there -/

theorem forall₂_getElem? {R : α → β → Prop} {l : List α} {l' : List β} (h : Forall₂ R l l') :
    ∀ {i : Nat} {a : α}, l[i]? = some a → ∃ b, l'[i]? = some b ∧ R a b := by
  induction h with
  | nil =>
    intro i a ha
    rw [getElem?_nil] at ha
    cases ha
  | cons hab _ ih =>
    intro i a ha
    cases i with
    | zero =>
      cases ha
      exact ⟨_, rfl, hab⟩
    | succ i => exact ih ha

theorem le_max? {l : List Nat} {d x : Nat} (hx : x ∈ l) : x ≤ l.max?.getD d := by
  cases hmax : l.max? with
  | none =>
    rw [max?_eq_none_iff] at hmax
    rw [hmax] at hx
    cases hx
  | some m => exact (max?_eq_some_iff.mp hmax).2 x hx

theorem min?_le {l : List Nat} {d x : Nat} (hx : x ∈ l) : l.min?.getD d ≤ x := by
  cases hmin : l.min? with
  | none =>
    rw [min?_eq_none_iff] at hmin
    rw [hmin] at hx
    cases hx
  | some m => exact (min?_eq_some_iff.mp hmin).2 x hx

/-- Where an element that `f` keeps comes among those it keeps. -/
theorem getElem?_filterMap {f : α → Option β} : ∀ {l : List α} {i : Nat} {a : α} {b : β}, l[i]? = some a → f a = some b →
    (l.filterMap f)[(l.take i).countP fun a => (f a).isSome]? = some b := by
  intro l
  induction l with
  | nil =>
    intro i a b h
    rw [getElem?_nil] at h
    cases h
  | cons c l ih =>
    intro i a b h hf
    cases i with
    | zero =>
      obtain rfl : c = a := Option.some.inj h
      rw [filterMap_cons_some hf]
      rfl
    | succ i =>
      rw [getElem?_cons_succ] at h
      rw [take_succ_cons]
      cases hc : f c with
      | none =>
        rw [filterMap_cons_none hc, countP_cons_of_neg (by simp [hc])]
        exact ih h hf
      | some b' =>
        rw [filterMap_cons_some hc, countP_cons_of_pos (by simp [hc]), getElem?_cons_succ]
        exact ih h hf

theorem filterMap_range_getElem? : ∀ (l : List α), (range l.length).filterMap (fun k => l[k]?) = l := by
  intro l
  induction l with
  | nil => rfl
  | cons a l ih =>
    have hfirst : (fun k => (a :: l)[k]?) 0 = some a := rfl
    rw [length_cons, range_succ_eq_map, filterMap_cons_some hfirst, filterMap_map]
    exact congrArg (a :: ·) ih

/-- Lists that end together: each of them read from where it begins. -/
theorem filterMap_range_aligned {l : List α} {count : Nat} (h : l.length ≤ count) : (range count).filterMap
    (fun k => if count ≤ k + l.length then l[k + l.length - count]? else none) = l := by
  obtain ⟨late, rfl⟩ := Nat.exists_eq_add_of_le' h
  have hearly : (range late).filterMap (fun k =>
      if late + l.length ≤ k + l.length then l[k + l.length - (late + l.length)]? else none) = [] := by
    refine filterMap_eq_nil_iff.mpr (fun k hk => if_neg ?_)
    have := mem_range.mp hk
    omega
  have hlate : (fun k => if late + l.length ≤ k + l.length then l[k + l.length - (late + l.length)]? else none) ∘
      (fun k => late + k) = fun k => l[k]? := by
    funext k
    have hk : late + k + l.length - (late + l.length) = k := by omega
    rw [Function.comp_apply, if_pos (by omega), hk]
  rw [range_add, filterMap_append, hearly, nil_append, filterMap_map, hlate, filterMap_range_getElem?]

end Pie.Lib
