import Mathlib.Data.List.Sort
import Mathlib.Data.List.TakeWhile

/-!
# Spans

Half-open ranges of numbers, sorted by where they start, and lists along which a
predicate turns false once and stays so.
-/

namespace Pie.Lib.Spans

open List

/-- The numbers from the first on, up to but not including the second. -/
abbrev Span := Nat × Nat

/-- The order of pairs: by the start, then by the end. -/
def le (a b : Span) : Prop := a.1 < b.1 ∨ a.1 = b.1 ∧ a.2 ≤ b.2

instance : DecidableRel le := fun _ _ => inferInstanceAs (Decidable (_ ∨ _))

instance : Std.Total le := ⟨fun a b => by unfold le; omega⟩

instance : IsTrans Span le := ⟨fun a b c hab hbc => by unfold le at *; omega⟩

theorem le_start {a b : Span} (h : le a b) : a.1 ≤ b.1 := by
  rcases h with h | h
  · exact le_of_lt h
  · exact le_of_eq h.1

section Points

variable {α : Type*} {p : α → Bool} {l : List α}

/-- `slice::partition_point`: how many elements come before the first that fails `p`. -/
def partitionPoint (p : α → Bool) (l : List α) : Nat := (l.takeWhile p).length

theorem not_of_mem_dropWhile (h : l.Pairwise fun a b => p b = true → p a = true) {a : α} (ha : a ∈ l.dropWhile p) :
    p a = false := by
  induction l with
  | nil => cases ha
  | cons b l ih =>
    obtain ⟨hb, hl⟩ := pairwise_cons.mp h
    rw [dropWhile_cons] at ha
    split at ha
    · exact ih hl ha
    · rename_i hpb
      rw [Bool.not_eq_true] at hpb
      rcases mem_cons.mp ha with rfl | ha
      · exact hpb
      · rw [← Bool.not_eq_true]
        intro hpa
        rw [hb a ha hpa] at hpb
        cases hpb

section

variable (h : l.Pairwise fun a b => p b = true → p a = true)
include h

theorem takeWhile_eq_filter : l.takeWhile p = l.filter p := by
  conv_rhs => rw [← takeWhile_append_dropWhile (p := p) (l := l)]
  have hdrop : (l.dropWhile p).filter p = [] :=
    filter_eq_nil_iff.mpr fun a ha hp => by rw [not_of_mem_dropWhile h ha] at hp; cases hp
  rw [filter_append, hdrop, append_nil, filter_eq_self.mpr fun a ha => mem_takeWhile_imp ha]

theorem dropWhile_eq_filter :
    l.dropWhile p = l.filter (!p ·) := by
  conv_rhs => rw [← takeWhile_append_dropWhile (p := p) (l := l)]
  have htake : (l.takeWhile p).filter (!p ·) = [] :=
    filter_eq_nil_iff.mpr fun a ha => by simp [mem_takeWhile_imp ha]
  rw [filter_append, htake, nil_append,
    filter_eq_self.mpr fun a ha => by rw [not_of_mem_dropWhile h ha, Bool.not_false]]

theorem filter_append_filter_not :
    l.filter p ++ l.filter (!p ·) = l := by
  rw [← takeWhile_eq_filter h, ← dropWhile_eq_filter h, takeWhile_append_dropWhile]

end

end Points

theorem sort_start (spans : List Span) : (spans.insertionSort le).Pairwise fun a b => a.1 ≤ b.1 :=
  (pairwise_insertionSort le spans).imp le_start

end Pie.Lib.Spans
