import Mathlib.Tactic

/-!
# Tallies

Things that carry a label, taken label by label, and what a loop adds up for each
label.
-/

namespace Pie.Lib.Tallies

open List

variable {α κ : Type} {label : α → κ}

/-- The things of one label. -/
def labelled [DecidableEq κ] (label : α → κ) (k : κ) (xs : List α) : List α := xs.filter fun x => decide (label x = k)

/-- Taken label by label, everything is taken once. -/
theorem perm_flatMap_labelled [DecidableEq κ] {keys : List κ} {xs : List α} (hnd : keys.Nodup)
    (hmem : ∀ x ∈ xs, label x ∈ keys) : (keys.flatMap fun k => labelled label k xs).Perm xs := by
  induction keys generalizing xs with
  | nil =>
    have hnil : xs = [] := eq_nil_iff_forall_not_mem.mpr fun x hx => not_mem_nil (hmem x hx)
    rw [hnil, flatMap_nil]
  | cons k keys ih =>
    obtain ⟨hk, hnd⟩ := nodup_cons.mp hnd
    -- the other labels take from what `k` leaves
    have hrest : (keys.flatMap fun k' => labelled label k' xs)
        = keys.flatMap fun k' => labelled label k' (xs.filter fun x => !decide (label x = k)) := by
      refine flatMap_congr fun k' hk' => ?_
      rw [labelled, labelled, filter_filter]
      refine filter_congr fun x _ => ?_
      have hne : label x = k' → label x ≠ k := fun he hc => hk (hc ▸ he ▸ hk')
      by_cases he : label x = k' <;> simp [he]
      exact he ▸ hne he
    rw [flatMap_cons, hrest]
    refine ((ih hnd fun x hx => ?_).append_left _).trans (filter_append_perm _ _)
    obtain ⟨hx, hne⟩ := mem_filter.mp hx
    exact (mem_cons.mp (hmem x hx)).resolve_left (by simpa using hne)

/-- The sums of the labels sum up to that of everything. -/
theorem sum_labelled [DecidableEq κ] {keys : List κ} {xs : List α} (hnd : keys.Nodup) (hmem : ∀ x ∈ xs, label x ∈ keys)
    (f : α → Nat) : (keys.map fun k => ((labelled label k xs).map f).sum).sum = (xs.map f).sum := by
  rw [← ((perm_flatMap_labelled hnd hmem).map f).sum_eq, map_flatMap, flatMap_def, sum_flatten, map_map]
  rfl

/-- A loop that changes the entry of each label in turn runs through the things of each label. -/
theorem foldl_modify {β : Type} {label : α → Nat} (step : β → α → β) (z : β) (n : Nat) (xs : List α) :
    xs.foldl (fun t x => t.modify (label x) fun b => step b x) (replicate n z)
      = (range n).map fun k => (labelled label k xs).foldl step z := by
  induction xs using reverseRecOn with
  | nil =>
    rw [foldl_nil]
    exact (map_const' ..).symm ▸ by rw [length_range]
  | append_singleton xs x ih =>
    rw [foldl_append, ih, foldl_cons, foldl_nil]
    refine ext_getElem (by rw [length_modify, length_map, length_map]) fun k hk _ => ?_
    rw [getElem_modify, getElem_map, getElem_map, getElem_range, labelled, labelled, filter_append, foldl_append]
    by_cases he : label x = k
    · rw [if_pos he, filter_cons_of_pos (by simpa using he), filter_nil, foldl_cons, foldl_nil]
    · rw [if_neg he, filter_cons_of_neg (by simpa using he), filter_nil, foldl_nil]

/-- What the things of one label come to. -/
def total [DecidableEq κ] (label : α → κ) (f : α → Nat) (k : κ) (xs : List α) : Nat := ((labelled label k xs).map f).sum

section

variable [DecidableEq κ] {f : α → Nat} {k : κ} {xs ys : List α}

@[simp] theorem total_append : total label f k (xs ++ ys) = total label f k xs + total label f k ys := by
  rw [total, labelled, filter_append, map_append, sum_append]
  rfl

theorem total_sublist (h : xs.Sublist ys) : total label f k xs ≤ total label f k ys :=
  ((h.filter _).map f).sum_le_sum fun _ _ => Nat.zero_le _

theorem total_of_not_mem (h : ∀ x ∈ xs, label x ≠ k) : total label f k xs = 0 := by
  rw [total, labelled, filter_eq_nil_iff.mpr fun x hx => by simpa using h x hx]
  rfl

theorem total_of_nodup {x : α} (hnd : (xs.map label).Nodup) (hx : x ∈ xs) : total label f (label x) xs = f x := by
  obtain ⟨before, after, rfl⟩ := append_of_mem hx
  rw [map_append, map_cons, nodup_append, nodup_cons] at hnd
  obtain ⟨-, ⟨hafter, -⟩, hbefore⟩ := hnd
  have hb : total label f (label x) before = 0 :=
    total_of_not_mem fun y hy h => hbefore _ (mem_map_of_mem hy) _ mem_cons_self h
  have ha : total label f (label x) after = 0 := total_of_not_mem fun y hy h => hafter (h ▸ mem_map_of_mem hy)
  have hx : total label f (label x) [x] = f x := by
    rw [total, labelled, filter_cons_of_pos (by simp), filter_nil, map_singleton, sum_singleton]
  rw [← singleton_append, total_append, total_append, hb, ha, hx, zero_add, add_zero]

end

theorem foldl_add {label : α → Nat} (f : α → Nat) (n : Nat) (xs : List α) :
    xs.foldl (fun t x => t.modify (label x) (· + f x)) (replicate n 0)
      = (range n).map fun k => total label f k xs := by
  rw [foldl_modify (fun b x => b + f x) 0 n xs]
  refine map_congr_left fun k _ => ?_
  rw [total, sum_eq_foldl, foldl_map]

theorem foldl_sum (f : α → Int) (xs : List α) (s : Int) : xs.foldl (fun s x => s + f x) s = s + (xs.map f).sum := by
  induction xs generalizing s with
  | nil => exact (add_zero s).symm
  | cons x xs ih => rw [foldl_cons, ih, map_cons, sum_cons, add_assoc]

/-- A loop that lists things under their labels ends with the things of each label. -/
theorem foldl_snoc {β : Type} {label : α → Nat} (f : α → β) (n : Nat) (xs : List α) :
    xs.foldl (fun t x => t.modify (label x) (· ++ [f x])) (replicate n [])
      = (range n).map fun k => (labelled label k xs).map f := by
  rw [foldl_modify (fun b x => b ++ [f x]) [] n xs]
  refine map_congr_left fun k _ => ?_
  generalize labelled label k xs = ys
  induction ys using reverseRecOn with
  | nil => rfl
  | append_singleton ys y ih =>
    rw [foldl_append, ih, map_append]
    rfl

end Pie.Lib.Tallies
