import Mathlib.Tactic

/-!
# Alternating runs

A list of booleans as the lengths of its runs, the first run of the value the
list starts with, each next one of the other value. A run may be empty.
-/

namespace Pie.Lib

open List

/-- The list whose runs have the lengths `rs`, the first of value `v`. -/
def alternate (v : Bool) : List Nat → List Bool
  | [] => []
  | r :: rs => List.replicate r v ++ alternate (!v) rs

/-- The value of the run after `n` runs, the first of value `v`. -/
def after (v : Bool) (n : Nat) : Bool := if n % 2 = 0 then v else !v

variable {v : Bool} {rs rs' : List Nat}

@[simp] theorem alternate_nil : alternate v [] = [] := rfl

@[simp] theorem alternate_cons {r : Nat} : alternate v (r :: rs) = replicate r v ++ alternate (!v) rs := rfl

@[simp] theorem after_zero : after v 0 = v := rfl

theorem after_succ {n : Nat} : after v (n + 1) = after (!v) n := by
  unfold after
  rcases Nat.mod_two_eq_zero_or_one n with h | h
  · rw [if_neg (by omega), if_pos h]
  · rw [if_pos (by omega), if_neg (by omega), Bool.not_not]

theorem after_succ' {n : Nat} : after v (n + 1) = !after v n := by
  unfold after
  rcases Nat.mod_two_eq_zero_or_one n with h | h
  · rw [if_neg (by omega), if_pos h]
  · rw [if_pos (by omega), if_neg (by omega), Bool.not_not]

theorem alternate_append : alternate v (rs ++ rs') = alternate v rs ++ alternate (after v rs.length) rs' := by
  induction rs generalizing v with
  | nil => rfl
  | cons r rs ih =>
    rw [cons_append, alternate_cons, ih, alternate_cons, length_cons, after_succ, append_assoc]

theorem alternate_length : (alternate v rs).length = rs.sum := by
  induction rs generalizing v with
  | nil => rfl
  | cons r rs ih => rw [alternate_cons, length_append, length_replicate, ih, sum_cons]

theorem alternate_concat {r : Nat} : alternate v (rs ++ [r]) = alternate v rs ++ replicate r (after v rs.length) := by
  rw [alternate_append, alternate_cons, alternate_nil, append_nil]

end Pie.Lib
