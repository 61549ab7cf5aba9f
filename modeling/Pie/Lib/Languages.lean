import Mathlib

/-!
# Repeated and listed words

Two ways of putting words of languages one after the other, beyond the product:
a bounded number of words of one language, and a list of words with a separator
before each but the first of all.
-/

namespace Pie.Lib.Languages

open List

variable {α : Type*} {L M A B sep : Language α} {w : List α}

theorem ext_mem (h : ∀ w, w ∈ L ↔ w ∈ M) : L = M := Set.ext h

/-- A count between two bounds, of which the upper one may be missing. -/
def Within (min : Nat) (max : Option Nat) (n : Nat) : Prop := min ≤ n ∧ ∀ m ∈ max, n ≤ m

/-- From `min` to `max` words. -/
def repeated (L : Language α) (min : Nat) (max : Option Nat) : Language α := {w | ∃ n, Within min max n ∧ w ∈ L ^ n}

/-- Words of the languages in order, with a word of `sep` before each one that is not the first; `m` come
before them. -/
def listing (sep : Language α) : Nat → List (Language α) → Language α
  | _, [] => 1
  | 0, L :: Ls => L * listing sep 1 Ls
  | m + 1, L :: Ls => sep * L * listing sep (m + 2) Ls

theorem within_none {n : Nat} : Within 0 none n := ⟨Nat.zero_le n, nofun⟩

theorem repeated_mono {min : Nat} {max : Option Nat} (h : L ≤ M) : repeated L min max ≤ repeated M min max :=
  fun _ ⟨n, hn, hw⟩ => ⟨n, hn, pow_le_pow_left' h n hw⟩

theorem mem_sum {Ls : List (Language α)} : w ∈ Ls.sum ↔ ∃ L ∈ Ls, w ∈ L := by
  induction Ls with
  | nil => exact ⟨fun h => h.elim, fun ⟨_, h, _⟩ => absurd h not_mem_nil⟩
  | cons L Ls ih =>
    rw [sum_cons, Language.mem_add, ih]
    simp only [mem_cons, exists_eq_or_imp]

theorem repeated_optional : repeated L 0 (some 1) = 1 + L := by
  refine ext_mem fun w => ⟨fun ⟨n, hn, hw⟩ => ?_, ?_⟩
  · have hle : n ≤ 1 := hn.2 1 rfl
    interval_cases n
    · exact .inl (by rwa [pow_zero] at hw)
    · exact .inr (by rwa [pow_one] at hw)
  · rintro (hw | hw)
    · exact ⟨0, ⟨Nat.le_refl 0, fun m _ => Nat.zero_le m⟩, by rwa [pow_zero]⟩
    · exact ⟨1, ⟨Nat.zero_le 1, fun m hm => by rw [Option.mem_some.mp hm]⟩, by rwa [pow_one]⟩

theorem repeated_exactly {n : Nat} : repeated L n (some n) = L ^ n := by
  refine ext_mem fun w => ⟨fun ⟨m, hm, hw⟩ => ?_, fun hw => ⟨n, ⟨le_refl n, fun m hm => (Option.mem_some.mp hm).le⟩, hw⟩⟩
  rwa [le_antisymm (hm.2 n rfl) hm.1] at hw

theorem listing_succ (m : Nat) (Ls : List (Language α)) : listing sep (m + 1) Ls = listing sep 1 Ls := by
  induction Ls generalizing m with
  | nil => rfl
  | cons L Ls ih =>
    show sep * L * listing sep (m + 2) Ls = sep * L * listing sep 2 Ls
    rw [ih (m + 1), ih 1]

theorem listing_cons (m : Nat) (L : Language α) (Ls : List (Language α)) :
    listing sep m (L :: Ls) = (if m = 0 then L else sep * L) * listing sep (m + 1) Ls := by
  cases m with
  | zero => rfl
  | succ m => rw [if_neg m.succ_ne_zero]; rfl

theorem listing_append (m : Nat) (Ls Ms : List (Language α)) :
    listing sep m (Ls ++ Ms) = listing sep m Ls * listing sep (m + Ls.length) Ms := by
  induction Ls generalizing m with
  | nil =>
    show listing sep m Ms = 1 * listing sep m Ms
    rw [one_mul]
  | cons L Ls ih =>
    rw [cons_append, listing_cons, listing_cons, ih, mul_assoc, length_cons, add_assoc m 1, add_comm 1]

theorem listing_replicate (m n : Nat) : listing sep (m + 1) (replicate n A) = (sep * A) ^ n := by
  induction n generalizing m with
  | zero => rfl
  | succ n ih =>
    rw [replicate_succ, listing_cons, if_neg m.succ_ne_zero, ih, pow_succ']

theorem listing_replicate_zero (n : Nat) : listing sep 0 (replicate (n + 1) A) = A * (sep * A) ^ n := by
  rw [replicate_succ, listing_cons, if_pos rfl, listing_replicate]

end Pie.Lib.Languages
