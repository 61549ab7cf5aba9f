import Mathlib.Data.List.Sort
import Mathlib.Data.Nat.Bitwise

/-!
# Sets of numbers

A set of numbers is a list in order, or the bits of a number. Two lists in order
are compared in one sweep; the bits of a number stand for the words of a bit
vector side by side.
-/

namespace Pie.Lib

open List

/-! ## Lists in order -/

namespace Ordered

/-- `dedup`: of equal neighbours one stays. -/
def dedup : List Nat → List Nat
  | [] => []
  | a :: l =>
    match dedup l with
    | [] => [a]
    | b :: l' => if a = b then b :: l' else a :: b :: l'

/-- `sort_unstable` and `dedup`. -/
def normal (l : List Nat) : List Nat := dedup (l.insertionSort (· ≤ ·))

/-- The sweep of two lists in order, for as many steps as they have elements. -/
def sweep : Nat → List Nat → List Nat → Bool
  | fuel + 1, a :: as, b :: bs =>
    if a < b then sweep fuel as (b :: bs) else if b < a then sweep fuel (a :: as) bs else true
  | _, _, _ => false

/-- The lists have an element in common. -/
def meets (as bs : List Nat) : Bool := sweep (as.length + bs.length) as bs

theorem mem_dedup {x : Nat} : ∀ {l : List Nat}, x ∈ dedup l ↔ x ∈ l := by
  intro l
  induction l with
  | nil => exact Iff.rfl
  | cons a l ih =>
    rw [mem_cons, ← ih, dedup]
    split
    · rename_i h
      rw [h, mem_singleton]
      simp
    · rename_i b l' h
      rw [h]
      split
      · rename_i hab
        rw [hab]
        simp
      · rw [mem_cons]

theorem dedup_sorted {l : List Nat} (h : l.Pairwise (· ≤ ·)) : (dedup l).Pairwise (· ≤ ·) := by
  induction l with
  | nil => exact .nil
  | cons a l ih =>
    have hl := ih h.tail
    have ha : ∀ x ∈ dedup l, a ≤ x := fun x hx => rel_of_pairwise_cons h (mem_dedup.mp hx)
    rw [dedup]
    split
    · exact pairwise_singleton _ _
    · rename_i b l' heq
      rw [heq] at hl ha
      split
      · exact hl
      · exact pairwise_cons.mpr ⟨ha, hl⟩

@[simp] theorem mem_normal {x : Nat} {l : List Nat} : x ∈ normal l ↔ x ∈ l := by
  unfold normal
  rw [mem_dedup, mem_insertionSort]

theorem normal_sorted (l : List Nat) : (normal l).Pairwise (· ≤ ·) :=
  dedup_sorted (pairwise_insertionSort (· ≤ ·) l)

theorem sweep_of_mem {x : Nat} : ∀ {fuel : Nat} {as bs : List Nat}, as.Pairwise (· ≤ ·) → bs.Pairwise (· ≤ ·) →
    as.length + bs.length ≤ fuel → x ∈ as → x ∈ bs → sweep fuel as bs = true := by
  intro fuel
  induction fuel with
  | zero =>
    intro as bs _ _ hfuel hx _
    have := length_pos_of_mem hx
    omega
  | succ fuel ih =>
    intro as bs has hbs hfuel hxa hxb
    cases as with
    | nil => cases hxa
    | cons a as =>
      cases bs with
      | nil => cases hxb
      | cons b bs =>
        rw [length_cons, length_cons] at hfuel
        unfold sweep
        split
        · rename_i hab
          -- `a` is below all of the other list
          refine ih has.tail hbs (by rw [length_cons]; omega) ?_ hxb
          rcases mem_cons.mp hxa with rfl | hxa
          · rcases mem_cons.mp hxb with rfl | hxb
            · exact absurd hab (lt_irrefl _)
            · exact absurd (rel_of_pairwise_cons hbs hxb) (by omega)
          · exact hxa
        · split
          · rename_i hba
            refine ih has hbs.tail (by rw [length_cons]; omega) hxa ?_
            rcases mem_cons.mp hxb with rfl | hxb
            · rcases mem_cons.mp hxa with rfl | hxa
              · exact absurd hba (lt_irrefl _)
              · exact absurd (rel_of_pairwise_cons has hxa) (by omega)
            · exact hxb
          · rfl

theorem meets_of_mem {x : Nat} {as bs : List Nat} (ha : as.Pairwise (· ≤ ·)) (hb : bs.Pairwise (· ≤ ·))
    (hxa : x ∈ as) (hxb : x ∈ bs) : meets as bs = true :=
  sweep_of_mem ha hb le_rfl hxa hxb

end Ordered

/-! ## Bits of a number -/

namespace Bits

def has (w i : Nat) : Bool := w.testBit i

def add (w i : Nat) : Nat := w ||| 2 ^ i

@[simp] theorem has_zero (i : Nat) : has 0 i = false := Nat.zero_testBit i

@[simp] theorem has_add (w i j : Nat) : has (add w i) j = (has w j || decide (i = j)) := by
  unfold has add
  rw [Nat.testBit_or, Nat.testBit_two_pow]

@[simp] theorem has_or (v w i : Nat) : has (v ||| w) i = (has v i || has w i) := Nat.testBit_or v w i

@[simp] theorem has_and (v w i : Nat) : has (v &&& w) i = (has v i && has w i) := Nat.testBit_and v w i

theorem and_eq_zero {v w : Nat} : v &&& w = 0 ↔ ∀ i, ¬(has v i = true ∧ has w i = true) := by
  constructor
  · intro h i hi
    have hb := has_and v w i
    rw [h, has_zero, hi.1, hi.2] at hb
    cases hb
  · intro h
    refine Nat.eq_of_testBit_eq (fun i => ?_)
    rw [Nat.zero_testBit, Nat.testBit_and]
    cases hv : v.testBit i with
    | false => rfl
    | true =>
      cases hw : w.testBit i with
      | false => rfl
      | true => exact absurd ⟨hv, hw⟩ (h i)

end Bits

end Pie.Lib
