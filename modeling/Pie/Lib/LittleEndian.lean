import Mathlib.Tactic

/-!
# Little-endian numbers

The low bytes of a number first, and the number some bytes stand for.
-/

namespace Pie.Lib

open List

/-- The low `n` bytes of a number. -/
def toLe : Nat → Nat → List UInt8
  | 0, _ => []
  | n + 1, x => UInt8.ofNat x :: toLe n (x / 256)

def ofLe : List UInt8 → Nat
  | [] => 0
  | b :: bs => b.toNat + 256 * ofLe bs

@[simp] theorem toLe_length (n x : Nat) : (toLe n x).length = n := by
  induction n generalizing x with
  | zero => rfl
  | succ n ih => rw [toLe, length_cons, ih]

theorem ofLe_lt (bs : List UInt8) : ofLe bs < 256 ^ bs.length := by
  induction bs with
  | nil => simp [ofLe]
  | cons b bs ih =>
    have := b.toNat_lt
    rw [ofLe, length_cons, pow_succ]
    omega

theorem ofLe_toLe {n x : Nat} (h : x < 256 ^ n) : ofLe (toLe n x) = x := by
  induction n generalizing x with
  | zero =>
    rw [pow_zero] at h
    rw [toLe, ofLe]
    omega
  | succ n ih =>
    rw [pow_succ] at h
    rw [toLe, ofLe, ih (by omega), UInt8.toNat_ofNat']
    omega

theorem toLe_ofLe {n : Nat} {bs : List UInt8} (h : bs.length = n) : toLe n (ofLe bs) = bs := by
  induction n generalizing bs with
  | zero => exact (length_eq_zero_iff.mp h).symm
  | succ n ih =>
    cases bs with
    | nil => cases h
    | cons b bs =>
      have hlt := b.toNat_lt
      have hb : UInt8.ofNat (b.toNat + 256 * ofLe bs) = b := by
        refine UInt8.toNat.inj ?_
        rw [UInt8.toNat_ofNat']
        omega
      have hrest : (b.toNat + 256 * ofLe bs) / 256 = ofLe bs := by omega
      rw [ofLe, toLe, hb, hrest, ih (by simpa using h)]

/-- The numbers of `n` bytes each that some bytes hold one after the other. -/
def readLe (n : Nat) : Nat → List UInt8 → List Nat
  | 0, _ => []
  | count + 1, bs => ofLe (bs.take n) :: readLe n count (bs.drop n)

theorem readLe_flatMap {n : Nat} (xs : List Nat) (h : ∀ x ∈ xs, x < 256 ^ n) :
    readLe n xs.length (xs.flatMap (toLe n)) = xs := by
  induction xs with
  | nil => rfl
  | cons x xs ih =>
    rw [flatMap_cons, length_cons, readLe, take_left' (toLe_length n x),
      drop_left' (toLe_length n x), ofLe_toLe (h x mem_cons_self),
      ih (fun y hy => h y (mem_cons_of_mem _ hy))]

end Pie.Lib
