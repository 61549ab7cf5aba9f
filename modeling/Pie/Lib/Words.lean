import Mathlib.Data.Nat.Bitwise
import Mathlib.Tactic

/-!
# Sums and products of 64-bit words

A word is a number below `2 ^ 64`; what would not be one is `none`. Rounding up
to a power of two is done on the bits, and is the least multiple not below.
-/

namespace Pie.Lib.Words

def WORD : Nat := 2 ^ 64

def checkedAdd (a b : Nat) : Option Nat := if a + b < WORD then some (a + b) else none

def checkedMul (a b : Nat) : Option Nat := if a * b < WORD then some (a * b) else none

/-- `v & !(align - 1)` on the sum; `align` is a power of two. -/
def alignUp (n align : Nat) : Option Nat :=
  (checkedAdd n (align - 1)).map fun v => v &&& (WORD - 1 - (align - 1))

/-- The least multiple of `a` from `n` on. -/
def roundUp (n a : Nat) : Nat := (n + (a - 1)) / a * a

theorem checkedAdd_eq_some {a b c : Nat} : checkedAdd a b = some c ↔ a + b < WORD ∧ a + b = c := by
  unfold checkedAdd
  split
  · rename_i h
    exact ⟨fun he => ⟨h, Option.some.inj he⟩, fun he => congrArg some he.2⟩
  · rename_i h
    exact ⟨fun he => (nomatch he), fun he => absurd he.1 h⟩

theorem checkedMul_eq_some {a b c : Nat} : checkedMul a b = some c ↔ a * b < WORD ∧ a * b = c := by
  unfold checkedMul
  split
  · rename_i h
    exact ⟨fun he => ⟨h, Option.some.inj he⟩, fun he => congrArg some he.2⟩
  · rename_i h
    exact ⟨fun he => (nomatch he), fun he => absurd he.1 h⟩

theorem and_mask {v k : Nat} (hv : v < WORD) (hk : k ≤ 64) : v &&& (WORD - 1 - (2 ^ k - 1)) = v / 2 ^ k * 2 ^ k := by
  have hpow : WORD = 2 ^ k * 2 ^ (64 - k) := by rw [← pow_add, Nat.add_sub_cancel' hk, WORD]
  have hmask : WORD - 1 - (2 ^ k - 1) = 2 ^ k * (2 ^ (64 - k) - 1) := by
    have : 0 < 2 ^ k := Nat.two_pow_pos k
    rw [Nat.mul_sub_one, ← hpow]
    omega
  rw [hmask]
  refine Nat.eq_of_testBit_eq (fun i => ?_)
  rw [Nat.testBit_and, Nat.testBit_two_pow_mul, Nat.testBit_two_pow_sub_one, mul_comm (v / 2 ^ k),
    Nat.testBit_two_pow_mul, Nat.testBit_div_two_pow]
  by_cases hi : k ≤ i
  · rw [decide_eq_true hi, Bool.true_and, Bool.true_and, Nat.sub_add_cancel hi]
    by_cases h64 : i < 64
    · rw [decide_eq_true (show i - k < 64 - k by omega), Bool.and_true]
    · have hlow : v < 2 ^ i := lt_of_lt_of_le hv (Nat.pow_le_pow_right (by omega) (by omega))
      rw [Nat.testBit_lt_two_pow hlow, Bool.false_and]
  · rw [decide_eq_false hi, Bool.false_and, Bool.false_and, Bool.and_false]

theorem alignUp_eq_some {n k m : Nat} (hk : k ≤ 64) :
    alignUp n (2 ^ k) = some m ↔ n + (2 ^ k - 1) < WORD ∧ roundUp n (2 ^ k) = m := by
  unfold alignUp
  rw [Option.map_eq_some_iff]
  constructor
  · intro ⟨v, hv, hm⟩
    obtain ⟨hlt, rfl⟩ := checkedAdd_eq_some.mp hv
    rw [and_mask hlt hk] at hm
    exact ⟨hlt, hm⟩
  · intro ⟨hlt, hm⟩
    exact ⟨_, checkedAdd_eq_some.mpr ⟨hlt, rfl⟩, by rw [and_mask hlt hk]; exact hm⟩

/-! ## Rounding up -/

variable {n m a : Nat}

theorem dvd_roundUp (n a : Nat) : a ∣ roundUp n a := dvd_mul_left _ _

theorem le_roundUp (ha : 0 < a) : n ≤ roundUp n a := by
  have h := Nat.div_add_mod (n + (a - 1)) a
  have hmod := Nat.mod_lt (n + (a - 1)) ha
  unfold roundUp
  rw [mul_comm]
  omega

theorem roundUp_lt (ha : 0 < a) : roundUp n a < n + a := by
  have h := Nat.div_mul_le_self (n + (a - 1)) a
  unfold roundUp
  omega

theorem roundUp_le (ha : 0 < a) (hm : a ∣ m) (h : n ≤ m) : roundUp n a ≤ m := by
  obtain ⟨c, rfl⟩ := hm
  unfold roundUp
  rw [mul_comm]
  refine Nat.mul_le_mul_left _ (Nat.lt_succ_iff.mp ((Nat.div_lt_iff_lt_mul ha).mpr ?_))
  rw [Nat.succ_mul, Nat.mul_comm c]
  omega

theorem roundUp_self (ha : 0 < a) (h : a ∣ n) : roundUp n a = n :=
  le_antisymm (roundUp_le ha h (le_refl n)) (le_roundUp ha)

/-- Nothing between a number and its rounding rounds otherwise. -/
theorem roundUp_between (ha : 0 < a) (h : n ≤ m) (h' : m ≤ roundUp n a) : roundUp m a = roundUp n a :=
  le_antisymm (roundUp_le ha (dvd_roundUp n a) h') (roundUp_le ha (dvd_roundUp m a) (h.trans (le_roundUp ha)))

end Pie.Lib.Words
