import Mathlib.Tactic

/-!
# Decimal digits

Numbers as lists of digits, the most significant one first. Lists of one length are
ordered as their values are, first digit first.
-/

namespace Pie.Lib.Decimal

open List

/-- The number that the digits stand for. -/
def value : List Nat → Nat
  | [] => 0
  | d :: ds => d * 10 ^ ds.length + value ds

def Digits (ds : List Nat) : Prop := ∀ d ∈ ds, d < 10

/-- The digits of a number, without leading zeros. -/
def digits (n : Nat) : List Nat := (Nat.toDigits 10 n).map fun c => c.toNat - 48

variable {d e n k : Nat} {ds es as bs : List Nat}

theorem Digits.cons (h : Digits (d :: ds)) : d < 10 ∧ Digits ds :=
  ⟨h d mem_cons_self, fun e he => h e (mem_cons_of_mem _ he)⟩

theorem digits_cons (hd : d < 10) (h : Digits ds) : Digits (d :: ds) := fun e he => by
  rcases mem_cons.mp he with rfl | he
  · exact hd
  · exact h e he

theorem digits_append (h : Digits ds) (h' : Digits es) : Digits (ds ++ es) := fun d hd =>
  (mem_append.mp hd).elim (h d) (h' d)

theorem digits_replicate (hd : d < 10) (k : Nat) : Digits (replicate k d) := fun e he => by
  rwa [eq_of_mem_replicate he]

theorem value_append : value (ds ++ es) = value ds * 10 ^ es.length + value es := by
  induction ds with
  | nil => rw [nil_append, value, zero_mul, zero_add]
  | cons d ds ih =>
    rw [cons_append, value, value, ih, length_append]
    ring

theorem value_lt (h : Digits ds) : value ds < 10 ^ ds.length := by
  induction ds with
  | nil => exact Nat.one_pos
  | cons d ds ih =>
    obtain ⟨hd, h⟩ := h.cons
    have hle : (d + 1) * 10 ^ ds.length ≤ 10 * 10 ^ ds.length := Nat.mul_le_mul_right _ hd
    have := ih h
    rw [value, length_cons, pow_succ]
    linarith

theorem value_zeros (k : Nat) : value (replicate k 0) = 0 := by
  induction k with
  | zero => rfl
  | succ k ih => rw [replicate_succ, value, ih, zero_mul]

theorem value_nines (k : Nat) : value (replicate k 9) + 1 = 10 ^ k := by
  induction k with
  | zero => rfl
  | succ k ih =>
    rw [replicate_succ, value, length_replicate, add_assoc, ih, pow_succ]
    ring

/-- Lists of one length are ordered by their first digits, and then by the rest. -/
theorem value_le_value (hlen : ds.length = es.length) (hd : Digits ds) (he : Digits es) :
    value (d :: ds) ≤ value (e :: es) ↔ d < e ∨ (d = e ∧ value ds ≤ value es) := by
  have h1 := value_lt hd
  have h2 := value_lt he
  rw [value, value, hlen]
  rw [hlen] at h1
  rcases lt_trichotomy d e with h | rfl | h
  · have : (d + 1) * 10 ^ es.length ≤ e * 10 ^ es.length := Nat.mul_le_mul_right _ h
    rw [Nat.succ_mul] at this
    exact ⟨fun _ => .inl h, fun _ => by omega⟩
  · exact ⟨fun h => .inr ⟨rfl, by omega⟩, fun h => by omega⟩
  · have : (e + 1) * 10 ^ es.length ≤ d * 10 ^ es.length := Nat.mul_le_mul_right _ h
    rw [Nat.succ_mul] at this
    exact ⟨fun _ => by omega, fun _ => by omega⟩

theorem value_injective (hlen : ds.length = es.length) (hd : Digits ds) (he : Digits es) (h : value ds = value es) :
    ds = es := by
  induction ds generalizing es with
  | nil => exact (length_eq_zero_iff.mp hlen.symm).symm
  | cons d ds ih =>
    obtain ⟨e, es, rfl⟩ := exists_cons_of_length_eq_add_one (hlen.symm.trans length_cons)
    have hlen' : ds.length = es.length := Nat.succ.inj hlen
    have h1 := (value_le_value hlen' hd.cons.2 he.cons.2).mp h.le
    have h2 := (value_le_value hlen'.symm he.cons.2 hd.cons.2).mp h.ge
    have hde : d = e := by omega
    rw [hde, ih hlen' hd.cons.2 he.cons.2 (by omega)]

/-! ## The digits of a number -/

theorem digits_of_lt (h : n < 10) : digits n = [n] := by
  rw [digits, Nat.toDigits_of_lt_base h, map_singleton, Nat.toNat_digitChar_sub_48_of_lt_ten h]

theorem digits_of_le (h : 10 ≤ n) : digits n = digits (n / 10) ++ [n % 10] := by
  rw [digits, Nat.toDigits_of_base_le (by decide) h, map_append, map_singleton,
    Nat.toNat_digitChar_sub_48_of_lt_ten (Nat.mod_lt n (by decide))]
  rfl

theorem digits_digits (n : Nat) : Digits (digits n) := by
  induction n using Nat.strongRecOn with
  | ind n ih =>
    by_cases h : n < 10
    · rw [digits_of_lt h]
      exact digits_cons h nofun
    · rw [digits_of_le (not_lt.mp h)]
      exact digits_append (ih _ (by omega)) (digits_cons (Nat.mod_lt n (by decide)) nofun)

theorem value_digits (n : Nat) : value (digits n) = n := by
  induction n using Nat.strongRecOn with
  | ind n ih =>
    by_cases h : n < 10
    · rw [digits_of_lt h, value, value, length_nil, pow_zero, mul_one, add_zero]
    · rw [digits_of_le (not_lt.mp h), value_append, ih _ (by omega), length_singleton, pow_one]
      simp only [value, length_nil, pow_zero, mul_one, add_zero]
      exact Nat.div_add_mod' n 10

theorem length_digits_pos (n : Nat) : 0 < (digits n).length := by
  rw [digits, length_map]
  exact Nat.length_toDigits_pos

theorem length_digits_le (hk : 0 < k) : (digits n).length ≤ k ↔ n < 10 ^ k := by
  rw [digits, length_map]
  exact Nat.length_toDigits_le_iff (by decide) hk

theorem lt_pow_length (n : Nat) : n < 10 ^ (digits n).length := (length_digits_le (length_digits_pos n)).mp le_rfl

theorem pow_le (h : k + 1 < (digits n).length ∨ (k + 1 = (digits n).length ∧ 0 < k)) : 10 ^ k ≤ n := by
  rcases h with h | ⟨h, hk⟩
  · refine not_lt.mp fun hlt => ?_
    have := (length_digits_le k.succ_pos).mpr (hlt.trans (Nat.pow_lt_pow_right (by decide) k.lt_succ_self))
    omega
  · refine not_lt.mp fun hlt => ?_
    have := (length_digits_le hk).mpr hlt
    omega

theorem length_digits (hlo : 10 ^ k ≤ n) (hhi : n < 10 ^ (k + 1)) : (digits n).length = k + 1 := by
  have hle := (length_digits_le k.succ_pos).mpr hhi
  cases k with
  | zero => exact le_antisymm hle (length_digits_pos n)
  | succ k =>
    refine le_antisymm hle (not_lt.mp fun hlt => ?_)
    exact not_lt.mpr hlo ((length_digits_le k.succ_pos).mp (Nat.le_of_lt_succ hlt))

theorem length_digits_pow (k : Nat) : (digits (10 ^ k)).length = k + 1 :=
  length_digits le_rfl (Nat.pow_lt_pow_right (by decide) k.lt_succ_self)

theorem length_digits_nines (hk : 0 < k) : (digits (10 ^ k - 1)).length = k := by
  obtain ⟨k, rfl⟩ := Nat.exists_eq_succ_of_ne_zero hk.ne'
  have hpos : 0 < 10 ^ k := Nat.pow_pos (by decide)
  have hsucc : 10 ^ (k + 1) = 10 ^ k * 10 := pow_succ 10 k
  exact length_digits (by omega) (by omega)

/-- Digits that do not begin with a zero are those of their value. -/
theorem digits_value (hd : d ≠ 0) (h : Digits (d :: ds)) : digits (value (d :: ds)) = d :: ds := by
  have hlt := value_lt h
  have hle : 10 ^ ds.length ≤ value (d :: ds) := by
    rw [value]
    exact (Nat.le_mul_of_pos_left _ (Nat.pos_of_ne_zero hd)).trans (Nat.le_add_right _ _)
  exact value_injective (length_digits hle hlt) (digits_digits _) h (value_digits _)

theorem digits_eq (hlen : (digits (value ds)).length = ds.length) (h : Digits ds) : digits (value ds) = ds :=
  value_injective hlen (digits_digits _) h (value_digits _)

/-! ## Text -/

/-- The digit as a byte. -/
def digitByte (d : Nat) : UInt8 := UInt8.ofNat (0x30 + d)

/-- A number as it is written. -/
def numeral (n : Nat) : List UInt8 := (digits n).map digitByte

theorem toNat_digitByte (h : d < 10) : (digitByte d).toNat = 0x30 + d := by
  unfold digitByte
  rw [UInt8.toNat_ofNat']
  omega

theorem encode_digitChar (h : d < 10) : String.utf8EncodeChar d.digitChar = [digitByte d] := by
  interval_cases d <;> rfl

theorem encode_toString (n : Nat) : (toString n).toList.flatMap String.utf8EncodeChar = numeral n := by
  have hchars : ∀ n : Nat, (Nat.toDigits 10 n).flatMap String.utf8EncodeChar = numeral n := by
    intro n
    unfold numeral
    induction n using Nat.strongRecOn with
    | ind n ih =>
      by_cases h : n < 10
      · rw [Nat.toDigits_of_lt_base h, digits_of_lt h, flatMap_singleton, encode_digitChar h]
        rfl
      · rw [Nat.toDigits_of_base_le (by decide) (not_lt.mp h), digits_of_le (not_lt.mp h), flatMap_append,
          ih _ (by omega), flatMap_singleton, encode_digitChar (Nat.mod_lt n (by decide)), map_append]
        rfl
  rw [← hchars, ← Nat.toList_repr]
  rfl

end Pie.Lib.Decimal
