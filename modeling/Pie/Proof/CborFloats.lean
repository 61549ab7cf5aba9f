import Mathlib.Data.Nat.Bitwise
import Pie.Ztensor.Cbor

/-!
# Floats in CBOR

A half is taken to a single and back without a change; so a float is written in
the narrowest of the three widths that holds it, and each width is read back as
what was written.
-/

namespace Pie.Proof

open Pie.Ztensor.Cbor Lib Lib.Binary B32

/-! ## Fields of a half -/

namespace B16

def sign (h : BitVec 16) : Nat := h.toNat / 2 ^ 15

def exp (h : BitVec 16) : Nat := expo 5 10 h.toNat

def man (h : BitVec 16) : Nat := mant 10 h.toNat

theorem exp_lt (h : BitVec 16) : exp h < 2 ^ 5 := Nat.mod_lt _ (by decide)

theorem man_lt (h : BitVec 16) : man h < 2 ^ 10 := Nat.mod_lt _ (by decide)

theorem pack_fields (h : BitVec 16) : pack 5 10 (sign h) (exp h) (man h) = h.toNat := by
  have := h.isLt
  unfold pack sign exp man expo mant
  omega

end B16

/-! ## Masks and shifts -/

theorem and_bit (n i : Nat) : n &&& 2 ^ i = n / 2 ^ i % 2 * 2 ^ i := by
  rw [Nat.and_two_pow, Nat.testBit_eq_decide_div_mod_eq]
  rcases Nat.mod_two_eq_zero_or_one (n / 2 ^ i) with h | h
  · rw [h]
    rfl
  · rw [h]
    rfl

/-- Three fields joined by `or` are their sum. -/
theorem or_fields {eb mb s e m : Nat} (he : e < 2 ^ eb) (hm : m < 2 ^ mb) :
    s * 2 ^ (eb + mb) ||| e * 2 ^ mb ||| m = pack eb mb s e m := by
  have h1 : e * 2 ^ mb < 2 ^ (eb + mb) := by
    rw [pow_add]
    exact Nat.mul_lt_mul_of_pos_right he (Nat.two_pow_pos mb)
  have h2 : s * 2 ^ (eb + mb) ||| e * 2 ^ mb = (s * 2 ^ eb + e) * 2 ^ mb := by
    rw [mul_comm s, ← Nat.two_pow_add_eq_or_of_lt h1]
    ring
  rw [h2, mul_comm _ (2 ^ mb), ← Nat.two_pow_add_eq_or_of_lt hm]
  unfold pack
  ring

section

variable (x : B32) (h : BitVec 16)

theorem single_exp : ((x >>> 23) &&& 0xFF#32).toNat = exp x := by
  rw [BitVec.toNat_and, BitVec.toNat_ushiftRight, Nat.shiftRight_eq_div_pow]
  exact Nat.and_two_pow_sub_one_eq_mod _ 8

theorem single_man : (x &&& 0x007FFFFF#32).toNat = man x := by
  rw [BitVec.toNat_and]
  exact Nat.and_two_pow_sub_one_eq_mod _ 23

theorem single_sign : (((x >>> 16) &&& 0x8000#32).setWidth 16 : BitVec 16).toNat = sign x * 2 ^ 15 := by
  rw [BitVec.toNat_setWidth, BitVec.toNat_and, BitVec.toNat_ushiftRight, Nat.shiftRight_eq_div_pow]
  have := and_bit (x.toNat / 2 ^ 16) 15
  rw [show (0x8000#32).toNat = 2 ^ 15 from rfl, this]
  unfold sign
  omega

theorem half_exp : ((h >>> 10) &&& 0x1F#16).toNat = B16.exp h := by
  rw [BitVec.toNat_and, BitVec.toNat_ushiftRight, Nat.shiftRight_eq_div_pow]
  exact Nat.and_two_pow_sub_one_eq_mod _ 5

theorem half_man : ((h &&& 0x03FF#16).setWidth 32 : BitVec 32).toNat = B16.man h := by
  have hh : (h &&& 0x03FF#16).toNat = B16.man h := by
    rw [BitVec.toNat_and]
    exact Nat.and_two_pow_sub_one_eq_mod _ 10
  have := B16.man_lt h
  rw [BitVec.toNat_setWidth, hh]
  omega

theorem half_sign : ((h &&& 0x8000#16).setWidth 32 <<< 16 : BitVec 32).toNat = B16.sign h * 2 ^ 31 := by
  have hh : (h &&& 0x8000#16).toNat = h.toNat / 2 ^ 15 % 2 * 2 ^ 15 := by
    rw [BitVec.toNat_and]
    exact and_bit h.toNat 15
  rw [BitVec.toNat_shiftLeft, BitVec.toNat_setWidth, hh, Nat.shiftLeft_eq]
  unfold B16.sign
  omega

end

theorem ofFields {x : B32} {s e m : Nat} (hx : x.toNat = pack 8 23 s e m) (he : e < 2 ^ 8) (hm : m < 2 ^ 23) :
    sign x = s ∧ exp x = e ∧ man x = m := by
  unfold sign exp man
  rw [hx]
  exact ⟨sign_pack he hm, expo_pack he hm, mant_pack hm⟩

theorem single_fields {sg ex mn : BitVec 32} {s e m : Nat} (hs : sg.toNat = s * 2 ^ 31) (hex : ex.toNat = e)
    (hmn : mn.toNat = m) (he : e < 2 ^ 8) (hm : m < 2 ^ 10) :
    sign (sg ||| ex <<< 23 ||| mn <<< 13) = s ∧ exp (sg ||| ex <<< 23 ||| mn <<< 13) = e
      ∧ man (sg ||| ex <<< 23 ||| mn <<< 13) = m * 2 ^ 13 := by
  refine ofFields ?_ he (by omega)
  rw [BitVec.toNat_or, BitVec.toNat_or, BitVec.toNat_shiftLeft, BitVec.toNat_shiftLeft, Nat.shiftLeft_eq,
    Nat.shiftLeft_eq, hs, hex, hmn, Nat.mod_eq_of_lt (by omega : e * 2 ^ 23 < 2 ^ 32),
    Nat.mod_eq_of_lt (by omega : m * 2 ^ 13 < 2 ^ 32)]
  have h := @or_fields 8 23 s e (m * 2 ^ 13) he (by omega)
  rwa [show 8 + 23 = 31 from rfl] at h

/-- The loop moves the leading bit to its place and counts how far. -/
theorem leadingBit_spec : ∀ {k fuel : Nat} {e : Int} {m : BitVec 32}, m.toNat * 2 ^ k < 2 ^ 11 →
    2 ^ 10 ≤ m.toNat * 2 ^ k → k ≤ fuel →
      (leadingBit fuel e m).1 = e - k ∧ (leadingBit fuel e m).2.toNat = m.toNat * 2 ^ k := by
  intro k
  induction k with
  | zero =>
    intro fuel e m hlt hge _
    have hbit : ¬(m &&& 0x400#32 = 0) := by
      intro h
      have h := congrArg BitVec.toNat h
      rw [BitVec.toNat_and, show (0x400#32).toNat = 2 ^ 10 from rfl, and_bit] at h
      have : m.toNat / 2 ^ 10 % 2 * 2 ^ 10 = 0 := h
      omega
    cases fuel with
    | zero => exact ⟨(sub_zero e).symm, by rw [pow_zero, mul_one]; rfl⟩
    | succ fuel =>
      unfold leadingBit
      rw [if_neg hbit]
      exact ⟨(sub_zero e).symm, by rw [pow_zero, mul_one]⟩
  | succ k ih =>
    intro fuel e m hlt hge hk
    obtain ⟨fuel, rfl⟩ : ∃ f, fuel = f + 1 := ⟨fuel - 1, by omega⟩
    have hm : m.toNat < 2 ^ 10 := by
      rw [pow_succ, ← mul_assoc] at hlt
      have : m.toNat ≤ m.toNat * 2 ^ k := Nat.le_mul_of_pos_right _ (Nat.two_pow_pos k)
      omega
    have hbit : m &&& 0x400#32 = 0 := by
      refine BitVec.eq_of_toNat_eq ?_
      rw [BitVec.toNat_and, show (0x400#32).toNat = 2 ^ 10 from rfl, and_bit]
      show m.toNat / 2 ^ 10 % 2 * 2 ^ 10 = 0
      omega
    have hshift : (m <<< 1).toNat = m.toNat * 2 := by
      rw [BitVec.toNat_shiftLeft, Nat.shiftLeft_eq]
      omega
    have hpow : (m <<< 1).toNat * 2 ^ k = m.toNat * 2 ^ (k + 1) := by
      rw [hshift, pow_succ]
      ring
    unfold leadingBit
    rw [if_pos hbit]
    obtain ⟨h1, h2⟩ := ih (e := e - 1) (m := m <<< 1) (by rw [hpow]; exact hlt) (by rw [hpow]; exact hge)
      (by omega : k ≤ fuel)
    refine ⟨?_, by rw [h2, hpow]⟩
    rw [h1]
    push_cast
    omega

/-! ## And back -/

section

variable {x : B32} {h : BitVec 16}

/-- The bits of a half from a sign and a magnitude. -/
theorem half_fields {sg mg : BitVec 16} {s m : Nat} (hs : sg.toNat = s * 2 ^ 15) (hm : mg.toNat = m)
    (hlt : m < 2 ^ 15) : (sg ||| mg).toNat = s * 2 ^ 15 + m := by
  rw [BitVec.toNat_or, hs, hm, mul_comm, Nat.two_pow_add_eq_or_of_lt hlt]

theorem back_zero (he : exp x = 0) : (f32ToF16Bits x).toNat = sign x * 2 ^ 15 := by
  unfold f32ToF16Bits
  rw [single_exp, he]
  exact single_sign x

/-- A normal half: the exponent is rebiased, the mantissa cut. -/
theorem back_normal {e : Nat} (he : exp x = e + 112) (h1 : 1 ≤ e) (h2 : e ≤ 30) :
    (f32ToF16Bits x).toNat = sign x * 2 ^ 15 + (e * 2 ^ 10 + man x / 2 ^ 13) := by
  have hman := man_lt x
  have hint : ((exp x : Int) - 127 + 15) = (e : Int) := by omega
  have hcut : (((x &&& 0x007FFFFF#32) >>> 13).setWidth 16 : BitVec 16).toNat = man x / 2 ^ 13 := by
    rw [BitVec.toNat_setWidth, BitVec.toNat_ushiftRight, single_man, Nat.shiftRight_eq_div_pow]
    omega
  have hexp : (BitVec.ofInt 16 (e : Int) <<< 10).toNat = e * 2 ^ 10 := by
    rw [BitVec.ofInt_natCast, BitVec.toNat_shiftLeft, BitVec.toNat_ofNat, Nat.shiftLeft_eq]
    omega
  unfold f32ToF16Bits
  dsimp only
  rw [single_exp, if_neg (by omega), hint, if_neg (by omega), if_neg (by omega), BitVec.or_assoc]
  refine half_fields (single_sign x) ?_ (by omega)
  rw [BitVec.toNat_or, hexp, hcut, mul_comm e, Nat.two_pow_add_eq_or_of_lt (by omega)]

theorem back_subnormal {k m : Nat} (h1 : 1 ≤ k) (h2 : k ≤ 10) (he : exp x = 113 - k)
    (hm : 2 ^ 23 + man x = m * 2 ^ (13 + k)) (hlt : m < 2 ^ 10) :
    (f32ToF16Bits x).toNat = sign x * 2 ^ 15 + m := by
  have hman := man_lt x
  have hint : ((exp x : Int) - 127 + 15) = 1 - (k : Int) := by omega
  have hshift : (14 - (1 - (k : Int))).toNat = 13 + k := by omega
  have hor : ((x &&& 0x007FFFFF#32) ||| 0x00800000#32).toNat = m * 2 ^ (13 + k) := by
    rw [BitVec.toNat_or, single_man, show (0x00800000#32).toNat = 2 ^ 23 * 1 from rfl, Nat.or_comm,
      ← Nat.two_pow_add_eq_or_of_lt hman, mul_one, hm]
  unfold f32ToF16Bits
  dsimp only
  rw [single_exp, if_neg (by omega), hint, if_neg (by omega), if_pos (by omega), if_neg (by omega), hshift]
  refine half_fields (single_sign x) ?_ (by omega)
  rw [BitVec.toNat_setWidth, BitVec.toNat_ushiftRight, hor, Nat.shiftRight_eq_div_pow,
    Nat.mul_div_cancel _ (Nat.two_pow_pos _)]
  omega

theorem back_infinity (he : exp x = 255) (hm : man x = 0) :
    (f32ToF16Bits x).toNat = sign x * 2 ^ 15 + 31 * 2 ^ 10 := by
  have hzero : (x &&& 0x007FFFFF#32) = 0 := BitVec.eq_of_toNat_eq (by rw [single_man, hm]; rfl)
  unfold f32ToF16Bits
  dsimp only
  rw [single_exp, if_pos he, hzero, if_neg (by decide), show (0 : BitVec 16) = 0#16 from rfl, BitVec.or_zero]
  exact half_fields (single_sign x) rfl (by decide)

/-- **A half survives.** -/
theorem half_back (hnan : isNan (f16BitsToF32 h) = false) : f32ToF16Bits (f16BitsToF32 h) = h := by
  refine BitVec.eq_of_toNat_eq ?_
  have hpack : B16.sign h * 2 ^ 15 + B16.exp h * 2 ^ 10 + B16.man h = h.toNat := B16.pack_fields h
  have hman := B16.man_lt h
  have hexp := B16.exp_lt h
  by_cases he0 : B16.exp h = 0
  · by_cases hm0 : B16.man h = 0
    · -- a zero
      have hx : f16BitsToF32 h = (h &&& 0x8000#16).setWidth 32 <<< 16 := by
        unfold f16BitsToF32
        dsimp only
        rw [half_exp, if_pos he0, if_pos (BitVec.eq_of_toNat_eq (by rw [half_man, hm0]; rfl))]
      obtain ⟨hs, he, _⟩ := @ofFields (f16BitsToF32 h) (B16.sign h) 0 0
        (by rw [hx, half_sign, pack, zero_mul, add_zero, add_zero]) (by decide) (by decide)
      rw [back_zero he, hs, ← hpack, he0, hm0, zero_mul, add_zero, add_zero]
    · -- a subnormal, whose leading bit is `k` places from where it is implied
      have hlog : Nat.log2 (B16.man h) < 10 := (Nat.log2_lt hm0).mpr hman
      have hge : 2 ^ Nat.log2 (B16.man h) ≤ B16.man h := Nat.log2_self_le hm0
      have hle : B16.man h < 2 ^ (Nat.log2 (B16.man h) + 1) := Nat.lt_log2_self
      obtain ⟨k, hk⟩ : ∃ k, k = 10 - Nat.log2 (B16.man h) := ⟨_, rfl⟩
      have hlow : 2 ^ 10 ≤ B16.man h * 2 ^ k := by
        calc 2 ^ 10 = 2 ^ Nat.log2 (B16.man h) * 2 ^ k := by rw [← pow_add]; congr 1; omega
          _ ≤ B16.man h * 2 ^ k := Nat.mul_le_mul_right _ hge
      have hhigh : B16.man h * 2 ^ k < 2 ^ 11 := by
        calc B16.man h * 2 ^ k < 2 ^ (Nat.log2 (B16.man h) + 1) * 2 ^ k :=
              Nat.mul_lt_mul_of_pos_right hle (Nat.two_pow_pos k)
          _ = 2 ^ 11 := by rw [← pow_add]; congr 1; omega
      obtain ⟨hst1, hst2⟩ := @leadingBit_spec k 10 (127 - 15 + 1) ((h &&& 0x03FF#16).setWidth 32)
        (by rw [half_man]; exact hhigh) (by rw [half_man]; exact hlow) (by omega)
      rw [half_man] at hst2
      have hx : ∃ st : Int × BitVec 32, st = leadingBit 10 (127 - 15 + 1) ((h &&& 0x03FF#16).setWidth 32)
          ∧ f16BitsToF32 h = (h &&& 0x8000#16).setWidth 32 <<< 16 ||| BitVec.ofInt 32 st.1 <<< 23
            ||| (st.2 &&& 0x3FF#32) <<< 13 := by
        refine ⟨_, rfl, ?_⟩
        have hne : ¬((h &&& 0x03FF#16).setWidth 32 : BitVec 32) = 0 := by
          intro h0
          have := congrArg BitVec.toNat h0
          rw [half_man] at this
          exact hm0 this
        unfold f16BitsToF32
        dsimp only
        rw [half_exp, if_pos he0, if_neg hne]
      obtain ⟨st, hst, hx⟩ := hx
      rw [← hst] at hst1 hst2
      have hex : (BitVec.ofInt 32 st.1).toNat = 113 - k := by
        rw [hst1, show (127 - 15 + 1 - (k : Int)) = ((113 - k : Nat) : Int) by omega, BitVec.ofInt_natCast,
          BitVec.toNat_ofNat]
        omega
      have hmn : (st.2 &&& 0x3FF#32).toNat = B16.man h * 2 ^ k - 2 ^ 10 := by
        rw [BitVec.toNat_and, hst2]
        have := Nat.and_two_pow_sub_one_eq_mod (B16.man h * 2 ^ k) 10
        rw [show (0x3FF#32).toNat = 2 ^ 10 - 1 from rfl, this]
        omega
      obtain ⟨hs, he, hm⟩ := single_fields (half_sign h) hex hmn (by omega) (by omega)
      rw [← hx] at hs he hm
      have hcarry : 2 ^ 23 + man (f16BitsToF32 h) = B16.man h * 2 ^ (13 + k) := by
        rw [hm, pow_add, ← mul_assoc, mul_right_comm]
        omega
      rw [back_subnormal (by omega) (by omega) he hcarry hman, hs, ← hpack, he0, zero_mul, add_zero]
  · by_cases he31 : B16.exp h = 31
    · have hx : f16BitsToF32 h = (h &&& 0x8000#16).setWidth 32 <<< 16 ||| 255#32 <<< 23
          ||| ((h &&& 0x03FF#16).setWidth 32) <<< 13 := by
        unfold f16BitsToF32
        dsimp only
        rw [half_exp, if_neg he0, if_pos he31]
        rfl
      obtain ⟨hs, he, hm⟩ := single_fields (half_sign h) (show (255#32).toNat = 255 from rfl) (half_man h) (by decide) hman
      rw [← hx] at hs he hm
      -- not a NaN, so an infinity
      have hm0 : B16.man h = 0 := by
        unfold isNan at hnan
        rw [he, hm, Bool.and_eq_false_iff, decide_eq_false_iff_not, decide_eq_false_iff_not, not_not] at hnan
        rcases hnan with hnan | hnan
        · exact absurd rfl hnan
        · omega
      rw [back_infinity he (by rw [hm, hm0, zero_mul]), hs, ← hpack, he31, hm0, add_zero]
    · have hx : f16BitsToF32 h = (h &&& 0x8000#16).setWidth 32 <<< 16
          ||| BitVec.ofNat 32 (B16.exp h + 127 - 15) <<< 23 ||| ((h &&& 0x03FF#16).setWidth 32) <<< 13 := by
        unfold f16BitsToF32
        dsimp only
        rw [half_exp, if_neg he0, if_neg he31]
      have hex : (BitVec.ofNat 32 (B16.exp h + 127 - 15)).toNat = B16.exp h + 112 := by
        rw [BitVec.toNat_ofNat]
        omega
      obtain ⟨hs, he, hm⟩ := single_fields (half_sign h) hex (half_man h) (by omega) hman
      rw [← hx] at hs he hm
      rw [back_normal he (by omega) (by omega), hs, hm, Nat.mul_div_cancel _ (by decide), ← hpack, add_assoc]

end

/-! ## Equal floats -/

theorem B32.isZero_cases {x : B32} (h : isZero x = true) : x = 0#32 ∨ x = 0x80000000#32 := by
  have hfields := pack_fields x
  unfold isZero at h
  rw [Bool.and_eq_true, decide_eq_true_eq, decide_eq_true_eq] at h
  rw [h.1, h.2] at hfields
  unfold pack at hfields
  rcases lt_or_ge (sign x) 1 with hlt | hge
  · left
    refine BitVec.eq_of_toNat_eq ?_
    rw [← hfields, show sign x = 0 by omega]
    rfl
  · right
    refine BitVec.eq_of_toNat_eq ?_
    rw [← hfields, show sign x = 1 by omega]
    rfl

theorem B64.isZero_cases {x : B64} (h : B64.isZero x = true) : x = 0#64 ∨ x = 0x8000000000000000#64 := by
  unfold B64.isZero B64.exp B64.man expo mant at h
  rw [Bool.and_eq_true, decide_eq_true_eq, decide_eq_true_eq] at h
  rcases lt_or_ge x.toNat (2 ^ 63) with hlt | hge
  · left
    refine BitVec.eq_of_toNat_eq ?_
    rw [show (0#64).toNat = 0 from rfl]
    omega
  · right
    refine BitVec.eq_of_toNat_eq ?_
    rw [show (0x8000000000000000#64).toNat = 2 ^ 63 from rfl]
    omega

theorem B32.feq_self {x : B32} (h : isNan x = false) : feq x x = true := by
  unfold feq
  rw [h, decide_eq_true rfl]
  rfl

theorem B64.feq_self {x : B64} (h : B64.isNan x = false) : B64.feq x x = true := by
  unfold B64.feq
  rw [h, decide_eq_true rfl]
  rfl

/-- A single that a half equals is that half: the two zeros stay apart. -/
theorem half_exact {x : B32} (h : feq (f16BitsToF32 (f32ToF16Bits x)) x = true) :
    f16BitsToF32 (f32ToF16Bits x) = x := by
  unfold feq at h
  simp only [Bool.and_eq_true, Bool.or_eq_true, decide_eq_true_eq] at h
  rcases h.2 with heq | hzero
  · exact heq
  · rcases B32.isZero_cases hzero.2 with rfl | rfl
    · decide
    · decide

/-- A double that a single equals is that single. -/
theorem single_exact {x : B64} (h : B64.feq (widen (narrow x)) x = true) : widen (narrow x) = x := by
  unfold B64.feq at h
  simp only [Bool.and_eq_true, Bool.or_eq_true, decide_eq_true_eq] at h
  rcases h.2 with heq | hzero
  · exact heq
  · rcases B64.isZero_cases hzero.2 with rfl | rfl
    · decide +kernel
    · decide +kernel

/-- The bytes of a float: the narrowest width that holds it, one spelling for a NaN. -/
inductive Width : B64 → List UInt8 → Prop
  | nan {x : B64} (h : B64.isNan x = true) : Width x (0xF9 :: toBe 2 0x7E00)
  | half {h : BitVec 16} (hn : B32.isNan (f16BitsToF32 h) = false) :
      Width (widen (f16BitsToF32 h)) (0xF9 :: toBe 2 h.toNat)
  | single {x : B32} (hn : B32.isNan x = false) (hs : B32.feq (f16BitsToF32 (f32ToF16Bits x)) x = false) :
      Width (widen x) (0xFA :: toBe 4 x.toNat)
  | double {x : B64} (hn : B64.isNan x = false) (hs : B64.feq (widen (narrow x)) x = false) :
      Width x (0xFB :: toBe 8 x.toNat)

theorem Width.encode {x : B64} {w : List UInt8} (h : Width x w) : encodeFloat x = w := by
  unfold encodeFloat
  cases h with
  | nan h => rw [if_pos h]
  | @half h hn =>
    have hnan : B64.isNan (widen (f16BitsToF32 h)) = false := by rw [widen_isNan, hn]
    dsimp only
    rw [if_neg (by rw [hnan]; exact Bool.false_ne_true), narrow_widen _ hn, if_pos (B64.feq_self hnan), half_back hn,
      if_pos (B32.feq_self hn)]
  | @single x hn hs =>
    have hnan : B64.isNan (widen x) = false := by rw [widen_isNan, hn]
    dsimp only
    rw [if_neg (by rw [hnan]; exact Bool.false_ne_true), narrow_widen _ hn, if_pos (B64.feq_self hnan),
      if_neg (by rw [hs]; exact Bool.false_ne_true)]
  | double hn hs =>
    dsimp only
    rw [if_neg (by rw [hn]; exact Bool.false_ne_true), if_neg (by rw [hs]; exact Bool.false_ne_true)]

theorem width (x : B64) : Width x (encodeFloat x) := by
  suffices h : ∃ w, Width x w by
    obtain ⟨w, h⟩ := h
    rw [h.encode]
    exact h
  cases hn : B64.isNan x with
  | true => exact ⟨_, .nan hn⟩
  | false =>
    cases hs : B64.feq (widen (narrow x)) x with
    | false => exact ⟨_, .double hn hs⟩
    | true =>
      have hx := single_exact hs
      have hn32 : isNan (narrow x) = false := by rw [← widen_isNan, hx, hn]
      rw [← hx]
      cases hh : feq (f16BitsToF32 (f32ToF16Bits (narrow x))) (narrow x) with
      | false => exact ⟨_, .single hn32 hh⟩
      | true =>
        have hhalf := half_exact hh
        rw [← hhalf] at hn32 ⊢
        exact ⟨_, .half hn32⟩

end Pie.Proof
