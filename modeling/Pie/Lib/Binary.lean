import Mathlib.Tactic

/-!
# Binary interchange formats

The fields of a floating point number by its bits, in single and in double
precision, and the conversions between the two: widening is exact, narrowing
rounds to nearest with ties to even and overflows to an infinity. Numbers are
equal when neither is a NaN and they are the same, or both are zero.
-/

namespace Pie.Lib.Binary

variable {e m eb mb s : Nat}

/-- The exponent field above `mb` bits of mantissa. -/
def expo (eb mb n : Nat) : Nat := n / 2 ^ mb % 2 ^ eb

def mant (mb n : Nat) : Nat := n % 2 ^ mb

def pack (eb mb s e m : Nat) : Nat := s * 2 ^ (eb + mb) + e * 2 ^ mb + m

/-- The bits of an `f32`. -/
abbrev B32 := BitVec 32

/-- The bits of an `f64`. -/
abbrev B64 := BitVec 64

namespace B32

variable (x : B32)

def sign : Nat := x.toNat / 2 ^ 31

def exp : Nat := expo 8 23 x.toNat

def man : Nat := mant 23 x.toNat

def isNan : Bool := decide (exp x = 255) && decide (man x ≠ 0)

def isZero : Bool := decide (exp x = 0) && decide (man x = 0)

/-- `x == y`. -/
def feq (x y : B32) : Bool := !isNan x && !isNan y && (decide (x = y) || (isZero x && isZero y))

end B32

namespace B64

variable (x : B64)

def sign : Nat := x.toNat / 2 ^ 63

def exp : Nat := expo 11 52 x.toNat

def man : Nat := mant 52 x.toNat

def isNan : Bool := decide (exp x = 2047) && decide (man x ≠ 0)

def isZero : Bool := decide (exp x = 0) && decide (man x = 0)

/-- `x == y`. -/
def feq (x y : B64) : Bool := !isNan x && !isNan y && (decide (x = y) || (isZero x && isZero y))

end B64

/-- The nearest multiple of `2 ^ k`, counted in it; a tie goes to the even one. -/
def roundEven (n k : Nat) : Nat :=
  let q := n / 2 ^ k
  let r := n % 2 ^ k
  if 2 ^ k < 2 * r ∨ (2 ^ k = 2 * r ∧ q % 2 = 1) then q + 1 else q

/-- The exponent and the mantissa of a single in double precision. A subnormal has a leading bit. -/
def widenFields (e m : Nat) : Nat × Nat :=
  if e = 255 then (2047, if m = 0 then 0 else 2 ^ 51)
  else if e = 0 then if m = 0 then (0, 0) else (Nat.log2 m + 874, (m - 2 ^ Nat.log2 m) * 2 ^ (52 - Nat.log2 m))
  else (e + 896, m * 2 ^ 29)

/-- `x as f64`. -/
def widen (x : B32) : B64 :=
  let f := widenFields (B32.exp x) (B32.man x)
  BitVec.ofNat 64 (pack 11 52 (B32.sign x) f.1 f.2)

/-- The magnitude of a finite double in single precision, exponent and mantissa in one. -/
def narrowFinite (e m : Nat) : Nat :=
  if 897 ≤ e then roundEven ((e - 896) * 2 ^ 52 + m) 29
  else roundEven (if e = 0 then m else 2 ^ 52 + m) (926 - Nat.max e 1)

/-- The magnitude of a double in single precision. -/
def narrowMagnitude (e m : Nat) : Nat :=
  if e = 2047 then if m = 0 then 255 * 2 ^ 23 else 255 * 2 ^ 23 + 2 ^ 22
  else Nat.min (narrowFinite e m) (255 * 2 ^ 23)

/-- `x as f32`. -/
def narrow (x : B64) : B32 :=
  BitVec.ofNat 32 (B64.sign x * 2 ^ 31 + narrowMagnitude (B64.exp x) (B64.man x))

/-! ## Fields -/

theorem pack_lt (hs : s < 2) (he : e < 2 ^ eb) (hm : m < 2 ^ mb) : pack eb mb s e m < 2 ^ (1 + eb + mb) := by
  have h1 : e * 2 ^ mb + m < 2 ^ (eb + mb) := by
    have := Nat.mul_le_mul_right (2 ^ mb) (Nat.succ_le_of_lt he)
    rw [Nat.succ_mul] at this
    rw [pow_add]
    omega
  have h2 : s * 2 ^ (eb + mb) ≤ 1 * 2 ^ (eb + mb) := Nat.mul_le_mul_right _ (by omega)
  have h3 : 2 ^ (1 + eb + mb) = 2 * 2 ^ (eb + mb) := by rw [show 1 + eb + mb = (eb + mb) + 1 by omega, pow_succ]; omega
  unfold pack
  omega

theorem mant_pack (hm : m < 2 ^ mb) : mant mb (pack eb mb s e m) = m := by
  unfold mant pack
  rw [show s * 2 ^ (eb + mb) + e * 2 ^ mb + m = m + 2 ^ mb * (s * 2 ^ eb + e) by ring, Nat.add_mul_mod_self_left,
    Nat.mod_eq_of_lt hm]

theorem expo_pack (he : e < 2 ^ eb) (hm : m < 2 ^ mb) : expo eb mb (pack eb mb s e m) = e := by
  unfold expo pack
  rw [show s * 2 ^ (eb + mb) + e * 2 ^ mb + m = m + 2 ^ mb * (s * 2 ^ eb + e) by ring,
    Nat.add_mul_div_left _ _ (Nat.two_pow_pos mb), Nat.div_eq_of_lt hm, zero_add, mul_comm,
    Nat.mul_add_mod, Nat.mod_eq_of_lt he]

theorem sign_pack (he : e < 2 ^ eb) (hm : m < 2 ^ mb) : pack eb mb s e m / 2 ^ (eb + mb) = s := by
  have h1 : e * 2 ^ mb + m < 2 ^ (eb + mb) := by
    have := Nat.mul_le_mul_right (2 ^ mb) (Nat.succ_le_of_lt he)
    rw [Nat.succ_mul] at this
    rw [pow_add]
    omega
  unfold pack
  rw [show s * 2 ^ (eb + mb) + e * 2 ^ mb + m = (e * 2 ^ mb + m) + 2 ^ (eb + mb) * s by ring,
    Nat.add_mul_div_left _ _ (Nat.two_pow_pos _), Nat.div_eq_of_lt h1, zero_add]

namespace B32

variable (x : B32)

theorem sign_lt : sign x < 2 := by
  have := x.isLt
  unfold sign
  omega

theorem exp_lt : exp x < 2 ^ 8 := Nat.mod_lt _ (by decide)

theorem man_lt : man x < 2 ^ 23 := Nat.mod_lt _ (by decide)

theorem pack_fields : pack 8 23 (sign x) (exp x) (man x) = x.toNat := by
  have := x.isLt
  unfold pack sign exp man expo mant
  omega

end B32

/-! ## Widening and narrowing -/

theorem widenFields_lt (he : e < 2 ^ 8) (hm : m < 2 ^ 23) :
    (widenFields e m).1 < 2 ^ 11 ∧ (widenFields e m).2 < 2 ^ 52 := by
  unfold widenFields
  split
  · split <;> exact ⟨by decide, by decide⟩
  · split
    · split
      · exact ⟨by decide, by decide⟩
      · rename_i hm0
        have hlog : Nat.log2 m < 23 := (Nat.log2_lt hm0).mpr hm
        have hle : m < 2 ^ (Nat.log2 m + 1) := Nat.lt_log2_self
        have hge : 2 ^ Nat.log2 m ≤ m := Nat.log2_self_le hm0
        refine ⟨by dsimp only; omega, ?_⟩
        dsimp only
        calc (m - 2 ^ Nat.log2 m) * 2 ^ (52 - Nat.log2 m)
            < 2 ^ Nat.log2 m * 2 ^ (52 - Nat.log2 m) := by
              refine Nat.mul_lt_mul_of_pos_right ?_ (Nat.two_pow_pos _)
              rw [pow_succ] at hle
              omega
          _ = 2 ^ 52 := by rw [← pow_add]; congr 1; omega
    · exact ⟨by dsimp only; omega, by dsimp only; omega⟩

section

variable (x : B32)

theorem widen_toNat : (widen x).toNat = pack 11 52 (B32.sign x) (widenFields (B32.exp x) (B32.man x)).1
    (widenFields (B32.exp x) (B32.man x)).2 := by
  have hlt := widenFields_lt (B32.exp_lt x) (B32.man_lt x)
  unfold widen
  rw [BitVec.toNat_ofNat, Nat.mod_eq_of_lt (pack_lt (B32.sign_lt x) hlt.1 hlt.2)]

theorem widen_exp : B64.exp (widen x) = (widenFields (B32.exp x) (B32.man x)).1 := by
  have hlt := widenFields_lt (B32.exp_lt x) (B32.man_lt x)
  unfold B64.exp
  rw [widen_toNat, expo_pack hlt.1 hlt.2]

theorem widen_man : B64.man (widen x) = (widenFields (B32.exp x) (B32.man x)).2 := by
  have hlt := widenFields_lt (B32.exp_lt x) (B32.man_lt x)
  unfold B64.man
  rw [widen_toNat, mant_pack hlt.2]

theorem widen_sign : B64.sign (widen x) = B32.sign x := by
  have hlt := widenFields_lt (B32.exp_lt x) (B32.man_lt x)
  unfold B64.sign
  rw [widen_toNat]
  exact sign_pack hlt.1 hlt.2

theorem widen_isNan : B64.isNan (widen x) = B32.isNan x := by
  have he := B32.exp_lt x
  unfold B64.isNan B32.isNan
  rw [widen_exp, widen_man]
  unfold widenFields
  by_cases h255 : B32.exp x = 255
  · rw [if_pos h255, h255]
    by_cases hm : B32.man x = 0
    · simp [hm]
    · simp [hm]
  · rw [if_neg h255, decide_eq_false h255]
    by_cases h0 : B32.exp x = 0
    · rw [if_pos h0]
      by_cases hm : B32.man x = 0
      · simp [hm]
      · have hlog : Nat.log2 (B32.man x) < 23 := (Nat.log2_lt hm).mpr (B32.man_lt x)
        rw [if_neg hm, decide_eq_false (by dsimp only; omega), Bool.false_and, Bool.false_and]
    · rw [if_neg h0, decide_eq_false (by dsimp only; omega), Bool.false_and, Bool.false_and]

theorem roundEven_exact (n k : Nat) : roundEven (n * 2 ^ k) k = n := by
  unfold roundEven
  rw [Nat.mul_mod_left, Nat.mul_div_cancel _ (Nat.two_pow_pos k)]
  rw [if_neg]
  have := Nat.two_pow_pos k
  omega

theorem narrowMagnitude_widen (he : e < 2 ^ 8) (hm : m < 2 ^ 23) (hnan : ¬(e = 255 ∧ m ≠ 0)) :
    narrowMagnitude (widenFields e m).1 (widenFields e m).2 = e * 2 ^ 23 + m := by
  unfold widenFields
  by_cases h255 : e = 255
  · have hm0 : m = 0 := by
      by_contra hne
      exact hnan ⟨h255, hne⟩
    rw [if_pos h255, if_pos hm0, h255, hm0]
    rfl
  · rw [if_neg h255]
    by_cases h0 : e = 0
    · rw [if_pos h0, h0]
      by_cases hm0 : m = 0
      · rw [if_pos hm0, hm0]
        have hzero : ∀ k, roundEven 0 k = 0 := fun k => by
          have h := roundEven_exact 0 k
          rwa [zero_mul] at h
        unfold narrowMagnitude narrowFinite
        rw [if_neg (by decide), if_neg (by decide), if_pos rfl, hzero]
        rfl
      · rw [if_neg hm0]
        have hlog : Nat.log2 m < 23 := (Nat.log2_lt hm0).mpr hm
        have hge : 2 ^ Nat.log2 m ≤ m := Nat.log2_self_le hm0
        unfold narrowMagnitude narrowFinite
        dsimp only
        rw [if_neg (by omega), if_neg (by omega), if_neg (by omega)]
        -- the leading bit comes back
        have hsig : 2 ^ 52 + (m - 2 ^ Nat.log2 m) * 2 ^ (52 - Nat.log2 m) = m * 2 ^ (52 - Nat.log2 m) := by
          have hpow : 2 ^ 52 = 2 ^ Nat.log2 m * 2 ^ (52 - Nat.log2 m) := by
            rw [← pow_add]
            congr 1
            omega
          rw [hpow, ← add_mul, Nat.add_sub_cancel' hge]
        have hshift : 926 - Nat.max (Nat.log2 m + 874) 1 = 52 - Nat.log2 m := by
          have : Nat.max (Nat.log2 m + 874) 1 = Nat.log2 m + 874 := max_eq_left (by omega)
          omega
        rw [hsig, hshift, roundEven_exact]
        have : Nat.min m (255 * 2 ^ 23) = m := min_eq_left (by omega)
        omega
    · rw [if_neg h0]
      unfold narrowMagnitude narrowFinite
      dsimp only
      rw [if_neg (by omega), if_pos (by omega)]
      have hexact : (e + 896 - 896) * 2 ^ 52 + m * 2 ^ 29 = (e * 2 ^ 23 + m) * 2 ^ 29 := by omega
      rw [hexact, roundEven_exact]
      exact min_eq_left (by omega)

theorem narrow_widen (h : B32.isNan x = false) : narrow (widen x) = x := by
  have hnan : ¬(B32.exp x = 255 ∧ B32.man x ≠ 0) := by
    rintro ⟨he, hm⟩
    unfold B32.isNan at h
    rw [decide_eq_true he, decide_eq_true hm] at h
    cases h
  refine BitVec.eq_of_toNat_eq ?_
  have hfields := B32.pack_fields x
  unfold pack at hfields
  unfold narrow
  rw [widen_sign, widen_exp, widen_man, narrowMagnitude_widen (B32.exp_lt x) (B32.man_lt x) hnan, BitVec.toNat_ofNat]
  have := x.isLt
  omega

end

end Pie.Lib.Binary
