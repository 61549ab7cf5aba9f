import Pie.Grammar.NumberRegex
import Pie.Proof.Regex

/-!
# The patterns for numbers mean their bounds

Each text that is generated is one that the parser reads, and stands for the numbers
of its range: for digits of one length by induction on the length, for all numbers
between two bounds by the lengths they may have.
-/

namespace Pie.Proof.NumberRegex

open List Grammar Grammar.NumberRegex Grammar.Regex Proof.Regex Lib.Languages Lib.Decimal SequenceText Quantifier
open Lib.Encodings (bytes)

/-! ## Writing -/

/-- A string that is the text of a sequence. -/
def Writes (text : String) (L : Language UInt8) : Prop := SequenceText (utf8 text) L

/-- A string that is the text of alternatives. -/
def WritesAny (text : String) (L : Language UInt8) : Prop := AlternationText (utf8 text) L

variable {a b : String} {L M : Language UInt8} {n lo hi k : Nat} {w : List UInt8}

theorem Writes.append (h : Writes a L) (h' : Writes b M) : Writes (a ++ b) (L * M) := by
  unfold Writes
  rw [utf8_append]
  exact SequenceText.append h h'

theorem Writes.any (h : Writes a L) : WritesAny a L := .one h

theorem Writes.or (h : Writes a L) (h' : WritesAny b M) : WritesAny (a ++ "|" ++ b) (L + M) := by
  unfold WritesAny
  rw [utf8_append, utf8_append, append_assoc]
  exact .more h h'

theorem WritesAny.group (h : WritesAny a L) : Writes ("(?:" ++ a ++ ")") L := by
  have hatom := atom .once (.group h) trivial .nil
  have htext : utf8 ("(?:" ++ a ++ ")") = 0x28 :: 0x3f :: 0x3a :: (utf8 a ++ [0x29]) ++ [] := by
    rw [utf8_append, utf8_append, append_nil]
    rfl
  unfold Writes
  rw [htext]
  rw [mul_one] at hatom
  exact hatom

theorem WritesAny.groupOptional (h : WritesAny a L) : Writes ("(?:" ++ a ++ ")?") (1 + L) := by
  have hatom := atom .optional (.group h) trivial .nil
  have htext : utf8 ("(?:" ++ a ++ ")?") = 0x28 :: 0x3f :: 0x3a :: (utf8 a ++ [0x29]) ++ ([0x3f] ++ []) := by
    rw [utf8_append, utf8_append, append_assoc, append_nil, cons_append, cons_append, cons_append, append_assoc]
    rfl
  unfold Writes
  rw [htext]
  rw [mul_one, language, repeated_optional] at hatom
  exact hatom

theorem plain_digit {d : Nat} (h : d < 10) : Plain (digitByte d) := by
  interval_cases d <;> exact ⟨by decide, by decide, by decide⟩

theorem sequence_digits : ∀ {ds : List Nat}, Digits ds → SequenceText (ds.map digitByte) {ds.map digitByte}
  | [], _ => .nil
  | d :: ds, h => by
    have hrest := literal .once (plain_digit h.cons.1) trivial (sequence_digits h.cons.2)
    rw [language, singleton_mul_singleton] at hrest
    exact hrest

theorem writes_number (n : Nat) : Writes (toString n) {numeral n} := by
  unfold Writes
  rw [utf8_toString]
  exact sequence_digits (digits_digits n)

theorem numeral_digit {d : Nat} (h : d < 10) : numeral d = [digitByte d] := by
  unfold numeral
  rw [digits_of_lt h, map_singleton]

/-! ## Words of digits -/

/-- Words of `k` digits whose value is in a range, with leading zeros. -/
def fixed (k lo hi : Nat) : Language UInt8 :=
  {w | ∃ ds, Digits ds ∧ ds.length = k ∧ lo ≤ value ds ∧ value ds ≤ hi ∧ w = ds.map digitByte}

theorem mem_fixed : w ∈ fixed k lo hi
    ↔ ∃ ds, Digits ds ∧ ds.length = k ∧ lo ≤ value ds ∧ value ds ≤ hi ∧ w = ds.map digitByte := Iff.rfl

theorem value_singleton (d : Nat) : value [d] = d := by
  rw [value, value, length_nil, pow_zero, mul_one, add_zero]

theorem mem_fixed_one (hhi : hi < 10) : w ∈ fixed 1 lo hi ↔ ∃ d, lo ≤ d ∧ d ≤ hi ∧ w = [digitByte d] := by
  constructor
  · rintro ⟨ds, hds, hlen, h1, h2, rfl⟩
    obtain ⟨d, rfl⟩ := length_eq_one_iff.mp hlen
    rw [value_singleton] at h1 h2
    exact ⟨d, h1, h2, rfl⟩
  · rintro ⟨d, h1, h2, rfl⟩
    exact ⟨[d], digits_cons (h2.trans_lt hhi) nofun, rfl, by rwa [value_singleton], by rwa [value_singleton], rfl⟩

theorem bytes_digits (hhi : hi < 10) (hle : lo ≤ hi) : bytes (digitByte lo) (digitByte hi) = fixed 1 lo hi := by
  have hlo' := toNat_digitByte (hle.trans_lt hhi)
  have hhi' := toNat_digitByte hhi
  refine ext_mem fun w => Iff.trans ?_ (mem_fixed_one hhi).symm
  constructor
  · rintro ⟨b, rfl, h1, h2⟩
    rw [hlo'] at h1
    rw [hhi'] at h2
    refine ⟨b.toNat - 0x30, by omega, by omega, ?_⟩
    have hb : digitByte (b.toNat - 0x30) = b := UInt8.toNat_inj.mp (by rw [toNat_digitByte (by omega)]; omega)
    rw [hb]
  · rintro ⟨d, h1, h2, rfl⟩
    refine ⟨_, rfl, ?_, ?_⟩
    · rw [hlo', toNat_digitByte (h2.trans_lt hhi)]
      omega
    · rw [hhi', toNat_digitByte (h2.trans_lt hhi)]
      omega

theorem digitRange_spec (hhi : hi < 10) (hle : lo ≤ hi) : ∃ text, digitRange lo hi = some text ∧ Writes text (fixed 1 lo hi) := by
  have hlo : lo < 10 := hle.trans_lt hhi
  have hx : 0x30 ≤ digitByte lo := UInt8.le_iff_toNat_le.mpr (by rw [toNat_digitByte hlo]; exact Nat.le_add_right _ _)
  have hy : digitByte hi ≤ 0x39 := UInt8.le_iff_toNat_le.mpr (by rw [toNat_digitByte hhi]; show 0x30 + hi ≤ 0x39; omega)
  unfold digitRange
  rw [if_neg (not_lt.mpr hle)]
  split
  · next heq =>
      obtain rfl : lo = hi := by omega
      refine ⟨_, rfl, ?_⟩
      have hone : fixed 1 lo lo = {numeral lo} := ext_mem fun w => by
        rw [mem_fixed_one hhi, numeral_digit hhi]
        constructor
        · rintro ⟨d, h1, h2, rfl⟩
          rw [le_antisymm h2 h1]
          rfl
        · rintro rfl
          exact ⟨lo, le_rfl, le_rfl, rfl⟩
      rw [hone]
      exact writes_number lo
  · next hne =>
      have hlt : digitByte lo < digitByte hi := UInt8.lt_iff_toNat_lt.mpr (by
        rw [toNat_digitByte hlo, toNat_digitByte hhi]
        omega)
      rw [← bytes_digits hhi hle]
      split
      · next hone =>
          have hnext : digitByte hi = digitByte lo + 1 := UInt8.toNat_inj.mp (by
            have hadd := @Lib.Encodings.toNat_add_one (digitByte lo) (digitByte hi) (UInt8.lt_iff_toNat_lt.mp hlt)
            rw [hadd, toNat_digitByte hlo, toNat_digitByte hhi]
            omega)
          refine ⟨_, rfl, ?_⟩
          have hatom := atom .once (.pair hx (UInt8.lt_of_lt_of_le hlt hy)) trivial .nil
          unfold Writes
          rw [utf8_append, utf8_append, utf8_append, utf8_toString, utf8_toString, numeral_digit hlo, numeral_digit hhi, hnext]
          rw [mul_one] at hatom
          exact hatom
      · refine ⟨_, rfl, ?_⟩
        have hatom := atom .once (.range hx hy hlt) trivial .nil
        unfold Writes
        rw [utf8_append, utf8_append, utf8_append, utf8_append, utf8_toString, utf8_toString, numeral_digit hlo,
          numeral_digit hhi]
        rw [mul_one] at hatom
        exact hatom

theorem mem_fixed_mul {p q : Nat} (hhi : hi < 10) : w ∈ fixed 1 lo hi * fixed k p q
    ↔ ∃ d ds, lo ≤ d ∧ d ≤ hi ∧ Digits ds ∧ ds.length = k ∧ p ≤ value ds ∧ value ds ≤ q ∧ w = digitByte d :: ds.map digitByte := by
  rw [Language.mem_mul]
  constructor
  · rintro ⟨u, hu, v, ⟨ds, hds, hlen, h1, h2, rfl⟩, rfl⟩
    obtain ⟨d, h3, h4, rfl⟩ := (mem_fixed_one hhi).mp hu
    exact ⟨d, ds, h3, h4, hds, hlen, h1, h2, rfl⟩
  · rintro ⟨d, ds, h3, h4, hds, hlen, h1, h2, rfl⟩
    exact ⟨[digitByte d], (mem_fixed_one hhi).mpr ⟨d, h3, h4, rfl⟩, _, ⟨ds, hds, hlen, h1, h2, rfl⟩, rfl⟩

theorem mem_fixed_succ : w ∈ fixed (k + 1) lo hi ↔ ∃ d ds, d < 10 ∧ Digits ds ∧ ds.length = k ∧ lo ≤ value (d :: ds)
    ∧ value (d :: ds) ≤ hi ∧ w = digitByte d :: ds.map digitByte := by
  constructor
  · rintro ⟨ds, hds, hlen, h1, h2, rfl⟩
    obtain ⟨d, ds, rfl⟩ := exists_cons_of_length_eq_add_one hlen
    exact ⟨d, ds, hds.cons.1, hds.cons.2, Nat.succ.inj hlen, h1, h2, rfl⟩
  · rintro ⟨d, ds, hd, hds, hlen, h1, h2, rfl⟩
    exact ⟨d :: ds, digits_cons hd hds, by rw [length_cons, hlen], h1, h2, rfl⟩

theorem value_le_nines {ds : List Nat} (h : Digits ds) : value ds ≤ 10 ^ ds.length - 1 := Nat.le_sub_one_of_lt (value_lt h)

theorem pow_fixed (k : Nat) : fixed 1 0 9 ^ k = fixed k 0 (10 ^ k - 1) := by
  induction k with
  | zero =>
    refine ext_mem fun w => ⟨fun hw => ⟨[], nofun, rfl, le_refl 0, le_refl 0, hw⟩, ?_⟩
    rintro ⟨ds, -, hlen, -, -, rfl⟩
    rw [length_eq_zero_iff.mp hlen]
    exact rfl
  | succ k ih =>
    rw [pow_succ', ih]
    refine ext_mem fun w => (mem_fixed_mul (by decide)).trans (Iff.trans ?_ mem_fixed_succ.symm)
    constructor
    · rintro ⟨d, ds, -, hd, hds, rfl, -, -, rfl⟩
      have hlt : d < 10 := Nat.lt_succ_of_le hd
      exact ⟨d, ds, hlt, hds, rfl, Nat.zero_le _, value_le_nines (digits_cons hlt hds), rfl⟩
    · rintro ⟨d, ds, hd, hds, rfl, -, -, rfl⟩
      exact ⟨d, ds, Nat.zero_le _, Nat.le_of_lt_succ hd, hds, rfl, Nat.zero_le _, value_le_nines hds, rfl⟩

section Cut

variable {x y : Nat} {xs ys : List Nat} (hlen : xs.length = ys.length) (hx : x < 10) (hy : y < 10) (hxs : Digits xs) (hys : Digits ys)
include hlen hx hy hxs hys

theorem fixed_same (hxy : x = y) : fixed (xs.length + 1) (value (x :: xs)) (value (y :: ys))
    = fixed 1 x x * fixed xs.length (value xs) (value ys) := by
  subst hxy
  refine ext_mem fun w => mem_fixed_succ.trans (Iff.trans ?_ (mem_fixed_mul hx).symm)
  refine exists_congr fun d => exists_congr fun ds => ?_
  constructor
  · rintro ⟨hd, hds, hl, h1, h2, rfl⟩
    have h3 := (value_le_value hl.symm hxs hds).mp h1
    have h4 := (value_le_value (hl.trans hlen) hds hys).mp h2
    exact ⟨by omega, by omega, hds, hl, by omega, by omega, rfl⟩
  · rintro ⟨h1, h2, hds, hl, h3, h4, rfl⟩
    obtain rfl := le_antisymm h2 h1
    exact ⟨hx, hds, hl, (value_le_value hl.symm hxs hds).mpr (.inr ⟨rfl, h3⟩),
      (value_le_value (hl.trans hlen) hds hys).mpr (.inr ⟨rfl, h4⟩), rfl⟩

/-- **The cut.** The bounds part: words begin with the first digit of one of them, or with one between. -/
theorem fixed_cut (hxy : x < y) : fixed (xs.length + 1) (value (x :: xs)) (value (y :: ys))
    = fixed 1 x x * fixed xs.length (value xs) (10 ^ xs.length - 1)
      + ((if x + 1 < y then fixed 1 (x + 1) (y - 1) * fixed xs.length 0 (10 ^ xs.length - 1) else 0)
        + fixed 1 y y * fixed xs.length 0 (value ys)) := by
  have hmiddle : ∀ {w : List UInt8}, w ∈ (if x + 1 < y then fixed 1 (x + 1) (y - 1) * fixed xs.length 0 (10 ^ xs.length - 1) else 0)
      ↔ ∃ d ds, x < d ∧ d < y ∧ Digits ds ∧ ds.length = xs.length ∧ w = digitByte d :: ds.map digitByte := by
    intro w
    split
    · next h =>
        rw [mem_fixed_mul (by omega)]
        refine exists_congr fun d => exists_congr fun ds => ?_
        constructor
        · rintro ⟨h1, h2, hds, hl, -, -, rfl⟩
          exact ⟨by omega, by omega, hds, hl, rfl⟩
        · rintro ⟨h1, h2, hds, hl, rfl⟩
          exact ⟨by omega, by omega, hds, hl, Nat.zero_le _, hl ▸ value_le_nines hds, rfl⟩
    · next h => exact ⟨fun h => h.elim, fun ⟨d, ds, h1, h2, _⟩ => by omega⟩
  refine ext_mem fun w => ?_
  rw [Language.mem_add, Language.mem_add, mem_fixed_succ, mem_fixed_mul hx, hmiddle, mem_fixed_mul hy]
  constructor
  · rintro ⟨d, ds, hd, hds, hl, h1, h2, rfl⟩
    have h3 := (value_le_value hl.symm hxs hds).mp h1
    have h4 := (value_le_value (hl.trans hlen) hds hys).mp h2
    by_cases hdx : d = x
    · exact .inl ⟨d, ds, by omega, by omega, hds, hl, by omega, hl ▸ value_le_nines hds, rfl⟩
    · by_cases hdy : d = y
      · exact .inr (.inr ⟨d, ds, by omega, by omega, hds, hl, Nat.zero_le _, by omega, rfl⟩)
      · exact .inr (.inl ⟨d, ds, by omega, by omega, hds, hl, rfl⟩)
  · rintro (⟨d, ds, h1, h2, hds, hl, h3, -, rfl⟩ | ⟨d, ds, h1, h2, hds, hl, rfl⟩ | ⟨d, ds, h1, h2, hds, hl, -, h4, rfl⟩)
    · exact ⟨d, ds, by omega, hds, hl, (value_le_value hl.symm hxs hds).mpr (.inr ⟨by omega, h3⟩),
        (value_le_value (hl.trans hlen) hds hys).mpr (.inl (by omega)), rfl⟩
    · exact ⟨d, ds, by omega, hds, hl, (value_le_value hl.symm hxs hds).mpr (.inl (by omega)),
        (value_le_value (hl.trans hlen) hds hys).mpr (.inl (by omega)), rfl⟩
    · exact ⟨d, ds, by omega, hds, hl, (value_le_value hl.symm hxs hds).mpr (.inl (by omega)),
        (value_le_value (hl.trans hlen) hds hys).mpr (.inr ⟨by omega, h4⟩), rfl⟩

end Cut

/-! ## One length -/

theorem writes_anyDigits (hk : k < 2 ^ 32) : Writes ("[0-9]\x7b" ++ toString k ++ "\x7d") (fixed k 0 (10 ^ k - 1)) := by
  have hatom := atom (.exactly k) (.range (x := 0x30) (y := 0x39) (by decide) (by decide) (by decide)) hk .nil
  have hbytes : bytes 0x30 0x39 = fixed 1 0 9 := @bytes_digits 0 9 (by decide) (by decide)
  have htext : utf8 ("[0-9]\x7b" ++ toString k ++ "\x7d") = [0x5b, 0x30, 0x2d, 0x39, 0x5d] ++ ((exactly k).text ++ []) := by
    rw [utf8_append, utf8_append, utf8_toString, append_nil, text]
    exact append_assoc _ _ _
  unfold Writes
  rw [htext]
  rw [mul_one, language, hbytes, repeated_exactly, pow_fixed] at hatom
  exact hatom

theorem fixed_same_digit {d : Nat} (hd : d < 10) : fixed 1 d d = {numeral d} := by
  refine ext_mem fun w => ?_
  rw [mem_fixed_one hd, numeral_digit hd]
  constructor
  · rintro ⟨e, h1, h2, rfl⟩
    rw [le_antisymm h2 h1]
    rfl
  · rintro rfl
    exact ⟨d, le_rfl, le_rfl, rfl⟩

theorem writes_digit {d : Nat} (hd : d < 10) : Writes (toString d) (fixed 1 d d) := by
  rw [fixed_same_digit hd]
  exact writes_number d

/-- **Digits of one length.** -/
theorem buildDigitRange_spec (n : Nat) : ∀ {min max : List Nat}, min.length = n + 1 → max.length = n + 1 → Digits min → Digits max →
    value min ≤ value max → n < 2 ^ 32 →
    ∃ text, buildDigitRange min max = some text ∧ Writes text (fixed (n + 1) (value min) (value max)) := by
  induction n with
  | zero =>
    intro min max hmin hmax hdmin hdmax hle _
    obtain ⟨x, rfl⟩ := length_eq_one_iff.mp hmin
    obtain ⟨y, rfl⟩ := length_eq_one_iff.mp hmax
    rw [value_singleton, value_singleton] at hle ⊢
    rw [buildDigitRange]
    exact digitRange_spec hdmax.cons.1 hle
  | succ n ih =>
    intro min max hmin hmax hdmin hdmax hle hn
    obtain ⟨x, xs, rfl⟩ := exists_cons_of_length_eq_add_one hmin
    obtain ⟨y, ys, rfl⟩ := exists_cons_of_length_eq_add_one hmax
    obtain ⟨hx, hxs⟩ := hdmin.cons
    obtain ⟨hy, hys⟩ := hdmax.cons
    have hlx : xs.length = n + 1 := Nat.succ.inj hmin
    have hly : ys.length = n + 1 := Nat.succ.inj hmax
    have hlen : xs.length = ys.length := hlx.trans hly.symm
    have hcases := (value_le_value hlen hxs hys).mp hle
    obtain ⟨x', xs', rfl⟩ := exists_cons_of_length_eq_add_one hlx
    rw [buildDigitRange]
    by_cases hxy : x = y
    · obtain ⟨rest, hrest, hwrites⟩ := ih hlx hly hxs hys (by omega) (by omega)
      rw [if_pos hxy, hrest]
      refine ⟨_, rfl, ?_⟩
      have hsame := fixed_same hlen hx hy hxs hys hxy
      rw [hlx] at hsame
      rw [hsame]
      exact (writes_digit hx).append hwrites
    · have hlt : x < y := by omega
      have hlx' : xs'.length + 1 = n + 1 := hlx
      have hnines := value_nines (n + 1)
      have hzeros := value_zeros (n + 1)
      obtain ⟨lower, hlower, hwlower⟩ := @ih (x' :: xs') (replicate (n + 1) 9) hlx length_replicate hxs
        (digits_replicate (by decide) _) (by
          have hle := value_le_nines hxs
          rw [hlx] at hle
          omega) (by omega)
      obtain ⟨upper, hupper, hwupper⟩ := @ih (replicate (n + 1) 0) ys length_replicate hly
        (digits_replicate (by decide) _) hys (by
          rw [hzeros]
          exact Nat.zero_le _) (by omega)
      have hmiddle : ∃ parts, (if x + 1 < y then (digitRange (x + 1) (y - 1)).map fun digits =>
            [digits ++ "[0-9]\x7b" ++ toString (n + 1) ++ "\x7d"] else some []) = some parts
          ∧ WritesAny (joinBars (parts ++ [toString y ++ upper]))
            ((if x + 1 < y then fixed 1 (x + 1) (y - 1) * fixed (n + 1) 0 (10 ^ (n + 1) - 1) else 0)
              + fixed 1 y y * fixed (n + 1) 0 (value ys)) := by
        have hlast := (writes_digit hy).append hwupper
        rw [hzeros] at hlast
        by_cases hmid : x + 1 < y
        · obtain ⟨digits, hdigits, hwdigits⟩ := @digitRange_spec (x + 1) (y - 1) (by omega) (by omega)
          rw [if_pos hmid, if_pos hmid, hdigits]
          refine ⟨_, rfl, ?_⟩
          have hfirst := hwdigits.append (writes_anyDigits hn)
          rw [← String.append_assoc, ← String.append_assoc] at hfirst
          exact hfirst.or hlast.any
        · rw [if_neg hmid, if_neg hmid, zero_add]
          exact ⟨[], rfl, hlast.any⟩
      obtain ⟨parts, hparts, hwparts⟩ := hmiddle
      have hcut := fixed_cut hlen hx hy hxs hys hlt
      rw [hlx] at hcut
      rw [if_neg hxy, hlx', hly, hlower, hparts, hupper, hcut]
      refine ⟨_, rfl, ?_⟩
      have hfirst := (writes_digit hx).append hwlower
      rw [show value (replicate (n + 1) 9) = 10 ^ (n + 1) - 1 by omega] at hfirst
      have hall := hfirst.or hwparts
      refine WritesAny.group ?_
      cases parts with
      | nil => exact hall
      | cons part parts => exact hall

/-! ## Numbers between bounds -/

/-- The numbers between two bounds, as they are written. -/
def ranged (lo : Nat) (hi : Option Nat) : Language UInt8 := {w | ∃ n, Within lo hi n ∧ w = numeral n}

variable {min max mid : Nat} {bound : Option Nat} {text : String} {parts : List String}

theorem mem_ranged : w ∈ ranged lo bound ↔ ∃ n, Within lo bound n ∧ w = numeral n := Iff.rfl

theorem within_some : Within lo (some hi) n ↔ lo ≤ n ∧ n ≤ hi :=
  ⟨fun h => ⟨h.1, h.2 hi rfl⟩, fun h => ⟨h.1, fun m hm => Option.some.inj hm ▸ h.2⟩⟩

theorem length_digits_mono (h : n ≤ k) : (digits n).length ≤ (digits k).length :=
  (length_digits_le (length_digits_pos k)).mpr (h.trans_lt (lt_pow_length k))

theorem ranged_add (hlo : lo ≤ mid) (hbound : ∀ hi ∈ bound, mid ≤ hi + 1) (hpos : 0 < mid) :
    ranged lo (some (mid - 1)) + ranged mid bound = ranged lo bound := by
  refine ext_mem fun w => ?_
  rw [Language.mem_add, mem_ranged, mem_ranged, mem_ranged]
  constructor
  · rintro (⟨n, hn, rfl⟩ | ⟨n, hn, rfl⟩)
    · have hn := within_some.mp hn
      exact ⟨n, ⟨hn.1, fun hi hhi => by have := hbound hi hhi; omega⟩, rfl⟩
    · exact ⟨n, ⟨hlo.trans hn.1, hn.2⟩, rfl⟩
  · rintro ⟨n, hn, rfl⟩
    rcases lt_or_ge n mid with h | h
    · exact .inl ⟨n, within_some.mpr ⟨hn.1, by omega⟩, rfl⟩
    · exact .inr ⟨n, ⟨h, hn.2⟩, rfl⟩

theorem ranged_same (n : Nat) : ranged n (some n) = {numeral n} := by
  refine ext_mem fun w => ?_
  rw [mem_ranged]
  constructor
  · rintro ⟨m, hm, rfl⟩
    have hm := within_some.mp hm
    rw [le_antisymm hm.2 hm.1]
    rfl
  · rintro rfl
    exact ⟨n, within_some.mpr ⟨le_refl n, le_refl n⟩, rfl⟩

/-- Bounds of one length leave no room for leading zeros. -/
theorem fixed_ranged (hlo : (digits lo).length = k) (hhi : (digits hi).length = k) : fixed k lo hi = ranged lo (some hi) := by
  refine ext_mem fun w => ?_
  rw [mem_fixed, mem_ranged]
  constructor
  · rintro ⟨ds, hds, hlen, h1, h2, rfl⟩
    have h3 := length_digits_mono h1
    have h4 := length_digits_mono h2
    refine ⟨value ds, within_some.mpr ⟨h1, h2⟩, ?_⟩
    rw [numeral, digits_eq (by omega) hds]
  · rintro ⟨n, hn, rfl⟩
    have hn := within_some.mp hn
    have h3 := length_digits_mono hn.1
    have h4 := length_digits_mono hn.2
    exact ⟨digits n, digits_digits n, by omega, by rw [value_digits]; exact hn.1, by rw [value_digits]; exact hn.2, rfl⟩

/-- A first digit that is no zero, and then any digits. -/
theorem nonzero_fixed (k : Nat) : fixed 1 1 9 * fixed k 0 (10 ^ k - 1) = ranged (10 ^ k) (some (10 ^ (k + 1) - 1)) := by
  rw [← fixed_ranged (length_digits_pow k) (length_digits_nines k.succ_pos)]
  refine ext_mem fun w => (mem_fixed_mul (by decide)).trans (Iff.trans ?_ mem_fixed_succ.symm)
  refine exists_congr fun d => exists_congr fun ds => ?_
  constructor
  · rintro ⟨h1, h2, hds, rfl, -, -, rfl⟩
    have hd : d < 10 := Nat.lt_succ_of_le h2
    refine ⟨hd, hds, rfl, ?_, value_le_nines (digits_cons hd hds), rfl⟩
    exact (Nat.le_mul_of_pos_left _ h1).trans (Nat.le_add_right _ _)
  · rintro ⟨hd, hds, rfl, h1, -, rfl⟩
    have hlt := value_lt hds
    refine ⟨Nat.pos_of_ne_zero fun hzero => ?_, Nat.le_of_lt_succ hd, hds, rfl, Nat.zero_le _, value_le_nines hds, rfl⟩
    rw [hzero, value, zero_mul, zero_add] at h1
    exact not_le.mpr hlt h1

theorem nonzero_repeated (k : Nat) : fixed 1 1 9 * repeated (fixed 1 0 9) k none = ranged (10 ^ k) none := by
  refine ext_mem fun w => ?_
  constructor
  · rintro ⟨u, hu, v, ⟨j, hj, hv⟩, rfl⟩
    have hmem : u ++ v ∈ fixed 1 1 9 * fixed 1 0 9 ^ j := ⟨u, hu, v, hv, rfl⟩
    rw [pow_fixed, nonzero_fixed] at hmem
    obtain ⟨n, hn, heq⟩ := hmem
    exact ⟨n, ⟨(Nat.pow_le_pow_right (by decide) hj.1).trans hn.1, nofun⟩, heq⟩
  · rintro ⟨n, hn, rfl⟩
    obtain ⟨j, hj⟩ := Nat.exists_eq_succ_of_ne_zero (length_digits_pos n).ne'
    have hlt := lt_pow_length n
    have hpos : 0 < n := (Nat.pow_pos (by decide)).trans_le hn.1
    rw [hj] at hlt
    have hle : k ≤ j := Nat.le_of_lt_succ ((Nat.pow_lt_pow_iff_right (by decide)).mp (hn.1.trans_lt hlt))
    have hfloor : 10 ^ j ≤ n := by
      rcases Nat.eq_zero_or_pos j with rfl | h
      · exact hpos
      · exact pow_le (.inr ⟨hj.symm, h⟩)
    have hmem : numeral n ∈ ranged (10 ^ j) (some (10 ^ (j + 1) - 1)) := ⟨n, within_some.mpr ⟨hfloor, Nat.le_sub_one_of_lt hlt⟩, rfl⟩
    rw [← nonzero_fixed, ← pow_fixed] at hmem
    obtain ⟨u, hu, v, hv, heq⟩ := hmem
    exact ⟨u, hu, v, ⟨j, ⟨hle, nofun⟩, hv⟩, heq⟩

/-! ## Parts -/

/-- Texts that stand for the words of a language together. -/
inductive Parts : List String → Language UInt8 → Prop
  | one {part : String} {L : Language UInt8} (h : Writes part L) : Parts [part] L
  | cons {part : String} {parts : List String} {L M : Language UInt8} (h : Writes part L) (h' : Parts parts M) :
      Parts (part :: parts) (L + M)

theorem Parts.joinBars (h : Parts parts L) : WritesAny (joinBars parts) L := by
  induction h with
  | one h => exact h.any
  | cons h h' ih =>
    have hor := h.or ih
    cases h' with
    | one => exact hor
    | cons => exact hor

theorem Parts.oneOf (h : Parts parts L) : Writes (oneOf parts) L := by
  have hgroup := h.joinBars.group
  cases h with
  | one h => exact h
  | cons h h' =>
    cases h' with
    | one => exact hgroup
    | cons => exact hgroup

/-- Text up to a quantifier, with the first digit of a number. -/
theorem writes_nonzero {q : Quantifier} (hq : q.Fits) (htext : utf8 text = [0x5b, 0x31, 0x2d, 0x39, 0x5d, 0x5b, 0x30, 0x2d, 0x39, 0x5d] ++ q.text) :
    Writes text (fixed 1 1 9 * q.language (fixed 1 0 9)) := by
  have hrest := atom q (.range (x := 0x30) (y := 0x39) (by decide) (by decide) (by decide)) hq .nil
  have hatom := atom .once (.range (x := 0x31) (y := 0x39) (by decide) (by decide) (by decide)) trivial hrest
  have hfirst : bytes 0x31 0x39 = fixed 1 1 9 := @bytes_digits 1 9 (by decide) (by decide)
  have hdigit : bytes 0x30 0x39 = fixed 1 0 9 := @bytes_digits 0 9 (by decide) (by decide)
  unfold Writes
  rw [htext]
  rw [mul_one, hfirst, hdigit, language, append_nil] at hatom
  exact hatom

theorem writes_length (hk : k < 2 ^ 32) :
    Writes ("[1-9][0-9]\x7b" ++ toString k ++ "\x7d") (ranged (10 ^ k) (some (10 ^ (k + 1) - 1))) := by
  have htext : utf8 ("[1-9][0-9]\x7b" ++ toString k ++ "\x7d")
      = [0x5b, 0x31, 0x2d, 0x39, 0x5d, 0x5b, 0x30, 0x2d, 0x39, 0x5d] ++ (exactly k).text := by
    rw [utf8_append, utf8_append, utf8_toString]
    exact append_assoc _ _ _
  have hwrites := writes_nonzero (q := .exactly k) hk htext
  rw [language, repeated_exactly, pow_fixed, nonzero_fixed] at hwrites
  exact hwrites

theorem writes_longer (hk : k < 2 ^ 32) : Writes ("[1-9][0-9]\x7b" ++ toString k ++ ",\x7d") (ranged (10 ^ k) none) := by
  have htext : utf8 ("[1-9][0-9]\x7b" ++ toString k ++ ",\x7d")
      = [0x5b, 0x31, 0x2d, 0x39, 0x5d, 0x5b, 0x30, 0x2d, 0x39, 0x5d] ++ (atLeast k).text := by
    rw [utf8_append, utf8_append, utf8_toString]
    exact append_assoc _ _ _
  have hwrites := writes_nonzero (q := .atLeast k) hk htext
  rw [language, nonzero_repeated] at hwrites
  exact hwrites

theorem writes_positive : Writes "[1-9][0-9]*" (ranged 1 none) := by
  have hwrites := @writes_nonzero "[1-9][0-9]*" .star trivial rfl
  rw [language, nonzero_repeated, pow_zero] at hwrites
  exact hwrites

/-- The numbers of all lengths between, with what comes behind them. -/
theorem lengthsBetween_parts {first last : Nat} (hfirst : 0 < first) (hle : first ≤ last) (hlast : last < 2 ^ 32)
    (hbound : ∀ hi ∈ bound, 10 ^ last ≤ hi + 1) (h : Parts parts (ranged (10 ^ last) bound)) :
    Parts (lengthsBetween (first + 1) (last + 1) ++ parts) (ranged (10 ^ first) bound) := by
  unfold lengthsBetween
  obtain ⟨n, rfl⟩ := Nat.exists_eq_add_of_le hle
  rw [show first + n + 1 - (first + 1) = n by omega]
  induction n generalizing first with
  | zero => exact h
  | succ n ih =>
    have hnext := @ih (first + 1) first.succ_pos (Nat.le_add_right _ _) (by omega) (by rwa [add_right_comm])
      (by rwa [add_right_comm])
    have hpow : 10 ^ first ≤ 10 ^ (first + 1) := Nat.pow_le_pow_right (by decide) first.le_succ
    have hsum := @ranged_add (10 ^ first) (10 ^ (first + 1)) bound hpow
      (fun hi hhi => (Nat.pow_le_pow_right (by decide) (by omega)).trans (hbound hi hhi)) (Nat.pow_pos (by decide))
    rw [range'_succ, map_cons, cons_append, ← hsum]
    exact .cons (writes_length (by omega)) hnext

/-! ## Ranges of numbers that are not negative -/

theorem textDigits_toString (n : Nat) : textDigits (toString n) = digits n := by
  unfold textDigits
  rw [utf8_toString, numeral, map_map]
  refine (map_congr_left fun d hd => ?_).trans (map_id _)
  rw [Function.comp_apply, toNat_digitByte (digits_digits n d hd)]
  exact Nat.add_sub_cancel_left 0x30 d

theorem pow10_of_lt (h : k < 20) : pow10 k = some (10 ^ k) := by
  unfold pow10
  rw [if_pos]
  exact (Nat.pow_le_pow_right (by decide) (Nat.le_of_lt_succ h)).trans_lt (by decide)

theorem length_digits_lt (h : n < 10 ^ 19) : (digits n).length < 20 :=
  Nat.lt_succ_of_le ((length_digits_le (by decide)).mpr h)

theorem positiveRangeRegex_same (hle : min ≤ max) (hmax : max < 10 ^ 19) (hlen : (digits min).length = (digits max).length) :
    ∃ text, positiveRangeRegex min max = some text ∧ Writes text (ranged min (some max)) := by
  rw [positiveRangeRegex]
  by_cases heq : min = max
  · subst heq
    rw [if_pos rfl, ranged_same]
    exact ⟨_, rfl, writes_number min⟩
  · have hshort := length_digits_lt hmax
    have hpos := length_digits_pos max
    have hspec := @buildDigitRange_spec ((digits max).length - 1) (digits min) (digits max) (by omega) (by omega)
      (digits_digits min) (digits_digits max) (by rwa [value_digits, value_digits]) (by omega)
    rw [Nat.sub_add_cancel hpos, value_digits, value_digits, fixed_ranged hlen rfl] at hspec
    rw [if_neg heq, dif_pos (by rw [len_toString, len_toString, hlen])]
    unfold sameLengthRange
    rw [textDigits_toString, textDigits_toString]
    exact hspec

/-- **Numbers between two bounds.** -/
theorem positiveRangeRegex_spec (hle : min ≤ max) (hmax : max < 10 ^ 19) :
    ∃ text, positiveRangeRegex min max = some text ∧ Writes text (ranged min (some max)) := by
  by_cases hlen : (digits min).length = (digits max).length
  · exact positiveRangeRegex_same hle hmax hlen
  · have hshort := length_digits_lt hmax
    have hmono := length_digits_mono hle
    obtain ⟨a, ha⟩ : ∃ a, (digits min).length = a + 1 := ⟨_, (Nat.sub_add_cancel (length_digits_pos min)).symm⟩
    obtain ⟨b, hb⟩ : ∃ b, (digits max).length = b + 1 := ⟨_, (Nat.sub_add_cancel (length_digits_pos max)).symm⟩
    have hfloor : 10 ^ b ≤ max := pow_le (.inr ⟨hb.symm, by omega⟩)
    have hceiling : min ≤ 10 ^ (a + 1) - 1 := Nat.le_sub_one_of_lt (by
      rw [← ha]
      exact lt_pow_length min)
    have hpow : 10 ^ (a + 1) ≤ 10 ^ b := Nat.pow_le_pow_right (by decide) (by omega)
    have hpos : 0 < 10 ^ (a + 1) := Nat.pow_pos (by decide)
    obtain ⟨first, hfirst, hwfirst⟩ := positiveRangeRegex_same hceiling (by omega)
      (by rw [ha, length_digits_nines a.succ_pos])
    obtain ⟨last, hlast, hwlast⟩ := positiveRangeRegex_same hfloor hmax (by rw [hb, length_digits_pow])
    have hne : min ≠ max := fun h => hlen (by rw [h])
    have hlen' : len (toString min) ≠ len (toString max) := by rwa [len_toString, len_toString]
    rw [positiveRangeRegex, if_neg hne, dif_neg hlen']
    split
    · next power lastFloor hpower hlastFloor =>
        have hpower' := pow10_eq hpower
        have hlastFloor' := pow10_eq hlastFloor
        rw [len_toString, ha] at hpower'
        rw [len_toString, hb, Nat.add_sub_cancel] at hlastFloor'
        subst hpower' hlastFloor'
        dsimp only
        rw [if_pos hceiling, if_pos hfloor, hfirst, hlast]
        refine ⟨_, rfl, Parts.oneOf ?_⟩
        have hlengths := @lengthsBetween_parts (some max) _ (a + 1) b a.succ_pos (by omega) (by omega)
          (fun hi hhi => by rw [← Option.some.inj hhi]; omega) (.one hwlast)
        have hall := Parts.cons hwfirst hlengths
        rw [ranged_add (by omega) (fun hi hhi => by rw [← Option.some.inj hhi]; omega) (by omega)] at hall
        rw [len_toString, len_toString, ha, hb]
        exact hall
    · next hnone =>
        refine (hnone _ _ (pow10_of_lt ?_) (pow10_of_lt ?_)).elim
        · rw [len_toString]
          omega
        · rw [len_toString]
          omega

theorem writes_natural : WritesAny "0|[1-9][0-9]*" (ranged 0 none) := by
  have hall := (writes_number 0).or writes_positive.any
  rw [← ranged_same, @ranged_add 0 1 none (Nat.zero_le 1) nofun Nat.one_pos] at hall
  exact hall

/-- **Numbers from some bound on.** -/
theorem positiveRangeRegexUnbounded_spec (hmin : min < 10 ^ 19) :
    ∃ text, positiveRangeRegexUnbounded min = some text ∧ Writes text (ranged min none) := by
  unfold positiveRangeRegexUnbounded
  split
  · exact ⟨_, rfl, writes_natural.group⟩
  · exact ⟨_, rfl, writes_positive⟩
  · have hshort := length_digits_lt hmin
    have hlt := lt_pow_length min
    have hmax : 10 ^ (digits min).length - 1 < 10 ^ 19 :=
      (Nat.sub_lt (by omega) Nat.one_pos).trans_le (Nat.pow_le_pow_right (by decide) (by omega))
    obtain ⟨range, hrange, hwrange⟩ := positiveRangeRegex_spec (Nat.le_sub_one_of_lt hlt) hmax
    have hall := (hwrange.or (writes_longer (k := (digits min).length) (by omega)).any).group
    rw [@ranged_add min _ none hlt.le nofun (by omega)] at hall
    simp only [len_toString]
    rw [pow10_of_lt hshort]
    simp only [Option.bind_eq_bind, Option.bind_some]
    rw [hrange]
    refine ⟨_, rfl, ?_⟩
    have htext : "(?:" ++ range ++ "|[1-9][0-9]\x7b" ++ toString (digits min).length ++ ",\x7d)"
        = "(?:" ++ (range ++ "|" ++ ("[1-9][0-9]\x7b" ++ toString (digits min).length ++ ",\x7d")) ++ ")" := by
      simp only [String.append_assoc]
      rfl
    rw [htext]
    exact hall

/-! ## Signs -/

/-- The sign of a number. -/
def minus : Language UInt8 := {[0x2d]}

theorem mem_minus_mul : w ∈ minus * L ↔ ∃ u ∈ L, w = 0x2d :: u := by
  rw [Language.mem_mul]
  constructor
  · rintro ⟨u, hu, v, hv, rfl⟩
    obtain rfl := Set.mem_singleton_iff.mp hu
    exact ⟨v, hv, rfl⟩
  · rintro ⟨u, hu, rfl⟩
    exact ⟨[0x2d], rfl, u, hu, rfl⟩

theorem plain_minus : Plain 0x2d := ⟨by decide, by decide, by decide⟩

theorem Writes.minus (h : Writes a L) : Writes ("-" ++ a) (minus * L) := by
  have hsign : Writes "-" NumberRegex.minus := by
    have hliteral := literal .once plain_minus trivial .nil
    rw [mul_one] at hliteral
    exact hliteral
  exact hsign.append h

theorem Writes.minusOptional (h : Writes a L) : Writes ("-?" ++ a) (L + NumberRegex.minus * L) := by
  have hsign : Writes "-?" (1 + NumberRegex.minus) := by
    have hliteral := literal .optional plain_minus trivial .nil
    rw [mul_one, language, repeated_optional] at hliteral
    exact hliteral
  have hall := hsign.append h
  rw [add_mul, one_mul] at hall
  exact hall

/-! ## Integers -/

/-- The number is within the bounds that are there. -/
def Between (min max : Option Int) (z : Int) : Prop := (∀ lo ∈ min, lo ≤ z) ∧ ∀ hi ∈ max, z ≤ hi

/-- The integers between two bounds, as they are written; and without bounds the zero with a sign. -/
def integers (min max : Option Int) : Language UInt8 :=
  {w | (∃ z, Between min max z ∧ w = utf8 (toString z)) ∨ (min = none ∧ max = none ∧ w = utf8 "-0")}

theorem utf8_toString_int (n : Nat) : utf8 (toString (n : Int)) = numeral n := utf8_toString n

theorem toString_neg (hn : 0 < n) : toString (-(n : Int)) = "-" ++ toString n := by
  obtain ⟨n, rfl⟩ := Nat.exists_eq_succ_of_ne_zero hn.ne'
  rfl

theorem utf8_toString_neg (hn : 0 < n) : utf8 (toString (-(n : Int))) = 0x2d :: numeral n := by
  rw [toString_neg hn, utf8_append, utf8_toString]
  rfl

section Integers

variable {lower upper : Option Int} {low low' : Nat} {high high' : Option Nat}

section

variable (hbound : ¬(lower = none ∧ upper = none))
include hbound

theorem mem_integers : w ∈ integers lower upper
    ↔ (∃ n : Nat, (0 < n ∧ Between lower upper (-n)) ∧ w = 0x2d :: numeral n) ∨ ∃ n : Nat, Between lower upper n ∧ w = numeral n := by
  constructor
  · rintro (⟨z, hz, rfl⟩ | ⟨hmin, hmax, -⟩)
    · rcases lt_or_ge z 0 with hneg | hpos
      · obtain ⟨n, hn⟩ := Int.eq_ofNat_of_zero_le (Int.neg_nonneg.mpr hneg.le)
        obtain rfl : z = -(n : Int) := by omega
        exact .inl ⟨n, ⟨by omega, hz⟩, utf8_toString_neg (by omega)⟩
      · obtain ⟨n, rfl⟩ := Int.eq_ofNat_of_zero_le hpos
        exact .inr ⟨n, hz, utf8_toString_int n⟩
    · exact absurd ⟨hmin, hmax⟩ hbound
  · rintro (⟨n, ⟨hn, hz⟩, rfl⟩ | ⟨n, hz, rfl⟩)
    · exact .inl ⟨_, hz, (utf8_toString_neg hn).symm⟩
    · exact .inl ⟨_, hz, (utf8_toString_int n).symm⟩

theorem integers_signs (hneg : ∀ n : Nat, Within low high n ↔ 0 < n ∧ Between lower upper (-n))
    (hpos : ∀ n : Nat, Within low' high' n ↔ Between lower upper n) :
    minus * ranged low high + ranged low' high' = integers lower upper := by
  refine ext_mem fun w => ?_
  rw [mem_integers hbound, Language.mem_add, mem_minus_mul]
  refine or_congr ⟨?_, ?_⟩ (exists_congr fun n => and_congr_left fun _ => hpos n)
  · rintro ⟨u, ⟨n, hn, rfl⟩, rfl⟩
    exact ⟨n, (hneg n).mp hn, rfl⟩
  · rintro ⟨n, hn, rfl⟩
    exact ⟨_, ⟨n, (hneg n).mpr hn, rfl⟩, rfl⟩

theorem integers_positive (hneg : ∀ n : Nat, ¬(0 < n ∧ Between lower upper (-n)))
    (hpos : ∀ n : Nat, Within low' high' n ↔ Between lower upper n) : ranged low' high' = integers lower upper := by
  refine ext_mem fun w => ?_
  rw [mem_integers hbound, or_iff_right fun ⟨n, hn, _⟩ => hneg n hn]
  exact exists_congr fun n => and_congr_left fun _ => hpos n

theorem integers_negative (hneg : ∀ n : Nat, Within low high n ↔ 0 < n ∧ Between lower upper (-n))
    (hpos : ∀ n : Nat, ¬Between lower upper n) : minus * ranged low high = integers lower upper := by
  have hnone : ∀ n, ¬Within 1 (some 0) n := fun n hn => by
    have := within_some.mp hn
    omega
  have hsigns := integers_signs hbound hneg fun n => (iff_false_intro (hnone n)).trans (iff_false_intro (hpos n)).symm
  have hempty : ranged 1 (some 0) = 0 := ext_mem fun w => ⟨fun ⟨n, hn, _⟩ => (hnone n hn).elim, fun h => h.elim⟩
  rwa [hempty, add_zero] at hsigns

end

end Integers

theorem within_from : Within lo none n ↔ lo ≤ n := ⟨fun h => h.1, fun h => ⟨h, nofun⟩⟩

theorem between_both {lo hi z : Int} : Between (some lo) (some hi) z ↔ lo ≤ z ∧ z ≤ hi :=
  ⟨fun h => ⟨h.1 lo rfl, h.2 hi rfl⟩, fun h => ⟨fun _ hm => Option.some.inj hm ▸ h.1, fun _ hm => Option.some.inj hm ▸ h.2⟩⟩

theorem between_from {lo z : Int} : Between (some lo) none z ↔ lo ≤ z :=
  ⟨fun h => h.1 lo rfl, fun h => ⟨fun _ hm => Option.some.inj hm ▸ h, nofun⟩⟩

theorem between_upTo {hi z : Int} : Between none (some hi) z ↔ z ≤ hi :=
  ⟨fun h => h.2 hi rfl, fun h => ⟨nofun, fun _ hm => Option.some.inj hm ▸ h⟩⟩

theorem integers_none : ranged 0 none + minus * ranged 0 none = integers none none := by
  refine ext_mem fun w => ?_
  rw [Language.mem_add, mem_minus_mul, mem_ranged]
  constructor
  · rintro (⟨n, -, rfl⟩ | ⟨u, ⟨n, -, rfl⟩, rfl⟩)
    · exact .inl ⟨n, ⟨nofun, nofun⟩, (utf8_toString_int n).symm⟩
    · rcases Nat.eq_zero_or_pos n with rfl | hn
      · exact .inr ⟨rfl, rfl, rfl⟩
      · exact .inl ⟨-n, ⟨nofun, nofun⟩, (utf8_toString_neg hn).symm⟩
  · rintro (⟨z, -, rfl⟩ | ⟨-, -, rfl⟩)
    · rcases lt_or_ge z 0 with hneg | hpos
      · obtain ⟨n, hn⟩ := Int.eq_ofNat_of_zero_le (Int.neg_nonneg.mpr hneg.le)
        obtain rfl : z = -(n : Int) := by omega
        exact .inr ⟨_, ⟨n, within_none, rfl⟩, utf8_toString_neg (by omega)⟩
      · obtain ⟨n, rfl⟩ := Int.eq_ofNat_of_zero_le hpos
        exact .inl ⟨n, within_none, utf8_toString_int n⟩
    · exact .inr ⟨_, ⟨0, within_none, rfl⟩, rfl⟩

/-- The text of a group in which a part with a sign comes first. -/
theorem Writes.orMinus (h : Writes a L) (h' : WritesAny b M) : Writes ("(?:-" ++ a ++ "|" ++ b ++ ")") (NumberRegex.minus * L + M) := by
  have htext : "(?:-" ++ a ++ "|" ++ b ++ ")" = "(?:" ++ ("-" ++ a ++ "|" ++ b) ++ ")" := by
    simp only [String.append_assoc]
    rfl
  rw [htext]
  exact (h.minus.or h').group

/-- A bound is a word of 64 bits. -/
def I64 (z : Int) : Prop := -2 ^ 63 ≤ z ∧ z < 2 ^ 63

section Bounds

variable {low high : Int}

theorem integers_from (hlow : I64 low) :
    ∃ text, generateIntegerRangeRegex (some low) none = some text ∧ Writes text (integers (some low) none) := by
  have hbound : ¬(some low = none ∧ (none : Option Int) = none) := fun h => nomatch h.1
  unfold I64 at hlow
  unfold generateIntegerRangeRegex
  by_cases hpos : 0 ≤ low
  · obtain ⟨range, hrange, hwrange⟩ := @positiveRangeRegexUnbounded_spec low.toNat (by omega)
    have hall := @integers_positive _ _ low.toNat none hbound (fun n => by rw [between_from]; omega)
      (fun n => by rw [within_from, between_from]; omega)
    simp only [if_pos hpos]
    rw [← hall]
    exact ⟨_, hrange, hwrange⟩
  · obtain ⟨range, hrange, hwrange⟩ := @positiveRangeRegex_spec 1 low.natAbs (by omega) (by omega)
    have hall := @integers_signs _ _ 1 0 (some low.natAbs) none hbound (fun n => by rw [within_some, between_from]; omega)
      (fun n => by rw [within_from, between_from]; omega)
    simp only [if_neg hpos]
    rw [← hall, hrange]
    have htext : "(?:-" ++ range ++ "|(?:0|[1-9][0-9]*))" = "(?:-" ++ range ++ "|" ++ ("(?:" ++ "0|[1-9][0-9]*" ++ ")") ++ ")" := by
      simp only [String.append_assoc]
      rfl
    refine ⟨_, congrArg some htext, ?_⟩
    exact hwrange.orMinus writes_natural.group.any

theorem integers_upTo (hhigh : I64 high) :
    ∃ text, generateIntegerRangeRegex none (some high) = some text ∧ Writes text (integers none (some high)) := by
  have hbound : ¬((none : Option Int) = none ∧ some high = none) := fun h => nomatch h.2
  unfold I64 at hhigh
  unfold generateIntegerRangeRegex
  by_cases hneg : high < 0
  · obtain ⟨range, hrange, hwrange⟩ := @positiveRangeRegexUnbounded_spec high.natAbs (by omega)
    have hall := @integers_negative _ _ high.natAbs none hbound (fun n => by rw [within_from, between_upTo]; omega)
      (fun n => by rw [between_upTo]; omega)
    simp only [if_pos hneg]
    rw [← hall, hrange]
    have htext : "-(?:" ++ range ++ ")" = "-" ++ ("(?:" ++ range ++ ")") := by
      simp only [String.append_assoc]
      rfl
    refine ⟨_, congrArg some htext, ?_⟩
    exact hwrange.any.group.minus
  · obtain ⟨range, hrange, hwrange⟩ := @positiveRangeRegex_spec 0 high.toNat (Nat.zero_le _) (by omega)
    have hall := @integers_signs _ _ 1 0 none (some high.toNat) hbound (fun n => by rw [within_from, between_upTo]; omega)
      (fun n => by rw [within_some, between_upTo]; omega)
    simp only [if_neg hneg]
    rw [← hall, hrange]
    have htext : "(?:-[1-9][0-9]*|" ++ range ++ ")" = "(?:-" ++ "[1-9][0-9]*" ++ "|" ++ range ++ ")" := by
      simp only [String.append_assoc]
      rfl
    refine ⟨_, congrArg some htext, ?_⟩
    exact writes_positive.orMinus hwrange.any

theorem integers_both (hlow : I64 low) (hhigh : I64 high) (hle : low ≤ high) :
    ∃ text, generateIntegerRangeRegex (some low) (some high) = some text ∧ Writes text (integers (some low) (some high)) := by
  have hbound : ¬(some low = none ∧ some high = none) := fun h => nomatch h.1
  unfold I64 at hlow hhigh
  unfold generateIntegerRangeRegex
  by_cases heq : low = high
  · subst heq
    refine ⟨_, if_pos rfl, ?_⟩
    rcases lt_or_ge low 0 with hneg | hpos
    · obtain ⟨n, hn⟩ := Int.eq_ofNat_of_zero_le (Int.neg_nonneg.mpr hneg.le)
      obtain rfl : low = -(n : Int) := by omega
      have hall := @integers_negative _ _ n (some n) hbound (fun m => by rw [within_some, between_both]; omega)
        (fun m => by rw [between_both]; omega)
      rw [← hall, ranged_same, toString_neg (by omega)]
      exact (writes_number n).minus
    · obtain ⟨n, rfl⟩ := Int.eq_ofNat_of_zero_le hpos
      have hall := @integers_positive _ _ n (some n) hbound (fun m => by rw [between_both]; omega)
        (fun m => by rw [within_some, between_both]; omega)
      rw [← hall, ranged_same]
      exact writes_number n
  · simp only [if_neg heq]
    by_cases hpos : 0 ≤ low
    · obtain ⟨range, hrange, hwrange⟩ := @positiveRangeRegex_spec low.toNat high.toNat (by omega) (by omega)
      have hall := @integers_positive _ _ low.toNat (some high.toNat) hbound (fun n => by rw [between_both]; omega)
        (fun n => by rw [within_some, between_both]; omega)
      rw [if_pos hpos, ← hall]
      exact ⟨_, hrange, hwrange⟩
    · rw [if_neg hpos]
      by_cases hneg : high < 0
      · obtain ⟨range, hrange, hwrange⟩ := @positiveRangeRegex_spec high.natAbs low.natAbs (by omega) (by omega)
        have hall := @integers_negative _ _ high.natAbs (some low.natAbs) hbound
          (fun n => by rw [within_some, between_both]; omega) (fun n => by rw [between_both]; omega)
        rw [if_pos hneg, ← hall, hrange]
        exact ⟨_, rfl, hwrange.minus⟩
      · obtain ⟨negative, hnegative, hwnegative⟩ := @positiveRangeRegex_spec 1 low.natAbs (by omega) (by omega)
        obtain ⟨positive, hpositive, hwpositive⟩ := @positiveRangeRegex_spec 0 high.toNat (Nat.zero_le _) (by omega)
        have hall := @integers_signs _ _ 1 0 (some low.natAbs) (some high.toNat) hbound
          (fun n => by rw [within_some, between_both]; omega) (fun n => by rw [within_some, between_both]; omega)
        rw [if_neg hneg, ← hall, hnegative, hpositive]
        exact ⟨_, rfl, hwnegative.orMinus hwpositive.any⟩

end Bounds

/-- **Patterns for integers.** -/
theorem generateIntegerRangeRegex_spec {lower upper : Option Int} (hlower : ∀ lo ∈ lower, I64 lo) (hupper : ∀ hi ∈ upper, I64 hi)
    (hle : ∀ lo ∈ lower, ∀ hi ∈ upper, lo ≤ hi) :
    ∃ text, generateIntegerRangeRegex lower upper = some text ∧ Writes text (integers lower upper) := by
  cases lower with
  | none =>
    cases upper with
    | none =>
      have hall := writes_natural.group.minusOptional
      rw [integers_none] at hall
      exact ⟨_, rfl, hall⟩
    | some hi => exact integers_upTo (hupper hi rfl)
  | some lo =>
    cases upper with
    | none => exact integers_from (hlower lo rfl)
    | some hi => exact integers_both (hlower lo rfl) (hupper hi rfl) (hle lo rfl hi rfl)

/-! ## Numbers with fractions -/

/-- What the digits of a fraction are written as; without digits there is none. -/
def fraction (ds : List Nat) : List UInt8 := if ds = [] then [] else 0x2e :: ds.map digitByte

/-- The value of an integer part with a fraction. -/
def magnitude (d : Nat) (ds : List Nat) : ℚ := d + value ds / 10 ^ ds.length

/-- The magnitudes between two bounds, as they are written. -/
def decimals (lo : Nat) (bound : Option Nat) : Language UInt8 :=
  {w | ∃ d ds, Digits ds ∧ (lo ≤ magnitude d ds ∧ ∀ hi ∈ bound, magnitude d ds ≤ (hi : Nat)) ∧ w = numeral d ++ fraction ds}

/-- Some fraction. -/
def fractions : Language UInt8 := {w | ∃ ds, Digits ds ∧ w = fraction ds}

/-- A fraction that is nothing. -/
def zeroFractions : Language UInt8 := {w | ∃ ds, Digits ds ∧ value ds = 0 ∧ w = fraction ds}

theorem mem_fractions_mul : w ∈ L * fractions ↔ ∃ u ∈ L, ∃ ds, Digits ds ∧ w = u ++ fraction ds := by
  rw [Language.mem_mul]
  constructor
  · rintro ⟨u, hu, v, ⟨ds, hds, rfl⟩, rfl⟩
    exact ⟨u, hu, ds, hds, rfl⟩
  · rintro ⟨u, hu, ds, hds, rfl⟩
    exact ⟨u, hu, _, ⟨ds, hds, rfl⟩, rfl⟩

theorem value_eq_zero {ds : List Nat} : value ds = 0 ↔ ds = replicate ds.length 0 := by
  induction ds with
  | nil => exact ⟨fun _ => rfl, fun _ => rfl⟩
  | cons d ds ih =>
    have hpos : 0 < 10 ^ ds.length := Nat.pow_pos (by decide)
    rw [value, Nat.add_eq_zero_iff, Nat.mul_eq_zero, or_iff_left hpos.ne', ih, length_cons, replicate_succ,
      List.cons.injEq]

theorem writes_dot {t : List UInt8} (h : SequenceText t L) (htext : utf8 text = [0x5c, 0x2e] ++ t) : WritesAny text ({[0x2e]} * L) := by
  unfold WritesAny
  rw [htext]
  exact .one (.atom .once .dot trivial h)

theorem digits_pow {ds : List Nat} (h : Digits ds) : ds.map digitByte ∈ fixed 1 0 9 ^ ds.length := by
  rw [pow_fixed]
  exact ⟨ds, h, rfl, Nat.zero_le _, value_le_nines h, rfl⟩

/-- A fraction has one digit or more, or is left out. -/
theorem writes_fractions : Writes "(?:\\.[0-9]+)?" fractions := by
  have hdigit : bytes 0x30 0x39 = fixed 1 0 9 := @bytes_digits 0 9 (by decide) (by decide)
  have hplus := atom .plus (.range (x := 0x30) (y := 0x39) (by decide) (by decide) (by decide)) trivial .nil
  have hgroup := (@writes_dot _ "\\.[0-9]+" _ hplus rfl).groupOptional
  rw [mul_one, language, hdigit] at hgroup
  have heq : fractions = 1 + {[0x2e]} * repeated (fixed 1 0 9) 1 none := by
    refine ext_mem fun w => ?_
    rw [Language.mem_add, Language.mem_mul]
    constructor
    · rintro ⟨ds, hds, rfl⟩
      by_cases hne : ds = []
      · exact .inl (if_pos hne)
      · refine .inr ⟨[0x2e], rfl, ds.map digitByte, ⟨ds.length, ⟨length_pos_iff.mpr hne, nofun⟩, digits_pow hds⟩, ?_⟩
        exact (if_neg hne).symm
    · rintro (hw | ⟨u, hu, v, ⟨n, hn, hv⟩, rfl⟩)
      · exact ⟨[], nofun, hw⟩
      · obtain rfl := Set.mem_singleton_iff.mp hu
        rw [pow_fixed] at hv
        obtain ⟨ds, hds, rfl, -, -, rfl⟩ := hv
        exact ⟨ds, hds, (if_neg (length_pos_iff.mp hn.1)).symm⟩
  rw [heq]
  exact hgroup

theorem mem_singleton_pow {b : UInt8} : w ∈ ({[b]} : Language UInt8) ^ n ↔ w = replicate n b := by
  induction n generalizing w with
  | zero => exact Iff.rfl
  | succ n ih =>
    rw [pow_succ', Language.mem_mul]
    constructor
    · rintro ⟨u, hu, v, hv, rfl⟩
      rw [Set.mem_singleton_iff.mp hu, ih.mp hv]
      rfl
    · rintro rfl
      exact ⟨[b], rfl, _, ih.mpr rfl, rfl⟩

theorem writes_zeroFractions : Writes "(?:\\.0+)?" zeroFractions := by
  have hplus := literal .plus (@plain_digit 0 (by decide)) trivial .nil
  have hgroup := (@writes_dot _ "\\.0+" _ hplus rfl).groupOptional
  rw [mul_one, language] at hgroup
  have heq : zeroFractions = 1 + {[0x2e]} * repeated {[digitByte 0]} 1 none := by
    refine ext_mem fun w => ?_
    rw [Language.mem_add, Language.mem_mul]
    constructor
    · rintro ⟨ds, -, hzero, rfl⟩
      by_cases hne : ds = []
      · exact .inl (if_pos hne)
      · have hbytes : ds.map digitByte = replicate ds.length (digitByte 0) := by
          rw [value_eq_zero.mp hzero, map_replicate, length_replicate]
        refine .inr ⟨[0x2e], rfl, ds.map digitByte, ⟨ds.length, ⟨length_pos_iff.mpr hne, nofun⟩, mem_singleton_pow.mpr hbytes⟩, ?_⟩
        exact (if_neg hne).symm
    · rintro (hw | ⟨u, hu, v, ⟨n, hn, hv⟩, rfl⟩)
      · exact ⟨[], nofun, rfl, hw⟩
      · obtain rfl := Set.mem_singleton_iff.mp hu
        obtain rfl := mem_singleton_pow.mp hv
        refine ⟨replicate n 0, digits_replicate (by decide) n, value_zeros n, ?_⟩
        have hne : replicate n 0 ≠ [] := ne_nil_of_length_pos (by rw [length_replicate]; exact hn.1)
        rw [fraction, if_neg hne, map_replicate]
        rfl
  rw [heq]
  exact hgroup

section Magnitude

variable {d : Nat} {ds : List Nat}

theorem fraction_nonneg : (0 : ℚ) ≤ value ds / 10 ^ ds.length := by positivity

theorem fraction_lt (h : Digits ds) : (value ds : ℚ) / 10 ^ ds.length < 1 := by
  rw [div_lt_one (by positivity)]
  exact_mod_cast value_lt h

theorem le_magnitude (h : Digits ds) : (lo : ℚ) ≤ magnitude d ds ↔ lo ≤ d := by
  have hnonneg := @fraction_nonneg ds
  have hlt := fraction_lt h
  unfold magnitude
  constructor
  · intro hle
    have hlt' : (lo : ℚ) < (d + 1 : Nat) := by
      push_cast
      linarith
    exact Nat.lt_succ_iff.mp (Nat.cast_lt.mp hlt')
  · intro hle
    have hle' : (lo : ℚ) ≤ d := Nat.cast_le.mpr hle
    linarith

theorem magnitude_le (h : Digits ds) : magnitude d ds ≤ (hi : ℚ) ↔ d < hi ∨ (d = hi ∧ value ds = 0) := by
  have hnonneg := @fraction_nonneg ds
  have hlt := fraction_lt h
  unfold magnitude
  constructor
  · intro hle
    have hle' : (d : ℚ) ≤ hi := by linarith
    rcases lt_or_eq_of_le (Nat.cast_le.mp hle') with hd | rfl
    · exact .inl hd
    · have hzero : (value ds : ℚ) / 10 ^ ds.length = 0 := by linarith
      rw [div_eq_zero_iff, or_iff_left (by positivity)] at hzero
      exact .inr ⟨rfl, Nat.cast_eq_zero.mp hzero⟩
  · rintro (hd | ⟨rfl, hzero⟩)
    · have hle' : ((d + 1 : Nat) : ℚ) ≤ hi := Nat.cast_le.mpr hd
      push_cast at hle'
      linarith
    · rw [hzero, Nat.cast_zero, zero_div, add_zero]

end Magnitude

/-- **Patterns for magnitudes.** -/
theorem decimalMagnitudeRegex_spec (hlo : lo < 10 ^ 19) (hbound : ∀ hi ∈ bound, lo ≤ hi ∧ hi < 10 ^ 19) :
    ∃ text, decimalMagnitudeRegex lo bound = some text ∧ Writes text (decimals lo bound) := by
  unfold decimalMagnitudeRegex
  cases bound with
  | none =>
    obtain ⟨range, hrange, hwrange⟩ := positiveRangeRegexUnbounded_spec hlo
    have heq : decimals lo none = ranged lo none * fractions := by
      refine ext_mem fun w => ?_
      rw [mem_fractions_mul]
      constructor
      · rintro ⟨d, ds, hds, ⟨hle, -⟩, rfl⟩
        exact ⟨_, ⟨d, within_from.mpr ((le_magnitude hds).mp hle), rfl⟩, ds, hds, rfl⟩
      · rintro ⟨u, ⟨d, hd, rfl⟩, ds, hds, rfl⟩
        exact ⟨d, ds, hds, ⟨(le_magnitude hds).mpr (within_from.mp hd), nofun⟩, rfl⟩
    have htext : "(?:" ++ range ++ ")(?:\\.[0-9]+)?" = "(?:" ++ range ++ ")" ++ "(?:\\.[0-9]+)?" := by
      simp only [String.append_assoc]
      rfl
    dsimp only
    rw [hrange, heq]
    refine ⟨_, congrArg some htext, ?_⟩
    exact hwrange.any.group.append writes_fractions
  | some hi =>
    obtain ⟨hle, hhi⟩ := hbound hi rfl
    have htop : Writes (toString hi ++ "(?:\\.0+)?") ({numeral hi} * zeroFractions) := (writes_number hi).append writes_zeroFractions
    have hmem : ∀ w, w ∈ decimals lo (some hi) ↔ (∃ d, (lo ≤ d ∧ d < hi) ∧ ∃ ds, Digits ds ∧ w = numeral d ++ fraction ds)
        ∨ w ∈ ({numeral hi} : Language UInt8) * zeroFractions := by
      intro w
      constructor
      · rintro ⟨d, ds, hds, ⟨h1, h2⟩, rfl⟩
        rcases (magnitude_le hds).mp (h2 hi rfl) with hlt | ⟨rfl, hzero⟩
        · exact .inl ⟨d, ⟨(le_magnitude hds).mp h1, hlt⟩, ds, hds, rfl⟩
        · exact .inr ⟨_, rfl, _, ⟨ds, hds, hzero, rfl⟩, rfl⟩
      · rintro (⟨d, ⟨h1, h2⟩, ds, hds, rfl⟩ | ⟨u, hu, v, ⟨ds, hds, hzero, rfl⟩, rfl⟩)
        · refine ⟨d, ds, hds, ⟨(le_magnitude hds).mpr h1, fun m hm => ?_⟩, rfl⟩
          rw [← Option.some.inj hm]
          exact (magnitude_le hds).mpr (.inl h2)
        · obtain rfl := Set.mem_singleton_iff.mp hu
          refine ⟨hi, ds, hds, ⟨(le_magnitude hds).mpr hle, fun m hm => ?_⟩, rfl⟩
          rw [← Option.some.inj hm]
          exact (magnitude_le hds).mpr (.inr ⟨rfl, hzero⟩)
    dsimp only
    by_cases heq : lo = hi
    · rw [if_pos heq]
      refine ⟨_, rfl, ?_⟩
      have hall : decimals lo (some hi) = {numeral hi} * zeroFractions := ext_mem fun w => by
        rw [hmem, or_iff_right]
        rintro ⟨d, hd, -⟩
        omega
      rw [hall]
      exact htop
    · obtain ⟨range, hrange, hwrange⟩ := @positiveRangeRegex_spec lo (hi - 1) (by omega) (by omega)
      have hall : decimals lo (some hi) = ranged lo (some (hi - 1)) * fractions + {numeral hi} * zeroFractions := ext_mem fun w => by
        rw [hmem, Language.mem_add, mem_fractions_mul]
        refine or_congr_left ?_
        constructor
        · rintro ⟨d, hd, hw⟩
          exact ⟨_, ⟨d, within_some.mpr (by omega), rfl⟩, hw⟩
        · rintro ⟨u, ⟨d, hd, rfl⟩, hw⟩
          have hd := within_some.mp hd
          exact ⟨d, by omega, hw⟩
      have htext : "(?:(?:" ++ range ++ ")(?:\\.[0-9]+)?|" ++ toString hi ++ "(?:\\.0+)?)"
          = "(?:" ++ ("(?:" ++ range ++ ")" ++ "(?:\\.[0-9]+)?" ++ "|" ++ (toString hi ++ "(?:\\.0+)?")) ++ ")" := by
        simp only [String.append_assoc]
        rfl
      rw [if_neg heq, if_neg (by omega), hrange, hall]
      refine ⟨_, congrArg some htext, ?_⟩
      exact ((hwrange.any.group.append writes_fractions).or htop.any).group

/-! ## Numbers -/

/-- The value of a number. -/
def numberValue (negative : Bool) (d : Nat) (ds : List Nat) : ℚ := if negative then -magnitude d ds else magnitude d ds

/-- The numbers between two bounds, as they are written, with a sign or not, and with a fraction or not. -/
def numbers (min max : Option Int) : Language UInt8 :=
  {w | ∃ (negative : Bool) (d : Nat) (ds : List Nat), Digits ds
    ∧ ((∀ lo ∈ min, (lo : ℚ) ≤ numberValue negative d ds) ∧ ∀ hi ∈ max, numberValue negative d ds ≤ (hi : Int))
    ∧ w = (if negative then [0x2d] else []) ++ numeral d ++ fraction ds}

section Numbers

variable {lower upper : Option Int}

/-- The numbers with a sign, or those without, and without the sign. -/
def unsigned (negative : Bool) (min max : Option Int) : Language UInt8 :=
  {w | ∃ d ds, Digits ds
    ∧ ((∀ lo ∈ min, (lo : ℚ) ≤ numberValue negative d ds) ∧ ∀ hi ∈ max, numberValue negative d ds ≤ (hi : Int))
    ∧ w = numeral d ++ fraction ds}

theorem numbers_signs : numbers lower upper = minus * unsigned true lower upper + unsigned false lower upper := by
  refine ext_mem fun w => ?_
  rw [Language.mem_add, mem_minus_mul]
  constructor
  · rintro ⟨negative, d, ds, hds, hbounds, rfl⟩
    cases negative with
    | true => exact .inl ⟨_, ⟨d, ds, hds, hbounds, rfl⟩, rfl⟩
    | false => exact .inr ⟨d, ds, hds, hbounds, rfl⟩
  · rintro (⟨u, ⟨d, ds, hds, hbounds, rfl⟩, rfl⟩ | ⟨d, ds, hds, hbounds, rfl⟩)
    · exact ⟨true, d, ds, hds, hbounds, rfl⟩
    · exact ⟨false, d, ds, hds, hbounds, rfl⟩

theorem magnitude_nonneg (d : Nat) (ds : List Nat) : 0 ≤ magnitude d ds := by
  unfold magnitude
  positivity

/-- The least magnitude of a number with a sign. -/
def leastNegative (upper : Option Int) : Nat :=
  match upper with
  | some value => if value < 0 then value.natAbs else 0
  | none => 0

theorem unsigned_true (hlower : lower.all (· ≤ 0)) :
    unsigned true lower upper = decimals (leastNegative upper) (lower.map Int.natAbs) := by
  have hlow : ∀ m : ℚ, (∀ lo ∈ lower, (lo : ℚ) ≤ -m) ↔ ∀ hi ∈ lower.map Int.natAbs, m ≤ (hi : Nat) := fun m => by
    cases lower with
    | none => exact ⟨fun _ => nofun, fun _ => nofun⟩
    | some lo =>
      have hneg : lo ≤ 0 := of_decide_eq_true hlower
      have hcast : ((lo.natAbs : Nat) : ℚ) = -lo := by
        rw [← Int.cast_natCast, Int.ofNat_natAbs_of_nonpos hneg, Int.cast_neg]
      simp only [Option.map_some, Option.mem_some_iff, forall_eq', hcast]
      exact le_neg
  have hhigh : ∀ m : ℚ, 0 ≤ m → ((∀ hi ∈ upper, -m ≤ (hi : Int)) ↔ (leastNegative upper : ℚ) ≤ m) := fun m hm => by
    unfold leastNegative
    cases upper with
    | none => exact ⟨fun _ => by rwa [Nat.cast_zero], fun _ => nofun⟩
    | some hi =>
      simp only [Option.mem_some_iff, forall_eq']
      by_cases hneg : hi < 0
      · have hcast : ((hi.natAbs : Nat) : ℚ) = -hi := by
          rw [← Int.cast_natCast, Int.ofNat_natAbs_of_nonpos hneg.le, Int.cast_neg]
        rw [if_pos hneg, hcast]
        exact neg_le
      · have hpos : (0 : ℚ) ≤ hi := Int.cast_nonneg (Int.not_lt.mp hneg)
        rw [if_neg hneg, Nat.cast_zero]
        exact ⟨fun _ => hm, fun _ => by linarith⟩
  refine ext_mem fun w => exists_congr fun d => exists_congr fun ds => and_congr_right fun _ => and_congr_left fun _ => ?_
  rw [and_comm]
  exact and_congr (hhigh _ (magnitude_nonneg d ds)) (hlow _)

theorem unsigned_false (hupper : upper.all (0 ≤ ·)) :
    unsigned false lower upper = decimals (Max.max (lower.getD 0) 0).toNat ((upper.filter (0 ≤ ·)).map Int.toNat) := by
  have hlow : ∀ m : ℚ, 0 ≤ m → ((∀ lo ∈ lower, (lo : ℚ) ≤ m) ↔ (((Max.max (lower.getD 0) 0).toNat : Nat) : ℚ) ≤ m) := fun m hm => by
    have hcast : (((Max.max (lower.getD 0) 0).toNat : Nat) : ℚ) = Max.max ((lower.getD 0 : Int) : ℚ) 0 := by
      rw [← Int.cast_natCast, Int.toNat_of_nonneg (le_max_right _ _), Int.cast_max, Int.cast_zero]
    rw [hcast, max_le_iff, and_iff_left hm]
    cases lower with
    | none => exact ⟨fun _ => hm, fun _ => nofun⟩
    | some lo => simp only [Option.mem_some_iff, forall_eq', Option.getD_some]
  have hhigh : ∀ m : ℚ, (∀ hi ∈ upper, m ≤ (hi : Int)) ↔ ∀ hi ∈ (upper.filter (0 ≤ ·)).map Int.toNat, m ≤ (hi : Nat) := fun m => by
    cases upper with
    | none => exact ⟨fun _ => nofun, fun _ => nofun⟩
    | some hi =>
      have hpos : 0 ≤ hi := of_decide_eq_true hupper
      have hcast : ((hi.toNat : Nat) : ℚ) = hi := by rw [← Int.cast_natCast, Int.toNat_of_nonneg hpos]
      have hfilter : (some hi).filter (fun z => decide (0 ≤ z)) = some hi := by
        rw [Option.filter_some, if_pos (decide_eq_true hpos)]
      rw [hfilter]
      simp only [Option.map_some, Option.mem_some_iff, forall_eq', hcast]
  refine ext_mem fun w => exists_congr fun d => exists_congr fun ds => and_congr_right fun _ => and_congr_left fun _ => ?_
  exact and_congr (hlow _ (magnitude_nonneg d ds)) (hhigh _)

theorem negative_part (hlower : ∀ lo ∈ lower, I64 lo) (hupper : ∀ hi ∈ upper, I64 hi) (hle : ∀ lo ∈ lower, ∀ hi ∈ upper, lo ≤ hi)
    (hneg : lower.all (· ≤ 0)) : (lower.map Int.natAbs).all (leastNegative upper ≤ ·)
      ∧ ∃ text, decimalMagnitudeRegex (leastNegative upper) (lower.map Int.natAbs) = some text
        ∧ Writes ("-(?:" ++ text ++ ")") (minus * unsigned true lower upper) := by
  have hmin : leastNegative upper < 10 ^ 19 := by
    unfold leastNegative
    split
    · next hi =>
        have hhi := hupper hi rfl
        unfold I64 at hhi
        split <;> omega
    · decide
  have hbound : ∀ hi ∈ lower.map Int.natAbs, leastNegative upper ≤ hi ∧ hi < 10 ^ 19 := by
    intro hi hhi
    obtain ⟨lo, rfl, rfl⟩ := Option.map_eq_some_iff.mp hhi
    have hlo := hlower lo rfl
    unfold I64 at hlo
    refine ⟨?_, by omega⟩
    unfold leastNegative
    split
    · next hi =>
        have := hle lo rfl hi rfl
        split <;> omega
    · exact Nat.zero_le _
  obtain ⟨text, htext, hwrites⟩ := decimalMagnitudeRegex_spec hmin hbound
  have hall : (lower.map Int.natAbs).all (leastNegative upper ≤ ·) := by
    rw [Option.all_eq_true]
    exact fun hi hhi => decide_eq_true (hbound hi hhi).1
  refine ⟨hall, text, htext, ?_⟩
  have heq : "-(?:" ++ text ++ ")" = "-" ++ ("(?:" ++ text ++ ")") := by
    simp only [String.append_assoc]
    rfl
  rw [heq, unsigned_true hneg]
  exact hwrites.any.group.minus

theorem nonnegative_part (hlower : ∀ lo ∈ lower, I64 lo) (hupper : ∀ hi ∈ upper, I64 hi) (hle : ∀ lo ∈ lower, ∀ hi ∈ upper, lo ≤ hi)
    (hpos : upper.all (0 ≤ ·)) :
    ((upper.filter (0 ≤ ·)).map Int.toNat).all ((Max.max (lower.getD 0) 0).toNat ≤ ·)
      ∧ ∃ text, decimalMagnitudeRegex (Max.max (lower.getD 0) 0).toNat ((upper.filter (0 ≤ ·)).map Int.toNat) = some text
        ∧ Writes text (unsigned false lower upper) := by
  have hmin : (Max.max (lower.getD 0) 0).toNat < 10 ^ 19 := by
    cases lower with
    | none => decide
    | some lo =>
      have hlo := hlower lo rfl
      unfold I64 at hlo
      rw [Option.getD_some]
      omega
  have hbound : ∀ hi ∈ (upper.filter (0 ≤ ·)).map Int.toNat, (Max.max (lower.getD 0) 0).toNat ≤ hi ∧ hi < 10 ^ 19 := by
    intro m hm
    obtain ⟨hi, hhi, rfl⟩ := Option.map_eq_some_iff.mp hm
    obtain ⟨hmem, hhi'⟩ := Option.filter_eq_some_iff.mp hhi
    have hword := hupper hi hmem
    unfold I64 at hword
    refine ⟨?_, by omega⟩
    cases lower with
    | none =>
      rw [Option.getD_none]
      omega
    | some lo =>
      have := hle lo rfl hi hmem
      rw [Option.getD_some]
      omega
  obtain ⟨text, htext, hwrites⟩ := decimalMagnitudeRegex_spec hmin hbound
  have hall : ((upper.filter (0 ≤ ·)).map Int.toNat).all ((Max.max (lower.getD 0) 0).toNat ≤ ·) := by
    rw [Option.all_eq_true]
    exact fun hi hhi => decide_eq_true (hbound hi hhi).1
  rw [unsigned_false hpos]
  exact ⟨hall, text, htext, hwrites⟩

theorem unsigned_true_empty (hneg : ¬lower.all (· ≤ 0)) : unsigned true lower upper = 0 := by
  refine ext_mem fun w => ⟨fun ⟨d, ds, _, hbounds, _⟩ => ?_, fun h => h.elim⟩
  cases lower with
  | none => exact absurd rfl hneg
  | some lo =>
    have hpos : (0 : ℚ) < lo := Int.cast_pos.mpr (Int.not_le.mp fun h => hneg (decide_eq_true h))
    have hle : (lo : ℚ) ≤ -magnitude d ds := hbounds.1 lo rfl
    have hnonneg := magnitude_nonneg d ds
    linarith

theorem unsigned_false_empty (hpos : ¬upper.all (0 ≤ ·)) : unsigned false lower upper = 0 := by
  refine ext_mem fun w => ⟨fun ⟨d, ds, _, hbounds, _⟩ => ?_, fun h => h.elim⟩
  cases upper with
  | none => exact absurd rfl hpos
  | some hi =>
    have hneg : (hi : ℚ) < 0 := Int.cast_lt_zero.mpr (Int.not_le.mp fun h => hpos (decide_eq_true h))
    have hle : magnitude d ds ≤ (hi : ℚ) := hbounds.2 hi rfl
    have hnonneg := magnitude_nonneg d ds
    linarith

/-- **Patterns for numbers.** -/
theorem generateBoundedNumberRegex_spec (hlower : ∀ lo ∈ lower, I64 lo) (hupper : ∀ hi ∈ upper, I64 hi)
    (hle : ∀ lo ∈ lower, ∀ hi ∈ upper, lo ≤ hi) :
    ∃ text, generateBoundedNumberRegex lower upper = some text ∧ Writes text (numbers lower upper) := by
  have hdef : generateBoundedNumberRegex lower upper = (do
      let negative ← ( if lower.all (· ≤ 0) then
          if (lower.map Int.natAbs).all (leastNegative upper ≤ ·) then
            (decimalMagnitudeRegex (leastNegative upper) (lower.map Int.natAbs)).map fun range => ["-(?:" ++ range ++ ")"]
          else some []
        else some [])
      let nonnegative ← ( if upper.all (0 ≤ ·) then
          if ((upper.filter (0 ≤ ·)).map Int.toNat).all ((Max.max (lower.getD 0) 0).toNat ≤ ·) then
            (decimalMagnitudeRegex (Max.max (lower.getD 0) 0).toNat ((upper.filter (0 ≤ ·)).map Int.toNat)).map fun range => [range]
          else some []
        else some [])
      some (oneOf (negative ++ nonnegative))) := rfl
  rw [hdef, numbers_signs]
  by_cases hneg : lower.all (· ≤ 0)
  · obtain ⟨hall, negative, hnegative, hwnegative⟩ := negative_part hlower hupper hle hneg
    rw [if_pos hneg, if_pos hall, hnegative]
    by_cases hpos : upper.all (0 ≤ ·)
    · obtain ⟨hall', positive, hpositive, hwpositive⟩ := nonnegative_part hlower hupper hle hpos
      rw [if_pos hpos, if_pos hall', hpositive]
      exact ⟨_, rfl, (Parts.cons hwnegative (.one hwpositive)).oneOf⟩
    · rw [if_neg hpos, unsigned_false_empty hpos, add_zero]
      exact ⟨_, rfl, (Parts.one hwnegative).oneOf⟩
  · rw [if_neg hneg, unsigned_true_empty hneg, mul_zero, zero_add]
    by_cases hpos : upper.all (0 ≤ ·)
    · obtain ⟨hall', positive, hpositive, hwpositive⟩ := nonnegative_part hlower hupper hle hpos
      rw [if_pos hpos, if_pos hall', hpositive]
      exact ⟨_, rfl, (Parts.one hwpositive).oneOf⟩
    · -- the bounds would part the other way round
      cases lower with
      | none => exact absurd rfl hneg
      | some lo =>
        cases upper with
        | none => exact absurd rfl hpos
        | some hi =>
          have hlo : 0 < lo := Int.not_le.mp fun h => hneg (decide_eq_true h)
          have hhi : hi < 0 := Int.not_le.mp fun h => hpos (decide_eq_true h)
          have := hle lo rfl hi rfl
          omega

end Numbers

/-! ## The parser -/

theorem Writes.head (h : Writes a L) : (utf8 a).head? ≠ some 0x5e := by
  unfold Writes at h
  generalize utf8 a = t at h
  cases h with
  | nil => exact nofun
  | literal _ hb _ _ =>
    intro hhead
    rw [Option.some.inj hhead] at hb
    exact absurd hb.free (by decide)
  | atom _ ha _ _ => cases ha <;> exact fun h => absurd (Option.some.inj h) (by decide)

/-- A text is generated, and the parser reads it as these words. -/
def MeansExactly (text : Option String) (L : Language UInt8) : Prop :=
  ∃ pattern, text = some pattern ∧ ∃ e : FrontendExpr, (∀ env, e.language env = L)
    ∧ ∀ rounds, (utf8 pattern).length + 4 ≤ rounds → regexToExpr rounds pattern = .ok e

theorem Writes.means (h : Writes a L) : MeansExactly (some a) L := by
  obtain ⟨e, he, hparse⟩ := parse_sequence h h.head
  exact ⟨a, rfl, e, he, fun rounds hr => hparse hr⟩

/-- **Bounded numbers mean their bounds.** -/
theorem bounded_numbers_exact (min max : Option Int) (hmin : ∀ lo ∈ min, I64 lo) (hmax : ∀ hi ∈ max, I64 hi)
    (hle : ∀ lo ∈ min, ∀ hi ∈ max, lo ≤ hi) :
    MeansExactly (generateIntegerRangeRegex min max) (integers min max)
      ∧ MeansExactly (generateBoundedNumberRegex min max) (numbers min max) := by
  obtain ⟨text, htext, hwrites⟩ := generateIntegerRangeRegex_spec hmin hmax hle
  obtain ⟨text', htext', hwrites'⟩ := generateBoundedNumberRegex_spec hmin hmax hle
  rw [htext, htext']
  exact ⟨hwrites.means, hwrites'.means⟩

/-- All the words of 64 bits. -/
theorem bounded_numbers_exact_words :
    MeansExactly (generateIntegerRangeRegex (some (-2 ^ 63)) (some (2 ^ 63 - 1))) (integers (some (-2 ^ 63)) (some (2 ^ 63 - 1)))
      ∧ MeansExactly (generateBoundedNumberRegex (some (-2 ^ 63)) (some (2 ^ 63 - 1))) (numbers (some (-2 ^ 63)) (some (2 ^ 63 - 1))) :=
  bounded_numbers_exact (some (-2 ^ 63)) (some (2 ^ 63 - 1))
    (fun lo hlo => by rw [← Option.some.inj hlo]; exact ⟨Int.le_refl _, by decide⟩)
    (fun hi hhi => by rw [← Option.some.inj hhi]; exact ⟨by decide, by decide⟩)
    (fun lo hlo hi hhi => by rw [← Option.some.inj hlo, ← Option.some.inj hhi]; decide)

end Pie.Proof.NumberRegex
