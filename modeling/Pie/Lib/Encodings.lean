import Mathlib.Computability.Language
import Pie.Lib.Utf8

/-!
# Ranges of encodings

The encodings of one length are numbers: a byte counts 64 times what the byte
after it counts, and the encodings of consecutive characters are consecutive. So
the encodings of a range of characters are the words between two words, and
these are cut at the first byte into at most three pieces.
-/

namespace Pie.Lib.Encodings

open List Utf8

variable {c : Char} {v bs u w : List UInt8} {b x y : UInt8} {hi lo n : Nat}

/-- The number of a word. -/
def value : List UInt8 → Nat
  | [] => 0
  | b :: bs => b.toNat * 64 ^ bs.length + value bs

def Conts (bs : List UInt8) : Prop := ∀ b ∈ bs, 0x80 ≤ b.toNat ∧ b.toNat ≤ 0xBF

/-- The bytes of a range, each a word. -/
def bytes (lo hi : UInt8) : Language UInt8 := {w | ∃ b, w = [b] ∧ lo.toNat ≤ b.toNat ∧ b.toNat ≤ hi.toNat}

/-- The words between two words of the same length. -/
def between (lo hi : List UInt8) : Language UInt8 :=
  {w | w.length = lo.length ∧ Conts w.tail ∧ value lo ≤ value w ∧ value w ≤ value hi}

theorem Conts.cons (h : Conts (b :: bs)) : (0x80 ≤ b.toNat ∧ b.toNat ≤ 0xBF) ∧ Conts bs :=
  ⟨h b mem_cons_self, fun x hx => h x (mem_cons_of_mem b hx)⟩

theorem Conts.of_cons (hb : 0x80 ≤ b.toNat ∧ b.toNat ≤ 0xBF) (h : Conts bs) : Conts (b :: bs) := by
  intro x hx
  rcases mem_cons.mp hx with rfl | hx
  · exact hb
  · exact h x hx

/-- The least number of `n` bytes that go on with a sequence. -/
def base : Nat → Nat
  | 0 => 0
  | n + 1 => 0x80 * 64 ^ n + base n

theorem value_bounds (h : Conts bs) : base bs.length ≤ value bs ∧ value bs < base bs.length + 64 ^ bs.length := by
  induction bs with
  | nil => exact ⟨le_refl 0, Nat.one_pos⟩
  | cons b bs ih =>
    obtain ⟨⟨hlo, hhi⟩, hc⟩ := h.cons
    obtain ⟨ih1, ih2⟩ := ih hc
    have hmin : 0x80 * 64 ^ bs.length ≤ b.toNat * 64 ^ bs.length := Nat.mul_le_mul_right _ hlo
    have hmax : b.toNat * 64 ^ bs.length ≤ 0xBF * 64 ^ bs.length := Nat.mul_le_mul_right _ hhi
    rw [length_cons, value, base, pow_succ]
    omega

theorem value_map_80 (bs : List UInt8) : value (bs.map fun _ => 0x80) = base bs.length := by
  induction bs with
  | nil => rfl
  | cons b bs ih =>
    rw [map_cons, value, ih, length_map, length_cons, base]
    rfl

theorem value_map_BF (bs : List UInt8) : value (bs.map fun _ => 0xBF) + 1 = base bs.length + 64 ^ bs.length := by
  induction bs with
  | nil => rfl
  | cons b bs ih =>
    rw [map_cons, value, length_map, length_cons, base, pow_succ]
    have hb : (0xBF : UInt8).toNat = 0xBF := rfl
    rw [hb]
    omega

theorem conts_map_80 (bs : List UInt8) : Conts (bs.map fun _ => 0x80) := by
  intro b hb
  obtain ⟨_, -, rfl⟩ := mem_map.mp hb
  exact ⟨le_rfl, by decide⟩

theorem conts_map_BF (bs : List UInt8) : Conts (bs.map fun _ => 0xBF) := by
  intro b hb
  obtain ⟨_, -, rfl⟩ := mem_map.mp hb
  exact ⟨by decide, le_rfl⟩

theorem value_lt (hlen : u.length = v.length) (hu : Conts u) (hv : Conts v)
    (h : x.toNat < y.toNat) : value (x :: u) < value (y :: v) := by
  have hx := (value_bounds hu).2
  have hy := (value_bounds hv).1
  have hmul : (x.toNat + 1) * 64 ^ u.length ≤ y.toNat * 64 ^ u.length := Nat.mul_le_mul_right _ h
  rw [add_mul, one_mul] at hmul
  rw [value, value, ← hlen]
  rw [← hlen] at hy
  omega

theorem value_le_iff (hlen : u.length = v.length) (hu : Conts u) (hv : Conts v) :
    value (x :: u) ≤ value (y :: v) ↔ x.toNat < y.toNat ∨ x.toNat = y.toNat ∧ value u ≤ value v := by
  rcases lt_trichotomy x.toNat y.toNat with h | h | h
  · have hlt := value_lt hlen hu hv h
    exact ⟨fun _ => .inl h, fun _ => le_of_lt hlt⟩
  · rw [value, value, hlen, h]
    omega
  · have hlt := value_lt hlen.symm hv hu h
    constructor <;> omega

theorem value_inj (hlen : u.length = v.length) (hu : Conts u.tail) (hv : Conts v.tail)
    (h : value u = value v) : u = v := by
  induction u generalizing v with
  | nil => exact (length_eq_zero_iff.mp hlen.symm).symm
  | cons x u ih =>
    cases v with
    | nil => cases hlen
    | cons y v =>
      have hlen' : u.length = v.length := Nat.succ.inj hlen
      have h1 := (value_le_iff hlen' hu hv).mp (le_of_eq h)
      have h2 := (value_le_iff hlen'.symm hv hu).mp (le_of_eq h.symm)
      have hxy : x.toNat = y.toNat := by omega
      have huv : value u = value v := by omega
      rw [UInt8.toNat_inj.mp hxy, ih hlen' (fun b hb => hu b (mem_of_mem_tail hb))
        (fun b hb => hv b (mem_of_mem_tail hb)) huv]

/-! ## Cutting at the first byte -/

theorem toNat_add_one {l h : UInt8} (hlt : l.toNat < h.toNat) : (l + 1).toNat = l.toNat + 1 := by
  have := h.toNat_lt
  rw [UInt8.toNat_add, UInt8.toNat_one, Nat.mod_eq_of_lt (by omega)]

theorem toNat_sub_one {l h : UInt8} (hlt : l.toNat < h.toNat) : (h - 1).toNat = h.toNat - 1 := by
  refine UInt8.toNat_sub_of_le _ _ (UInt8.le_iff_toNat_le.mpr ?_)
  rw [UInt8.toNat_one]
  omega

theorem bytes_empty {l h : UInt8} (hlt : h.toNat < l.toNat) : bytes l h = 0 := by
  ext w
  exact ⟨fun ⟨b, _, h1, h2⟩ => by omega, False.elim⟩

section Cut

variable {l h : UInt8} {ls hs : List UInt8}

theorem mem_bytes_mul {B : Language UInt8} :
    w ∈ bytes l h * B ↔ ∃ b v, w = b :: v ∧ l.toNat ≤ b.toNat ∧ b.toNat ≤ h.toNat ∧ v ∈ B := by
  constructor
  · rintro ⟨_, ⟨b, rfl, hlo, hhi⟩, v, hv, rfl⟩
    exact ⟨b, v, rfl, hlo, hhi, hv⟩
  · rintro ⟨b, v, rfl, hlo, hhi, hv⟩
    exact Language.append_mem_mul (a := [b]) ⟨b, rfl, hlo, hhi⟩ hv

theorem mem_between_cons : w ∈ between (l :: ls) (h :: hs) ↔
    ∃ b v, w = b :: v ∧ v.length = ls.length ∧ Conts v ∧ value (l :: ls) ≤ value (b :: v) ∧ value (b :: v) ≤ value (h :: hs) := by
  constructor
  · rintro ⟨hlen, hc, hlo, hhi⟩
    cases w with
    | nil => cases hlen
    | cons b v => exact ⟨b, v, rfl, Nat.succ.inj hlen, hc, hlo, hhi⟩
  · rintro ⟨b, v, rfl, hlen, hc, hlo, hhi⟩
    exact ⟨congrArg (· + 1) hlen, hc, hlo, hhi⟩

theorem mem_between (hlen : ls.length = hs.length) (hls : Conts ls) (hhs : Conts hs) :
    v ∈ between ls hs ↔ v.length = ls.length ∧ Conts v ∧ value ls ≤ value v ∧ value v ≤ value hs := by
  refine ⟨?_, fun ⟨h1, h2, h3⟩ => ⟨h1, fun b hb => h2 b (mem_of_mem_tail hb), h3⟩⟩
  rintro ⟨hl, hc, hlo, hhi⟩
  refine ⟨hl, ?_, hlo, hhi⟩
  match ls, hs, v with
  | [], _, v => rw [length_eq_zero_iff.mp hl]; exact nofun
  | x :: ls, y :: hs, b :: v =>
    have h1 := (value_le_iff (Nat.succ.inj hl).symm hls.cons.2 hc).mp hlo
    have h2 := (value_le_iff ((Nat.succ.inj hl).trans (Nat.succ.inj hlen)) hc hhs.cons.2).mp hhi
    have hx := hls.cons.1.1
    have hy := hhs.cons.1.2
    exact .of_cons ⟨by omega, by omega⟩ hc
  | _ :: _, _ :: _, [] => cases hl
  | _ :: _, [], _ => cases hlen

theorem between_single : between [l] [h] = bytes l h := by
  ext w
  rw [mem_between_cons]
  constructor
  · rintro ⟨b, v, rfl, hlen, -, hlo, hhi⟩
    obtain rfl := length_eq_zero_iff.mp hlen
    simp only [value, length_nil, pow_zero, mul_one, add_zero] at hlo hhi
    exact ⟨b, rfl, hlo, hhi⟩
  · rintro ⟨b, rfl, hlo, hhi⟩
    refine ⟨b, [], rfl, rfl, nofun, ?_⟩
    simp only [value, length_nil, pow_zero, mul_one, add_zero]
    exact ⟨hlo, hhi⟩

variable (hlen : ls.length = hs.length) (hls : Conts ls) (hhs : Conts hs)
include hlen hls hhs

theorem between_same : between (l :: ls) (l :: hs) = bytes l l * between ls hs := by
  ext w
  rw [mem_between_cons, mem_bytes_mul]
  constructor
  · rintro ⟨b, v, rfl, hv, hc, hlo, hhi⟩
    rw [value_le_iff hv.symm hls hc] at hlo
    rw [value_le_iff (hv.trans hlen) hc hhs] at hhi
    exact ⟨b, v, rfl, by omega, by omega, (mem_between hlen hls hhs).mpr ⟨hv, hc, by omega, by omega⟩⟩
  · rintro ⟨b, v, rfl, hlb, hbl, hv⟩
    obtain ⟨hv, hc, hlo, hhi⟩ := (mem_between hlen hls hhs).mp hv
    have hb : l.toNat = b.toNat := le_antisymm hlb hbl
    exact ⟨b, v, rfl, hv, hc, (value_le_iff hv.symm hls hc).mpr (.inr ⟨hb, hlo⟩),
      (value_le_iff (hv.trans hlen) hc hhs).mpr (.inr ⟨hb.symm, hhi⟩)⟩

/-- The words with the least first byte, with the greatest, and with one between. -/
theorem between_cut (hlt : l.toNat < h.toNat) : between (l :: ls) (h :: hs)
    = bytes l l * between ls (ls.map fun _ => 0xBF)
      + bytes (l + 1) (h - 1) * between (ls.map fun _ => 0x80) (hs.map fun _ => 0xBF)
      + bytes h h * between (hs.map fun _ => 0x80) hs := by
  have hbf : ls.length = (ls.map fun _ => (0xBF : UInt8)).length := (length_map _).symm
  have h80 : (hs.map fun _ => (0x80 : UInt8)).length = hs.length := length_map _
  have hmid : (ls.map fun _ => (0x80 : UInt8)).length = (hs.map fun _ => (0xBF : UInt8)).length := by
    rw [length_map, length_map, hlen]
  have hl1 := toNat_add_one hlt
  have hh1 := toNat_sub_one hlt
  have hvbf := value_map_BF ls
  have hvbf' := value_map_BF hs
  have hv80 := value_map_80 ls
  have hv80' := value_map_80 hs
  have hfits : ∀ v : List UInt8, v.length = ls.length → Conts v →
      value (ls.map fun _ => 0x80) ≤ value v ∧ value v ≤ value (ls.map fun _ => 0xBF)
        ∧ value (hs.map fun _ => 0x80) ≤ value v ∧ value v ≤ value (hs.map fun _ => 0xBF) := by
    intro v hv hc
    obtain ⟨h1, h2⟩ := value_bounds hc
    rw [hv] at h1 h2
    rw [← hlen] at hvbf' hv80'
    omega
  ext w
  rw [mem_between_cons]
  constructor
  · rintro ⟨b, v, rfl, hv, hc, hlo, hhi⟩
    rw [value_le_iff hv.symm hls hc] at hlo
    rw [value_le_iff (hv.trans hlen) hc hhs] at hhi
    obtain ⟨f1, f2, f3, f4⟩ := hfits v hv hc
    rcases hlo with hlb | ⟨hlb, hlo⟩
    · rcases hhi with hbh | ⟨hbh, hhi⟩
      · refine .inl (.inr (mem_bytes_mul.mpr ⟨b, v, rfl, by omega, by omega, ?_⟩))
        exact (mem_between hmid (conts_map_80 ls) (conts_map_BF hs)).mpr ⟨hv.trans (length_map _).symm, hc, f1, f4⟩
      · refine .inr (mem_bytes_mul.mpr ⟨b, v, rfl, by omega, by omega, ?_⟩)
        exact (mem_between h80 (conts_map_80 hs) hhs).mpr ⟨by rw [h80, hv, hlen], hc, f3, hhi⟩
    · refine .inl (.inl (mem_bytes_mul.mpr ⟨b, v, rfl, by omega, by omega, ?_⟩))
      exact (mem_between hbf hls (conts_map_BF ls)).mpr ⟨hv, hc, hlo, f2⟩
  · rintro ((hw | hw) | hw)
    · obtain ⟨b, v, rfl, hlb, hbl, hv⟩ := mem_bytes_mul.mp hw
      obtain ⟨hv, hc, hlo, -⟩ := (mem_between hbf hls (conts_map_BF ls)).mp hv
      exact ⟨b, v, rfl, hv, hc, (value_le_iff hv.symm hls hc).mpr (by omega),
        (value_le_iff (hv.trans hlen) hc hhs).mpr (by omega)⟩
    · obtain ⟨b, v, rfl, hlb, hbh, hv⟩ := mem_bytes_mul.mp hw
      obtain ⟨hv, hc, -, -⟩ := (mem_between hmid (conts_map_80 ls) (conts_map_BF hs)).mp hv
      rw [length_map] at hv
      exact ⟨b, v, rfl, hv, hc, (value_le_iff hv.symm hls hc).mpr (by omega),
        (value_le_iff (hv.trans hlen) hc hhs).mpr (by omega)⟩
    · obtain ⟨b, v, rfl, hhb, hbh, hv⟩ := mem_bytes_mul.mp hw
      obtain ⟨hv, hc, -, hhi⟩ := (mem_between h80 (conts_map_80 hs) hhs).mp hv
      rw [h80, ← hlen] at hv
      exact ⟨b, v, rfl, hv, hc, (value_le_iff hv.symm hls hc).mpr (by omega),
        (value_le_iff (hv.trans hlen) hc hhs).mpr (by omega)⟩

end Cut

/-! ## Characters -/

/-- The encodings of the characters from `lo` to `hi`. -/
def encodings (lo hi : Nat) : Language UInt8 :=
  {w | ∃ c : Char, lo ≤ c.toNat ∧ c.toNat ≤ hi ∧ w = String.utf8EncodeChar c}

/-- The encoding has `k` bytes after its first, and its number is `offset` more than the character. -/
structure Shape (k offset : Nat) (c : Char) : Prop where
  length : (String.utf8EncodeChar c).length = k + 1
  conts : Conts (String.utf8EncodeChar c).tail
  value : value (String.utf8EncodeChar c) = c.toNat + offset

theorem toNat_ofNat (h : n < 256) : (UInt8.ofNat n).toNat = n := by
  rw [UInt8.toNat_ofNat', Nat.mod_eq_of_lt h]

theorem toNat_ofNatAux (h : n.isValidChar) : (Char.ofNatAux n h).toNat = n := by
  unfold Char.ofNatAux Char.toNat
  rfl

theorem encode_one (h : c.toNat ≤ 0x7F) : String.utf8EncodeChar c = [.ofNat c.toNat] := if_pos h

theorem shape_two (h : 0x80 ≤ c.toNat) (h' : c.toNat ≤ 0x7FF) : Shape 1 (0xC0 * 64 + 0x80) c := by
  have he : String.utf8EncodeChar c = [.ofNat (c.toNat / 64 % 0x20 + 0xC0), .ofNat (c.toNat % 0x40 + 0x80)] := by
    unfold String.utf8EncodeChar
    exact (if_neg (by change ¬ c.toNat ≤ 0x7F; omega)).trans (if_pos h')
  have h1 : (UInt8.ofNat (c.toNat % 0x40 + 0x80)).toNat = c.toNat % 0x40 + 0x80 := toNat_ofNat (by omega)
  have h2 : (UInt8.ofNat (c.toNat / 64 % 0x20 + 0xC0)).toNat = c.toNat / 64 % 0x20 + 0xC0 := toNat_ofNat (by omega)
  refine ⟨by rw [he]; rfl, ?_, ?_⟩
  · rw [he]
    exact .of_cons (by omega) nofun
  · rw [he]
    simp only [value, h1, h2, length_cons, length_nil]
    omega

theorem shape_three (h : 0x800 ≤ c.toNat) (h' : c.toNat ≤ 0xFFFF) : Shape 2 (0xE0 * 4096 + 0x80 * 64 + 0x80) c := by
  have he : String.utf8EncodeChar c = [.ofNat (c.toNat / 4096 % 0x10 + 0xE0), .ofNat (c.toNat / 64 % 0x40 + 0x80),
      .ofNat (c.toNat % 0x40 + 0x80)] := by
    unfold String.utf8EncodeChar
    exact (if_neg (by change ¬ c.toNat ≤ 0x7F; omega)).trans
      ((if_neg (by change ¬ c.toNat ≤ 0x7FF; omega)).trans (if_pos h'))
  have h1 : (UInt8.ofNat (c.toNat % 0x40 + 0x80)).toNat = c.toNat % 0x40 + 0x80 := toNat_ofNat (by omega)
  have h2 : (UInt8.ofNat (c.toNat / 64 % 0x40 + 0x80)).toNat = c.toNat / 64 % 0x40 + 0x80 := toNat_ofNat (by omega)
  have h3 : (UInt8.ofNat (c.toNat / 4096 % 0x10 + 0xE0)).toNat = c.toNat / 4096 % 0x10 + 0xE0 := toNat_ofNat (by omega)
  refine ⟨by rw [he]; rfl, ?_, ?_⟩
  · rw [he]
    exact .of_cons (by omega) (.of_cons (by omega) nofun)
  · rw [he]
    simp only [value, h1, h2, h3, length_cons, length_nil]
    omega

theorem toNat_le (c : Char) : c.toNat ≤ 0x10FFFF := by
  have h : c.toNat < 0xD800 ∨ 0xDFFF < c.toNat ∧ c.toNat < 0x110000 := c.valid
  omega

theorem shape_four (h : 0x10000 ≤ c.toNat) : Shape 3 (0xF0 * 262144 + 0x80 * 4096 + 0x80 * 64 + 0x80) c := by
  have hmax := toNat_le c
  have he : String.utf8EncodeChar c = [.ofNat (c.toNat / 262144 % 0x08 + 0xF0), .ofNat (c.toNat / 4096 % 0x40 + 0x80),
      .ofNat (c.toNat / 64 % 0x40 + 0x80), .ofNat (c.toNat % 0x40 + 0x80)] := by
    unfold String.utf8EncodeChar
    exact (if_neg (by change ¬ c.toNat ≤ 0x7F; omega)).trans
      ((if_neg (by change ¬ c.toNat ≤ 0x7FF; omega)).trans (if_neg (by change ¬ c.toNat ≤ 0xFFFF; omega)))
  have h1 : (UInt8.ofNat (c.toNat % 0x40 + 0x80)).toNat = c.toNat % 0x40 + 0x80 := toNat_ofNat (by omega)
  have h2 : (UInt8.ofNat (c.toNat / 64 % 0x40 + 0x80)).toNat = c.toNat / 64 % 0x40 + 0x80 := toNat_ofNat (by omega)
  have h3 : (UInt8.ofNat (c.toNat / 4096 % 0x40 + 0x80)).toNat = c.toNat / 4096 % 0x40 + 0x80 := toNat_ofNat (by omega)
  have h4 : (UInt8.ofNat (c.toNat / 262144 % 0x08 + 0xF0)).toNat = c.toNat / 262144 % 0x08 + 0xF0 :=
    toNat_ofNat (by omega)
  refine ⟨by rw [he]; rfl, ?_, ?_⟩
  · rw [he]
    exact .of_cons (by omega) (.of_cons (by omega) (.of_cons (by omega) nofun))
  · rw [he]
    simp only [value, h1, h2, h3, h4, length_cons, length_nil]
    omega

/-- **The encodings of a range are the words between its ends.** -/
theorem between_encodings {k offset a b : Nat} (hshape : ∀ c : Char, a ≤ c.toNat → c.toNat ≤ b → Shape k offset c)
    (hvalid : ∀ n, a ≤ n → n ≤ b → n.isValidChar) {lo hi : Char} (hlo : a ≤ lo.toNat) (hlo' : lo.toNat ≤ b)
    (hhi : a ≤ hi.toNat) (hhi' : hi.toNat ≤ b) :
    between (String.utf8EncodeChar lo) (String.utf8EncodeChar hi) = encodings lo.toNat hi.toNat := by
  have hl := hshape lo hlo hlo'
  have hh := hshape hi hhi hhi'
  ext w
  constructor
  · rintro ⟨hlen, hc, h1, h2⟩
    rw [hl.value] at h1
    rw [hh.value] at h2
    have hv : (value w - offset).isValidChar := hvalid _ (by omega) (by omega)
    have hn := toNat_ofNatAux hv
    have hs := hshape (Char.ofNatAux (value w - offset) hv) (by omega) (by omega)
    refine ⟨Char.ofNatAux (value w - offset) hv, by omega, by omega, value_inj (hlen.trans (hl.length.trans hs.length.symm)) hc hs.conts ?_⟩
    rw [hs.value, hn]
    omega
  · rintro ⟨c, h1, h2, rfl⟩
    have hs := hshape c (hlo.trans h1) (h2.trans hhi')
    exact ⟨hs.length.trans hl.length.symm, hs.conts, by rw [hl.value, hs.value]; omega, by rw [hh.value, hs.value]; omega⟩

theorem bytes_encodings (hhi : hi ≤ 0x7F) (h : lo ≤ hi) : bytes (.ofNat lo) (.ofNat hi) = encodings lo hi := by
  have h1 : (UInt8.ofNat lo).toNat = lo := toNat_ofNat (by omega)
  have h2 : (UInt8.ofNat hi).toNat = hi := toNat_ofNat (by omega)
  ext w
  constructor
  · rintro ⟨b, rfl, hb1, hb2⟩
    rw [h1] at hb1
    rw [h2] at hb2
    have hv : b.toNat.isValidChar := .inl (by omega)
    have hn := toNat_ofNatAux hv
    refine ⟨Char.ofNatAux b.toNat hv, by omega, by omega, ?_⟩
    rw [encode_one (by omega), hn, UInt8.ofNat_toNat]
  · rintro ⟨c, hc1, hc2, rfl⟩
    rw [encode_one (hc2.trans hhi)]
    have hc : (UInt8.ofNat c.toNat).toNat = c.toNat := toNat_ofNat (by omega)
    exact ⟨_, rfl, by omega, by omega⟩

theorem encodings_empty (h : hi < lo) : encodings lo hi = 0 := by
  ext w
  exact ⟨fun ⟨c, h1, h2, _⟩ => by omega, False.elim⟩

end Pie.Lib.Encodings
