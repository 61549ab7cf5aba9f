import Pie.Dtype.Repr

/-!
# Reading names back

The walk goes from token to token, so it is told by what it leaves of the text.
A token fits one element code, or one group, and none of the codes begins like a
group. A text is therefore left in one way only, and by one format.
-/

namespace Pie.Proof.Spellings

open List Option Lib Lib.Decimal Dtype

/-! ## Numbers -/

/-- What `digitsFrom` makes of these bytes. -/
def numberFrom : List UInt8 → Nat → Option Nat
  | [], v => some v
  | c :: ds, v =>
    if c < 0x30 ∨ 0x39 < c then none
    else if 2 ^ 32 - 1 < v * 10 + (c.toNat - 0x30) then none
    else numberFrom ds (v * 10 + (c.toNat - 0x30))

def number (w : List UInt8) : Option Nat := if w = [] then none else numberFrom w 0

theorem numberFrom_digits : ∀ {ds : List Nat} {v : Nat}, Digits ds → v * 10 ^ ds.length + value ds < 2 ^ 32 →
    numberFrom (ds.map digitByte) v = some (v * 10 ^ ds.length + value ds)
  | [], v, _, _ => by simp [numberFrom, value]
  | d :: ds, v, hd, hlt => by
    rcases hd.cons with ⟨hten, hds⟩
    have hbyte := toNat_digitByte hten
    have hsplit : v * 10 ^ (d :: ds).length + value (d :: ds) = (v * 10 + d) * 10 ^ ds.length + value ds := by
      rw [value, length_cons]
      ring
    have hpow : v * 10 + d ≤ (v * 10 + d) * 10 ^ ds.length := Nat.le_mul_of_pos_right _ (by positivity)
    rw [map_cons, numberFrom, if_neg (by rw [UInt8.lt_iff_toNat_lt, UInt8.lt_iff_toNat_lt, hbyte]; simp; omega), hbyte,
      Nat.add_sub_cancel_left, if_neg (by omega), numberFrom_digits hds (by omega), hsplit]

variable {n : Nat} {w : List UInt8}

theorem number_numeral (h : n < 2 ^ 32) : number (numeral n) = some n := by
  have hne : numeral n ≠ [] := fun hnil => absurd (length_digits_pos n) (by rw [map_eq_nil_iff.mp hnil]; exact lt_irrefl 0)
  rw [number, if_neg hne, numeral, numberFrom_digits (digits_digits n) (by rw [value_digits]; omega), value_digits]
  simp

theorem digit_of_numberFrom : ∀ {w : List UInt8} {v n : Nat}, numberFrom w v = some n → ∀ c ∈ w, c ≤ 0x39
  | [], _, _, _, _, hc => nomatch hc
  | c :: w, v, n, h, d, hd => by
    rw [numberFrom] at h
    split at h
    · cases h
    · rename_i hdigit
      split at h
      · cases h
      · rcases mem_cons.mp hd with rfl | hd
        · exact UInt8.not_lt.mp fun hlt => hdigit (.inr hlt)
        · exact digit_of_numberFrom h d hd

theorem digit_of_number (h : number w = some n) : ∀ c ∈ w, c ≤ 0x39 := by
  unfold number at h
  split at h
  · cases h
  · exact digit_of_numberFrom h

theorem mem_numeral {c : UInt8} (h : c ∈ numeral n) : c ≤ 0x39 := by
  rcases mem_map.mp h with ⟨d, hd, rfl⟩
  have hten : d < 10 := digits_digits n d hd
  rw [UInt8.le_iff_toNat_le, toNat_digitByte hten]
  simp
  omega

/-! ## Tokens -/

def numberedToken (tag : UInt8) (n : Nat) : List UInt8 → Bool
  | [] => false
  | c :: ds => c == tag && number ds == some n

def pairedToken (tag mark : UInt8) (m n : Nat) : List UInt8 → Bool
  | [] => false
  | c :: ds =>
    let k := ds.findIdx (· == mark)
    c == tag && (decide (k < ds.length) && (number (ds.take k) == some m && number (ds.drop (k + 1)) == some n))

def codebookToken (n : Nat) : List UInt8 → Bool
  | c :: c' :: ds => c == 0x63 && (c' == 0x62 && number ds == some n)
  | _ => false

/-- A token is that of a code or that of a group. -/
abbrev Token := Elem ⊕ Group

def Token.display : Token → List UInt8
  | .inl code => code.display
  | .inr g => g.display

def fits : Token → List UInt8 → Bool
  | .inl (.u bits), w => numberedToken 0x75 bits.toNat w
  | .inl (.i bits), w => numberedToken 0x69 bits.toNat w
  | .inl (.e exp man), w => pairedToken 0x65 0x6D exp.toNat man.toNat w
  | .inl (.cb id), w => codebookToken id.toNat w
  | .inl code, w => w == code.display
  | .inr (.n size), w => numberedToken 0x67 size.toNat w
  | .inr (.tile r c), w => pairedToken 0x67 0x78 r.toNat c.toNat w
  | .inr g, w => w == g.display

section

variable {b w rest : List UInt8} {i k v n : Nat}

theorem byte_of_drop {c : UInt8} (h : b.drop i = c :: w ++ rest) : byte b i = some c ∧ b.drop (i + 1) = w ++ rest :=
  ⟨by rw [byte, ← head?_drop, h]; rfl, by rw [← tail_drop, h]; rfl⟩

theorem isFrom_eq : ∀ {text w : List UInt8} {i : Nat}, b.drop i = w ++ rest → w.length = text.length →
    isFrom b i text = some (w == text)
  | [], w, _, _, hlen => by
    obtain rfl := length_eq_zero_iff.mp hlen
    rfl
  | c :: text, [], _, _, hlen => nomatch hlen
  | c :: text, d :: w, i, h, hlen => by
    rcases byte_of_drop h with ⟨hbyte, hdrop⟩
    rw [isFrom, hbyte, bind_eq_bind, bind_some, isFrom_eq hdrop (Nat.succ.inj hlen)]
    by_cases hdc : d = c
    · subst hdc
      simp
    · rw [if_pos hdc]
      simp [hdc]

theorem is_eq {text : List UInt8} (h : b.drop i = w ++ rest) : is b i (i + w.length) text = some (w == text) := by
  unfold is
  by_cases hlen : w.length = text.length
  · rw [if_neg (by omega), isFrom_eq h hlen]
  · rw [if_pos (by omega)]
    have hne : w ≠ text := fun he => hlen (congrArg length he)
    simp [hne]

theorem digitsFrom_eq : ∀ {w : List UInt8} {k v : Nat}, b.drop k = w ++ rest →
    digitsFrom b w.length k v = some (numberFrom w v)
  | [], _, _, _ => rfl
  | c :: w, k, v, h => by
    rcases byte_of_drop h with ⟨hbyte, hdrop⟩
    rw [length_cons, digitsFrom, hbyte, bind_eq_bind, bind_some, numberFrom]
    split
    · rfl
    · dsimp only
      rw [digitsFrom_eq hdrop]
      split <;> rfl

theorem digits_eq (h : b.drop i = w ++ rest) : Dtype.digits b i (i + w.length) = some (number w) := by
  unfold Dtype.digits number
  cases w with
  | nil => rw [if_pos (by simp), if_pos rfl]
  | cons c w => rw [if_neg (by simp), if_neg (by simp), Nat.add_sub_cancel_left, digitsFrom_eq h]

theorem numbered_eq {tag : UInt8} (h : b.drop i = w ++ rest) :
    numbered tag n b i (i + w.length) = some (numberedToken tag n w) := by
  unfold numbered
  cases w with
  | nil => rw [if_neg (by simp)]; rfl
  | cons c w =>
    rcases byte_of_drop h with ⟨hbyte, hdrop⟩
    have hdigits := digits_eq hdrop
    rw [add_right_comm] at hdigits
    rw [if_pos (by simp), hbyte, bind_eq_bind, bind_some, length_cons, ← add_assoc, hdigits]
    by_cases hc : c = tag <;> simp [numberedToken, hc]

theorem seek_eq {mark : UInt8} : ∀ {w : List UInt8} {k : Nat}, b.drop k = w ++ rest →
    seek mark b w.length k = some (k + w.findIdx (· == mark))
  | [], _, _ => rfl
  | c :: w, k, h => by
    rcases byte_of_drop h with ⟨hbyte, hdrop⟩
    rw [length_cons, seek, hbyte, bind_eq_bind, bind_some, findIdx_cons]
    by_cases hc : c = mark
    · simp [hc]
    · rw [if_neg hc, seek_eq hdrop, beq_eq_false_iff_ne.mpr hc, cond_false, add_assoc, add_comm 1]

theorem paired_eq {tag mark : UInt8} {m : Nat} (h : b.drop i = w ++ rest) :
    paired tag mark m n b i (i + w.length) = some (pairedToken tag mark m n w) := by
  unfold paired
  cases w with
  | nil => rw [if_neg (by simp)]; rfl
  | cons c w =>
    rcases byte_of_drop h with ⟨hbyte, hdrop⟩
    have hcount : i + (c :: w).length - (i + 1) = w.length := by rw [length_cons]; omega
    rw [if_pos (by simp), hbyte, hcount, bind_eq_bind, bind_some, seek_eq hdrop, pairedToken]
    by_cases hc : c = tag
    · rw [if_neg (not_not.mpr hc), bind_eq_bind, bind_some]
      set k := w.findIdx (· == mark)
      by_cases hk : k < w.length
      · have hlen : (w.take k).length = k := length_take_of_le hk.le
        have hfirst : Dtype.digits b (i + 1) (i + 1 + k) = some (number (w.take k)) := by
          have := @digits_eq b (w.take k) (w.drop k ++ rest) (i + 1) (by rw [hdrop, ← append_assoc, take_append_drop])
          rwa [hlen] at this
        have hsecond : Dtype.digits b (i + 1 + k + 1) (i + (c :: w).length) = some (number (w.drop (k + 1))) := by
          have := @digits_eq b (w.drop (k + 1)) rest (i + 1 + (k + 1))
            (by rw [← drop_drop, hdrop, drop_append_of_le_length (by omega)])
          rwa [length_drop, show i + 1 + (k + 1) + (w.length - (k + 1)) = i + (c :: w).length by
            rw [length_cons]; omega] at this
        rw [if_pos (by rw [length_cons]; omega), hfirst, bind_eq_bind, bind_some]
        by_cases hm : number (w.take k) = some m
        · rw [if_neg (not_not.mpr hm), hsecond]
          simp [hc, hk, hm]
        · rw [if_pos hm]
          simp [hm]
      · rw [if_neg (by rw [length_cons]; omega)]
        simp [hk]
    · rw [if_pos hc]
      simp [hc]

theorem codebook_eq (h : b.drop i = w ++ rest) : codebook n b i (i + w.length) = some (codebookToken n w) := by
  unfold codebook
  rw [Nat.add_sub_cancel_left]
  match w, h with
  | [], _ => rfl
  | [_], _ => rfl
  | c :: c' :: ds, h =>
    rcases byte_of_drop h with ⟨hbyte, hdrop⟩
    rcases byte_of_drop hdrop with ⟨hbyte', hdrop'⟩
    have hdigits := digits_eq hdrop'
    rw [show i + 1 + 1 + ds.length = i + (c :: c' :: ds).length by simp only [length_cons]; omega] at hdigits
    cases ds with
    | nil => simp [codebookToken, number]
    | cons d ds =>
      rw [if_pos (by simp), hbyte, hbyte', hdigits]
      by_cases hc : c = 0x63
      · by_cases hc' : c' = 0x62 <;> simp [codebookToken, hc, hc']
      · simp [codebookToken, hc]

end

/-! ## What the walk leaves -/

/-- The token that a text begins with, and what follows it. -/
def cut (s : List UInt8) : List UInt8 × List UInt8 :=
  (s.take (s.findIdx (· == 0x5F)), s.drop (s.findIdx (· == 0x5F)))

def stripToken (fits : List UInt8 → Bool) (s : List UInt8) : Option (List UInt8) :=
  if fits (cut s).1 then some (cut s).2 else none

def stripSep : List UInt8 → Option (List UInt8)
  | [] => none
  | c :: s => if c = 0x5F then some s else none

mutual

/-- What `walk` leaves of a text. -/
def strip : Fmt → List UInt8 → Option (List UInt8)
  | .elem code, s => stripToken (fits (.inl code)) s
  | .q g code gain offset, s =>
    (stripToken (fits (.inr g)) s).bind fun s => (stripSep s).bind fun s =>
    (stripToken (fits (.inl code)) s).bind fun s => (stripSep s).bind fun s =>
    (strip gain s).bind fun s => (stripSep s).bind (stripOff offset)

def stripOff : Off → List UInt8 → Option (List UInt8)
  | .none, s => stripToken (· == lit "n") s
  | .pre t, s => (stripToken (· == lit "z") s).bind fun s => (stripSep s).bind (strip t)
  | .post t, s => (stripToken (· == lit "b") s).bind fun s => (stripSep s).bind (strip t)

end

/-- The walk `m` stops without a panic, where what is left begins. -/
structure Follows (b : List UInt8) (m : Walk Nat) (left : Option (List UInt8)) : Prop where
  run : m.run = some (left.map fun s => b.length - s.length)
  suffix : ∀ s, left = some s → s <:+ b

theorem drop_of_suffix {s b : List UInt8} (h : s <:+ b) : b.drop (b.length - s.length) = s :=
  (suffix_iff_eq_drop.mp h).symm

theorem cut_append (s : List UInt8) : (cut s).1 ++ (cut s).2 = s := take_append_drop _ _

section

variable {b s : List UInt8} {m : Walk Nat} {left : Option (List UInt8)}

namespace Follows

theorem bind {f : Nat → Walk Nat} {next : List UInt8 → Option (List UInt8)} (h : Follows b m left)
    (hnext : ∀ s, s <:+ b → Follows b (f (b.length - s.length)) (next s)) : Follows b (m >>= f) (left.bind next) := by
  cases hleft : left with
  | none =>
    refine ⟨?_, nofun⟩
    rw [OptionT.run_bind, h.run, hleft]
    rfl
  | some s =>
    have hs := hnext s (h.suffix s hleft)
    refine ⟨?_, hs.suffix⟩
    rw [OptionT.run_bind, h.run, hleft]
    exact hs.run

/-- One token: the program and the token agree on `fits`. -/
theorem token {fits : List UInt8 → Bool} (hs : s <:+ b)
    (hrun : m.run = some (if fits (cut s).1 then some (tokEnd b (b.length - s.length)) else none)) :
    Follows b m (stripToken fits s) := by
  have hle := hs.length_le
  have hcut : (cut s).2.length = s.length - s.findIdx (· == 0x5F) := length_drop
  have hidx : s.findIdx (· == 0x5F) ≤ s.length := findIdx_le_length
  unfold stripToken
  refine ⟨?_, fun s' h => ?_⟩
  · rw [hrun]
    split
    · rw [map_some, tokEnd, drop_of_suffix hs, hcut, show b.length - s.length + s.findIdx (· == 0x5F)
        = b.length - (s.length - s.findIdx (· == 0x5F)) by omega]
    · rfl
  · split at h
    · rw [← some.inj h]
      exact (drop_suffix _ _).trans hs
    · cases h

theorem sep (hs : s <:+ b) : Follows b (Dtype.sep b (b.length - s.length)) (stripSep s) := by
  have hle := hs.length_le
  cases s with
  | nil =>
    refine ⟨?_, nofun⟩
    unfold Dtype.sep
    rw [length_nil, Nat.sub_zero, if_neg (lt_irrefl _)]
    rfl
  | cons c s =>
    have hbyte : byte b (b.length - (c :: s).length) = some c := by
      rw [byte, ← head?_drop, drop_of_suffix hs]
      rfl
    rw [length_cons] at hle hbyte
    have hstrip : stripSep (c :: s) = if c = 0x5F then some s else none := rfl
    unfold Dtype.sep
    rw [length_cons, if_pos (by omega), hbyte, hstrip]
    by_cases hc : c = 0x5F
    · refine ⟨?_, fun s' h => ?_⟩
      · rw [if_pos hc, map_some, show b.length - s.length = b.length - (s.length + 1) + 1 by omega]
        simp [OptionT.run, OptionT.mk, hc]
      · rw [if_pos hc] at h
        rw [← some.inj h]
        exact (suffix_cons c s).trans hs
    · refine ⟨?_, fun s' h => ?_⟩
      · rw [if_neg hc]
        simp [OptionT.run, OptionT.mk, hc]
      · rw [if_neg hc] at h
        cases h

end Follows

theorem drop_cut (hs : s <:+ b) : b.drop (b.length - s.length) = (cut s).1 ++ (cut s).2 := by
  rw [cut_append, drop_of_suffix hs]

theorem tokEnd_eq (hs : s <:+ b) : tokEnd b (b.length - s.length) = b.length - s.length + (cut s).1.length := by
  rw [tokEnd, drop_of_suffix hs, cut, length_take_of_le findIdx_le_length]

theorem elemAt_follows (code : Elem) (hs : s <:+ b) :
    Follows b (elemAt code b (b.length - s.length)) (stripToken (fits (.inl code)) s) := by
  have h := drop_cut hs
  refine .token hs ?_
  unfold elemAt
  rw [tokEnd_eq hs]
  cases code <;> dsimp only [fits]
  case u bits => rw [numbered_eq h]; rfl
  case i bits => rw [numbered_eq h]; rfl
  case e exp man => rw [paired_eq h]; rfl
  case cb id => rw [codebook_eq h]; rfl
  all_goals rw [is_eq h]; rfl

theorem groupAt_follows (g : Group) (hs : s <:+ b) :
    Follows b (groupAt g b (b.length - s.length)) (stripToken (fits (.inr g)) s) := by
  have h := drop_cut hs
  refine .token hs ?_
  unfold groupAt
  rw [tokEnd_eq hs]
  cases g <;> dsimp only [fits]
  case n size => rw [numbered_eq h]; rfl
  case tile r c => rw [paired_eq h]; rfl
  all_goals rw [is_eq h]; rfl

theorem token_follows (text : List UInt8) (hs : s <:+ b) :
    Follows b (token text b (b.length - s.length)) (stripToken (· == text) s) := by
  refine .token hs ?_
  unfold token
  dsimp only
  rw [tokEnd_eq hs, is_eq (drop_cut hs)]
  rfl

mutual

/-- **The walk leaves what `strip` does**, and no byte is read where the text has none. -/
theorem walk_follows : ∀ (f : Fmt) {s : List UInt8}, s <:+ b → Follows b (walk f b (b.length - s.length)) (strip f s)
  | .elem code, s, hs => by
    rw [walk, strip]
    exact elemAt_follows code hs
  | .q g code gain offset, s, hs => by
    rw [walk, strip]
    refine (groupAt_follows g hs).bind fun s hs => (Follows.sep hs).bind fun s hs => ?_
    refine (elemAt_follows code hs).bind fun s hs => (Follows.sep hs).bind fun s hs => ?_
    exact (walk_follows gain hs).bind fun s hs => (Follows.sep hs).bind fun s hs => walkOff_follows offset hs

theorem walkOff_follows : ∀ (o : Off) {s : List UInt8}, s <:+ b →
    Follows b (walkOff o b (b.length - s.length)) (stripOff o s)
  | .none, s, hs => by
    rw [walkOff, stripOff]
    exact token_follows _ hs
  | .pre t, s, hs => by
    rw [walkOff, stripOff]
    exact (token_follows _ hs).bind fun s hs => (Follows.sep hs).bind fun s hs => walk_follows t hs
  | .post t, s, hs => by
    rw [walkOff, stripOff]
    exact (token_follows _ hs).bind fun s hs => (Follows.sep hs).bind fun s hs => walk_follows t hs

end

end

theorem spells_eq (f : Fmt) (b : List UInt8) : spells f b = some (strip f b == some []) := by
  have h := walk_follows f (suffix_refl b)
  unfold spells
  rw [← Nat.sub_self b.length, h.run]
  cases hs : strip f b with
  | none => rfl
  | some s =>
    have hle := (h.suffix s hs).length_le
    rw [map_some, bind_eq_bind, bind_some]
    cases s with
    | nil => simp
    | cons c s =>
      rw [length_cons] at hle ⊢
      have hne : b.length - (s.length + 1) ≠ b.length := by omega
      simp [hne]

/-! ## A text fits one token -/

/-- What a text spells. -/
def tokenOf : List UInt8 → Option Token
  | 0x75 :: ds => (number ds).map fun n => .inl (.u (UInt8.ofNat n))
  | 0x69 :: ds => (number ds).map fun n => .inl (.i (UInt8.ofNat n))
  | 0x65 :: ds =>
    let k := ds.findIdx (· == 0x6D)
    (number (ds.take k)).bind fun m => (number (ds.drop (k + 1))).map fun n =>
      .inl (.e (UInt8.ofNat m) (UInt8.ofNat n))
  | 0x63 :: 0x62 :: ds => (number ds).map fun n => .inl (.cb (UInt16.ofNat n))
  | [0x67, 0x72] => some (.inr .row)
  | [0x67, 0x74] => some (.inr .tensor)
  | 0x67 :: ds =>
    let k := ds.findIdx (· == 0x78)
    match number ds with
    | some n => some (.inr (.n (UInt32.ofNat n)))
    | none => (number (ds.take k)).bind fun m => (number (ds.drop (k + 1))).map fun n =>
      .inr (.tile (UInt32.ofNat m) (UInt32.ofNat n))
  | w => ([.f32, .f16, .bf16, .bool, .nf4, .t3].find? fun code => w == code.display).map .inl

theorem numberedToken_iff {tag : UInt8} :
    numberedToken tag n w = true ↔ ∃ ds, w = tag :: ds ∧ number ds = some n := by
  cases w <;> simp [numberedToken]

theorem pairedToken_iff {tag mark : UInt8} {m n : Nat} : pairedToken tag mark m n w = true ↔
    ∃ ds, w = tag :: ds ∧ ds.findIdx (· == mark) < ds.length ∧
      number (ds.take (ds.findIdx (· == mark))) = some m ∧ number (ds.drop (ds.findIdx (· == mark) + 1)) = some n := by
  cases w <;> simp [pairedToken]

theorem codebookToken_iff : codebookToken n w = true ↔ ∃ ds, w = 0x63 :: 0x62 :: ds ∧ number ds = some n := by
  match w with
  | [] => simp [codebookToken]
  | [_] => simp [codebookToken]
  | c :: c' :: ds => simp [codebookToken, and_assoc]

/-- What follows the `g` is not the name of a row or a tensor. -/
theorem tokenOf_group {ds : List UInt8} (hrow : ds ≠ [0x72]) (htensor : ds ≠ [0x74]) :
    tokenOf (0x67 :: ds) = match number ds with
      | some n => some (.inr (.n (UInt32.ofNat n)))
      | none => (number (ds.take (ds.findIdx (· == 0x78)))).bind fun m =>
        (number (ds.drop (ds.findIdx (· == 0x78) + 1))).map fun n => .inr (.tile (UInt32.ofNat m) (UInt32.ofNat n)) := by
  unfold tokenOf
  split <;> simp_all

/-- **A text fits one token.** -/
theorem tokenOf_eq : ∀ {t : Token} {w : List UInt8}, fits t w = true → tokenOf w = some t
  | .inl (.u bits), w, h => by
    rcases numberedToken_iff.mp h with ⟨ds, rfl, hds⟩
    simp [tokenOf, hds]
  | .inl (.i bits), w, h => by
    rcases numberedToken_iff.mp h with ⟨ds, rfl, hds⟩
    simp [tokenOf, hds]
  | .inl (.e exp man), w, h => by
    rcases pairedToken_iff.mp h with ⟨ds, rfl, -, hm, hn⟩
    simp [tokenOf, hm, hn]
  | .inl (.cb id), w, h => by
    rcases codebookToken_iff.mp h with ⟨ds, rfl, hds⟩
    simp [tokenOf, hds]
  | .inr (.n size), w, h => by
    rcases numberedToken_iff.mp h with ⟨ds, rfl, hds⟩
    have hr : number [0x72] = none := by decide
    have ht : number [0x74] = none := by decide
    rw [tokenOf_group (fun he => by rw [he, hr] at hds; cases hds) (fun he => by rw [he, ht] at hds; cases hds), hds]
    simp
  | .inr (.tile r c), w, h => by
    rcases pairedToken_iff.mp h with ⟨ds, rfl, hmark, hm, hn⟩
    have hx : 0x78 ∈ ds := by
      have hget := findIdx_getElem (w := hmark)
      rw [beq_iff_eq] at hget
      exact hget ▸ getElem_mem hmark
    -- A number has no mark in it.
    have hnone : number ds = none := by
      cases hds : number ds with
      | none => rfl
      | some n => exact absurd (digit_of_number hds _ hx) (by decide)
    rw [tokenOf_group (fun he => by rw [he] at hx; exact absurd hx (by decide))
      (fun he => by rw [he] at hx; exact absurd hx (by decide)), hnone]
    simp [hm, hn]
  | .inl .f32, w, h | .inl .f16, w, h | .inl .bf16, w, h | .inl .bool, w, h | .inl .nf4, w, h | .inl .t3, w, h
  | .inr .row, w, h | .inr .tensor, w, h => by
    obtain rfl := beq_iff_eq.mp h
    rfl

/-! ## A text is left by one format -/

theorem stripToken_eq_some {fits : List UInt8 → Bool} {s r : List UInt8} :
    stripToken fits s = some r ↔ fits (cut s).1 = true ∧ (cut s).2 = r := by
  unfold stripToken
  by_cases h : fits (cut s).1 = true <;> simp [h]

theorem token_unique {t t' : Token} {s r r' : List UInt8} (h : stripToken (fits t) s = some r)
    (h' : stripToken (fits t') s = some r') : t = t' ∧ r = r' := by
  rcases stripToken_eq_some.mp h with ⟨ht, rfl⟩
  rcases stripToken_eq_some.mp h' with ⟨ht', rfl⟩
  exact ⟨some.inj ((tokenOf_eq ht).symm.trans (tokenOf_eq ht')), rfl⟩

theorem text_unique {a b s r r' : List UInt8} (h : stripToken (· == a) s = some r)
    (h' : stripToken (· == b) s = some r') : a = b ∧ r = r' := by
  rcases stripToken_eq_some.mp h with ⟨ha, rfl⟩
  rcases stripToken_eq_some.mp h' with ⟨hb, rfl⟩
  exact ⟨(beq_iff_eq.mp ha).symm.trans (beq_iff_eq.mp hb), rfl⟩

mutual

theorem strip_unique : ∀ {f g : Fmt} {s r r' : List UInt8}, strip f s = some r → strip g s = some r' → f = g ∧ r = r'
  | .elem code, .elem code', s, r, r', h, h' => by
    unfold strip at h h'
    rcases token_unique h h' with ⟨ht, rfl⟩
    exact ⟨congrArg Fmt.elem (Sum.inl.inj ht), rfl⟩
  | .elem code, .q g _ _ _, s, r, r', h, h' => by
    unfold strip at h h'
    rcases bind_eq_some_iff.mp h' with ⟨_, hg, -⟩
    exact nomatch (token_unique h hg).1
  | .q g _ _ _, .elem code, s, r, r', h, h' => by
    unfold strip at h h'
    rcases bind_eq_some_iff.mp h with ⟨_, hg, -⟩
    exact nomatch (token_unique hg h').1
  | .q g code gain offset, .q g' code' gain' offset', s, r, r', h, h' => by
    unfold strip at h h'
    simp only [bind_eq_some_iff] at h h'
    obtain ⟨s₁, hg, s₂, hs₂, s₃, hcode, s₄, hs₄, s₅, hgain, s₆, hs₆, hoff⟩ := h
    obtain ⟨t₁, hg', t₂, ht₂, t₃, hcode', t₄, ht₄, t₅, hgain', t₆, ht₆, hoff'⟩ := h'
    rcases token_unique hg hg' with ⟨hgroup, rfl⟩
    cases hs₂.symm.trans ht₂
    rcases token_unique hcode hcode' with ⟨helem, rfl⟩
    cases hs₄.symm.trans ht₄
    rcases strip_unique hgain hgain' with ⟨rfl, rfl⟩
    cases hs₆.symm.trans ht₆
    rcases stripOff_unique hoff hoff' with ⟨rfl, rfl⟩
    rw [Sum.inr.inj hgroup, Sum.inl.inj helem]
    exact ⟨rfl, rfl⟩

theorem stripOff_unique : ∀ {o p : Off} {s r r' : List UInt8},
    stripOff o s = some r → stripOff p s = some r' → o = p ∧ r = r'
  | .none, .none, s, r, r', h, h' => by
    unfold stripOff at h h'
    exact ⟨rfl, (text_unique h h').2⟩
  | .pre t, .pre t', s, r, r', h, h' => by
    unfold stripOff at h h'
    simp only [bind_eq_some_iff] at h h'
    obtain ⟨s₁, hz, s₂, hs₂, ht⟩ := h
    obtain ⟨t₁, hz', t₂, ht₂, ht'⟩ := h'
    obtain rfl := (text_unique hz hz').2
    cases hs₂.symm.trans ht₂
    rcases strip_unique ht ht' with ⟨rfl, rfl⟩
    exact ⟨rfl, rfl⟩
  | .post t, .post t', s, r, r', h, h' => by
    unfold stripOff at h h'
    simp only [bind_eq_some_iff] at h h'
    obtain ⟨s₁, hb, s₂, hs₂, ht⟩ := h
    obtain ⟨t₁, hb', t₂, ht₂, ht'⟩ := h'
    obtain rfl := (text_unique hb hb').2
    cases hs₂.symm.trans ht₂
    rcases strip_unique ht ht' with ⟨rfl, rfl⟩
    exact ⟨rfl, rfl⟩
  | .none, .pre _, _, _, _, h, h' | .none, .post _, _, _, _, h, h' => by
    unfold stripOff at h h'
    rcases bind_eq_some_iff.mp h' with ⟨_, ht, -⟩
    exact absurd (text_unique h ht).1 (by decide)
  | .pre _, .none, _, _, _, h, h' | .post _, .none, _, _, _, h, h' => by
    unfold stripOff at h h'
    rcases bind_eq_some_iff.mp h with ⟨_, ht, -⟩
    exact absurd (text_unique ht h').1 (by decide)
  | .pre _, .post _, _, _, _, h, h' | .post _, .pre _, _, _, _, h, h' => by
    unfold stripOff at h h'
    rcases bind_eq_some_iff.mp h with ⟨_, ht, -⟩
    rcases bind_eq_some_iff.mp h' with ⟨_, ht', -⟩
    exact absurd (text_unique ht ht').1 (by decide)

end

/-! ## A name is left by its format -/

/-- A text that a name may be followed by. -/
def Ends (rest : List UInt8) : Prop := rest = [] ∨ ∃ s, rest = 0x5F :: s

theorem findIdx_append_of_ne {mark : UInt8} (hw : ∀ c ∈ w, c ≠ mark) (rest : List UInt8) :
    (w ++ rest).findIdx (· == mark) = rest.findIdx (· == mark) + w.length := by
  rw [findIdx_append, findIdx_eq_length_of_false fun c hc => beq_eq_false_iff_ne.mpr (hw c hc),
    if_neg (lt_irrefl _)]

theorem stripToken_append {ok : List UInt8 → Bool} {w rest : List UInt8} (hok : ok w = true)
    (hw : ∀ c ∈ w, c ≠ 0x5F) (hrest : Ends rest) : stripToken ok (w ++ rest) = some rest := by
  have hidx : (w ++ rest).findIdx (· == 0x5F) = w.length := by
    rw [findIdx_append_of_ne hw]
    rcases hrest with rfl | ⟨s, rfl⟩
    · exact zero_add _
    · rw [findIdx_cons, beq_self_eq_true, cond_true, zero_add]
  rw [stripToken_eq_some, cut, hidx, take_left, drop_left]
  exact ⟨hok, rfl⟩

theorem not_mem_numeral {d : UInt8} (hd : 0x39 < d) : ∀ c ∈ numeral n, c ≠ d := by
  intro c hc he
  exact absurd (mem_numeral hc) (UInt8.not_le.mpr (he ▸ hd))

theorem numberedToken_display (tag : UInt8) (hn : n < 2 ^ 32) : numberedToken tag n (tag :: numeral n) = true :=
  numberedToken_iff.mpr ⟨_, rfl, number_numeral hn⟩

theorem pairedToken_display (tag mark : UInt8) {m n : Nat} (hmark : 0x39 < mark) (hm : m < 2 ^ 32) (hn : n < 2 ^ 32) :
    pairedToken tag mark m n (tag :: (numeral m ++ mark :: numeral n)) = true := by
  have hidx : (numeral m ++ mark :: numeral n).findIdx (· == mark) = (numeral m).length := by
    rw [findIdx_append_of_ne (not_mem_numeral hmark), findIdx_cons, beq_self_eq_true, cond_true, zero_add]
  refine pairedToken_iff.mpr ⟨_, rfl, by rw [hidx, length_append, length_cons]; omega, ?_, ?_⟩
  · rw [hidx, take_left, number_numeral hm]
  · rw [hidx, ← drop_drop, drop_left]
    exact number_numeral hn

theorem fits_display : ∀ t : Token, fits t t.display = true
  | .inl (.u bits) => numberedToken_display 0x75 (lt_of_lt_of_le bits.toNat_lt (by decide))
  | .inl (.i bits) => numberedToken_display 0x69 (lt_of_lt_of_le bits.toNat_lt (by decide))
  | .inl (.e exp man) => by
    rw [Token.display, Elem.display, append_assoc]
    exact pairedToken_display 0x65 0x6D (by decide) (lt_of_lt_of_le exp.toNat_lt (by decide))
      (lt_of_lt_of_le man.toNat_lt (by decide))
  | .inl (.cb id) => codebookToken_iff.mpr ⟨_, rfl, number_numeral (lt_of_lt_of_le id.toNat_lt (by decide))⟩
  | .inr (.n size) => numberedToken_display 0x67 size.toNat_lt
  | .inr (.tile r c) => by
    rw [Token.display, Group.display, append_assoc]
    exact pairedToken_display 0x67 0x78 (by decide) r.toNat_lt c.toNat_lt
  | .inl .f32 | .inl .f16 | .inl .bf16 | .inl .bool | .inl .nf4 | .inl .t3 | .inr .row | .inr .tensor =>
    beq_self_eq_true _

set_option maxRecDepth 2048 in
theorem display_bytes (t : Token) : ∀ c ∈ t.display, c ≠ 0x5F := by
  have hnum : ∀ n, ∀ c ∈ numeral n, c ≠ 0x5F := fun n => not_mem_numeral (by decide)
  have happend : ∀ {a b : List UInt8}, (∀ c ∈ a, c ≠ 0x5F) → (∀ c ∈ b, c ≠ 0x5F) → ∀ c ∈ a ++ b, c ≠ 0x5F :=
    fun ha hb c hc => (mem_append.mp hc).elim (ha c) (hb c)
  match t with
  | .inl (.u _) | .inl (.i _) | .inl (.cb _) | .inr (.n _) => exact happend (by decide) (hnum _)
  | .inl (.e _ _) | .inr (.tile _ _) => exact happend (happend (happend (by decide) (hnum _)) (by decide)) (hnum _)
  | .inl .f32 | .inl .f16 | .inl .bf16 | .inl .bool | .inl .nf4 | .inl .t3 | .inr .row | .inr .tensor => decide

theorem strip_token (t : Token) {rest : List UInt8} (hrest : Ends rest) :
    stripToken (fits t) (t.display ++ rest) = some rest :=
  stripToken_append (fits_display t) (display_bytes t) hrest

mutual

theorem strip_display : ∀ (f : Fmt) {rest : List UInt8}, Ends rest → strip f (f.display ++ rest) = some rest
  | .elem code, rest, hrest => by
    unfold strip Fmt.display
    exact strip_token (.inl code) hrest
  | .q g code gain offset, rest, hrest => by
    have hsep : lit "_" = [0x5F] := by decide
    have hends : ∀ s, Ends ([0x5F] ++ s) := fun s => .inr ⟨s, rfl⟩
    have hnext : ∀ (s : List UInt8) (next : List UInt8 → Option (List UInt8)),
        ((some ([0x5F] ++ s)).bind fun s => (stripSep s).bind next) = next s := fun _ _ => rfl
    have hg := @strip_token (.inr g)
    have hcode := @strip_token (.inl code)
    dsimp only [Token.display] at hg hcode
    unfold strip Fmt.display
    rw [hsep, append_assoc, append_assoc, append_assoc, append_assoc, append_assoc, append_assoc, hg (hends _), hnext,
      hcode (hends _), hnext, strip_display gain (hends _), hnext]
    exact stripOff_display offset hrest

theorem stripOff_display : ∀ (o : Off) {rest : List UInt8}, Ends rest → stripOff o (o.display ++ rest) = some rest
  | .none, rest, hrest => by
    unfold stripOff Off.display
    exact stripToken_append (by decide +kernel) (by decide +kernel) hrest
  | .pre t, rest, hrest => by
    have hz : lit "z_" ++ t.display ++ rest = lit "z" ++ 0x5F :: (t.display ++ rest) := append_assoc _ _ _
    unfold stripOff Off.display
    rw [hz, stripToken_append (by decide +kernel) (by decide +kernel) (.inr ⟨_, rfl⟩)]
    exact strip_display t hrest
  | .post t, rest, hrest => by
    have hb : lit "b_" ++ t.display ++ rest = lit "b" ++ 0x5F :: (t.display ++ rest) := append_assoc _ _ _
    unfold stripOff Off.display
    rw [hb, stripToken_append (by decide +kernel) (by decide +kernel) (.inr ⟨_, rfl⟩)]
    exact strip_display t hrest

end

/-- **A name is read back by its format and by no other**: two formats have no name in common, and the walk reads no
byte past the end of a text. -/
theorem names_read_back : (∀ f : Fmt, spells f f.display = some true) ∧
    (∀ f g : Fmt, spells f g.display = some true → f = g) ∧
    (∀ (f g : Fmt) (name : List UInt8), f.mangle = some name → g.mangle = some name → f = g) ∧
    ∀ (f : Fmt) (text : List UInt8), ∃ stop, (walk f text 0).run = some stop ∧ ∀ i, stop = some i → i ≤ text.length := by
  have hdisplay : ∀ f : Fmt, strip f f.display = some [] := by
    intro f
    have h := strip_display f (.inl rfl)
    rwa [append_nil] at h
  have hunique : ∀ f g : Fmt, spells f g.display = some true → f = g := by
    intro f g h
    rw [spells_eq, Option.some.injEq, beq_iff_eq] at h
    exact (strip_unique h (hdisplay g)).1
  refine ⟨fun f => by rw [spells_eq, hdisplay]; rfl, hunique, fun f g name hf hg => ?_, fun f text => ?_⟩
  · unfold Fmt.mangle at hf hg
    split at hf
    · split at hg
      · refine hunique f g ?_
        rw [Option.some.inj hg, ← Option.some.inj hf, spells_eq, hdisplay]
        rfl
      · cases hg
    · cases hf
  · have h := walk_follows f (suffix_refl text)
    rw [Nat.sub_self] at h
    refine ⟨_, h.run, fun i hi => ?_⟩
    rcases Option.map_eq_some_iff.mp hi with ⟨s, -, rfl⟩
    exact Nat.sub_le _ _

end Pie.Proof.Spellings
