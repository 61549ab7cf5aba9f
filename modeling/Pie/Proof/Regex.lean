import Pie.Lib.Decimal
import Pie.Lib.Encodings
import Pie.Grammar.Regex

/-!
# What the parser reads

The texts that patterns of numbers are written with, and the words each stands for:
plain bytes, ranges of digits, groups and quantifiers. The parser reads every such
text, from one end to the other, as an expression of these words.

A literal takes all plain bytes up to the next other thing, so what is read is
followed by induction on the length of the text and not on how it was written.
-/

namespace Pie.Proof.Regex

open List Option Grammar Grammar.FrontendExpr Grammar.Regex Grammar.Regex.RegexParser Lib.Languages Lib.Decimal FrontendExpr
open Lib.Encodings (bytes encodings bytes_encodings toNat_ofNatAux)

variable {pos rounds count : Nat} {x y : UInt8} {ranges : List (Nat × Nat)} {run : List UInt8}

/-! ## Texts -/

/-- A byte that only a literal takes. -/
structure Plain (b : UInt8) : Prop where
  small : b < 0x80
  free : isMetachar b = false
  other : b ∉ "\\[(.".toList.map Grammar.Regex.ascii

inductive Quantifier where
  | once
  | star
  | plus
  | optional
  | exactly (n : Nat)
  | atLeast (n : Nat)

namespace Quantifier

def text : Quantifier → List UInt8
  | once => []
  | star => [0x2a]
  | plus => [0x2b]
  | optional => [0x3f]
  | exactly n => 0x7b :: numeral n ++ [0x7d]
  | atLeast n => 0x7b :: numeral n ++ [0x2c, 0x7d]

/-- The count fits in 32 bits. -/
def Fits : Quantifier → Prop
  | exactly n => n < 2 ^ 32
  | atLeast n => n < 2 ^ 32
  | _ => True

def expr (atom : FrontendExpr) : Quantifier → FrontendExpr
  | once => atom
  | star => .repeat atom 0 none
  | plus => .repeat atom 1 none
  | optional => .repeat atom 0 (some 1)
  | exactly n => .repeat atom n (some n)
  | atLeast n => .repeat atom n none

def language (L : Language UInt8) : Quantifier → Language UInt8
  | once => L
  | star => repeated L 0 none
  | plus => repeated L 1 none
  | optional => repeated L 0 (some 1)
  | exactly n => repeated L n (some n)
  | atLeast n => repeated L n none

theorem language_expr (q : Quantifier) (atom : FrontendExpr) (env : Env) :
    (q.expr atom).language env = q.language (atom.language env) := by
  cases q <;> first | exact language_repeat | rfl

end Quantifier

mutual

/-- Things one after the other. -/
inductive SequenceText : List UInt8 → Language UInt8 → Prop
  | nil : SequenceText [] 1
  | literal {b : UInt8} {t : List UInt8} {L : Language UInt8} (q : Quantifier) (hb : Plain b) (hq : q.Fits)
      (h : SequenceText t L) : SequenceText (b :: (q.text ++ t)) (q.language {[b]} * L)
  | atom {a t : List UInt8} {A L : Language UInt8} (q : Quantifier) (ha : AtomText a A) (hq : q.Fits)
      (h : SequenceText t L) : SequenceText (a ++ (q.text ++ t)) (q.language A * L)

inductive AtomText : List UInt8 → Language UInt8 → Prop
  | range {x y : UInt8} (hx : 0x30 ≤ x) (hy : y ≤ 0x39) (hxy : x < y) : AtomText [0x5b, x, 0x2d, y, 0x5d] (bytes x y)
  | pair {x : UInt8} (hx : 0x30 ≤ x) (hy : x < 0x39) : AtomText [0x5b, x, x + 1, 0x5d] (bytes x (x + 1))
  | dot : AtomText [0x5c, 0x2e] {[0x2e]}
  | group {t : List UInt8} {L : Language UInt8} (h : AlternationText t L) : AtomText (0x28 :: 0x3f :: 0x3a :: (t ++ [0x29])) L

inductive AlternationText : List UInt8 → Language UInt8 → Prop
  | one {t : List UInt8} {L : Language UInt8} (h : SequenceText t L) : AlternationText t L
  | more {t u : List UInt8} {L M : Language UInt8} (h : SequenceText t L) (h' : AlternationText u M) :
      AlternationText (t ++ 0x7c :: u) (L + M)

end

/-- What may stand behind a sequence. -/
def Ends (rest : List UInt8) : Prop := rest = [] ∨ rest.head? ∈ "|)$".toList.map (some ∘ ascii)

variable {t u rest : List UInt8} {L M : Language UInt8} {b : UInt8}

theorem SequenceText.append : ∀ {t : List UInt8} {L : Language UInt8}, SequenceText t L → SequenceText u M →
    SequenceText (t ++ u) (L * M)
  | _, _, .nil, h' => by
    rw [one_mul]
    exact h'
  | _, _, .literal q hb hq h, h' => by
    rw [cons_append, append_assoc, mul_assoc]
    exact .literal q hb hq (h.append h')
  | _, _, .atom q ha hq h, h' => by
    rw [append_assoc, append_assoc, mul_assoc]
    exact .atom q ha hq (h.append h')

@[simp] theorem peek_cons : (RegexParser.mk pos (b :: rest)).peek = some b := rfl

@[simp] theorem advance_cons : (RegexParser.mk pos (b :: rest)).advance = ⟨pos + 1, rest⟩ := rfl

/-! ## Bytes -/

theorem digitValue?_byte {d : Nat} (h : d < 10) : digitValue? (digitByte d) = some d := by
  have hn := toNat_digitByte h
  unfold digitValue?
  rw [if_pos ⟨UInt8.le_iff_toNat_le.mpr (by rw [hn]; exact Nat.le_add_right _ _),
    UInt8.le_iff_toNat_le.mpr (by rw [hn]; show 0x30 + d ≤ 0x39; omega)⟩, hn]
  exact congrArg some (Nat.add_sub_cancel_left 0x30 d)

theorem quantifier_of_free (h : isMetachar b = false) : isQuantifier (some b) = false := by
  unfold isMetachar at h
  unfold isQuantifier
  rw [decide_eq_false_iff_not] at h ⊢
  intro hq
  refine h ?_
  simp only [String.reduceToList, map_cons, map_nil, Function.comp_apply, mem_cons, some.injEq,
    not_mem_nil, or_false] at hq ⊢
  rcases hq with h | h | h | h
  · exact .inl h
  · exact .inr (.inl h)
  · exact .inr (.inr (.inl h))
  · exact .inr (.inr (.inr (.inl h)))

/-- What can stand behind a sequence is no quantifier. -/
theorem Ends.quantifier (h : Ends rest) : isQuantifier rest.head? = false := by
  rcases h with rfl | h
  · decide
  · simp only [String.reduceToList, map_cons, map_nil, Function.comp_apply, mem_cons, not_mem_nil, or_false] at h
    rcases h with h | h | h <;> rw [h] <;> decide

/-- No more is a sequence, wherever it goes on. -/
theorem head_quantifier (h : SequenceText t L) (hrest : isQuantifier rest.head? = false) :
    isQuantifier (t ++ rest).head? = false := by
  cases h with
  | nil => exact hrest
  | literal q hb _ _ => exact quantifier_of_free hb.free
  | atom q ha _ _ => cases ha <;> exact rfl

/-! ## Quantifiers -/

theorem readIntegerFrom_digits {ds : List Nat} (hrest : rest.head?.bind digitValue? = none) : ∀ {rounds v pos : Nat} {hasDigit : Bool},
    ds.length < rounds → Digits ds → v * 10 ^ ds.length + value ds < 2 ^ 32 → (hasDigit = true ∨ ds ≠ []) →
    readIntegerFrom rounds v hasDigit ⟨pos, ds.map digitByte ++ rest⟩
      = .ok (v * 10 ^ ds.length + value ds, ⟨pos + ds.length, rest⟩) := by
  induction ds with
  | nil =>
    intro rounds v pos hasDigit hr _ _ hd
    obtain ⟨rounds, rfl⟩ := Nat.exists_eq_succ_of_ne_zero (ne_of_gt hr)
    obtain rfl : hasDigit = true := hd.resolve_right fun h => h rfl
    rw [readIntegerFrom]
    simp only [peek, map_nil, nil_append, hrest, length_nil, pow_zero, mul_one, value, add_zero, if_true]
  | cons d ds ih =>
    intro rounds v pos hasDigit hr hds hlt _
    obtain ⟨rounds, rfl⟩ := Nat.exists_eq_succ_of_ne_zero (ne_of_gt (Nat.zero_lt_of_lt hr))
    have hsum : v * 10 ^ (d :: ds).length + value (d :: ds) = (10 * v + d) * 10 ^ ds.length + value ds := by
      rw [value, length_cons, pow_succ]
      ring
    have hle : 10 * v + d ≤ (10 * v + d) * 10 ^ ds.length := Nat.le_mul_of_pos_right _ (Nat.pow_pos (by decide))
    rw [hsum] at hlt ⊢
    have hstep := @ih rounds (10 * v + d) (pos + 1) true (Nat.lt_of_succ_lt_succ hr) hds.cons.2 hlt (.inl rfl)
    rw [readIntegerFrom]
    simp only [peek, map_cons, cons_append, head?_cons, bind_some, digitValue?_byte hds.cons.1, advance]
    rw [if_pos (by omega), hstep, length_cons, add_assoc, add_comm 1]

theorem readInteger_numeral {n rounds pos : Nat} (hrest : rest.head?.bind digitValue? = none) (hn : n < 2 ^ 32)
    (hr : (numeral n).length < rounds) :
    readInteger rounds ⟨pos, numeral n ++ rest⟩ = .ok (n, ⟨pos + (numeral n).length, rest⟩) := by
  unfold numeral at hr ⊢
  rw [length_map] at hr ⊢
  have hread := @readIntegerFrom_digits rest (digits n) hrest rounds 0 pos false hr (digits_digits n)
    (by rwa [zero_mul, zero_add, value_digits]) (.inr (length_pos_iff.mp (length_digits_pos n)))
  rwa [zero_mul, zero_add, value_digits] at hread

theorem afterQuantifier_ok {repeated : FrontendExpr} (hrest : isQuantifier rest.head? = false) :
    afterQuantifier repeated ⟨pos, rest⟩ = .ok (repeated, ⟨pos, rest⟩) := by
  unfold afterQuantifier
  have hlazy : (RegexParser.mk pos rest).peek ≠ some (ascii '?') := fun h => by
    change rest.head? = _ at h
    rw [h] at hrest
    exact absurd hrest (by decide)
  simp only [if_neg hlazy]
  exact if_neg (by rw [show (RegexParser.mk pos rest).peek = rest.head? from rfl, hrest]; exact Bool.false_ne_true)

theorem parseRepetition_exactly {n rounds pos : Nat} (hn : n < 2 ^ 32) (hr : (numeral n).length < rounds) :
    parseRepetition rounds ⟨pos, 0x7b :: (numeral n ++ 0x7d :: rest)⟩
      = .ok ((n, some n), ⟨pos + 1 + (numeral n).length + 1, rest⟩) := by
  have hread := @readInteger_numeral (0x7d :: rest) n rounds (pos + 1) rfl hn hr
  show (readInteger rounds ⟨pos + 1, numeral n ++ 0x7d :: rest⟩ >>= _) = _
  rw [hread]
  rfl

theorem parseRepetition_atLeast {n rounds pos : Nat} (hn : n < 2 ^ 32) (hr : (numeral n).length < rounds) :
    parseRepetition rounds ⟨pos, 0x7b :: (numeral n ++ 0x2c :: 0x7d :: rest)⟩
      = .ok ((n, none), ⟨pos + 1 + (numeral n).length + 1 + 1, rest⟩) := by
  have hread := @readInteger_numeral (0x2c :: 0x7d :: rest) n rounds (pos + 1) rfl hn hr
  show (readInteger rounds ⟨pos + 1, numeral n ++ 0x2c :: 0x7d :: rest⟩ >>= _) = _
  rw [hread]
  rfl

theorem parseQuantifier_text (q : Quantifier) (hq : q.Fits) {rounds pos : Nat} {atom : FrontendExpr}
    (hrest : isQuantifier rest.head? = false) (hr : q.text.length < rounds) :
    parseQuantifier rounds atom ⟨pos, q.text ++ rest⟩ = .ok (q.expr atom, ⟨pos + q.text.length, rest⟩) := by
  cases q with
  | once =>
    have hne : ∀ c ∈ "*+?\x7b".toList, (RegexParser.mk pos rest).peek ≠ some (ascii c) := fun c hc h => by
      change rest.head? = _ at h
      rw [h] at hrest
      simp only [String.reduceToList, mem_cons, not_mem_nil, or_false] at hc
      rcases hc with rfl | rfl | rfl | rfl <;> exact absurd hrest (by decide)
    unfold parseQuantifier
    rw [Quantifier.text, nil_append, if_neg (hne _ (by decide)), if_neg (hne _ (by decide)),
      if_neg (hne _ (by decide)), if_neg (hne _ (by decide))]
    rfl
  | star => exact afterQuantifier_ok hrest
  | plus => exact afterQuantifier_ok hrest
  | optional => exact afterQuantifier_ok hrest
  | exactly n =>
    have hr' : (numeral n).length < rounds := by
      rw [Quantifier.text, length_append, length_cons] at hr
      omega
    have hparse := @parseRepetition_exactly rest n rounds pos hq hr'
    show (parseRepetition rounds ⟨pos, 0x7b :: ((numeral n ++ [0x7d]) ++ rest)⟩ >>= _) = _
    rw [append_assoc]
    rw [show [0x7d] ++ rest = 0x7d :: rest from rfl, hparse]
    refine (afterQuantifier_ok hrest).trans (congrArg
      (fun k => Except.ok (FrontendExpr.repeat atom n (some n), RegexParser.mk k rest)) ?_)
    simp only [Quantifier.text, length_append, length_cons, length_nil]
    omega
  | atLeast n =>
    have hr' : (numeral n).length < rounds := by
      rw [Quantifier.text, length_append, length_cons] at hr
      omega
    have hparse := @parseRepetition_atLeast rest n rounds pos hq hr'
    show (parseRepetition rounds ⟨pos, 0x7b :: ((numeral n ++ [0x2c, 0x7d]) ++ rest)⟩ >>= _) = _
    rw [append_assoc]
    rw [show [0x2c, 0x7d] ++ rest = 0x2c :: 0x7d :: rest from rfl, hparse]
    refine (afterQuantifier_ok hrest).trans (congrArg
      (fun k => Except.ok (FrontendExpr.repeat atom n none, RegexParser.mk k rest)) ?_)
    simp only [Quantifier.text, length_append, length_cons, length_nil]
    omega

/-! ## Classes and escapes -/

theorem ascii_digit (hx : 0x30 ≤ x) (hy : x ≤ 0x39) (c : Char) (hc : c ∈ "^]\\-".toList) :
    x ≠ ascii c := by
  rintro rfl
  simp only [String.reduceToList, mem_cons, not_mem_nil, or_false] at hc
  rcases hc with rfl | rfl | rfl | rfl <;> revert hx hy <;> decide

theorem advanceChar_digit (hy : x ≤ 0x39) :
    (RegexParser.mk pos (x :: rest)).advanceChar = .ok (byteChar x, ⟨pos + 1, rest⟩) :=
  if_pos (UInt8.lt_of_le_of_lt hy (by decide))

theorem toNat_byteChar (hy : x ≤ 0x39) : (byteChar x).toNat = x.toNat := by
  have hlt : x.toNat ≤ 0x39 := UInt8.le_iff_toNat_le.mp hy
  have hvalid : x.toNat.isValidChar := .inl (by omega)
  unfold byteChar Char.ofNat
  rw [dif_pos hvalid, toNat_ofNatAux]

theorem parseClassItem_digit (hx : 0x30 ≤ x) (hy : x ≤ 0x39) :
    parseClassItem ⟨pos, x :: rest⟩ = .ok (.codepoint x.toNat, ⟨pos + 1, rest⟩) := by
  unfold parseClassItem
  rw [peek_cons, if_neg fun h => ascii_digit hx hy '\\' (by decide) (some.inj h), advanceChar_digit hy]
  show Except.ok (ClassItem.codepoint (byteChar x).toNat, _) = _
  rw [toNat_byteChar hy]

theorem parseClassRange_digits (hx : 0x30 ≤ x) (hy : y ≤ 0x39) (hxy : x ≤ y) :
    parseClassRange ⟨pos, x :: 0x2d :: y :: 0x5d :: rest⟩ = .ok ([(x.toNat, y.toNat)], ⟨pos + 3, 0x5d :: rest⟩) := by
  have hx' : x ≤ 0x39 := UInt8.le_trans hxy hy
  have hy' : 0x30 ≤ y := UInt8.le_trans hx hxy
  have hnext : (RegexParser.mk (pos + 1) (0x2d :: y :: 0x5d :: rest)).peekNext ≠ some (ascii ']') :=
    fun h => ascii_digit hy' hy ']' (by decide) (some.inj h)
  unfold parseClassRange
  rw [parseClassItem_digit hx hx']
  show (if _ ∧ _ then _ else _) = _
  rw [if_pos ⟨rfl, hnext⟩]
  show (parseClassItem ⟨pos + 1 + 1, y :: 0x5d :: rest⟩ >>= _) = _
  rw [parseClassItem_digit hy' hy]
  exact if_neg (not_lt.mpr (UInt8.le_iff_toNat_le.mp hxy))

theorem parseClassRange_digit (hx : 0x30 ≤ x) (hx' : x ≤ 0x39) (hy : y ≠ 0x2d) :
    parseClassRange ⟨pos, x :: y :: rest⟩ = .ok ([(x.toNat, x.toNat)], ⟨pos + 1, y :: rest⟩) := by
  unfold parseClassRange
  rw [parseClassItem_digit hx hx']
  show (if _ ∧ _ then _ else _) = _
  rw [if_neg fun h => hy (some.inj h.1)]
  rfl

theorem parseClassItems_end :
    parseClassItems (rounds + 1) ranges ⟨pos, 0x5d :: rest⟩ = .ok (ranges, ⟨pos + 1, rest⟩) := by
  rw [parseClassItems]
  exact if_pos rfl

theorem parseClassItems_digit (hx : 0x30 ≤ x) (hx' : x ≤ 0x39) : parseClassItems (rounds + 1) ranges ⟨pos, x :: rest⟩
      = (do
        let (more, p) ← parseClassRange ⟨pos, x :: rest⟩
        parseClassItems rounds (ranges ++ more) p) := by
  rw [parseClassItems, peek_cons, if_neg fun h => ascii_digit hx hx' ']' (by decide) (some.inj h)]
  rfl

/-- A class that begins with a digit has the items up to its end. -/
theorem parseCharacterClass_digit (hx : 0x30 ≤ x) (hx' : x ≤ 0x39)
    {p : RegexParser} (h : parseClassItems rounds [] ⟨pos + 1, x :: rest⟩ = .ok (ranges, p)) :
    parseCharacterClass rounds ⟨pos, 0x5b :: x :: rest⟩ = .ok (.characterClass false (normalizeRanges ranges), p) := by
  have hneg : (some x = some (ascii '^')) = False :=
    eq_false fun h => ascii_digit hx hx' '^' (by decide) (some.inj h)
  have hclose : (some x = some (ascii ']')) = False :=
    eq_false fun h => ascii_digit hx hx' ']' (by decide) (some.inj h)
  have hopen : (RegexParser.mk pos (0x5b :: x :: rest)).expectByte (ascii '[') = .ok ⟨pos + 1, x :: rest⟩ := rfl
  unfold parseCharacterClass
  rw [hopen]
  simp only [bind, Except.bind, peek_cons, hneg, hclose, if_false, decide_false, h]

theorem normalizeRanges_pair {x : Nat} (hx : x + 1 < 2 ^ 32) : normalizeRanges [(x, x), (x + 1, x + 1)] = [(x, x + 1)] := by
  have hsort : [(x, x), (x + 1, x + 1)].insertionSort (fun a b => a.1 < b.1 ∨ a.1 = b.1 ∧ a.2 ≤ b.2)
      = [(x, x), (x + 1, x + 1)] := by
    show orderedInsert (fun a b : Nat × Nat => a.1 < b.1 ∨ a.1 = b.1 ∧ a.2 ≤ b.2) (x, x) [(x + 1, x + 1)] = _
    rw [orderedInsert, if_pos (.inl (Nat.lt_succ_self x))]
  have hjoin : x + 1 ≤ min (x + 1) (2 ^ 32 - 1) := by omega
  unfold normalizeRanges
  rw [hsort]
  show normalizeStep [(x, x)] (x + 1, x + 1) = _
  refine (if_pos hjoin).trans ?_
  show [(x, max x (x + 1))] = _
  rw [max_eq_right (Nat.le_succ x)]

theorem parseCharacterClass_range (hx : 0x30 ≤ x) (hy : y ≤ 0x39) (hxy : x ≤ y) :
    parseCharacterClass (rounds + 2) ⟨pos, 0x5b :: x :: 0x2d :: y :: 0x5d :: rest⟩
      = .ok (.characterClass false [(x.toNat, y.toNat)], ⟨pos + 5, rest⟩) := by
  have hitems : parseClassItems (rounds + 2) [] ⟨pos + 1, x :: 0x2d :: y :: 0x5d :: rest⟩
      = .ok ([(x.toNat, y.toNat)], ⟨pos + 5, rest⟩) := by
    rw [parseClassItems_digit hx (UInt8.le_trans hxy hy), parseClassRange_digits hx hy hxy]
    exact @parseClassItems_end _ rounds _ _
  exact parseCharacterClass_digit hx (UInt8.le_trans hxy hy) hitems

theorem parseCharacterClass_pair (hx : 0x30 ≤ x) (hy : x < 0x39) :
    parseCharacterClass (rounds + 3) ⟨pos, 0x5b :: x :: (x + 1) :: 0x5d :: rest⟩
      = .ok (.characterClass false [(x.toNat, (x + 1).toNat)], ⟨pos + 4, rest⟩) := by
  have hlt : x.toNat < 0x39 := UInt8.lt_iff_toNat_lt.mp hy
  have hnext : (x + 1).toNat = x.toNat + 1 := @Lib.Encodings.toNat_add_one x 0x39 hlt
  have hx1 : 0x30 ≤ x + 1 := UInt8.le_iff_toNat_le.mpr (by
    rw [hnext]
    exact (UInt8.le_iff_toNat_le.mp hx).trans (Nat.le_succ _))
  have hy1 : x + 1 ≤ 0x39 := UInt8.le_iff_toNat_le.mpr (by rw [hnext]; exact hlt)
  have hdash : x + 1 ≠ 0x2d := ascii_digit hx1 hy1 '-' (by decide)
  have hitems : parseClassItems (rounds + 3) [] ⟨pos + 1, x :: (x + 1) :: 0x5d :: rest⟩
      = .ok ([(x.toNat, x.toNat), (x.toNat + 1, x.toNat + 1)], ⟨pos + 4, rest⟩) := by
    rw [parseClassItems_digit hx (UInt8.le_of_lt hy), parseClassRange_digit hx (UInt8.le_of_lt hy) hdash]
    show parseClassItems (rounds + 2) _ _ = _
    rw [parseClassItems_digit hx1 hy1, parseClassRange_digit hx1 hy1 (by decide), hnext]
    exact @parseClassItems_end _ rounds _ _
  rw [parseCharacterClass_digit hx (UInt8.le_of_lt hy) hitems, normalizeRanges_pair (by omega), hnext]

theorem parseEscape_dot : parseEscape ⟨pos, 0x5c :: 0x2e :: rest⟩ = .ok (.literal [0x2e], ⟨pos + 2, rest⟩) := rfl

theorem language_class (hy : y ≤ 0x39) (hxy : x ≤ y) (env : Env) :
    (characterClass false [(x.toNat, y.toNat)]).language env = bytes x y := by
  have hle : y.toNat ≤ 0x39 := UInt8.le_iff_toNat_le.mp hy
  have hbytes := @bytes_encodings y.toNat x.toNat (by omega) (UInt8.le_iff_toNat_le.mp hxy)
  rw [UInt8.ofNat_toNat, UInt8.ofNat_toNat] at hbytes
  rw [hbytes, language]
  refine ext_mem fun w => exists_congr fun c => ?_
  simp only [mem_singleton, exists_eq_left, iff_true]
  exact ⟨fun ⟨hw, h1, h2⟩ => ⟨h1, h2, hw⟩, fun ⟨h1, h2, hw⟩ => ⟨hw, h1, h2⟩⟩

/-! ## Literals -/

theorem singleton_mul_singleton (u v : List UInt8) : ({u} : Language UInt8) * {v} = {u ++ v} := by
  refine ext_mem fun w => ?_
  rw [Language.mem_mul]
  constructor
  · rintro ⟨a, rfl, b, rfl, rfl⟩
    rfl
  · rintro rfl
    exact ⟨u, rfl, v, rfl, rfl⟩

theorem advanceChar_plain (h : Plain b) :
    (RegexParser.mk pos (b :: rest)).advanceChar = .ok (byteChar b, ⟨pos + 1, rest⟩) := if_pos h.small

theorem encode_byteChar (h : b < 0x80) : String.utf8EncodeChar (byteChar b) = [b] := by
  have hlt : b.toNat < 0x80 := UInt8.lt_iff_toNat_lt.mp h
  have hvalid : b.toNat.isValidChar := .inl (by omega)
  have hnat : (byteChar b).toNat = b.toNat := by
    unfold byteChar Char.ofNat
    rw [dif_pos hvalid, toNat_ofNatAux]
  rw [Lib.Encodings.encode_one (by omega), hnat, UInt8.ofNat_toNat]

/-- A literal stops where there is nothing, a metacharacter, or the beginning of something else. -/
theorem parseLiteralBytes_stop
    (h : ∀ b ∈ rest.head?, isMetachar b = true ∨ b ∈ "\\[(.".toList.map ascii) :
    parseLiteralBytes (rounds + 1) run count ⟨pos, rest⟩ = .ok (run, ⟨pos, rest⟩) := by
  rw [parseLiteralBytes]
  cases rest with
  | nil => rfl
  | cons b rest =>
    simp only [peek_cons]
    exact if_pos (h b rfl)

theorem parseLiteralBytes_plain (hb : Plain b) : parseLiteralBytes (rounds + 1) run count ⟨pos, b :: rest⟩
      = if isQuantifier rest.head? ∧ 0 < count then .ok (run, ⟨pos, b :: rest⟩)
        else if isQuantifier rest.head? then .ok (run ++ [b], ⟨pos + 1, rest⟩)
        else parseLiteralBytes rounds (run ++ [b]) (count + 1) ⟨pos + 1, rest⟩ := by
  rw [parseLiteralBytes]
  simp only [peek_cons, advanceChar_plain hb, bind, Except.bind, encode_byteChar hb.small]
  rw [if_neg fun h => h.elim (fun h => Bool.noConfusion (hb.free.symm.trans h)) hb.other]
  rfl

theorem Ends.stop (h : Ends rest) : ∀ b ∈ rest.head?, isMetachar b = true ∨ b ∈ "\\[(.".toList.map ascii := by
  intro b hb
  rcases h with rfl | h
  · cases hb
  · rw [Option.mem_def.mp hb] at h
    simp only [String.reduceToList, map_cons, map_nil, Function.comp_apply, mem_cons, not_mem_nil, or_false,
      some.injEq] at h
    rcases h with rfl | rfl | rfl <;> exact .inl (by decide)

theorem Quantifier.text_head (q : Quantifier) : q = .once ∨ isQuantifier (q.text ++ rest).head? = true := by
  cases q <;> first | exact .inl rfl | exact .inr (by decide) | exact .inr rfl

/-- What a literal that has begun takes from a sequence. -/
theorem literal_run : ∀ {t : List UInt8} {L : Language UInt8}, SequenceText t L →
    ∃ run t' L', t = run ++ t' ∧ L = {run} * L' ∧ SequenceText t' L' ∧ ∀ {rest run₀ : List UInt8} {count rounds pos : Nat},
      Ends rest → 0 < count → t.length < rounds →
      parseLiteralBytes rounds run₀ count ⟨pos, t ++ rest⟩ = .ok (run₀ ++ run, ⟨pos + run.length, t' ++ rest⟩)
  | _, _, .nil => by
    refine ⟨[], [], 1, rfl, (one_mul _).symm, .nil, fun {rest run₀ count rounds pos} hrest _ hr => ?_⟩
    obtain ⟨rounds, rfl⟩ := Nat.exists_eq_succ_of_ne_zero (ne_of_gt hr)
    rw [append_nil]
    exact parseLiteralBytes_stop hrest.stop
  | _, _, .literal (b := b) (t := t) q hb hq h => by
    by_cases honce : q = .once
    · subst honce
      obtain ⟨run, t', L', rfl, rfl, h', hparse⟩ := literal_run h
      refine ⟨b :: run, t', L', rfl, ?_, h', fun {rest run₀ count rounds pos} hrest hc hr => ?_⟩
      · show {[b]} * ({run} * L') = _
        rw [← mul_assoc, singleton_mul_singleton]
        rfl
      · obtain ⟨rounds, rfl⟩ := Nat.exists_eq_succ_of_ne_zero (ne_of_gt (Nat.zero_lt_of_lt hr))
        show parseLiteralBytes (rounds + 1) run₀ count ⟨pos, b :: ((run ++ t') ++ rest)⟩ = _
        rw [parseLiteralBytes_plain hb, head_quantifier h hrest.quantifier, if_neg fun h => Bool.false_ne_true h.1,
          if_neg Bool.false_ne_true, hparse hrest count.succ_pos (Nat.lt_of_succ_lt_succ hr), append_assoc,
          length_cons, add_assoc, add_comm 1]
        rfl
    · refine ⟨[], _, _, rfl, (one_mul _).symm, .literal q hb hq h, fun {rest run₀ count rounds pos} hrest hc hr => ?_⟩
      obtain ⟨rounds, rfl⟩ := Nat.exists_eq_succ_of_ne_zero (ne_of_gt (Nat.zero_lt_of_lt hr))
      have hq' := (@Quantifier.text_head (t ++ rest) q).resolve_left honce
      rw [← append_assoc] at hq'
      rw [append_nil, cons_append, parseLiteralBytes_plain hb, if_pos ⟨hq', hc⟩]
      rfl
  | _, _, .atom q ha hq h => by
    refine ⟨[], _, _, rfl, (one_mul _).symm, .atom q ha hq h, fun {rest run₀ count rounds pos} hrest hc hr => ?_⟩
    obtain ⟨rounds, rfl⟩ := Nat.exists_eq_succ_of_ne_zero (ne_of_gt (Nat.zero_lt_of_lt hr))
    rw [append_nil]
    refine parseLiteralBytes_stop fun b hb => .inr ?_
    cases ha <;> (obtain rfl := some.inj hb; decide)

/-! ## Everything -/

/-- Sequences, alternatives and atoms are read to their end as an expression of their words. -/
def SequenceReads (t : List UInt8) (L : Language UInt8) : Prop := ∀ elements : List FrontendExpr, ∃ e : FrontendExpr,
  (∀ env, e.language env = languageAll env elements * L) ∧ ∀ {rounds pos : Nat} {rest : List UInt8}, t.length + 3 ≤ rounds →
    Ends rest → parseSequence rounds elements ⟨pos, t ++ rest⟩ = .ok (e, ⟨pos + t.length, rest⟩)

def AlternationReads (t : List UInt8) (L : Language UInt8) : Prop := ∀ alternatives : List FrontendExpr, ∃ e : FrontendExpr,
  (∀ env, e.language env = (alternatives.map (language env)).sum + L) ∧ ∀ {rounds pos : Nat} {rest : List UInt8},
    t.length + 4 ≤ rounds → Ends rest → rest.head? ≠ some 0x7c →
    parseAlternation rounds alternatives ⟨pos, t ++ rest⟩ = .ok (e, ⟨pos + t.length, rest⟩)

def AtomReads (a : List UInt8) (A : Language UInt8) : Prop := ∃ e : FrontendExpr,
  (∀ env, e.language env = A) ∧ ∀ {rounds pos : Nat} {rest : List UInt8}, a.length + 2 ≤ rounds →
    parseAtom rounds ⟨pos, a ++ rest⟩ = .ok (e, ⟨pos + a.length, rest⟩)

theorem atom_reads {a : List UInt8} {A : Language UInt8} (h : AtomText a A)
    (hgroup : ∀ t L, t.length < a.length → AlternationText t L → AlternationReads t L) : AtomReads a A := by
  cases h with
  | @range x y hx hy hxy =>
    refine ⟨_, language_class hy (UInt8.le_of_lt hxy), fun {rounds pos rest} hr => ?_⟩
    obtain ⟨rounds, rfl⟩ := Nat.exists_eq_add_of_le' hr
    exact parseCharacterClass_range hx hy (UInt8.le_of_lt hxy)
  | @pair x hx hy =>
    have hnext : (x + 1).toNat = x.toNat + 1 := @Lib.Encodings.toNat_add_one x 0x39 (UInt8.lt_iff_toNat_lt.mp hy)
    have hle : x + 1 ≤ 0x39 := UInt8.le_iff_toNat_le.mpr (by rw [hnext]; exact UInt8.lt_iff_toNat_lt.mp hy)
    have hle' : x ≤ x + 1 := UInt8.le_iff_toNat_le.mpr (by rw [hnext]; exact Nat.le_succ _)
    refine ⟨_, language_class hle hle', fun {rounds pos rest} hr => ?_⟩
    obtain ⟨rounds, rfl⟩ := Nat.exists_eq_add_of_le' hr
    exact parseCharacterClass_pair hx hy
  | dot =>
    refine ⟨.literal [0x2e], fun env => by rw [language], fun {rounds pos rest} hr => ?_⟩
    obtain ⟨rounds, rfl⟩ := Nat.exists_eq_add_of_le' hr
    exact parseEscape_dot
  | @group t _ h =>
    obtain ⟨e, he, hparse⟩ := hgroup t A (by simp only [length_cons, length_append]; omega) h []
    refine ⟨.group e, fun env => by rw [language, he, map_nil, sum_nil, zero_add],
      fun {rounds pos rest} hr => ?_⟩
    simp only [length_cons, length_append, length_nil] at hr ⊢
    obtain ⟨rounds, rfl⟩ := Nat.exists_eq_add_of_le' (le_trans (Nat.le_add_left 2 _) hr)
    have hends : some (0x29 : UInt8) ∈ "|)$".toList.map (some ∘ ascii) := by decide
    have hclose : some (0x29 : UInt8) ≠ some 0x7c := by decide
    have hinner := @hparse rounds (pos + 3) (0x29 :: rest) (by omega) (.inr hends) hclose
    show (parseAlternation rounds [] ⟨pos + 3, (t ++ [0x29]) ++ rest⟩ >>= _) = _
    rw [append_assoc, singleton_append, hinner]
    show Except.ok (group e, RegexParser.mk (pos + 3 + t.length + 1) rest) = _
    exact congrArg (fun k => Except.ok (group e, RegexParser.mk k rest)) (by omega)

theorem parseAtom_plain (hb : Plain b) :
    parseAtom (rounds + 1) ⟨pos, b :: rest⟩ = parseLiteral rounds ⟨pos, b :: rest⟩ := by
  have hne : ∀ c ∈ "\\[(.".toList, b ≠ ascii c := fun c hc h => hb.other (h ▸ mem_map_of_mem hc)
  have hcaret : b ≠ ascii '^' := fun h => by
    have := hb.free
    rw [h] at this
    exact absurd this (by decide)
  rw [parseAtom]
  simp only [peek_cons]
  rw [if_neg (hne '(' (by decide)), if_neg (hne '[' (by decide)), if_neg (hne '.' (by decide)), if_neg (hne '\\' (by decide)),
    if_neg hcaret, hb.free]
  rfl

/-- What is read first of a sequence that is not empty: an expression, with its quantifier, up to another sequence. -/
theorem sequence_first (h : SequenceText t L) (hne : t ≠ [])
    (hgroup : ∀ u M, u.length < t.length → AlternationText u M → AlternationReads u M) :
    ∃ (first : FrontendExpr) (A : Language UInt8) (a t' : List UInt8) (L' : Language UInt8), a ≠ [] ∧ t = a ++ t' ∧ L = A * L'
      ∧ SequenceText t' L' ∧ (∀ env, first.language env = A) ∧ ∀ {rounds pos : Nat} {rest : List UInt8}, t.length + 2 ≤ rounds →
        Ends rest → ∃ atom p, parseAtom rounds ⟨pos, t ++ rest⟩ = .ok (atom, p)
          ∧ parseQuantifier rounds atom p = .ok (first, ⟨pos + a.length, t' ++ rest⟩) := by
  cases h with
  | nil => exact absurd rfl hne
  | @literal b t L q hb hq h =>
    by_cases honce : q = .once
    · subst honce
      obtain ⟨run, t', L', rfl, rfl, h', hrun⟩ := literal_run h
      refine ⟨.literal (b :: run), {b :: run}, b :: run, t', L', cons_ne_nil _ _, rfl, ?_, h', fun env => by
        rw [language], fun {rounds pos rest} hr hrest => ⟨.literal (b :: run), ⟨pos + (b :: run).length, t' ++ rest⟩,
          ?_, ?_⟩⟩
      · show {[b]} * ({run} * L') = _
        rw [← mul_assoc, singleton_mul_singleton]
        rfl
      · obtain ⟨rounds, rfl⟩ := Nat.exists_eq_add_of_le' (le_trans (Nat.le_add_left 2 _) hr)
        have hread := @hrun rest [b] 1 rounds (pos + 1) hrest Nat.one_pos (by
          change (run ++ t').length + 1 + 2 ≤ rounds + 2 at hr
          omega)
        show parseAtom (rounds + 2) ⟨pos, b :: ((run ++ t') ++ rest)⟩ = _
        rw [parseAtom_plain hb]
        unfold parseLiteral
        rw [parseLiteralBytes_plain hb, head_quantifier h hrest.quantifier, if_neg fun h => Bool.false_ne_true h.1,
          if_neg Bool.false_ne_true]
        show (parseLiteralBytes rounds [b] 1 _ >>= _) = _
        rw [hread, length_cons, add_assoc pos, add_comm 1]
        rfl
      · exact parseQuantifier_text .once hq (head_quantifier h' hrest.quantifier) (by
          show 0 < rounds
          omega)
    · refine ⟨q.expr (.literal [b]), _, b :: q.text, t, L, cons_ne_nil _ _, rfl, rfl, h, fun env => by
        rw [q.language_expr, language], fun {rounds pos rest} hr hrest =>
          ⟨.literal [b], ⟨pos + 1, q.text ++ (t ++ rest)⟩, ?_, ?_⟩⟩
      · obtain ⟨rounds, rfl⟩ := Nat.exists_eq_add_of_le' (le_trans (Nat.le_add_left 2 _) hr)
        have hq' := (@Quantifier.text_head (t ++ rest) q).resolve_left honce
        rw [cons_append, append_assoc, parseAtom_plain hb]
        unfold parseLiteral
        rw [parseLiteralBytes_plain hb, if_neg fun h => lt_irrefl 0 h.2, if_pos hq']
        rfl
      · rw [show pos + (b :: q.text).length = pos + 1 + q.text.length by rw [length_cons]; omega]
        refine parseQuantifier_text q hq (head_quantifier h hrest.quantifier) ?_
        rw [length_cons, length_append] at hr
        omega
  | @atom a t A L q ha hq h =>
    obtain ⟨e, he, hparse⟩ := atom_reads ha fun u M hu => hgroup u M (by
      rw [length_append]
      omega)
    refine ⟨q.expr e, _, a ++ q.text, t, L, ?_, (append_assoc _ _ _).symm, rfl, h, fun env => by rw [q.language_expr, he],
      fun {rounds pos rest} hr hrest => ⟨e, ⟨pos + a.length, q.text ++ (t ++ rest)⟩, ?_, ?_⟩⟩
    · cases ha <;> exact cons_ne_nil _ _
    · rw [append_assoc, append_assoc]
      exact hparse (by rw [length_append] at hr; omega)
    · rw [length_append, ← add_assoc]
      refine parseQuantifier_text q hq (head_quantifier h hrest.quantifier) ?_
      rw [length_append, length_append] at hr
      omega

theorem ends_bar (u : List UInt8) : Ends (0x7c :: u) := by
  have h : some (0x7c : UInt8) ∈ "|)$".toList.map (some ∘ ascii) := by decide
  exact .inr h

theorem not_ends (h : SequenceText t L) (hne : t ≠ []) : ¬((RegexParser.mk pos (t ++ rest)).atEnd = true
      ∨ (RegexParser.mk pos (t ++ rest)).peek ∈ "|)$".toList.map (some ∘ ascii)) := by
  have hends : ∀ {b : UInt8}, some b ∈ "|)$".toList.map (some ∘ ascii) →
      isMetachar b = true ∧ b ∉ [0x5b, 0x5c, 0x28] := by
    intro b hb
    simp only [String.reduceToList, map_cons, map_nil, Function.comp_apply, mem_cons, not_mem_nil, or_false,
      some.injEq] at hb
    rcases hb with rfl | rfl | rfl <;> decide
  rintro (hend | hpeek)
  · cases h with
    | nil => exact hne rfl
    | literal => cases hend
    | atom _ ha => cases ha <;> cases hend
  · cases h with
    | nil => exact hne rfl
    | literal _ hb => exact Bool.noConfusion (hb.free.symm.trans (hends hpeek).1)
    | atom _ ha => cases ha <;> exact (hends hpeek).2 (by decide)

theorem language_nil (h : SequenceText t L) (ht : t = []) : L = 1 := by
  cases h with
  | nil => rfl
  | literal => cases ht
  | atom _ ha => cases ha <;> cases ht

/-- A sequence is read, if the shorter alternatives are. -/
theorem sequence_reads (n : Nat) : ∀ {t : List UInt8} {L : Language UInt8}, t.length = n → SequenceText t L →
    (∀ u M, u.length < n → AlternationText u M → AlternationReads u M) → SequenceReads t L := by
  induction n using Nat.strongRecOn with
  | ind n ih =>
    intro t L hlen h hgroup elements
    by_cases hne : t = []
    · subst hne
      obtain rfl := language_nil h rfl
      refine ⟨seq elements, fun env => by rw [language_seq, languageAll_eq, mul_one], fun {rounds pos rest} hr hrest => ?_⟩
      obtain ⟨rounds, rfl⟩ := Nat.exists_eq_add_of_le' (le_trans (Nat.le_add_left 1 2) hr)
      rw [parseSequence, nil_append]
      refine if_pos ?_
      rcases hrest with rfl | hrest
      · exact .inl rfl
      · exact .inr hrest
    · obtain ⟨first, A, a, t', L', ha, rfl, rfl, h', hfirst, hparse⟩ := sequence_first h hne
        fun u M hu => hgroup u M (hlen ▸ hu)
      rw [length_append] at hlen
      have hpos := length_pos_iff.mpr ha
      obtain ⟨e, he, hrest'⟩ := ih t'.length (by omega) rfl h' (fun u M hu => hgroup u M (by omega)) (elements ++ [first])
      refine ⟨e, fun env => ?_, fun {rounds pos rest} hr hrest => ?_⟩
      · rw [he, languageAll_eq, languageAll_eq, map_append, prod_append, map_singleton, prod_singleton,
          hfirst, mul_assoc]
      · obtain ⟨rounds, rfl⟩ := Nat.exists_eq_add_of_le' (le_trans (Nat.le_add_left 1 _) hr)
        rw [length_append] at hr
        obtain ⟨atom, p, hatom, hquantifier⟩ := @hparse rounds pos rest (by rw [length_append]; omega) hrest
        have hmore := @hrest' rounds (pos + a.length) rest (by omega) hrest
        rw [parseSequence, if_neg (not_ends h hne), hatom]
        show (parseQuantifier rounds atom p >>= _) = _
        rw [hquantifier]
        show parseSequence rounds (elements ++ [first]) _ = _
        rw [hmore, length_append, add_assoc]

/-- **The parser reads every text of alternatives.** -/
theorem alternation_reads (n : Nat) : ∀ {t : List UInt8} {L : Language UInt8}, t.length = n → AlternationText t L →
    AlternationReads t L := by
  induction n using Nat.strongRecOn with
  | ind n ih =>
    intro t L hlen h alternatives
    cases h with
    | one h =>
      obtain ⟨sequence, hsequence, hparse⟩ := sequence_reads n hlen h (fun u M hu hM => ih _ hu rfl hM) []
      refine ⟨choose (alternatives ++ [sequence]), fun env => ?_, fun {rounds pos rest} hr hrest hbar => ?_⟩
      · rw [language_choose (append_ne_nil_of_right_ne_nil _ (cons_ne_nil _ _)), map_append, sum_append,
          map_singleton, sum_singleton, hsequence, languageAll, one_mul]
      · obtain ⟨rounds, rfl⟩ := Nat.exists_eq_add_of_le' (le_trans (Nat.le_add_left 1 _) hr)
        rw [parseAlternation, @hparse rounds pos rest (by omega) hrest]
        exact if_neg hbar
    | @more t u L M h h' =>
      rw [length_append, length_cons] at hlen
      obtain ⟨sequence, hsequence, hparse⟩ := sequence_reads t.length rfl h (fun u M hu hM => ih _ (by omega) rfl hM) []
      obtain ⟨e, he, hmore⟩ := ih u.length (by omega) rfl h' (alternatives ++ [sequence])
      refine ⟨e, fun env => ?_, fun {rounds pos rest} hr hrest hbar => ?_⟩
      · rw [he, map_append, sum_append, map_singleton, sum_singleton, hsequence, languageAll, one_mul, add_assoc]
      · obtain ⟨rounds, rfl⟩ := Nat.exists_eq_add_of_le' (le_trans (Nat.le_add_left 1 _) hr)
        rw [length_append, length_cons] at hr
        rw [parseAlternation, append_assoc, cons_append,
          @hparse rounds pos (0x7c :: (u ++ rest)) (by omega) (ends_bar _)]
        show parseAlternation rounds (alternatives ++ [sequence]) ⟨pos + t.length + 1, u ++ rest⟩ = _
        rw [hmore (by omega) hrest hbar]
        refine congrArg (fun k => Except.ok (e, RegexParser.mk k rest)) ?_
        rw [length_append, length_cons]
        omega

/-- **A pattern is read as the words it was written for.** -/
theorem parse_sequence (h : SequenceText t L) (hhead : t.head? ≠ some 0x5e) : ∃ e : FrontendExpr, (∀ env, e.language env = L)
    ∧ ∀ {rounds : Nat}, t.length + 4 ≤ rounds → parse rounds t = .ok e := by
  obtain ⟨e, he, hparse⟩ := alternation_reads t.length rfl (.one h) []
  refine ⟨e, fun env => by rw [he, map_nil, sum_nil, zero_add], fun {rounds} hr => ?_⟩
  have hread := @hparse rounds 0 [] hr (.inl rfl) nofun
  rw [append_nil] at hread
  change t.head? ≠ some (ascii '^') at hhead
  unfold parse
  simp only [show (RegexParser.mk 0 t).peek = t.head? from rfl]
  rw [if_neg hhead, hread]
  rfl

end Pie.Proof.Regex
