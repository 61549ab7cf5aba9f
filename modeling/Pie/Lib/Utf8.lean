import Mathlib.Tactic

/-!
# UTF-8, one sequence at a time

`step` looks at the first sequence of some bytes: a character, bytes that start
none, or the start of one the bytes end within. Everything else reads bytes
through it. Bytes that are one of the first two stay so when more bytes follow,
and this is why text can be read in pieces: `Reads` says what a reader has put
out and what it still keeps, and `Reads.append` joins two pieces.
-/

namespace Pie.Lib.Utf8

open List

variable {bs a b keep out : List UInt8} {n : Nat} {ps : List (UInt8 → Bool)} {first : UInt8}

/-- A byte that only goes on with a sequence. -/
def isCont (b : UInt8) : Bool := decide (0x80 ≤ b) && decide (b ≤ 0xBF)

/-- The second byte of a sequence of three or four. -/
def isSecond (first b : UInt8) : Bool :=
  isCont b && (if first = 0xE0 then decide (0xA0 ≤ b)
    else if first = 0xED then decide (b ≤ 0x9F)
    else if first = 0xF0 then decide (0x90 ≤ b)
    else if first = 0xF4 then decide (b ≤ 0x8F)
    else true)

/-- What has to follow a first byte; `none` is a byte that starts nothing. -/
def tails (first : UInt8) : Option (List (UInt8 → Bool)) :=
  if first < 0x80 then some []
  else if 0xC2 ≤ first ∧ first ≤ 0xDF then some [isCont]
  else if 0xE0 ≤ first ∧ first ≤ 0xEF then some [isSecond first, isCont]
  else if 0xF0 ≤ first ∧ first ≤ 0xF4 then some [isSecond first, isCont, isCont]
  else none

/-- The first sequence: its length, or that of the bytes that are none, or that more bytes decide. -/
inductive Step where
  | char (n : Nat)
  | bad (n : Nat)
  | cut
deriving DecidableEq, Repr

/-- The bytes after the first `n` of a sequence. -/
def follow : Nat → List (UInt8 → Bool) → List UInt8 → Step
  | n, [], _ => .char n
  | _, _ :: _, [] => .cut
  | n, p :: ps, b :: bs => if p b then follow (n + 1) ps bs else .bad n

def step : List UInt8 → Step
  | [] => .cut
  | b :: bs =>
    match tails b with
    | some ps => follow 1 ps bs
    | none => .bad 1

/-! ## One sequence -/

theorem isCont_of_isSecond {first b : UInt8} (h : isSecond first b = true) : isCont b = true := by
  rw [isSecond, Bool.and_eq_true] at h
  exact h.1

theorem isCont_of_tails (h : tails first = some ps) : ∀ p ∈ ps, ∀ b, p b = true → isCont b = true := by
  unfold tails at h
  split at h
  · cases h
    simp
  split at h
  · cases h
    simp
  split at h
  · cases h
    simpa using fun b hb => isCont_of_isSecond hb
  split at h
  · cases h
    simpa using fun b hb => isCont_of_isSecond hb
  · cases h

theorem tails_of_isCont {b : UInt8} (h : isCont b = true) : tails b = none := by
  rw [isCont, Bool.and_eq_true, decide_eq_true_eq, decide_eq_true_eq] at h
  have h1 : ¬ b < 0x80 := UInt8.not_lt.mpr h.1
  have h2 : ¬ 0xC2 ≤ b := UInt8.not_le.mpr (UInt8.lt_of_le_of_lt h.2 (by decide))
  have h3 : ¬ 0xE0 ≤ b := UInt8.not_le.mpr (UInt8.lt_of_le_of_lt h.2 (by decide))
  have h4 : ¬ 0xF0 ≤ b := UInt8.not_le.mpr (UInt8.lt_of_le_of_lt h.2 (by decide))
  simp [tails, h1, h2, h3, h4]

theorem follow_char : ∀ {n k : Nat} {bs : List UInt8},
    follow n ps bs = .char k → k = n + ps.length ∧ ps.length ≤ bs.length
      ∧ ∀ i (hi : i < ps.length) (hb : i < bs.length), ps[i] bs[i] = true := by
  induction ps with
  | nil =>
    intro n k bs h
    rw [follow, Step.char.injEq] at h
    exact ⟨h.symm, Nat.zero_le _, fun i hi => absurd hi (by simp)⟩
  | cons p ps ih =>
    intro n k bs h
    cases bs with
    | nil => cases h
    | cons b bs =>
      rw [follow] at h
      split at h
      · rename_i hp
        obtain ⟨h1, h2, h3⟩ := ih h
        refine ⟨by rw [h1, length_cons]; omega, by simpa using h2, ?_⟩
        intro i hi hb
        cases i with
        | zero => exact hp
        | succ i => exact h3 i (by simpa using hi) (by simpa using hb)
      · cases h

theorem follow_bad : ∀ {n k : Nat} {bs : List UInt8}, follow n ps bs = .bad k → n ≤ k ∧ k < n + bs.length := by
  induction ps with
  | nil => intro n k bs h; cases h
  | cons p ps ih =>
    intro n k bs h
    cases bs with
    | nil => cases h
    | cons b bs =>
      rw [follow] at h
      split at h
      · have := ih h
        rw [length_cons]
        omega
      · rw [Step.bad.injEq] at h
        rw [length_cons]
        omega

theorem follow_append : ∀ {n : Nat} {bs cs : List UInt8},
    follow n ps bs ≠ .cut → follow n ps (bs ++ cs) = follow n ps bs := by
  induction ps with
  | nil => intro n bs cs _; rfl
  | cons p ps ih =>
    intro n bs cs h
    cases bs with
    | nil => exact absurd rfl h
    | cons b bs =>
      rw [cons_append]
      rw [follow] at h ⊢
      split at h
      · rename_i hp
        rw [if_pos hp, follow, if_pos hp]
        exact ih h
      · rename_i hp
        rw [if_neg hp, follow, if_neg hp]

/-- **What is decided stays decided** when more bytes come. -/
theorem step_append {bs cs : List UInt8} (h : step bs ≠ .cut) : step (bs ++ cs) = step bs := by
  cases bs with
  | nil => exact absurd rfl h
  | cons b bs =>
    rw [cons_append]
    cases ht : tails b with
    | none => simp only [step, ht]
    | some ps =>
      simp only [step, ht] at h ⊢
      exact follow_append h

theorem step_char (h : step bs = .char n) : 0 < n ∧ n ≤ bs.length := by
  cases bs with
  | nil => cases h
  | cons b bs =>
    cases ht : tails b with
    | none => simp [step, ht] at h
    | some ps =>
      simp only [step, ht] at h
      obtain ⟨h1, h2, -⟩ := follow_char h
      rw [length_cons]
      omega

theorem step_bad (h : step bs = .bad n) : 0 < n ∧ n ≤ bs.length := by
  cases bs with
  | nil => cases h
  | cons b bs =>
    rw [length_cons]
    cases ht : tails b with
    | none =>
      simp only [step, ht, Step.bad.injEq] at h
      omega
    | some ps =>
      simp only [step, ht] at h
      have := follow_bad h
      omega

theorem isCont_of_char {n i : Nat} (h : step bs = .char n) (h0 : 0 < i)
    (hi : i < n) (hb : i < bs.length) : isCont bs[i] = true := by
  cases bs with
  | nil => cases h
  | cons b bs =>
    cases ht : tails b with
    | none => simp [step, ht] at h
    | some ps =>
      simp only [step, ht] at h
      obtain ⟨h1, h2, h3⟩ := follow_char h
      obtain ⟨j, rfl⟩ : ∃ j, i = j + 1 := ⟨i - 1, by omega⟩
      rw [getElem_cons_succ]
      exact isCont_of_tails ht _ (getElem_mem (by omega)) _ (h3 j (by omega) (by simpa using hb))

theorem step_isCont {b : UInt8} (h : isCont b = true) : step (b :: bs) = .bad 1 := by
  simp only [step, tails_of_isCont h]

theorem follow_cut : ∀ {n : Nat} {bs : List UInt8}, follow n ps bs = .cut → bs.length < ps.length := by
  induction ps with
  | nil => intro n bs h; cases h
  | cons p ps ih =>
    intro n bs h
    cases bs with
    | nil => simp
    | cons b bs =>
      rw [follow] at h
      split at h
      · simpa using ih h
      · cases h

theorem lt_of_cut (hcut : step a = .cut) (h : step (a ++ b) = .char n) (ha : a ≠ []) : a.length < n := by
  cases a with
  | nil => exact absurd rfl ha
  | cons x a =>
    rw [cons_append] at h
    cases ht : tails x with
    | none => simp [step, ht] at h
    | some ps =>
      simp only [step, ht] at h hcut
      have h1 := follow_cut hcut
      have h2 := (follow_char h).1
      rw [length_cons]
      omega

/-! ## Whole texts -/

/-- Bytes that are characters from end to end. -/
inductive Valid : List UInt8 → Prop where
  | nil : Valid []
  | char {bs : List UInt8} {n : Nat} : step bs = .char n → Valid (bs.drop n) → Valid bs

theorem Valid.append (ha : Valid a) (hb : Valid b) : Valid (a ++ b) := by
  induction ha with
  | nil => exact hb
  | @char bs n h _ ih =>
    have hlen := (step_char h).2
    refine .char (n := n) ?_ ?_
    · rw [step_append (by rw [h]; simp), h]
    · rw [drop_append_of_le_length hlen]
      exact ih

theorem Valid.of_append (ha : Valid a) (hab : Valid (a ++ b)) : Valid b := by
  induction ha with
  | nil => exact hab
  | @char bs n h _ ih =>
    have hlen := (step_char h).2
    have hstep : step (bs ++ b) = .char n := by rw [step_append (by rw [h]; simp), h]
    have hrest : Valid ((bs ++ b).drop n) := by
      generalize bs ++ b = w at hab hstep
      cases hab with
      | nil => cases hstep
      | char hk hrest =>
        rw [hstep, Step.char.injEq] at hk
        subst hk
        exact hrest
    rw [drop_append_of_le_length hlen] at hrest
    exact ih hrest

theorem Valid.head {b : UInt8} (h : Valid (b :: bs)) : isCont b = false := by
  cases h with
  | char hs _ =>
    cases hb : isCont b with
    | false => rfl
    | true => rw [step_isCont hb] at hs; cases hs

/-- **A text splits between its characters**: wherever the second part does not go on with one. -/
theorem Valid.split (h : Valid (a ++ b)) (hb : ∀ x ∈ b.head?, isCont x = false) : Valid a ∧ Valid b := by
  generalize hab : a ++ b = bs at h
  induction h generalizing a with
  | nil =>
    obtain ⟨rfl, rfl⟩ := append_eq_nil_iff.mp hab
    exact ⟨.nil, .nil⟩
  | @char bs n hs hrest ih =>
    subst hab
    rcases Nat.eq_zero_or_pos a.length with h0 | hpos
    · obtain rfl := length_eq_zero_iff.mp h0
      exact ⟨.nil, .char hs hrest⟩
    by_cases hle : n ≤ a.length
    · rw [drop_append_of_le_length hle] at ih
      obtain ⟨h1, h2⟩ := ih rfl
      refine ⟨.char (n := n) ?_ h1, h2⟩
      by_contra hne
      -- a step within `a` alone can only differ by being cut short
      have hcut : step a = .cut := by
        by_contra hnc
        rw [step_append hnc] at hs
        exact hne hs
      have := lt_of_cut hcut hs (ne_nil_of_length_pos hpos)
      omega
    · cases b with
      | nil =>
        have := (step_char hs).2
        rw [append_nil] at this
        omega
      | cons x b =>
        have hx := hb x rfl
        have hlen : a.length < (a ++ x :: b).length := by
          rw [length_append, length_cons]
          omega
        have := isCont_of_char hs hpos (by omega) hlen
        rw [getElem_append_right (le_refl _)] at this
        simp only [Nat.sub_self, getElem_cons_zero] at this
        rw [hx] at this
        cases this

/-! ## Reading bytes that need not be text -/

/-- U+FFFD. -/
def replacementChar : List UInt8 := [0xEF, 0xBF, 0xBD]

theorem valid_replacementChar : Valid replacementChar := .char (n := 3) (by decide) .nil

/-- What reading `bs` puts out, and the start of a character it keeps. -/
inductive Reads : List UInt8 → List UInt8 → List UInt8 → Prop where
  | nil : Reads [] [] []
  | char {bs out keep : List UInt8} {n : Nat} : step bs = .char n → Reads (bs.drop n) out keep →
      Reads bs (bs.take n ++ out) keep
  | bad {bs out keep : List UInt8} {n : Nat} : step bs = .bad n → Reads (bs.drop n) out keep →
      Reads bs (replacementChar ++ out) keep
  | cut {bs : List UInt8} : step bs = .cut → bs ≠ [] → Reads bs [] bs

theorem Reads.total : ∀ bs : List UInt8, ∃ out keep, Reads bs out keep := by
  intro bs
  induction hlen : bs.length using Nat.strong_induction_on generalizing bs with
  | _ len ih =>
    by_cases h0 : bs = []
    · subst h0
      exact ⟨[], [], .nil⟩
    cases hs : step bs with
    | char n =>
      have := step_char hs
      obtain ⟨out, keep, h⟩ := ih (bs.drop n).length (by rw [length_drop]; omega) _ rfl
      exact ⟨_, keep, .char hs h⟩
    | bad n =>
      have := step_bad hs
      obtain ⟨out, keep, h⟩ := ih (bs.drop n).length (by rw [length_drop]; omega) _ rfl
      exact ⟨_, keep, .bad hs h⟩
    | cut => exact ⟨[], bs, .cut hs h0⟩

/-- **Reading in two pieces** is reading at once, the second piece after what the first kept. -/
theorem Reads.append {a b out out' keep keep' : List UInt8} (ha : Reads a out keep)
    (hb : Reads (keep ++ b) out' keep') : Reads (a ++ b) (out ++ out') keep' := by
  induction ha with
  | nil => exact hb
  | @char bs out keep n hs _ ih =>
    have hlen := (step_char hs).2
    have := ih hb
    rw [← drop_append_of_le_length hlen] at this
    have h := Reads.char (by rw [step_append (by rw [hs]; simp), hs]) this
    rw [take_append_of_le_length hlen] at h
    rw [append_assoc]
    exact h
  | @bad bs out keep n hs _ ih =>
    have hlen := (step_bad hs).2
    have := ih hb
    rw [← drop_append_of_le_length hlen] at this
    rw [append_assoc]
    exact .bad (by rw [step_append (by rw [hs]; simp), hs]) this
  | cut => exact hb

theorem Valid.reads (h : Valid bs) : Reads bs bs [] := by
  induction h with
  | nil => exact .nil
  | @char bs n hs _ ih =>
    have := Reads.char hs ih
    rwa [take_append_drop] at this

theorem step_take (h : step bs = .char n) : step (bs.take n) = .char n := by
  obtain ⟨hpos, hlen⟩ := step_char h
  have hne : bs.take n ≠ [] := by
    rw [Ne, take_eq_nil_iff]
    rintro (h0 | rfl)
    · omega
    · simp at hlen
      omega
  rw [← take_append_drop n bs] at h
  have hcut : step (bs.take n) ≠ .cut := by
    intro hcut
    have := lt_of_cut hcut h hne
    rw [length_take] at this
    omega
  rwa [step_append hcut] at h

theorem valid_take (h : step bs = .char n) : Valid (bs.take n) := by
  refine .char (step_take h) ?_
  rw [drop_eq_nil_of_le (by simp)]
  exact .nil

theorem Reads.valid (h : Reads bs out keep) : Valid out := by
  induction h with
  | nil => exact .nil
  | char hs _ ih => exact (valid_take hs).append ih
  | bad _ _ ih => exact valid_replacementChar.append ih
  | cut => exact .nil

theorem Reads.keep_cut (h : Reads bs out keep) : keep = [] ∨ (step keep = .cut ∧ keep ≠ []) := by
  induction h with
  | nil => exact .inl rfl
  | char _ _ ih => exact ih
  | bad _ _ ih => exact ih
  | cut hs hne => exact .inr ⟨hs, hne⟩

/-- Why some bytes are no text: where, and how many bytes are not; `none` is a cut at the end. -/
structure Utf8Error where
  validUpTo : Nat
  errorLen : Option Nat
deriving DecidableEq, Repr

/-- The sequences from `pos` on; `fuel` is at least their number. -/
def fromUtf8Loop : Nat → Nat → List UInt8 → Except Utf8Error Unit
  | _, _, [] => .ok ()
  | 0, _, _ :: _ => .ok ()
  | fuel + 1, pos, b :: bs =>
    match step (b :: bs) with
    | .char n => fromUtf8Loop fuel (pos + n) ((b :: bs).drop n)
    | .bad n => .error ⟨pos, some n⟩
    | .cut => .error ⟨pos, none⟩

def fromUtf8 (bs : List UInt8) : Except Utf8Error Unit := fromUtf8Loop bs.length 0 bs

/-- The same sequences with what is no text replaced. -/
def fromUtf8LossyLoop : Nat → List UInt8 → List UInt8
  | _, [] => []
  | 0, _ :: _ => []
  | fuel + 1, b :: bs =>
    match step (b :: bs) with
    | .char n => (b :: bs).take n ++ fromUtf8LossyLoop fuel ((b :: bs).drop n)
    | .bad n => replacementChar ++ fromUtf8LossyLoop fuel ((b :: bs).drop n)
    | .cut => replacementChar

def fromUtf8Lossy (bs : List UInt8) : List UInt8 := fromUtf8LossyLoop bs.length bs

/-- What the end of the bytes makes of what is kept. -/
def flushKeep (keep : List UInt8) : List UInt8 := if keep = [] then [] else replacementChar

theorem fromUtf8LossyLoop_eq (h : Reads bs out keep) :
    ∀ {fuel : Nat}, bs.length ≤ fuel → fromUtf8LossyLoop fuel bs = out ++ flushKeep keep := by
  induction h with
  | nil => intro fuel _; cases fuel <;> rfl
  | @char bs out keep n hs _ ih =>
    intro fuel hf
    have hn := step_char hs
    obtain ⟨b, bs, rfl⟩ : ∃ b t, bs = b :: t := exists_cons_of_length_pos (by omega)
    obtain ⟨fuel, rfl⟩ : ∃ f, fuel = f + 1 := ⟨fuel - 1, by rw [length_cons] at hf; omega⟩
    simp only [fromUtf8LossyLoop, hs]
    rw [ih (by rw [length_drop]; omega), append_assoc]
  | @bad bs out keep n hs _ ih =>
    intro fuel hf
    have hn := step_bad hs
    obtain ⟨b, bs, rfl⟩ : ∃ b t, bs = b :: t := exists_cons_of_length_pos (by omega)
    obtain ⟨fuel, rfl⟩ : ∃ f, fuel = f + 1 := ⟨fuel - 1, by rw [length_cons] at hf; omega⟩
    simp only [fromUtf8LossyLoop, hs]
    rw [ih (by rw [length_drop]; omega), append_assoc]
  | @cut bs hs hne =>
    intro fuel hf
    obtain ⟨b, bs, rfl⟩ : ∃ b t, bs = b :: t := exists_cons_of_ne_nil hne
    obtain ⟨fuel, rfl⟩ : ∃ f, fuel = f + 1 := ⟨fuel - 1, by rw [length_cons] at hf; omega⟩
    simp only [fromUtf8LossyLoop, hs, flushKeep, if_neg hne, nil_append]

/-- **Lossy reading** puts out what `Reads` does, and one replacement for what is kept at the end. -/
theorem fromUtf8Lossy_eq (h : Reads bs out keep) :
    fromUtf8Lossy bs = out ++ flushKeep keep := fromUtf8LossyLoop_eq h (le_refl _)

theorem fromUtf8Lossy_valid (h : Valid bs) : fromUtf8Lossy bs = bs := by
  rw [fromUtf8Lossy_eq h.reads, flushKeep, if_pos rfl, append_nil]

theorem valid_fromUtf8Lossy (bs : List UInt8) : Valid (fromUtf8Lossy bs) := by
  obtain ⟨out, keep, h⟩ := Reads.total bs
  rw [fromUtf8Lossy_eq h, flushKeep]
  split
  · rw [append_nil]
    exact h.valid
  · exact h.valid.append valid_replacementChar

/-- What `from_utf8` finds: a text to the end, or up to the first sequence that is none. -/
theorem fromUtf8Loop_spec : ∀ (fuel pos : Nat) (bs : List UInt8), bs.length ≤ fuel →
    match fromUtf8Loop fuel pos bs with
    | .ok () => Valid bs
    | .error e => ∃ k, e.validUpTo = pos + k ∧ k < bs.length ∧ Valid (bs.take k)
        ∧ match e.errorLen with
          | some n => step (bs.drop k) = .bad n
          | none => step (bs.drop k) = .cut := by
  intro fuel
  induction fuel with
  | zero =>
    intro pos bs hlen
    obtain rfl := length_eq_zero_iff.mp (Nat.le_zero.mp hlen)
    exact .nil
  | succ fuel ih =>
    intro pos bs hlen
    cases bs with
    | nil => exact .nil
    | cons b bs =>
      cases hs : step (b :: bs) with
      | char n =>
        have hn := step_char hs
        have := ih (pos + n) ((b :: bs).drop n) (by rw [length_drop]; omega)
        simp only [fromUtf8Loop, hs]
        split
        · rename_i hrun
          rw [hrun] at this
          exact .char hs this
        · rename_i e hrun
          rw [hrun] at this
          obtain ⟨k, h1, h2, h3, h4⟩ := this
          rw [length_drop] at h2
          refine ⟨n + k, by omega, by omega, ?_, ?_⟩
          · rw [take_add]
            exact (valid_take hs).append h3
          · rw [← drop_drop]
            exact h4
      | bad n =>
        simp only [fromUtf8Loop, hs]
        exact ⟨0, rfl, by simp, .nil, hs⟩
      | cut =>
        simp only [fromUtf8Loop, hs]
        exact ⟨0, rfl, by simp, .nil, hs⟩

theorem fromUtf8_ok (h : fromUtf8 bs = .ok ()) : Valid bs := by
  have := fromUtf8Loop_spec bs.length 0 bs (le_refl _)
  rw [fromUtf8] at h
  rw [h] at this
  exact this

theorem fromUtf8_error {e : Utf8Error} (h : fromUtf8 bs = .error e) :
    e.validUpTo < bs.length ∧ Valid (bs.take e.validUpTo)
      ∧ match e.errorLen with
        | some n => step (bs.drop e.validUpTo) = .bad n
        | none => step (bs.drop e.validUpTo) = .cut := by
  have := fromUtf8Loop_spec bs.length 0 bs (le_refl _)
  rw [fromUtf8] at h
  rw [h] at this
  obtain ⟨k, h1, h2, h3, h4⟩ := this
  rw [zero_add] at h1
  rw [h1]
  exact ⟨h2, h3, h4⟩

theorem Valid.fromUtf8 (h : Valid bs) : fromUtf8 bs = .ok () := by
  cases hrun : Utf8.fromUtf8 bs with
  | ok => rfl
  | error e =>
    obtain ⟨h1, h2, h3⟩ := fromUtf8_error hrun
    rw [← take_append_drop e.validUpTo bs] at h
    have hrest := h2.of_append h
    exfalso
    cases hd : bs.drop e.validUpTo with
    | nil =>
      have := drop_eq_nil_iff.mp hd
      omega
    | cons b t =>
      rw [hd] at hrest h3
      cases hrest with
      | char hs _ => cases he : e.errorLen <;> simp [he, hs] at h3

theorem fromUtf8_iff : fromUtf8 bs = .ok () ↔ Valid bs :=
  ⟨fromUtf8_ok, Valid.fromUtf8⟩

instance (bs : List UInt8) : Decidable (Valid bs) := decidable_of_iff _ fromUtf8_iff

end Pie.Lib.Utf8
