import Std.Data.TreeMap
import Pie.Lib.Utf8

/-!
# Strings

A string is bytes that are UTF-8 text, and carries that with it. Searching and
replacing go over the bytes: a text is found in a text only between characters,
so that what is left around it is text again.
-/

namespace Pie.Lib

open Utf8 UInt8
open Std (OrientedOrd TransOrd LawfulEqOrd TransCmp)

/-- A string, by its bytes. -/
structure Str where
  bytes : List UInt8
  valid : Valid bytes
deriving DecidableEq

namespace Str

@[ext] theorem ext {a b : Str} (h : a.bytes = b.bytes) : a = b := by
  cases a; cases b; cases h; rfl

def empty : Str := ⟨[], .nil⟩

def append (a b : Str) : Str := ⟨a.bytes ++ b.bytes, a.valid.append b.valid⟩

theorem toNat_ofNat {n : Nat} (h : n < 256) : (ofNat n).toNat = n := by
  rw [toNat_ofNat', Nat.mod_eq_of_lt h]

theorem isCont_low (n : Nat) : isCont (.ofNat (n % 64 + 128)) = true := by
  have h : (ofNat (n % 64 + 128)).toNat = n % 64 + 128 := toNat_ofNat (by omega)
  unfold isCont
  rw [Bool.and_eq_true, decide_eq_true_eq, decide_eq_true_eq, le_iff_toNat_le, le_iff_toNat_le, h]
  exact ⟨Nat.le_add_left _ _, show _ ≤ 0xBF by omega⟩

theorem tails_eq (b : UInt8) : tails b = if b.toNat < 128 then some []
    else if 194 ≤ b.toNat ∧ b.toNat ≤ 223 then some [isCont]
    else if 224 ≤ b.toNat ∧ b.toNat ≤ 239 then some [isSecond b, isCont]
    else if 240 ≤ b.toNat ∧ b.toNat ≤ 244 then some [isSecond b, isCont, isCont]
    else none := by
  unfold tails
  simp only [lt_iff_toNat_lt, le_iff_toNat_le, reduceToNat]

theorem isSecond_eq {first b : UInt8} (h : isCont b = true) : isSecond first b =
    if first.toNat = 224 then decide (160 ≤ b.toNat)
    else if first.toNat = 237 then decide (b.toNat ≤ 159)
    else if first.toNat = 240 then decide (144 ≤ b.toNat)
    else if first.toNat = 244 then decide (b.toNat ≤ 143)
    else true := by
  unfold isSecond
  simp only [h, Bool.true_and, ← UInt8.toNat_inj, UInt8.le_iff_toNat_le, UInt8.reduceToNat]

/-- The encoding of a character is one sequence. -/
theorem step_encode (c : Char) : step (String.utf8EncodeChar c) = .char (String.utf8EncodeChar c).length := by
  have hv : c.val.toNat < 0xD800 ∨ 0xDFFF < c.val.toNat ∧ c.val.toNat < 0x110000 := c.valid
  unfold String.utf8EncodeChar
  generalize c.val.toNat = v at hv
  dsimp only
  split
  · have h : (ofNat v).toNat = v := toNat_ofNat (by omega)
    have ht : tails (.ofNat v) = some [] := by rw [tails_eq, h, if_pos (by omega)]
    simp only [step, ht, follow, List.length_singleton]
  · split
    · have h : (ofNat (v / 64 % 32 + 192)).toNat = v / 64 % 32 + 192 := toNat_ofNat (by omega)
      have ht : tails (.ofNat (v / 64 % 32 + 192)) = some [isCont] := by
        rw [tails_eq, h, if_neg (by omega), if_pos (by omega)]
      simp only [step, ht, follow, isCont_low, if_true, List.length_cons, List.length_nil]
    · split
      · have h : (ofNat (v / 4096 % 16 + 224)).toNat = v / 4096 % 16 + 224 := toNat_ofNat (by omega)
        have h2 : (ofNat (v / 64 % 64 + 128)).toNat = v / 64 % 64 + 128 := toNat_ofNat (by omega)
        have ht : tails (.ofNat (v / 4096 % 16 + 224))
            = some [isSecond (.ofNat (v / 4096 % 16 + 224)), isCont] := by
          rw [tails_eq, h, if_neg (by omega), if_neg (by omega), if_pos (by omega)]
        -- no overlong form and no surrogate
        have hs : isSecond (.ofNat (v / 4096 % 16 + 224)) (.ofNat (v / 64 % 64 + 128)) = true := by
          rw [isSecond_eq (isCont_low _), h, h2]
          split
          · exact decide_eq_true (by omega)
          · split
            · exact decide_eq_true (by omega)
            · rw [if_neg (by omega), if_neg (by omega)]
        simp only [step, ht, follow, hs, isCont_low, if_true, List.length_cons, List.length_nil]
      · have h : (ofNat (v / 262144 % 8 + 240)).toNat = v / 262144 % 8 + 240 := toNat_ofNat (by omega)
        have h2 : (ofNat (v / 4096 % 64 + 128)).toNat = v / 4096 % 64 + 128 := toNat_ofNat (by omega)
        have ht : tails (.ofNat (v / 262144 % 8 + 240))
            = some [isSecond (.ofNat (v / 262144 % 8 + 240)), isCont, isCont] := by
          rw [tails_eq, h, if_neg (by omega), if_neg (by omega), if_neg (by omega), if_pos (by omega)]
        have hs : isSecond (.ofNat (v / 262144 % 8 + 240)) (.ofNat (v / 4096 % 64 + 128)) = true := by
          rw [isSecond_eq (isCont_low _), h, h2, if_neg (by omega), if_neg (by omega)]
          split
          · exact decide_eq_true (by omega)
          · split
            · exact decide_eq_true (by omega)
            · rfl
        simp only [step, ht, follow, hs, isCont_low, if_true, List.length_cons, List.length_nil]

theorem valid_encode : ∀ l : List Char, Valid (l.flatMap String.utf8EncodeChar) := by
  intro l
  induction l with
  | nil => exact .nil
  | cons c l ih =>
    rw [List.flatMap_cons]
    exact (Valid.char (step_encode c) (by rw [List.drop_length]; exact .nil)).append ih

/-- The text of a literal of the source. -/
def lit (s : String) : Str := ⟨s.toList.flatMap String.utf8EncodeChar, valid_encode s.toList⟩

instance : Ord Str := ⟨fun a b => compare a.bytes b.bytes⟩

theorem compare_eq (a b : Str) : compare a b = compare a.bytes b.bytes := rfl

instance : TransOrd Str where
  eq_swap {a b} := by exact OrientedOrd.eq_swap (α := List UInt8)
  isLE_trans {a b c} hab hbc := by
    rw [compare_eq] at hab hbc ⊢
    exact TransCmp.isLE_trans hab hbc

instance : LawfulEqOrd Str where
  eq_of_compare h := ext (LawfulEqOrd.eq_of_compare h)

/-- The strings of a list, one after the other. -/
def concat (l : List Str) : Str := l.foldl append empty

theorem concat_bytes (l : List Str) : (concat l).bytes = l.flatMap bytes := by
  have hfold : ∀ {l : List Str} {a : Str}, (l.foldl append a).bytes = a.bytes ++ l.flatMap bytes := by
    intro l
    induction l with
    | nil => intro a; simp
    | cons x l ih =>
      intro a
      rw [List.foldl_cons, ih, List.flatMap_cons, append, List.append_assoc]
  rw [concat, hfold]
  rfl

end Str

/-! ## Finding and replacing -/

/-- The first place `needle` stands at. -/
def find (needle : List UInt8) : List UInt8 → Option Nat
  | [] => if needle = [] then some 0 else none
  | b :: bs => if needle.isPrefixOf (b :: bs) then some 0 else (find needle bs).map (· + 1)

/-- The places `needle` stands at from `start` on, each after the end of the one before. -/
def findIterFrom (needle : List UInt8) : Nat → Nat → List UInt8 → List Nat
  | 0, _, _ => []
  | fuel + 1, start, hay =>
    match find needle hay with
    | none => []
    | some p =>
      (start + p) :: findIterFrom needle fuel (start + p + needle.length)
        (hay.drop (p + needle.length))

def findIter (needle hay : List UInt8) : List Nat := findIterFrom needle (hay.length + 1) 0 hay

/-- The text between two places, and what comes instead of the needle. -/
def spliceStep (hay : List UInt8) (width : Nat) (replacement : List UInt8)
    (st : List UInt8 × Nat) (pos : Nat) : List UInt8 × Nat :=
  (st.1 ++ (hay.take pos).drop st.2 ++ replacement, pos + width)

/-- `hay` with `replacement` at the given places, `width` bytes of each gone. -/
def splice (hay : List UInt8) (width : Nat) (replacement : List UInt8) (places : List Nat) :
    List UInt8 :=
  let st := places.foldl (spliceStep hay width replacement) ([], 0)
  st.1 ++ hay.drop st.2

/-- What replacing every `needle` makes of `hay`. -/
inductive Replaced (needle replacement : List UInt8) : List UInt8 → List UInt8 → Prop where
  | none {hay : List UInt8} : ¬ needle <:+: hay → Replaced needle replacement hay hay
  | some {a c out : List UInt8} : Replaced needle replacement c out →
      Replaced needle replacement (a ++ needle ++ c) (a ++ replacement ++ out)

variable {needle : List UInt8}

theorem find_some : ∀ {hay : List UInt8} {p : Nat}, find needle hay = some p →
    ∃ a c, hay = a ++ needle ++ c ∧ a.length = p := by
  intro hay
  induction hay with
  | nil =>
    intro p h
    rw [find] at h
    split at h
    · rename_i h0
      cases h
      exact ⟨[], [], by simp [h0], rfl⟩
    · cases h
  | cons b bs ih =>
    intro p h
    rw [find] at h
    split at h
    · rename_i hpre
      cases h
      obtain ⟨c, hc⟩ := List.isPrefixOf_iff_prefix.mp hpre
      exact ⟨[], c, by simpa using hc.symm, rfl⟩
    · obtain ⟨q, hq, rfl⟩ := Option.map_eq_some_iff.mp h
      obtain ⟨a, c, hbs, hlen⟩ := ih hq
      exact ⟨b :: a, c, by simp [hbs], by simp [hlen]⟩

theorem find_none : ∀ {hay : List UInt8}, find needle hay = none → ¬ needle <:+: hay := by
  intro hay
  induction hay with
  | nil =>
    intro h
    rw [find] at h
    split at h
    · cases h
    · rename_i h0
      rw [List.infix_nil]
      exact h0
  | cons b bs ih =>
    intro h
    rw [find] at h
    split at h
    · cases h
    · rename_i hpre
      rw [Option.map_eq_none_iff] at h
      rw [List.infix_cons_iff]
      rintro (hp | hin)
      · exact hpre (List.isPrefixOf_iff_prefix.mpr hp)
      · exact ih h hin

/-- The loop over the places from `start` on, at `done` bytes of output. -/
theorem splice_from (hn : needle ≠ []) (replacement hay : List UInt8) :
    ∀ (fuel start : Nat) (out : List UInt8), (hay.drop start).length < fuel →
    ∃ tail, Replaced needle replacement (hay.drop start) tail
      ∧ ((findIterFrom needle fuel start (hay.drop start)).foldl
          (spliceStep hay needle.length replacement) (out, start)).1
        ++ hay.drop ((findIterFrom needle fuel start (hay.drop start)).foldl
          (spliceStep hay needle.length replacement) (out, start)).2 = out ++ tail := by
  intro fuel
  induction fuel with
  | zero => intro start out h; omega
  | succ fuel ih =>
    intro start out hlen
    cases hf : find needle (hay.drop start) with
    | none =>
      refine ⟨hay.drop start, .none (find_none hf), ?_⟩
      simp only [findIterFrom, hf, List.foldl_nil]
    | some p =>
      obtain ⟨a, c, hsplit, ha⟩ := find_some hf
      have hpos : 0 < needle.length := List.length_pos_iff.mpr hn
      have hrest : hay.drop (start + p + needle.length) = c := by
        rw [add_assoc, ← List.drop_drop, hsplit, ← ha, ← List.length_append, List.drop_left]
      have hc : (hay.drop (start + p + needle.length)).length < fuel := by
        rw [hsplit] at hlen
        simp only [List.length_append] at hlen
        rw [hrest]
        omega
      obtain ⟨tail, htail, heq⟩ := ih _ (out ++ a ++ replacement) hc
      refine ⟨a ++ replacement ++ tail, ?_, ?_⟩
      · rw [hsplit]
        rw [hrest] at htail
        exact .some htail
      · have hstep : spliceStep hay needle.length replacement (out, start) (start + p)
            = (out ++ a ++ replacement, start + p + needle.length) := by
          rw [spliceStep]
          congr 3
          rw [List.drop_take, hsplit, Nat.add_sub_cancel_left, ← ha, List.append_assoc, List.take_left]
        simp only [findIterFrom, hf, List.foldl_cons, hstep]
        rw [show (hay.drop start).drop (p + needle.length) = hay.drop (start + p + needle.length) by
          rw [List.drop_drop, add_assoc], heq]
        simp

/-- **Splicing at the places of a needle** replaces it everywhere. -/
theorem splice_replaced (hn : needle ≠ []) (replacement hay : List UInt8) :
    Replaced needle replacement hay (splice hay needle.length replacement (findIter needle hay)) := by
  obtain ⟨tail, htail, heq⟩ := splice_from hn replacement hay (hay.length + 1) 0 [] (by simp)
  rw [List.drop_zero] at htail heq
  have : splice hay needle.length replacement (findIter needle hay) = tail := by
    rw [splice, findIter]
    simpa using heq
  rw [this]
  exact htail

namespace Replaced

variable {needle replacement hay out : List UInt8}

section

variable (h : Replaced needle replacement hay out)
include h

theorem valid (hh : Valid hay) (hn : Valid needle)
    (hne : needle ≠ []) (hr : Valid replacement) : Valid out := by
  induction h with
  | none => exact hh
  | @some a c out _ ih =>
    rw [List.append_assoc] at hh ⊢
    obtain ⟨x, rest, hx⟩ := List.exists_cons_of_ne_nil hne
    have hhead : ∀ y ∈ (needle ++ c).head?, isCont y = false := by
      intro y hy
      rw [hx] at hn hy
      simp only [List.cons_append, List.head?_cons, Option.mem_def, Option.some.injEq] at hy
      rw [← hy]
      exact hn.head
    obtain ⟨ha, hrest⟩ := hh.split hhead
    exact ha.append (hr.append (ih (hn.of_append hrest)))

theorem ne_nil (hr : replacement ≠ []) (hh : hay ≠ []) : out ≠ [] := by
  cases h with
  | none => exact hh
  | some _ => simp [hr]

theorem length_le
    (hle : replacement.length ≤ needle.length) : out.length ≤ hay.length := by
  induction h with
  | none => exact le_refl _
  | some _ ih =>
    simp only [List.length_append]
    omega

end

theorem self (h : Replaced needle needle hay out) : out = hay := by
  induction h with
  | none => rfl
  | some _ ih => rw [ih]

theorem eq_iff (h : Replaced needle replacement hay out) (hle : replacement.length ≤ needle.length)
    (hne : replacement ≠ needle) : out = hay ↔ ¬ needle <:+: hay := by
  cases h with
  | none hno => exact ⟨fun _ => hno, fun _ => rfl⟩
  | @some a c out hrest =>
    refine ⟨?_, fun hno => absurd ⟨a, c, rfl⟩ hno⟩
    intro heq
    have hlen := hrest.length_le hle
    have hlens := congrArg List.length heq
    simp only [List.length_append] at hlens
    rw [List.append_assoc, List.append_assoc] at heq
    have heq' := List.append_cancel_left heq
    exact absurd (List.append_inj heq' (by omega)).1 hne

end Replaced

namespace Str

/-- The empty pattern stands before every character, and at the end. -/
def interleaveLoop (to_ : List UInt8) : Nat → List UInt8 → List UInt8
  | fuel + 1, b :: bs =>
    match step (b :: bs) with
    | .char n => to_ ++ (b :: bs).take n ++ interleaveLoop to_ fuel ((b :: bs).drop n)
    | _ => to_
  | _, _ => to_

theorem interleaveLoop_valid {to_ : List UInt8} (ht : Valid to_) : ∀ (fuel : Nat) (bs : List UInt8),
    Valid (interleaveLoop to_ fuel bs) := by
  intro fuel
  induction fuel with
  | zero => intro bs; exact ht
  | succ fuel ih =>
    intro bs
    cases bs with
    | nil => exact ht
    | cons b bs =>
      cases hs : step (b :: bs) with
      | char n =>
        simp only [interleaveLoop, hs]
        exact (ht.append (valid_take hs)).append (ih _)
      | bad n => simpa only [interleaveLoop, hs] using ht
      | cut => simpa only [interleaveLoop, hs] using ht

theorem interleaveLoop_length (to_ : List UInt8) {bs : List UInt8} (h : Valid bs) : ∀ {fuel : Nat},
    bs.length ≤ fuel → bs.length + to_.length ≤ (interleaveLoop to_ fuel bs).length
      ∧ (bs ≠ [] → bs.length + 2 * to_.length ≤ (interleaveLoop to_ fuel bs).length) := by
  induction h with
  | nil =>
    intro fuel _
    cases fuel <;> simp [interleaveLoop]
  | @char bs n hs _ ih =>
    intro fuel hf
    have hn := step_char hs
    obtain ⟨b, bs, rfl⟩ : ∃ b t, bs = b :: t := List.exists_cons_of_length_pos (by omega)
    obtain ⟨fuel, rfl⟩ : ∃ f, fuel = f + 1 := ⟨fuel - 1, by rw [List.length_cons] at hf; omega⟩
    have := (@ih fuel (by rw [List.length_drop]; omega)).1
    simp only [interleaveLoop, hs, List.length_append, List.length_take]
    rw [List.length_drop] at this
    omega

/-- `str::replace`. -/
def replace (text from_ to_ : Str) : Str :=
  if h : from_.bytes = [] then
    ⟨interleaveLoop to_.bytes text.bytes.length text.bytes, interleaveLoop_valid to_.valid _ _⟩
  else
    ⟨splice text.bytes from_.bytes.length to_.bytes (findIter from_.bytes text.bytes),
      (splice_replaced h to_.bytes text.bytes).valid text.valid from_.valid h to_.valid⟩

/-- `str::strip_prefix`. -/
def stripPrefix (text pre : Str) : Option Str :=
  if h : pre.bytes <+: text.bytes then
    some ⟨text.bytes.drop pre.bytes.length, pre.valid.of_append (by
      rw [List.prefix_iff_eq_append.mp h]
      exact text.valid)⟩
  else none

end Str

end Pie.Lib
