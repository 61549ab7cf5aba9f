import Pie.Ztensor.Term

/-!
# The text of a type

What the parser takes is the tokens of the type it gives, so that printing the
type is joining those tokens again. Each kind of token is read in one way only:
a name, or a letter and a number without leading zeros.
-/

namespace Pie.Proof.TermText

open List Lib Lib.Words Lib.Decimal Ztensor

variable {g : Group} {s tok : List UInt8} {x : UInt8}

/-! ## Numbers -/

theorem foldl_digits : ∀ {s : List UInt8} {acc : Nat}, s.foldl (fun acc b => acc * 10 + (b.toNat - 0x30)) acc
      = acc * 10 ^ s.length + value (s.map fun b => b.toNat - 0x30) := by
  intro s
  induction s with
  | nil => intro acc; exact (mul_one _).symm
  | cons b s ih =>
    intro acc
    rw [foldl_cons, ih, map_cons, value, length_cons, length_map, Nat.pow_succ']
    ring

theorem digit_of {b : UInt8} (h : isDigit b = true) : b.toNat - 0x30 < 10 ∧ digitByte (b.toNat - 0x30) = b := by
  unfold isDigit at h
  rw [Bool.and_eq_true, decide_eq_true_eq, decide_eq_true_eq, UInt8.le_iff_toNat_le, UInt8.le_iff_toNat_le] at h
  have hlo : 0x30 ≤ b.toNat := h.1
  have hhi : b.toNat ≤ 0x39 := h.2
  refine ⟨by omega, ?_⟩
  unfold digitByte
  rw [Nat.add_sub_cancel' hlo, UInt8.ofNat_toNat]

theorem number_eq_some {n : Nat} (h : number s = some n) : s = numeral n := by
  unfold number at h
  split at h
  · cases h
  · rename_i hgood
    rw [not_or, not_or, not_not] at hgood
    obtain ⟨hne, hzero, hall⟩ := hgood
    rw [all_eq_true] at hall
    rw [foldl_digits, zero_mul, zero_add] at h
    dsimp only at h
    split at h
    · cases h
      have hds : Digits (s.map fun b => b.toNat - 0x30) := by
        intro d hd
        obtain ⟨b, hb, rfl⟩ := mem_map.mp hd
        exact (digit_of (hall b hb)).1
      have hback : (s.map fun b => b.toNat - 0x30).map digitByte = s := by
        rw [map_map]
        exact (map_congr_left fun b hb => (digit_of (hall b hb)).2).trans (map_id _)
      have hdigits : digits (value (s.map fun b => b.toNat - 0x30)) = s.map fun b => b.toNat - 0x30 := by
        cases s with
        | nil => exact absurd rfl hne
        | cons b s =>
          by_cases hb : b.toNat - 0x30 = 0
          · -- a zero in front is the whole number
            have hb0 : b = 0x30 := by
              rw [← (digit_of (hall b mem_cons_self)).2, hb]
              rfl
            cases s with
            | nil =>
              subst hb0
              decide
            | cons _ _ =>
              refine absurd ⟨?_, congrArg some hb0⟩ hzero
              rw [length_cons, length_cons]
              omega
          · exact digits_value hb hds
      rw [numeral, hdigits, hback]
    · cases h

theorem lit_toString (n : Nat) : (Str.lit (toString n)).bytes = numeral n := encode_toString n

/-! ## Tokens -/

theorem of_ite {α : Type} {c : Prop} [Decidable c] {a l : α} {r : Option α} (h : (if c then some a else r) = some l) :
    (c ∧ a = l) ∨ r = some l := by
  by_cases hc : c
  · rw [if_pos hc] at h
    exact .inl ⟨hc, Option.some.inj h⟩
  · rw [if_neg hc] at h
    exact .inr h

theorem Leaf.parse_eq_some {l : Leaf} (h : Leaf.parse s = some l) : s = l.display.bytes := by
  unfold Leaf.parse at h
  -- the names first
  iterate 11
    rcases of_ite h with ⟨hs, rfl⟩ | h
    · exact hs
  cases s with
  | nil => cases h
  | cons c rest =>
    dsimp only at h
    cases hbits : number rest with
    | none => rw [hbits] at h; cases h
    | some bits =>
      rw [hbits] at h
      dsimp only at h
      have hrest := number_eq_some hbits
      split at h
      · cases h
      · split at h
        · rename_i hc
          cases h
          change _ = (Str.lit "u").bytes ++ (Str.lit (toString bits)).bytes
          rw [lit_toString, hc, hrest]
          rfl
        · split at h
          · rename_i hc
            cases h
            change _ = (Str.lit "i").bytes ++ (Str.lit (toString bits)).bytes
            rw [lit_toString, hc, hrest]
            rfl
          · cases h

theorem span_ne {s r c : List UInt8} (h : s.span (· ≠ x) = (r, c)) : s = r ++ c ∧ ∀ y ∈ c.head?, y = x := by
  rw [span_eq_takeWhile_dropWhile] at h
  cases h
  refine ⟨takeWhile_append_dropWhile.symm, fun y hy => ?_⟩
  have := head?_dropWhile_not (fun b => decide (b ≠ x)) s
  rw [Option.mem_def.mp hy] at this
  simpa using this

theorem group_eq_some (h : group tok = some g) : tok = g.display.bytes := by
  unfold group at h
  split at h
  · rename_i rest
    split at h
    · rename_i hr
      cases h
      rw [hr]
      rfl
    · split at h
      · rename_i hr
        cases h
        rw [hr]
        rfl
      · split at h
        · rename_i r x c hspan
          obtain ⟨hrest, hx⟩ := span_ne hspan
          obtain rfl : x = 0x78 := hx x rfl
          obtain ⟨nr, hr, h⟩ := Option.bind_eq_some_iff.mp h
          obtain ⟨nc, hc, h⟩ := Option.bind_eq_some_iff.mp h
          split at h
          · cases h
          · cases h
            rw [hrest, number_eq_some hr, number_eq_some hc]
            unfold Group.display
            rw [Str.concat_bytes]
            simp only [flatMap_cons, flatMap_nil, lit_toString, append_nil]
            rfl
        · rename_i r hspan
          obtain ⟨hrest, -⟩ := span_ne hspan
          obtain ⟨n, hn, h⟩ := Option.bind_eq_some_iff.mp h
          split at h
          · cases h
          · cases h
            rw [hrest, number_eq_some hn, append_nil]
            change _ = (Str.lit "g").bytes ++ (Str.lit (toString n)).bytes
            rw [lit_toString]
            rfl
  · cases h

/-! ## Types -/

mutual

/-- The tokens a type is printed as. -/
def tokens : Term → List (List UInt8)
  | .leaf l => [l.display.bytes]
  | .group g code gain offset => g.display.bytes :: code.display.bytes :: (tokens gain ++ offsetTokens offset)

def offsetTokens : Offset → List (List UInt8)
  | .none => [ascii "n"]
  | .post t => ascii "b" :: tokens t
  | .pre t => ascii "z" :: tokens t

end

mutual

/-- How deep groups are nested. -/
def depth : Term → Nat
  | .leaf _ => 0
  | .group _ _ gain offset => max (depth gain) (offsetDepth offset) + 1

def offsetDepth : Offset → Nat
  | .none => 0
  | .post t => depth t
  | .pre t => depth t

end

/-- Groups that have elements: what the others divide would be divided by zero. -/
def GroupPositive : Group → Prop
  | .n n => 0 < n
  | .tile r c => 0 < r ∧ 0 < c
  | .row => True
  | .tensor => True

mutual

def Positive : Term → Prop
  | .leaf _ => True
  | .group g _ gain offset => GroupPositive g ∧ Positive gain ∧ OffsetPositive offset

def OffsetPositive : Offset → Prop
  | .none => True
  | .post t => Positive t
  | .pre t => Positive t

end

theorem group_positive (h : group tok = some g) : GroupPositive g := by
  unfold group at h
  split at h
  · rcases of_ite h with ⟨-, rfl⟩ | h
    · trivial
    · rcases of_ite h with ⟨-, rfl⟩ | h
      · trivial
      · split at h
        · obtain ⟨r, -, h⟩ := Option.bind_eq_some_iff.mp h
          obtain ⟨c, -, h⟩ := Option.bind_eq_some_iff.mp h
          split at h
          · cases h
          · cases h
            change 0 < r ∧ 0 < c
            omega
        · obtain ⟨n, -, h⟩ := Option.bind_eq_some_iff.mp h
          split at h
          · cases h
          · cases h
            change 0 < n
            omega
  · cases h

mutual

theorem tokens_ne_nil : ∀ t : Term, tokens t ≠ []
  | .leaf _ => by unfold tokens; exact cons_ne_nil _ _
  | .group _ _ _ _ => by unfold tokens; exact cons_ne_nil _ _

theorem offsetTokens_ne_nil : ∀ o : Offset, offsetTokens o ≠ []
  | .none => by unfold offsetTokens; exact cons_ne_nil _ _
  | .post _ => by unfold offsetTokens; exact cons_ne_nil _ _
  | .pre _ => by unfold offsetTokens; exact cons_ne_nil _ _

end

theorem intercalate_append : ∀ {as bs : List (List UInt8)}, as ≠ [] → bs ≠ [] →
    [x].intercalate (as ++ bs) = [x].intercalate as ++ [x] ++ [x].intercalate bs := by
  intro as
  induction as with
  | nil => exact fun h => absurd rfl h
  | cons a as ih =>
    intro bs _ hb
    cases as with
    | nil => rw [singleton_append, intercalate_cons_of_ne_nil hb, intercalate_singleton, append_assoc]
    | cons a' as =>
      rw [cons_append, intercalate_cons_of_ne_nil (by simp), ih (cons_ne_nil _ _) hb,
        intercalate_cons_of_ne_nil (cons_ne_nil _ _), append_assoc, append_assoc, append_assoc,
        append_assoc, append_assoc]

mutual

theorem display_bytes : ∀ t : Term, t.display.bytes = [0x5F].intercalate (tokens t)
  | .leaf l => by
    unfold Term.display tokens
    exact intercalate_singleton.symm
  | .group g code gain offset => by
    unfold Term.display tokens
    rw [Str.concat_bytes]
    simp only [flatMap_cons, flatMap_nil]
    rw [display_bytes gain, offset_bytes offset, intercalate_cons_of_ne_nil (cons_ne_nil _ _),
      intercalate_cons_of_ne_nil (by simp [tokens_ne_nil]),
      intercalate_append (tokens_ne_nil gain) (offsetTokens_ne_nil offset)]
    simp only [append_assoc, append_nil]
    rfl

theorem offset_bytes : ∀ o : Offset, o.display.bytes = [0x5F].intercalate (offsetTokens o)
  | .none => rfl
  | .post t => by
    unfold Offset.display offsetTokens
    rw [intercalate_cons_of_ne_nil (tokens_ne_nil t), ← display_bytes t]
    rfl
  | .pre t => by
    unfold Offset.display offsetTokens
    rw [intercalate_cons_of_ne_nil (tokens_ne_nil t), ← display_bytes t]
    rfl

end

/-- What a parser of tokens does: it takes the tokens of what it gives, or rejects the type. -/
def Takes {α : Type} (p : Parse α) (P : α → List (List UInt8) → Prop) : Prop :=
  ∀ toks, (∃ a taken rest, p toks = .ok (a, rest) ∧ toks = taken ++ rest ∧ P a taken)
    ∨ ∃ detail, p toks = Result.reject .type detail

namespace Takes

variable {α β : Type} {p : Parse α} {f : α → Parse β} {P : α → List (List UInt8) → Prop} {Q : β → List (List UInt8) → Prop}

theorem pure {a : α} (h : P a []) : Takes (Pure.pure a) P := fun toks => .inl ⟨a, [], toks, rfl, rfl, h⟩

theorem bad (text : List UInt8) (why : Message) : Takes (Parse.bad text why) P := fun _ => .inr ⟨_, rfl⟩

theorem bind (hp : Takes p P)
    (hf : ∀ a taken, P a taken → Takes (f a) fun b more => Q b (taken ++ more)) : Takes (p >>= f) Q := by
  intro toks
  change (∃ a taken rest, (p toks >>= fun r => f r.1 r.2) = .ok (a, rest) ∧ _) ∨ ∃ detail, (p toks >>= fun r => f r.1 r.2) = _
  rcases hp toks with ⟨a, taken, rest, hrun, rfl, ha⟩ | ⟨detail, hrun⟩
  · rw [hrun]
    rcases hf a taken ha rest with ⟨b, more, rest', hrun', rfl, hb⟩ | ⟨detail, hrun'⟩
    · exact .inl ⟨b, taken ++ more, rest', hrun', (append_assoc _ _ _).symm, hb⟩
    · exact .inr ⟨detail, hrun'⟩
  · rw [hrun]
    exact .inr ⟨detail, rfl⟩

theorem next (text : List UInt8) : Takes (Parse.next text) fun tok taken => taken = [tok] := by
  intro toks
  cases toks with
  | nil => exact .inr ⟨_, rfl⟩
  | cons tok rest => exact .inl ⟨tok, [tok], rest, rfl, rfl, rfl⟩

theorem leaf (text tok : List UInt8) : Takes (Parse.leaf text tok) fun l taken => tok = l.display.bytes ∧ taken = [] := by
  unfold Parse.leaf
  cases h : Leaf.parse tok with
  | some l => exact .pure ⟨Leaf.parse_eq_some h, rfl⟩
  | none => exact bad _ _

end Takes

/-- **The parser takes the tokens of the type it gives.** -/
theorem term_takes (text : List UInt8) : ∀ left, Takes (Parse.term text left) fun t taken => taken = tokens t ∧ depth t < left ∧ Positive t := by
  intro left
  induction left with
  | zero => exact .bad _ _
  | succ left ih =>
    unfold Parse.term
    refine (Takes.next text).bind (fun tok _ htok => ?_)
    subst htok
    cases hg : group tok with
    | some g =>
      refine (Takes.next text).bind (fun codeTok _ hcode => ?_)
      subst hcode
      refine (Takes.leaf text codeTok).bind (fun code _ hcode => ?_)
      obtain ⟨hcode, rfl⟩ := hcode
      refine ih.bind (fun gain _ hgain => ?_)
      obtain ⟨rfl, hgain, hgainPos⟩ := hgain
      refine (Takes.next text).bind (fun mark _ hmark => ?_)
      subst hmark
      have htok := group_eq_some hg
      split
      · rename_i hn
        refine .pure ⟨?_, ?_, ?_⟩
        · simp only [tokens, offsetTokens, ← htok, ← hcode, hn]
          rfl
        · simp only [depth, offsetDepth]
          omega
        · simp only [Positive, OffsetPositive]
          exact ⟨group_positive hg, hgainPos, trivial⟩
      · split
        · rename_i hb
          refine ih.bind (fun t _ ht => ?_)
          obtain ⟨rfl, ht, htPos⟩ := ht
          refine .pure ⟨?_, ?_, ?_⟩
          · simp only [tokens, offsetTokens, ← htok, ← hcode, hb]
            simp
          · simp only [depth, offsetDepth]
            omega
          · simp only [Positive, OffsetPositive]
            exact ⟨group_positive hg, hgainPos, htPos⟩
        · split
          · rename_i hz
            refine ih.bind (fun t _ ht => ?_)
            obtain ⟨rfl, ht, htPos⟩ := ht
            refine .pure ⟨?_, ?_, ?_⟩
            · simp only [tokens, offsetTokens, ← htok, ← hcode, hz]
              simp
            · simp only [depth, offsetDepth]
              omega
            · simp only [Positive, OffsetPositive]
              exact ⟨group_positive hg, hgainPos, htPos⟩
          · exact .bad _ _
    | none =>
      dsimp only
      split
      · exact .bad _ _
      · refine (Takes.leaf text tok).bind (fun l _ hl => ?_)
        obtain ⟨hl, rfl⟩ := hl
        refine .pure ⟨?_, ?_, ?_⟩
        · simp only [tokens, hl]
          rfl
        · simp only [depth]
          omega
        · simp only [Positive]

/-- Every text is rejected, or is what its type is printed as. -/
theorem parse_cases (s : Str) : (∃ t, Term.parse s = .ok t ∧ t.display = s ∧ depth t ≤ MAX_TERM_DEPTH ∧ Positive t)
      ∨ ∃ detail, Term.parse s = Result.reject .type detail := by
  have hbind : Term.parse s = (Parse.term s.bytes (MAX_TERM_DEPTH + 1) (s.bytes.splitOn 0x5F) >>= fun r =>
      if r.2 ≠ [] then
        Result.reject .type [.lit "type ", .debug s.bytes, .lit ": ", .lit "has tokens after the term"]
      else .ok r.1) := rfl
  rcases term_takes s.bytes (MAX_TERM_DEPTH + 1) (s.bytes.splitOn 0x5F) with
    ⟨t, taken, rest, hrun, hsplit, htaken, hdepth, hpos⟩ | ⟨detail, hrun⟩
  · rw [hrun] at hbind
    by_cases hrest : rest = []
    · subst hrest
      have hdisplay : t.display = s := by
        refine Str.ext ?_
        rw [display_bytes, ← htaken, ← append_nil taken, ← hsplit, intercalate_splitOn]
      exact .inl ⟨t, hbind, hdisplay, Nat.lt_succ_iff.mp hdepth, hpos⟩
    · exact .inr ⟨_, hbind.trans (if_pos (show (t, rest).2 ≠ [] from hrest))⟩
  · rw [hrun] at hbind
    exact .inr ⟨detail, hbind⟩

/-- **A type has one text.** -/
theorem parse_text (s : Str) :
    (∃ t, Term.parse s = .ok t ∧ t.display = s ∧ Term.parse t.display = .ok t ∧ depth t ≤ MAX_TERM_DEPTH)
      ∨ ∃ detail, Term.parse s = Result.reject .type detail := by
  rcases parse_cases s with ⟨t, hok, hdisplay, hdepth, -⟩ | hrejected
  · exact .inl ⟨t, hok, hdisplay, hdisplay ▸ hok, hdepth⟩
  · exact .inr hrejected

end Pie.Proof.TermText
