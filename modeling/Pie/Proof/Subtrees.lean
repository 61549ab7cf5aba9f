import Pie.Tokenizer.Decode

/-!
# Subtree ranges

The tokens are walked in the order of their bytes, with a stack of the prefixes
that every token so far has started with since they were opened. A prefix is
closed at the first token that does not start with it, and no later one does.
-/

namespace Pie.Proof.Subtrees

open List Tokenizer

theorem prefix_of_between : ∀ {a b c : List UInt8}, a ≤ b → b ≤ c → a <+: c → a <+: b
  | [], _, _, _, _, _ => nil_prefix
  | x :: a, b, c, hab, hbc, hac => by
    obtain ⟨rest, rfl⟩ := hac
    cases b with
    | nil => exact absurd hab (by simp)
    | cons y b =>
      rw [cons_le_cons_iff] at hab
      rw [cons_append, cons_le_cons_iff] at hbc
      rcases hab with hlt | ⟨rfl, hab⟩
      · rcases hbc with hlt' | ⟨rfl, -⟩
        · exact absurd (UInt8.lt_trans hlt hlt') (UInt8.lt_irrefl x)
        · exact absurd hlt (UInt8.lt_irrefl _)
      · rcases hbc with hlt' | ⟨-, hbc⟩
        · exact absurd hlt' (UInt8.lt_irrefl x)
        · exact cons_prefix_cons.mpr ⟨rfl, prefix_of_between hab hbc (prefix_append a rest)⟩

theorem le_of_sorted {bytes : List (List UInt8)} (hsorted : bytes.Pairwise (· ≤ ·)) {i j : Nat} {a b : List UInt8}
    (hij : i ≤ j) (hi : bytes[i]? = some a) (hj : bytes[j]? = some b) : a ≤ b := by
  rcases List.getElem?_eq_some_iff.mp hi with ⟨hi', rfl⟩
  rcases List.getElem?_eq_some_iff.mp hj with ⟨hj', rfl⟩
  rcases lt_or_eq_of_le hij with hlt | rfl
  · exact List.pairwise_iff_getElem.mp hsorted i j hi' hj' hlt
  · exact List.le_refl _

/-! ## The stack -/

section

variable {bytes : List (List UInt8)} {i : Nat} {stack : List (Nat × List UInt8)} {ranges : List Nat}

/-- `e` ends the range of position `k`. -/
def EndsAt (bytes : List (List UInt8)) (k e : Nat) : Prop :=
  ∀ j pre text, bytes[k]? = some pre → bytes[j]? = some text → k ≤ j → (pre <+: text ↔ j < e)

/-- The positions before `i` are walked: every token since an open prefix starts with it, and the others are closed. -/
structure Walked (bytes : List (List UInt8)) (i : Nat) (stack : List (Nat × List UInt8)) (ranges : List Nat) : Prop where
  length : ranges.length = bytes.length
  nested : stack.Pairwise (fun upper lower => lower.1 < upper.1 ∧ lower.2 <+: upper.2)
  before : ∀ p ∈ stack, p.1 < i ∧ bytes[p.1]? = some p.2
  starts : ∀ p ∈ stack, ∀ j text, p.1 ≤ j → j < i → bytes[j]? = some text → p.2 <+: text
  closed : ∀ k < i, k ∉ stack.map Prod.fst → ∃ e, ranges[k]? = some e ∧ EndsAt bytes k e

namespace Walked

/-- A prefix that the next token does not start with is closed. -/
theorem close {p : Nat × List UInt8} {text : List UInt8} (hsorted : bytes.Pairwise (· ≤ ·))
    (h : Walked bytes i (p :: stack) ranges) (hi : bytes[i]? = some text) (hp : ¬p.2 <+: text) :
    Walked bytes i stack (ranges.set p.1 i) := by
  obtain ⟨hlt, hget⟩ := h.before p mem_cons_self
  have hlen : i < bytes.length := (List.getElem?_eq_some_iff.mp hi).1
  have hends : EndsAt bytes p.1 i := by
    intro j pre other hpre hother hle
    cases hget.symm.trans hpre
    refine ⟨fun hstart => ?_, fun hj => h.starts p mem_cons_self j other hle hj hother⟩
    -- The token at `i` lies between the prefix and any token after it.
    by_contra hge
    refine hp (prefix_of_between (le_of_sorted hsorted hlt.le hget hi) ?_ hstart)
    exact le_of_sorted hsorted (Nat.le_of_not_lt hge) hi hother
  exact
    { length := by rw [length_set, h.length]
      nested := (pairwise_cons.mp h.nested).2
      before := fun q hq => h.before q (mem_cons_of_mem _ hq)
      starts := fun q hq => h.starts q (mem_cons_of_mem _ hq)
      closed := by
        intro k hk hout
        by_cases hkp : k = p.1
        · subst hkp
          exact ⟨i, getElem?_set_self (by rw [h.length]; omega), hends⟩
        · obtain ⟨e, he, hspec⟩ := h.closed k hk (by simp [hkp, hout])
          exact ⟨e, by rw [getElem?_set_ne (Ne.symm hkp), he], hspec⟩ }

/-- The next token is opened when it starts with every open prefix. -/
theorem open_ {text : List UInt8} (h : Walked bytes i stack ranges) (hi : bytes[i]? = some text)
    (hall : ∀ p ∈ stack, p.2 <+: text) : Walked bytes (i + 1) ((i, text) :: stack) ranges where
  length := h.length
  nested := pairwise_cons.mpr ⟨fun p hp => ⟨(h.before p hp).1, hall p hp⟩, h.nested⟩
  before := by
    intro p hp
    rcases mem_cons.mp hp with rfl | hp
    · exact ⟨Nat.lt_succ_self i, hi⟩
    · exact ⟨Nat.lt_succ_of_lt (h.before p hp).1, (h.before p hp).2⟩
  starts := by
    intro p hin j other hle hj hother
    rcases mem_cons.mp hin with rfl | hp
    · obtain rfl : j = i := by omega
      cases hi.symm.trans hother
      exact prefix_rfl
    · rcases Nat.lt_succ_iff_lt_or_eq.mp hj with hlt | rfl
      · exact h.starts p hp j other hle hlt hother
      · cases hi.symm.trans hother
        exact hall p hp
  closed := by
    intro k hk hout
    rw [map_cons, mem_cons, not_or] at hout
    exact h.closed k (by omega) hout.2

/-- What `closePrefixes` leaves open, the next token starts with. -/
theorem closePrefixes {text : List UInt8} (hsorted : bytes.Pairwise (· ≤ ·)) (hi : bytes[i]? = some text)
    (h : Walked bytes i stack ranges) :
    Walked bytes (i + 1) ((i, text) :: (closePrefixes text i stack ranges).1) (closePrefixes text i stack ranges).2 := by
  induction stack generalizing ranges with
  | nil => exact h.open_ hi nofun
  | cons p stack ih =>
    unfold Tokenizer.closePrefixes
    split
    · rename_i hstart
      refine h.open_ hi fun q hq => ?_
      rcases mem_cons.mp hq with rfl | hq
      · exact hstart
      · exact ((pairwise_cons.mp h.nested).1 q hq).2.trans hstart
    · rename_i hstart
      exact ih (h.close hsorted hi hstart)

/-- The prefixes that are open at the end are those that every later token starts with. -/
theorem drain (h : Walked bytes bytes.length stack ranges) :
    ∃ ends, stack.foldl (fun ranges p => ranges.set p.1 bytes.length) ranges = ends ∧
      ends.length = bytes.length ∧ ∀ k < bytes.length, ∃ e, ends[k]? = some e ∧ EndsAt bytes k e := by
  induction stack generalizing ranges with
  | nil => exact ⟨ranges, rfl, h.length, fun k hk => h.closed k hk nofun⟩
  | cons p stack ih =>
    refine ih ⟨by rw [length_set, h.length], (pairwise_cons.mp h.nested).2,
      fun q hq => h.before q (mem_cons_of_mem _ hq), fun q hq => h.starts q (mem_cons_of_mem _ hq), ?_⟩
    intro k hk hout
    rcases h.before p mem_cons_self with ⟨hlt, hget⟩
    by_cases hkp : k = p.1
    · subst hkp
      refine ⟨bytes.length, getElem?_set_self (by rw [h.length]; exact hlt), fun j pre text hpre htext hle => ?_⟩
      have hj : j < bytes.length := (List.getElem?_eq_some_iff.mp htext).1
      cases hget.symm.trans hpre
      exact ⟨fun _ => hj, fun _ => h.starts p mem_cons_self j text hle hj htext⟩
    · rcases h.closed k hk (by simp [hkp, hout]) with ⟨e, he, hspec⟩
      exact ⟨e, by rw [getElem?_set_ne (Ne.symm hkp), he], hspec⟩

end Walked

variable {vocab : List (Option (List UInt8))}

/-- The loop goes through every token. The induction is on the tokens that are left, with what is walked as the invariant. -/
theorem foldlM_subtreeStep (hsorted : bytes.Pairwise (· ≤ ·)) : ∀ {ids : List TokenId} {texts : List (List UInt8)}
    {i : Nat} {stack : List (Nat × List UInt8)} {ranges : List Nat},
    ids.map (fun id => (vocab[id.toNat]?).join) = texts.map some → bytes.drop i = texts →
    Walked bytes i stack ranges → ∃ stack' ranges',
      (ids.zipIdx i).foldlM (subtreeStep vocab) (stack, ranges) = some (stack', ranges') ∧
        Walked bytes (i + texts.length) stack' ranges' := by
  intro ids
  induction ids with
  | nil =>
    intro texts i stack ranges hids _ h
    obtain rfl : texts = [] := map_eq_nil_iff.mp hids.symm
    exact ⟨stack, ranges, rfl, h⟩
  | cons id ids ih =>
    intro texts i stack ranges hids hdrop h
    cases texts with
    | nil => cases hids
    | cons text texts =>
      rw [map_cons, map_cons, cons.injEq] at hids
      have hi : bytes[i]? = some text := by rw [← head?_drop, hdrop]; rfl
      have hrest : bytes.drop (i + 1) = texts := by rw [← tail_drop, hdrop]; rfl
      have hstep : subtreeStep vocab (stack, ranges) (id, i)
          = some ((i, text) :: (Tokenizer.closePrefixes text i stack ranges).1,
              (Tokenizer.closePrefixes text i stack ranges).2) := by
        unfold subtreeStep
        rw [hids.1]
        rfl
      obtain ⟨stack', ranges', hrun, hwalked⟩ := ih hids.2 hrest (h.closePrefixes hsorted hi)
      rw [add_assoc, add_comm 1] at hwalked
      refine ⟨stack', ranges', ?_, hwalked⟩
      rw [zipIdx_cons, foldlM_cons, hstep]
      exact hrun

/-- **The range of a token ends where its bytes are no longer the first of the others'**, for tokens in the order
of their bytes, equal ones among them. -/
theorem subtree_ranges_exact {ids : List TokenId} (hids : ids.map (fun id => (vocab[id.toNat]?).join) = bytes.map some)
    (hsorted : bytes.Pairwise (· ≤ ·)) : ∃ ends : List Nat, buildSubtreeRanges ids vocab = some ends ∧
      ends.length = ids.length ∧ ∀ (i j e : Nat) (pre text : List UInt8), bytes[i]? = some pre → bytes[j]? = some text →
        ends[i]? = some e → i ≤ j → (pre <+: text ↔ j < e) := by
  have hlen : ids.length = bytes.length := by simpa using congrArg List.length hids
  have hstart : Walked bytes 0 [] (List.replicate ids.length ids.length) :=
    ⟨by rw [List.length_replicate, hlen], .nil, nofun, nofun, nofun⟩
  obtain ⟨stack, ranges, hrun, hwalked⟩ := foldlM_subtreeStep hsorted hids rfl hstart
  rw [Nat.zero_add] at hwalked
  obtain ⟨ends, hdrain, hends, hspec⟩ := hwalked.drain
  refine ⟨ends, ?_, hends.trans hlen.symm, fun i j e pre text hpre htext he hle => ?_⟩
  · have hbuild : buildSubtreeRanges ids vocab
        = (ids.zipIdx.foldlM (subtreeStep vocab) ([], List.replicate ids.length ids.length)).bind fun st =>
            some (st.1.foldl (fun ranges p => ranges.set p.1 ids.length) st.2) := rfl
    rw [hbuild, hrun, Option.bind_some, hlen, hdrain]
  · obtain ⟨e', he', hrange⟩ := hspec i (List.getElem?_eq_some_iff.mp hpre).1
    cases he.symm.trans he'
    exact hrange j pre text hpre htext hle

/-- `a`, `a` again, `ab` and `b`. -/
theorem subtree_ranges_exact_four : ∃ ends : List Nat,
    buildSubtreeRanges [1, 3, 0, 2] [some [97, 98], some [97], some [98], some [97]] = some ends ∧ ends.length = 4 ∧
      ∀ (i j e : Nat) (pre text : List UInt8), [[97], [97], [97, 98], [98]][i]? = some pre →
        [[97], [97], [97, 98], [98]][j]? = some text → ends[i]? = some e → i ≤ j → (pre <+: text ↔ j < e) :=
  subtree_ranges_exact rfl (by decide)

end

end Pie.Proof.Subtrees
