import Pie.Proof.BrleSweeps

/-!
# Masks from slices and bitmasks

Filling from a bitmask pushes a run wherever a bit differs from the one before
it. `Scanned` says what the state denotes after some positions; a word of any
width takes it from its first position to its last, and a batch that changes
nothing leaves the state as it is.
-/

namespace Pie.Proof

open List Grammar Lib Grammar.RunMask

variable {bitmask words chunk : List U32} {st : Grammar.RunMask.Fill} {n i full nr q w : Nat} {base : U32}
  {ws : List U64}

/-- The state of `from_slice`: the runs that ended, and the one that goes on. -/
structure Counted32 (l : List Bool) (st : List U32 × Bool × U32) : Prop where
  denotes : bits st.1 ++ List.replicate st.2.2.toNat st.2.1 = l
  value : after false st.1.length = st.2.1

theorem sliceStep_counted {l : List Bool} {st : List U32 × Bool × U32} (h : Counted32 l st)
    (hlt : l.length + 1 < 2 ^ 32) (v : Bool) :
    Counted32 (l ++ [v]) (sliceStep st v) := by
  obtain ⟨buffer, cur, count⟩ := st
  have hval : after false buffer.length = cur := h.value
  have hden : bits buffer ++ replicate count.toNat cur = l := h.denotes
  have hcount : count.toNat ≤ l.length := by
    rw [← hden, length_append, length_replicate]
    omega
  unfold sliceStep
  by_cases hv : v = cur
  · subst hv
    simp only [if_true]
    refine ⟨?_, hval⟩
    show bits buffer ++ replicate (count + 1).toNat v = l ++ [v]
    rw [toNat_add_of_lt (by simpa using by omega), ← hden, append_assoc]
    congr 1
    rw [show (1 : U32).toNat = 1 from rfl, replicate_succ']
  · simp only [if_neg hv]
    refine ⟨?_, ?_⟩
    · show bits (buffer ++ [count]) ++ replicate (1 : U32).toNat v = l ++ [v]
      rw [bits_concat, hval, hden]
      rfl
    · show after false (buffer ++ [count]).length = v
      rw [length_append, length_singleton, after_succ', hval]
      cases v <;> cases cur <;> simp_all

theorem fromSlice_denotes {v : List Bool} (hlt : v.length < 2 ^ 32) :
    RunMask.Denotes (fromSlice v) v := by
  have hfold : ∀ {rest l : List Bool} {st : List U32 × Bool × U32}, Counted32 l st →
      l.length + rest.length < 2 ^ 32 →
        Counted32 (l ++ rest) (rest.foldl sliceStep st) := by
    intro rest
    induction rest with
    | nil => intro l st h _; simpa using h
    | cons x rest ih =>
      intro l st h hlt
      rw [length_cons] at hlt
      have h₁ := sliceStep_counted h (by omega) x
      have := ih h₁ (by rw [length_append, length_singleton]; omega)
      rw [append_assoc] at this
      exact this
  cases v with
  | nil => exact ⟨rfl, rfl⟩
  | cons first rest =>
    set start : List U32 × Bool × U32 := if first then ([0], true, 0) else ([], false, 0) with hstart
    have h₀ : Counted32 [] start := by
      cases first <;> exact ⟨rfl, rfl⟩
    have h := hfold h₀ (show [].length + (first :: rest).length < 2 ^ 32 by simpa using hlt)
    rw [nil_append] at h
    refine ⟨?_, rfl⟩
    rw [RunMask.toVec_eq]
    show bits (((first :: rest).foldl sliceStep start).1
      ++ [((first :: rest).foldl sliceStep start).2.2]) = _
    rw [bits_concat, h.value]
    exact h.denotes

theorem getLsbD_clear_lowest {x : BitVec w} (hx : x ≠ 0) (i : Nat) :
    (x &&& (x - 1)).getLsbD i = (x.getLsbD i && decide (i ≠ x.ctz.toNat)) := by
  set c := x.ctz.toNat with hc
  have hbit : x.getLsbD c = true := BitVec.getLsbD_true_ctz_of_ne_zero hx
  have hlow : ∀ j < c, x.getLsbD j = false := fun j hj => BitVec.getLsbD_false_of_lt_ctz hj
  have hcw : c < w := BitVec.lt_of_getLsbD hbit
  -- `x` is `2 ^ (c + 1) * q + 2 ^ c`
  obtain ⟨q, hq⟩ : ∃ q, x.toNat = 2 ^ (c + 1) * q + 2 ^ c := by
    refine ⟨x.toNat / 2 ^ (c + 1), ?_⟩
    have hmod : x.toNat % 2 ^ (c + 1) = 2 ^ c := by
      refine Nat.eq_of_testBit_eq ?_
      intro j
      rw [Nat.testBit_mod_two_pow, Nat.testBit_two_pow]
      have hj : x.toNat.testBit j = x.getLsbD j := rfl
      rw [hj]
      by_cases h1 : j < c
      · simp [hlow j h1]
        omega
      · by_cases h2 : j = c
        · subst h2
          simp [hbit]
        · have h3 : ¬ j < c + 1 := by omega
          simp [h3]
          omega
    have := Nat.div_add_mod x.toNat (2 ^ (c + 1))
    omega
  have hpos : 0 < 2 ^ c := Nat.two_pow_pos c
  have hone : (x - 1).toNat = 2 ^ (c + 1) * q + (2 ^ c - 1) := by
    have hw : 1 < 2 ^ w := Nat.one_lt_two_pow (by omega)
    have h1 : (1 : BitVec w).toNat = 1 := by
      rw [show (1 : BitVec w) = BitVec.ofNat w 1 from rfl, BitVec.toNat_ofNat]
      exact Nat.mod_eq_of_lt hw
    rw [BitVec.toNat_sub_of_le (BitVec.le_def.mpr (by omega)), h1, hq]
    omega
  have hlt : 2 ^ c - 1 < 2 ^ (c + 1) := by
    rw [pow_succ]
    omega
  have hlt' : 2 ^ c < 2 ^ (c + 1) := by
    rw [pow_succ]
    omega
  have hx1 : (x - 1).getLsbD i = if i < c + 1 then decide (i < c) else q.testBit (i - (c + 1)) := by
    show (x - 1).toNat.testBit i = _
    rw [hone, Nat.testBit_two_pow_mul_add q hlt i, Nat.testBit_two_pow_sub_one]
  have hx0 : x.getLsbD i = if i < c + 1 then decide (c = i) else q.testBit (i - (c + 1)) := by
    show x.toNat.testBit i = _
    rw [hq, Nat.testBit_two_pow_mul_add q hlt' i, Nat.testBit_two_pow]
  rw [BitVec.getLsbD_and, hx0, hx1]
  by_cases h1 : i < c + 1
  · simp only [if_pos h1]
    by_cases h2 : i = c
    · simp [h2]
    · have h3 : ¬ c = i := fun h => h2 h.symm
      simp [h3]
  · have h2 : i ≠ c := by omega
    simp [h1, h2]

/-! ## Positions -/

/-- The bit before position `k`; none is set before the first. -/
def prior (b : Nat → Bool) (k : Nat) : Bool := if k = 0 then false else b (k - 1)

theorem prior_succ (b : Nat → Bool) (k : Nat) : prior b (k + 1) = b k := by simp [prior]

/-- The state after the positions below `k`: what it holds is the runs that ended by there. -/
structure Scanned (b : Nat → Bool) (k : Nat) (buffer : List U32) (prevPos : U32) : Prop where
  pos : prevPos.toNat ≤ k
  inside : k ≠ 0 → prevPos.toNat < k
  denotes : bits buffer ++ List.replicate (k - prevPos.toNat) (prior b k) = (List.range k).map b
  value : after false buffer.length = prior b k

namespace Scanned

variable {b : Nat → Bool} {k k' : Nat} {buffer : List U32} {prevPos : U32}

theorem init (b : Nat → Bool) : Scanned b 0 [] 0 := ⟨le_refl _, by simp, rfl, rfl⟩

theorem same (h : Scanned b k buffer prevPos) (hb : b k = prior b k) : Scanned b (k + 1) buffer prevPos := by
  have hprior : prior b (k + 1) = prior b k := by rw [prior_succ, hb]
  have hpos := h.pos
  refine ⟨by omega, fun _ => by omega, ?_, by rw [hprior]; exact h.value⟩
  rw [hprior, show k + 1 - prevPos.toNat = (k - prevPos.toNat) + 1 by omega, replicate_succ',
    ← append_assoc, h.denotes, range_succ, map_append, map_singleton, hb]

theorem sameTo (h : Scanned b k buffer prevPos) (hk : k ≤ k')
    (hb : ∀ i, k ≤ i → i < k' → b i = prior b i) : Scanned b k' buffer prevPos := by
  induction k', hk using Nat.le_induction with
  | base => exact h
  | succ j hj ih =>
    exact (ih (fun i h1 h2 => hb i h1 (by omega))).same (hb j hj (by omega))

/-- A position unlike the one before it ends a run. -/
theorem change (h : Scanned b k buffer prevPos) (hk : k < 2 ^ 32) (hb : b k ≠ prior b k) :
    Scanned b (k + 1) (buffer ++ [BitVec.ofNat 32 k - prevPos]) (BitVec.ofNat 32 k) := by
  have hpos := h.pos
  have hfit : (BitVec.ofNat 32 k).toNat = k := by
    rw [BitVec.toNat_ofNat]
    exact Nat.mod_eq_of_lt hk
  have hrun : (BitVec.ofNat 32 k - prevPos).toNat = k - prevPos.toNat := by
    rw [BitVec.toNat_sub_of_le (BitVec.le_def.mpr (by omega)), hfit]
  refine ⟨by omega, fun _ => by omega, ?_, ?_⟩
  · rw [bits_concat, h.value, hrun, h.denotes, hfit, prior_succ, Nat.add_sub_cancel_left,
      range_succ, map_append, map_singleton]
    rfl
  · rw [length_append, length_singleton, after_succ', h.value, prior_succ]
    cases hp : prior b k <;> cases hk : b k <;> simp_all

end Scanned

/-- The set bits of `tr` from `j` on are where the positions change. -/
theorem drain_scanned {b : Nat → Bool} {w lim : Nat} (hlim : lim ≤ w)
    (hfit : base.toNat + lim < 2 ^ 32) : ∀ (fuel : Nat) {j : Nat} (tr : BitVec w) (st : Fill),
      Scanned b (base.toNat + j) st.buffer st.prevPos → j ≤ lim → lim - j ≤ fuel →
      (∀ i, tr.getLsbD i = true → j ≤ i ∧ i < lim) →
      (∀ i, j ≤ i → i < lim → tr.getLsbD i = (b (base.toNat + i) != prior b (base.toNat + i))) →
      Scanned b (base.toNat + lim) (drain base fuel tr st).buffer
          (drain base fuel tr st).prevPos
        ∧ (drain base fuel tr st).prevMsb = st.prevMsb := by
  intro fuel
  induction fuel with
  | zero =>
    intro j tr st h hj hfuel _ _
    obtain rfl : j = lim := by omega
    exact ⟨h, rfl⟩
  | succ fuel ih =>
    intro j tr st h hj hfuel hin htr
    rw [drain]
    by_cases h0 : tr = 0
    · rw [if_pos h0]
      refine ⟨h.sameTo (by omega) ?_, rfl⟩
      intro i h1 h2
      have := htr (i - base.toNat) (by omega) (by omega)
      rw [h0, show base.toNat + (i - base.toNat) = i by omega] at this
      simpa using this
    · rw [if_neg h0]
      set c := tr.ctz.toNat with hc
      have hbit : tr.getLsbD c = true := BitVec.getLsbD_true_ctz_of_ne_zero h0
      obtain ⟨hjc, hcl⟩ := hin c hbit
      have hglobal : base + tr.ctz.setWidth 32 = BitVec.ofNat 32 (base.toNat + c) := by
        refine BitVec.eq_of_toNat_eq ?_
        rw [BitVec.toNat_add, BitVec.toNat_setWidth, BitVec.toNat_ofNat, ← hc]
        omega
      have hsame : Scanned b (base.toNat + c) st.buffer st.prevPos := by
        refine h.sameTo (by omega) ?_
        intro i h1 h2
        have := htr (i - base.toNat) (by omega) (by omega)
        rw [show base.toNat + (i - base.toNat) = i by omega, BitVec.getLsbD_false_of_lt_ctz (by omega)] at this
        simpa using this
      have hchange := htr c hjc hcl
      rw [hbit] at hchange
      have hnext := hsame.change (by omega) (by simpa using hchange.symm)
      obtain ⟨h1, h2⟩ := ih (j := c + 1) _
        { st with
          buffer := st.buffer ++ [BitVec.ofNat 32 (base.toNat + c) - st.prevPos]
          prevPos := BitVec.ofNat 32 (base.toNat + c) }
        hnext (by omega) (by omega)
        (by
          intro i hi
          rw [getLsbD_clear_lowest h0, Bool.and_eq_true, decide_eq_true_eq] at hi
          obtain ⟨h3, h4⟩ := hin i hi.1
          have h5 : ¬ i < c := by
            intro hlt
            rw [BitVec.getLsbD_false_of_lt_ctz hlt] at hi
            exact absurd hi.1 (by simp)
          have h6 : i ≠ c := hi.2
          omega)
        (by
          intro i h3 h4
          have h6 : i ≠ tr.ctz.toNat := by omega
          rw [getLsbD_clear_lowest h0, htr i (by omega) h4]
          simp [h6])
      simp only [hglobal]
      exact ⟨h1, h2⟩

/-- The bit that carries a value into the next word. -/
def carry (v : Bool) : U64 := if v then 1 else 0

theorem getLsbD_carry (v : Bool) (i : Nat) : (carry v).getLsbD i = (decide (i = 0) && v) := by
  cases v
  · simp [carry]
  · rw [carry, if_pos rfl, show (1 : U64) = BitVec.twoPow 64 0 from rfl, BitVec.getLsbD_twoPow]
    simp [eq_comm]

/-- The fill at a word boundary. -/
structure Filled (b : Nat → Bool) (k : Nat) (st : Grammar.RunMask.Fill) : Prop where
  scanned : Scanned b k st.buffer st.prevPos
  msb : st.prevMsb = carry (prior b k)

theorem Filled.sameTo {b : Nat → Bool} {k k' : Nat} (h : Filled b k st)
    (hk : k ≤ k') (hb : ∀ i, k ≤ i → i < k' → b i = prior b k) : Filled b k' st := by
  have hall : ∀ i, k ≤ i → i ≤ k' → prior b i = prior b k := by
    intro i hi hle
    rcases eq_or_lt_of_le hi with rfl | hlt
    · rfl
    · rw [show i = (i - 1) + 1 by omega, prior_succ]
      exact hb (i - 1) (by omega) (by omega)
  refine ⟨h.scanned.sameTo hk ?_, by rw [hall k' hk (le_refl _)]; exact h.msb⟩
  intro i h1 h2
  rw [hb i h1 h2, hall i h1 (by omega)]

theorem fillWord_filled {b : Nat → Bool} (w64 : U64) (h : Filled b base.toNat st) (hfit : base.toNat + 64 < 2 ^ 32)
    (hw : ∀ i < 64, w64.getLsbD i = b (base.toNat + i)) :
    Filled b (base.toNat + 64) (fillWord base w64 st) := by
  have htr : ∀ i, 0 ≤ i → i < 64 → (w64 ^^^ ((w64 <<< 1) ||| st.prevMsb)).getLsbD i
      = (b (base.toNat + i) != prior b (base.toNat + i)) := by
    intro i _ hi
    rw [BitVec.getLsbD_xor, BitVec.getLsbD_or, BitVec.getLsbD_shiftLeft, h.msb, getLsbD_carry, hw i hi]
    by_cases h0 : i = 0
    · subst h0
      simp
    · have hpred := hw (i - 1) (by omega)
      have hprior : prior b (base.toNat + i) = b (base.toNat + (i - 1)) := by
        rw [show base.toNat + i = (base.toNat + (i - 1)) + 1 by omega, prior_succ]
      have h1 : ¬ i < 1 := by omega
      simp [h0, h1, hi, hpred, hprior]
  have hdrain := drain_scanned (b := b) (le_refl 64) hfit 64 (j := 0) _
    { st with prevMsb := w64 >>> 63 } (by simpa using h.scanned) (by omega) (by omega)
    (fun i hi => ⟨Nat.zero_le _, BitVec.lt_of_getLsbD hi⟩) htr
  refine ⟨hdrain.1, ?_⟩
  show (drain base 64 _ _).prevMsb = _
  rw [hdrain.2, show base.toNat + 64 = (base.toNat + 63) + 1 by omega, prior_succ, ← hw 63 (by omega)]
  refine BitVec.eq_of_getLsbD_eq ?_
  intro i hi
  rw [BitVec.getLsbD_ushiftRight, getLsbD_carry]
  by_cases h0 : i = 0
  · simp [h0]
  · rw [BitVec.getLsbD_of_ge _ _ (by omega)]
    simp [h0]

/-! ## Words of a bitmask -/

/-- The bits of a bitmask, the lowest of each word first. -/
def bitAt (bitmask : List U32) (i : Nat) : Bool := (bitmask.getD (i / 32) 0).getLsbD (i % 32)

theorem getLsbD_fuse (lo hi : U32) (hi64 : i < 64) : (fuse lo hi).getLsbD i =
      if i < 32 then lo.getLsbD i else hi.getLsbD (i - 32) := by
  rw [fuse, BitVec.getLsbD_or, BitVec.getLsbD_setWidth, BitVec.getLsbD_shiftLeft,
    BitVec.getLsbD_setWidth]
  by_cases h : i < 32
  · simp [h, hi64]
  · have hlo : lo.getLsbD i = false := BitVec.getLsbD_of_ge _ _ (by omega)
    have h2 : i - 32 < 64 := by omega
    simp [h, hi64, hlo, h2]

/-- Two words of the bitmask, fused at their place. -/
theorem fuse_bits {j : Nat} (hi : i < 64) :
    (fuse (bitmask.getD j 0) (bitmask.getD (j + 1) 0)).getLsbD i
      = bitAt bitmask (j * 32 + i) := by
  rw [getLsbD_fuse _ _ hi, bitAt]
  by_cases h : i < 32
  · rw [if_pos h, show (j * 32 + i) / 32 = j by omega, show (j * 32 + i) % 32 = i by omega]
  · rw [if_neg h, show (j * 32 + i) / 32 = j + 1 by omega, show (j * 32 + i) % 32 = i - 32 by omega]

theorem getD_slice {a n k : Nat} (hk : k < n) : ((words.drop a).take n).getD k 0 = words.getD (a + k) 0 := by
  simp only [getD_eq_getElem?_getD]
  rw [getElem?_take, if_pos hk, getElem?_drop]

theorem getD_take {n k : Nat} (hk : k < n) : (words.take n).getD k 0 = words.getD k 0 := by
  simp only [getD_eq_getElem?_getD]
  rw [getElem?_take, if_pos hk]

theorem or_all : ∀ {acc : U64}, ws.foldl (· ||| ·) acc = 0 → acc = 0 ∧ ∀ w ∈ ws, w = 0 := by
  induction ws with
  | nil => intro acc h; exact ⟨h, by simp⟩
  | cons w ws ih =>
    intro acc h
    obtain ⟨h1, h2⟩ := ih h
    obtain ⟨h3, h4⟩ := BitVec.or_eq_zero_iff.mp h1
    refine ⟨h3, ?_⟩
    intro x hx
    rcases mem_cons.mp hx with rfl | hx
    · exact h4
    · exact h2 x hx

theorem and_all : ∀ {acc : U64}, ws.foldl (· &&& ·) acc = BitVec.allOnes 64 →
    acc = BitVec.allOnes 64 ∧ ∀ w ∈ ws, w = BitVec.allOnes 64 := by
  induction ws with
  | nil => intro acc h; exact ⟨h, by simp⟩
  | cons w ws ih =>
    intro acc h
    obtain ⟨h1, h2⟩ := ih h
    obtain ⟨h3, h4⟩ := BitVec.and_eq_allOnes_iff.mp h1
    refine ⟨h3, ?_⟩
    intro x hx
    rcases mem_cons.mp hx with rfl | hx
    · exact h4
    · exact h2 x hx

/-- The fused words of a batch are the bits of the bitmask at its place. -/
theorem batch_bits (hchunk : ∀ k < 16, chunk.getD k 0 = bitmask.getD (nr * 16 + k) 0) {k i : Nat} (hk : k < 8)
    (hi : i < 64) : (fuse (chunk.getD (2 * k) 0) (chunk.getD (2 * k + 1) 0)).getLsbD i
      = bitAt bitmask (nr * 512 + k * 64 + i) := by
  rw [hchunk (2 * k) (by omega), hchunk (2 * k + 1) (by omega),
    show nr * 16 + (2 * k + 1) = (nr * 16 + 2 * k) + 1 by omega, fuse_bits hi]
  congr 1
  omega

theorem fillBatch_filled (h : Filled (bitAt bitmask) (nr * 512) st)
    (hchunk : ∀ k < 16, chunk.getD k 0 = bitmask.getD (nr * 16 + k) 0)
    (hfit : (nr + 1) * 512 < 2 ^ 32) :
    Filled (bitAt bitmask) ((nr + 1) * 512) (fillBatch st (chunk, nr)) := by
  set word : Nat → U64 := fun k => fuse (chunk.getD (2 * k) 0) (chunk.getD (2 * k + 1) 0)
    with hword
  set words := (range 8).map word with hwords
  have hmem : ∀ {k}, k < 8 → word k ∈ words := fun hk => mem_map_of_mem (mem_range.mpr hk)
  -- a batch of words that all have one value goes on with it
  have hconst : ∀ {x : U64} {v : Bool}, (∀ i < 64, x.getLsbD i = v) → (∀ w ∈ words, w = x) →
      prior (bitAt bitmask) (nr * 512) = v → Filled (bitAt bitmask) ((nr + 1) * 512) st := by
    intro x v hx hall hv
    refine h.sameTo (by omega) ?_
    intro i h1 h2
    have hb := batch_bits hchunk (k := (i - nr * 512) / 64) (i := (i - nr * 512) % 64) (by omega)
      (by omega)
    rw [show nr * 512 + (i - nr * 512) / 64 * 64 + (i - nr * 512) % 64 = i by omega] at hb
    rw [← hb, hv, ← hx ((i - nr * 512) % 64) (by omega)]
    have hword := hall (word ((i - nr * 512) / 64)) (hmem (by omega))
    rw [← hword]
  have hstep : fillBatch st (chunk, nr) =
      if words.foldl (· ||| ·) 0 = 0 ∧ st.prevMsb = 0 then st
      else if words.foldl (· ||| ·) 0 = BitVec.allOnes 64
          ∧ words.foldl (· &&& ·) (BitVec.allOnes 64) = BitVec.allOnes 64 ∧ st.prevMsb = 1 then
        { st with prevMsb := 1 }
      else words.zipIdx.foldl (fun st p => fillWord
        (BitVec.ofNat 32 nr * 512 + BitVec.ofNat 32 p.2 * 64) p.1 st) st := rfl
  rw [hstep]
  split
  · rename_i hzero
    refine hconst (x := 0) (v := false) (by simp) (or_all hzero.1).2 ?_
    have := h.msb.symm.trans hzero.2
    cases hp : prior (bitAt bitmask) (nr * 512) with
    | false => rfl
    | true => rw [hp] at this; simp [carry] at this
  · split
    · rename_i _ hones
      have hst : ({ st with prevMsb := 1 } : Fill) = st := by
        rw [← hones.2.2]
      rw [hst]
      refine hconst (x := BitVec.allOnes 64) (v := true)
        (fun i hi => by rw [BitVec.getLsbD_allOnes, decide_eq_true hi])
        (and_all hones.2.1).2 ?_
      have := h.msb.symm.trans hones.2.2
      cases hp : prior (bitAt bitmask) (nr * 512) with
      | true => rfl
      | false => rw [hp] at this; simp [carry] at this
    · have hzip : words.zipIdx = (range 8).map (fun k => (word k, k)) := by rfl
      rw [hzip, foldl_map]
      have hrun := foldl_range_rule (n := 8)
        (f := fun st k => fillWord (BitVec.ofNat 32 nr * 512 + BitVec.ofNat 32 k * 64) (word k) st)
        (fun k st => Filled (bitAt bitmask) (nr * 512 + k * 64) st) (s := st) (by simpa using h) (by
          intro k hk st hst
          have hbase : (BitVec.ofNat 32 nr * 512 + BitVec.ofNat 32 k * 64 : U32).toNat
              = nr * 512 + k * 64 := by
            simp only [BitVec.toNat_add, BitVec.toNat_mul, BitVec.toNat_ofNat,
              show (512 : U32).toNat = 512 from rfl, show (64 : U32).toNat = 64 from rfl]
            omega
          have := fillWord_filled (b := bitAt bitmask) (word k) (by rw [hbase]; exact hst)
            (by rw [hbase]; omega) (by
              intro i hi
              rw [hbase]
              exact batch_bits hchunk hk hi)
          rw [hbase] at this
          rw [show nr * 512 + (k + 1) * 64 = nr * 512 + k * 64 + 64 by omega]
          exact this)
      rw [show (nr + 1) * 512 = nr * 512 + 8 * 64 by omega]
      exact hrun

theorem fillPair_filled {bitmask pair : List U32} {q p : Nat} (h : Filled (bitAt bitmask) (q * 32 + p * 64) st)
    (hpair : ∀ k < 2, pair.getD k 0 = bitmask.getD (q + p * 2 + k) 0)
    (hfit : q * 32 + (p + 1) * 64 < 2 ^ 32) :
    Filled (bitAt bitmask) (q * 32 + (p + 1) * 64)
      (fillPair (BitVec.ofNat 32 q * 32) st (pair, p)) := by
  have hbase : (BitVec.ofNat 32 q * 32 + BitVec.ofNat 32 p * 64 : U32).toNat = q * 32 + p * 64 := by
    simp only [BitVec.toNat_add, BitVec.toNat_mul, BitVec.toNat_ofNat,
      show (32 : U32).toNat = 32 from rfl, show (64 : U32).toNat = 64 from rfl]
    omega
  have := fillWord_filled (b := bitAt bitmask)
    (fuse (pair.getD 0 0) (pair.getD 1 0)) (by rw [hbase]; exact h)
    (by rw [hbase]; omega) (by
      intro i hi
      rw [hbase, hpair 0 (by omega), hpair 1 (by omega), add_zero, fuse_bits hi]
      congr 1
      omega)
  rw [hbase] at this
  rw [show q * 32 + (p + 1) * 64 = q * 32 + p * 64 + 64 by omega]
  exact this

/-- A single word: all of it, or the first bits of the last. -/
theorem fillLast_filled (hn : n < 2 ^ 32) (hi : i * 32 < n) (h : Filled (bitAt bitmask) (i * 32) st) :
    Scanned (bitAt bitmask) (min ((i + 1) * 32) n)
        (fillLast n ((n + 31) / 32) st (bitmask.getD i 0, i)).buffer
        (fillLast n ((n + 31) / 32) st (bitmask.getD i 0, i)).prevPos
      ∧ ((i + 1) * 32 ≤ n → Filled (bitAt bitmask) ((i + 1) * 32)
          (fillLast n ((n + 31) / 32) st (bitmask.getD i 0, i))) := by
  set bitsIn := if (i == (n + 31) / 32 - 1) && n % 32 != 0 then n % 32 else 32 with hbits
  have hbound : min ((i + 1) * 32) n = i * 32 + bitsIn ∧ bitsIn ≤ 32 ∧ 0 < bitsIn
      ∧ ((i + 1) * 32 ≤ n → bitsIn = 32) := by
    rw [hbits]
    by_cases hlast : (i == (n + 31) / 32 - 1) && n % 32 != 0
    · rw [if_pos hlast]
      simp only [Bool.and_eq_true, beq_iff_eq, bne_iff_ne, ne_eq] at hlast
      omega
    · rw [if_neg hlast]
      simp only [Bool.and_eq_true, beq_iff_eq, bne_iff_ne, ne_eq, not_and, not_not] at hlast
      by_cases he : i = (n + 31) / 32 - 1
      · have := hlast he
        omega
      · omega
  obtain ⟨hmin, hle, hpos, hfull⟩ := hbound
  set mask : U32 := ((1 : U32) <<< bitsIn) - 1 with hmask
  have hmaskbit : bitsIn < 32 → ∀ j, mask.getLsbD j = decide (j < bitsIn) := by
    intro hlt j
    have hone : mask.toNat = 2 ^ bitsIn - 1 := by
      have hp : 2 ^ bitsIn < 2 ^ 32 := Nat.pow_lt_pow_right (by omega) hlt
      have hsh : ((1 : U32) <<< bitsIn).toNat = 2 ^ bitsIn := by
        rw [BitVec.toNat_shiftLeft, show (1 : U32).toNat = 1 from rfl, Nat.shiftLeft_eq, one_mul,
          Nat.mod_eq_of_lt hp]
      have h1 : (1 : U32).toNat = 1 := rfl
      have hp0 := Nat.two_pow_pos bitsIn
      rw [hmask, BitVec.toNat_sub_of_le (BitVec.le_def.mpr (by rw [hsh, h1]; omega)), hsh, h1]
    show mask.toNat.testBit j = _
    rw [hone, Nat.testBit_two_pow_sub_one]
  set word := bitmask.getD i 0 with hworddef
  set w := if bitsIn < 32 then word &&& mask else word with hw
  have hwbit : ∀ j < bitsIn, w.getLsbD j = bitAt bitmask (i * 32 + j) := by
    intro j hj
    have hword : word.getLsbD j = bitAt bitmask (i * 32 + j) := by
      rw [bitAt, show (i * 32 + j) / 32 = i by omega, show (i * 32 + j) % 32 = j by omega]
    rw [hw]
    split
    · rename_i hlt
      rw [BitVec.getLsbD_and, hmaskbit hlt, hword]
      simp [hj]
    · exact hword
  set shifted := (w <<< 1) ||| st.prevMsb.setWidth 32 with hshifted
  set tr := if bitsIn < 32 then (w ^^^ shifted) &&& mask else w ^^^ shifted with htrdef
  have hxor : ∀ j < bitsIn, (w ^^^ shifted).getLsbD j
      = (bitAt bitmask (i * 32 + j) != prior (bitAt bitmask) (i * 32 + j)) := by
    intro j hj
    rw [BitVec.getLsbD_xor, hshifted, BitVec.getLsbD_or, BitVec.getLsbD_shiftLeft,
      BitVec.getLsbD_setWidth, h.msb, getLsbD_carry, hwbit j hj]
    by_cases h0 : j = 0
    · subst h0
      simp
    · have hpred := hwbit (j - 1) (by omega)
      have hprior : prior (bitAt bitmask) (i * 32 + j) = bitAt bitmask (i * 32 + (j - 1)) := by
        rw [show i * 32 + j = (i * 32 + (j - 1)) + 1 by omega, prior_succ]
      have h1 : ¬ j < 1 := by omega
      have h2 : j < 32 := by omega
      simp [h0, h1, h2, hpred, hprior]
  have htrbit : ∀ j < bitsIn, tr.getLsbD j
      = (bitAt bitmask (i * 32 + j) != prior (bitAt bitmask) (i * 32 + j)) := by
    intro j hj
    rw [htrdef]
    split
    · rename_i hlt
      rw [BitVec.getLsbD_and, hmaskbit hlt, hxor j hj]
      simp [hj]
    · exact hxor j hj
  have hbase : (BitVec.ofNat 32 i * 32 : U32).toNat = i * 32 := by
    simp only [BitVec.toNat_mul, BitVec.toNat_ofNat, show (32 : U32).toNat = 32 from rfl]
    omega
  have hdrain := drain_scanned (b := bitAt bitmask) hle
    (by rw [hbase]; omega) 32 (j := 0) tr st
    (by rw [hbase]; simpa using h.scanned) (by omega) (by omega)
    (by
      intro j hj
      refine ⟨Nat.zero_le _, ?_⟩
      by_contra hge
      rw [htrdef] at hj
      split at hj
      · rename_i hlt
        rw [BitVec.getLsbD_and, hmaskbit hlt] at hj
        simp [hge] at hj
      · have := BitVec.lt_of_getLsbD hj
        omega)
    (by
      intro j _ hj
      rw [hbase]
      exact htrbit j hj)
  rw [hbase] at hdrain
  have heq : fillLast n ((n + 31) / 32) st (word, i) =
      { drain (BitVec.ofNat 32 i * 32) 32 tr st with
        prevMsb := (w >>> 31).setWidth 64 } := rfl
  rw [heq, hmin]
  refine ⟨hdrain.1, ?_⟩
  intro hwhole
  refine ⟨?_, ?_⟩
  · rw [show (i + 1) * 32 = i * 32 + bitsIn by omega]
    exact hdrain.1
  · show (w >>> 31).setWidth 64 = _
    rw [show (i + 1) * 32 = (i * 32 + 31) + 1 by omega, prior_succ, ← hwbit 31 (by omega)]
    refine BitVec.eq_of_getLsbD_eq ?_
    intro j hj
    rw [BitVec.getLsbD_setWidth, BitVec.getLsbD_ushiftRight, getLsbD_carry]
    by_cases h0 : j = 0
    · simp [h0]
    · rw [BitVec.getLsbD_of_ge w (31 + j) (by omega)]
      simp [h0]

/-! ## From a bitmask -/

/-- The state after all the positions, with its last run. -/
theorem Scanned.finish {b : Nat → Bool} {buffer : List U32} {prevPos : U32}
    (h : Scanned b n buffer prevPos) (hn : n < 2 ^ 32) (hn0 : n ≠ 0) :
    0 < (BitVec.ofNat 32 n - prevPos).toNat
      ∧ bits (buffer ++ [BitVec.ofNat 32 n - prevPos]) = (range n).map b := by
  have hpos := h.pos
  have hin := h.inside hn0
  have hfit : (BitVec.ofNat 32 n).toNat = n := by
    rw [BitVec.toNat_ofNat]
    exact Nat.mod_eq_of_lt hn
  have hrun : (BitVec.ofNat 32 n - prevPos).toNat = n - prevPos.toNat := by
    rw [BitVec.toNat_sub_of_le (BitVec.le_def.mpr (by omega)), hfit]
  refine ⟨by omega, ?_⟩
  rw [bits_concat, h.value, hrun]
  exact h.denotes

theorem batches_filled (hlen : full ≤ bitmask.length) (hfit : full * 32 < 2 ^ 32) :
    Filled (bitAt bitmask) (full / 16 * 16 * 32)
      ((chunks 16 (bitmask.take (full / 16 * 16))).foldl fillBatch ⟨[], 0, 0⟩) := by
  have hcount : (bitmask.take (full / 16 * 16)).length / 16 = full / 16 := by
    rw [length_take]
    omega
  rw [chunks, hcount, foldl_map]
  have hrun := foldl_range_rule (n := full / 16)
    (f := fun st k => fillBatch st (((bitmask.take (full / 16 * 16)).drop (k * 16)).take 16, k))
    (fun k st => Filled (bitAt bitmask) (k * 512) st) (s := ⟨[], 0, 0⟩)
    ⟨by simpa using Scanned.init _, rfl⟩ (by
      intro k hk st hst
      refine fillBatch_filled hst ?_ (by omega)
      intro j hj
      rw [getD_slice hj, getD_take (by omega)])
  rw [show full / 16 * 16 * 32 = full / 16 * 512 by omega]
  exact hrun

theorem pairs_filled (hq : q ≤ full) (hlen : full ≤ bitmask.length) (hfit : full * 32 < 2 ^ 32)
    (h : Filled (bitAt bitmask) (q * 32) st) :
    Filled (bitAt bitmask) ((q + (full - q) / 2 * 2) * 32)
      ((chunks 2 ((bitmask.take full).drop q)).foldl
        (fillPair (BitVec.ofNat 32 q * 32)) st) := by
  have hcount : ((bitmask.take full).drop q).length / 2 = (full - q) / 2 := by
    rw [length_drop, length_take]
    omega
  rw [chunks, hcount, foldl_map]
  have hrun := foldl_range_rule (n := (full - q) / 2)
    (f := fun st k => fillPair (BitVec.ofNat 32 q * 32) st
      ((((bitmask.take full).drop q).drop (k * 2)).take 2, k))
    (fun k st => Filled (bitAt bitmask) (q * 32 + k * 64) st) (s := st) (by simpa using h) (by
      intro k hk st hst
      refine fillPair_filled hst ?_ (by omega)
      intro j hj
      rw [drop_drop, getD_slice hj, getD_take (by omega)])
  rw [show (q + (full - q) / 2 * 2) * 32 = q * 32 + (full - q) / 2 * 64 by omega]
  exact hrun

theorem lasts_scanned (hn : n < 2 ^ 32) : ∀ {count start : Nat}
    {st : Fill}, start + count = (n + 31) / 32 → start * 32 ≤ n →
      Filled (bitAt bitmask) (start * 32) st →
      Scanned (bitAt bitmask) n
        (((range' start count).map (fun i => (bitmask.getD i 0, i))).foldl
          (fillLast n ((n + 31) / 32)) st).buffer
        (((range' start count).map (fun i => (bitmask.getD i 0, i))).foldl
          (fillLast n ((n + 31) / 32)) st).prevPos := by
  intro count
  induction count with
  | zero =>
    intro start st hc hs h
    obtain rfl : n = start * 32 := by omega
    exact h.scanned
  | succ count ih =>
    intro start st hc hs h
    have hlast := fillLast_filled (i := start) hn (by omega) h
    rw [range'_succ, map_cons, foldl_cons]
    rcases Nat.eq_zero_or_pos count with rfl | hpos
    · have hmin : min ((start + 1) * 32) n = n := by omega
      rw [hmin] at hlast
      exact hlast.1
    · exact ih (by omega) (by omega) (hlast.2 (by omega))

theorem zipIdx_drop {u : Nat} :
    words.zipIdx.drop u = (range' u (words.length - u)).map (fun i => (words.getD i 0, i)) := by
  refine ext_getElem (by simp) ?_
  intro i h1 h2
  rw [getElem_drop, getElem_zipIdx, getElem_map, getElem_range']
  have hlt : u + i < words.length := by
    rw [length_drop, length_zipIdx] at h1
    omega
  simp [getD_eq_getElem?_getD, hlt]

namespace RunMask

/-- **A bitmask is read as its first bits.** -/
theorem fromBitmask_denotes (hn : n < 2 ^ 32) (hwords : (n + 31) / 32 ≤ bitmask.length) :
    Denotes (fromBitmask bitmask n) ((range n).map (bitAt bitmask)) := by
  by_cases h0 : n = 0
  · subst h0
    exact ⟨rfl, rfl⟩
  set words := bitmask.take ((n + 31) / 32) with hw
  have hwlen : words.length = (n + 31) / 32 := by
    rw [hw, length_take]
    omega
  have hbit : ∀ i < n, bitAt words i = bitAt bitmask i := by
    intro i hi
    rw [bitAt, bitAt, hw, getD_take (by omega)]
  set full := n / 32 with hfull
  set batch := full / 16 * 16 with hbatch
  set st₁ := (chunks 16 (words.take batch)).foldl fillBatch
    ⟨[], 0, 0⟩ with hst₁
  have h₁ : Filled (bitAt words) (batch * 32) st₁ := batches_filled (by omega) (by omega)
  set st₂ := (chunks 2 ((words.take full).drop batch)).foldl
    (fillPair (BitVec.ofNat 32 batch * 32)) st₁ with hst₂
  have h₂ := pairs_filled (q := batch) (show batch ≤ full by omega) (by omega) (by omega) h₁
  rw [← hst₂] at h₂
  set u := batch + ((words.take full).drop batch).length / 2 * 2 with hu
  have hrem : ((words.take full).drop batch).length = full - batch := by
    rw [length_drop, length_take]
    omega
  rw [← hrem, ← hu] at h₂
  set st₃ := (words.zipIdx.drop u).foldl (fillLast n ((n + 31) / 32)) st₂ with hst₃
  have h₃ : Scanned (bitAt words) n st₃.buffer st₃.prevPos := by
    rw [hst₃, zipIdx_drop]
    exact lasts_scanned hn (by omega) (by omega) h₂
  obtain ⟨hpos, hbits⟩ := h₃.finish hn h0
  have heq : fromBitmask bitmask n
      = ⟨st₃.buffer ++ [BitVec.ofNat 32 n - st₃.prevPos], n⟩ := by
    unfold fromBitmask
    rw [if_neg h0]
    exact if_pos (.inl hpos)
  rw [heq]
  refine ⟨?_, by simp⟩
  rw [toVec_eq]
  show bits (st₃.buffer ++ [BitVec.ofNat 32 n - st₃.prevPos]) = _
  rw [hbits]
  exact map_congr_left (fun i hi => hbit i (mem_range.mp hi))

/-! ## The whole interface -/

/-- What every operation on a mask computes on the list it stands for. -/
structure Faithful (m : RunMask) : Prop where
  append : ∀ flag, m.totalSize + 1 < 2 ^ 32 → Denotes (m.append flag) (m.toVec ++ [flag])
  extend : ∀ other, Sums other → m.totalSize + other.totalSize < 2 ^ 32 →
    Denotes (m.extend other) (m.toVec ++ other.toVec)
  remove : ∀ i < m.totalSize, Denotes (m.remove i) (m.toVec.eraseIdx i)
  removeRange : ∀ start stop, start ≤ stop →
    Denotes (m.removeRange start stop) (m.toVec.take start ++ m.toVec.drop stop)
  mask : ∀ indices flag, ∃ m', m.mask indices flag = some m'
    ∧ Denotes m' ((List.range m.totalSize).map (fun i =>
        if i ∈ indices then flag else m.toVec.getD i false))
  maskRange : ∀ start stop flag, ∃ m', m.maskRange start stop flag = some m'
    ∧ Denotes m' ((List.range m.totalSize).map (fun i =>
        if start ≤ i ∧ i < stop then flag else m.toVec.getD i false))
  isMasked : ∀ indices, (∀ i ∈ indices, i < m.totalSize) →
    m.isMasked indices = some (indices.map (fun i => m.toVec.getD i false))
  isRangeAllValue : ∀ start stop expected, stop ≤ m.totalSize →
    m.isRangeAllValue start stop expected = ((m.toVec.take stop).drop start).all (· == expected)
  writeSkipping : ∀ skips, Skips skips →
    bits (m.writeSkipping skips []).2 = kept (skips.map natRange) m.toVec 0
      ∧ (m.writeSkipping skips []).1.toNat = (kept (skips.map natRange) m.toVec 0).length

end RunMask

end Pie.Proof
