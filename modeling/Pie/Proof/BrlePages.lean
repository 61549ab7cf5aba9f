import Pie.Proof.BrleSweeps

/-!
# Pages without attended positions

A page is dead when none of its positions is attended. The pages are marked piece by
piece: the runs of cleared positions, and what lies behind the mask. A dead page that
lies in two pieces is in neither, and that is the only way to miss one as long as
positions fit in a word.
-/

namespace Pie.Proof

open List Grammar Lib

namespace Tiled

variable {pos i : Nat} {runs : List MaskRun} {l : List Bool} {r r' : MaskRun}

theorem getD_replicate_append {n : Nat} {v : Bool} (hi : pos ≤ i) :
    (replicate n v ++ l).getD (i - pos) false = if i < pos + n then v else l.getD (i - (pos + n)) false := by
  by_cases hlt : i < pos + n
  · rw [if_pos hlt, getD_append _ _ _ _ (by rw [length_replicate]; omega), getD_eq_getElem?_getD,
      getElem?_replicate, if_pos (by omega), Option.getD_some]
  · rw [if_neg hlt, getD_append_right _ _ _ _ (by rw [length_replicate]; omega), length_replicate, Nat.sub_sub]

/-- Every position of a tiled list is in a run of its value. -/
theorem find (h : Tiled pos runs l) (hi : pos ≤ i) (hlt : i < pos + l.length) :
    ∃ r ∈ runs, r.start ≤ i ∧ i < r.stop ∧ r.value = l.getD (i - pos) false := by
  induction h with
  | nil => exact absurd hlt (not_lt.mpr hi)
  | @cons pos n v runs l hn _ ih =>
    rw [length_append, length_replicate] at hlt
    rw [getD_replicate_append hi]
    by_cases hin : i < pos + n
    · rw [if_pos hin]
      exact ⟨_, mem_cons_self, hi, hin, rfl⟩
    · rw [if_neg hin]
      obtain ⟨r, hr, h1, h2, h3⟩ := ih (not_lt.mp hin) (by omega)
      exact ⟨r, mem_cons_of_mem _ hr, h1, h2, h3⟩

theorem value_eq (h : Tiled pos runs l) (hr : r ∈ runs) (hi : r.start ≤ i) (hlt : i < r.stop) :
    l.getD (i - pos) false = r.value := by
  induction h with
  | nil => exact absurd hr not_mem_nil
  | @cons pos n v runs l hn hrest ih =>
    rcases mem_cons.mp hr with rfl | hr
    · rw [getD_replicate_append hi, if_pos hlt]
    · have hbounds := hrest.bounds hr
      rw [getD_replicate_append (by omega), if_neg (by omega)]
      exact ih hr

theorem apart (h : Tiled pos runs l) (hr : r ∈ runs) (hr' : r' ∈ runs) : r = r' ∨ r.stop ≤ r'.start ∨ r'.stop ≤ r.start := by
  induction h with
  | nil => exact absurd hr not_mem_nil
  | @cons pos n v runs l hn hrest ih =>
    rcases mem_cons.mp hr with rfl | hr <;> rcases mem_cons.mp hr' with rfl | hr'
    · exact .inl rfl
    · exact .inr (.inl (hrest.bounds hr').1)
    · exact .inr (.inr (hrest.bounds hr).1)
    · exact ih hr hr'

end Tiled

namespace RunMask

open Grammar.RunMask (below orWord fillWords setBits setPageBitsInRange dropRun droppablePageBits)

/-! ## Bits of words -/

def pageBit (out : List U64) (i : Nat) : Bool := (out.getD (i / 64) 0).getLsbD (i % 64)

variable {out : List U64} {lo hi i b : Nat} {mask : U64}

theorem getLsbD_below (hb : b < 64) : (below b).getLsbD i = decide (i < b) := by
  have hone : (below b).toNat = 2 ^ b - 1 := by
    have hpow : 2 ^ b < 2 ^ 64 := Nat.pow_lt_pow_right (by decide) hb
    have hshift : ((1 : U64) <<< b).toNat = 2 ^ b := by
      rw [BitVec.toNat_shiftLeft, Nat.shiftLeft_eq]
      show 1 * 2 ^ b % 2 ^ 64 = 2 ^ b
      rw [one_mul, Nat.mod_eq_of_lt hpow]
    have hle : (1 : U64) ≤ (1 : U64) <<< b := BitVec.le_def.mpr (by rw [hshift]; exact Nat.one_le_two_pow)
    unfold below
    rw [BitVec.toNat_sub_of_le hle, hshift]
    rfl
  rw [← BitVec.testBit_toNat, hone, Nat.testBit_two_pow_sub_one]

theorem orWord_spec (hi : i < out.length) : ∃ out', orWord out i mask = some out' ∧ out'.length = out.length
    ∧ ∀ j, pageBit out' j = (pageBit out j || (decide (j / 64 = i) && mask.getLsbD (j % 64))) := by
  refine ⟨_, if_pos hi, length_modify .., fun j => ?_⟩
  unfold pageBit
  rw [getD_eq_getElem?_getD, getD_eq_getElem?_getD, getElem?_modify]
  by_cases hj : j / 64 = i
  · subst hj
    rw [getElem?_eq_getElem hi]
    simp
  · cases out[j / 64]? <;> simp [hj, Ne.symm hj]

theorem fillWords_spec (hhi : hi ≤ out.length) : ∃ out', fillWords out lo hi = some out' ∧ out'.length = out.length
    ∧ ∀ j, pageBit out' j = (pageBit out j || (decide (lo ≤ j / 64) && decide (j / 64 < hi))) := by
  refine ⟨_, if_pos hhi, length_mapIdx, fun j => ?_⟩
  have hmod : j % 64 < 64 := Nat.mod_lt j (by decide)
  unfold pageBit
  rw [getD_eq_getElem?_getD, getD_eq_getElem?_getD, getElem?_mapIdx]
  by_cases hj : lo ≤ j / 64 ∧ j / 64 < hi
  · rw [getElem?_eq_getElem (hj.2.trans_le hhi), Option.map_some, if_pos hj, Option.getD_some, BitVec.getLsbD_allOnes,
      decide_eq_true hmod, decide_eq_true hj.1, decide_eq_true hj.2, Bool.and_true, Bool.or_true]
  · have hnot : (decide (lo ≤ j / 64) && decide (j / 64 < hi)) = false := by
      rw [← Bool.decide_and, decide_eq_false hj]
    rw [hnot, Bool.or_false]
    cases out[j / 64]? with
    | none => rfl
    | some w => simp only [Option.map_some, if_neg hj]

/-- **Setting a range of bits.** -/
theorem setBits_spec (hhi : hi ≤ 64 * out.length) : ∃ out', setBits out lo hi = some out' ∧ out'.length = out.length
    ∧ ∀ j, pageBit out' j = (pageBit out j || decide (lo ≤ j ∧ j < hi)) := by
  have hlo64 : lo % 64 < 64 := Nat.mod_lt lo (by decide)
  have hhi64 : hi % 64 < 64 := Nat.mod_lt hi (by decide)
  unfold setBits
  by_cases hempty : hi ≤ lo
  · rw [if_pos hempty]
    refine ⟨out, rfl, rfl, fun j => ?_⟩
    rw [decide_eq_false (by omega), Bool.or_false]
  · rw [if_neg hempty]
    by_cases hsame : lo / 64 = hi / 64
    · rw [if_pos hsame]
      obtain ⟨out', hout, hlen, hbits⟩ := @orWord_spec out (lo / 64) (below (hi % 64) &&& ~~~below (lo % 64)) (by omega)
      refine ⟨out', hout, hlen, fun j => ?_⟩
      have hj64 : j % 64 < 64 := Nat.mod_lt j (by decide)
      rw [hbits, BitVec.getLsbD_and, BitVec.getLsbD_not, getLsbD_below hhi64, getLsbD_below hlo64]
      congr 1
      rw [Bool.eq_iff_iff]
      simp only [Bool.and_eq_true, decide_eq_true_eq, Bool.not_eq_true', decide_eq_false_iff_not]
      omega
    · rw [if_neg hsame]
      obtain ⟨first, hfirst, hlen, hbits⟩ := @orWord_spec out (lo / 64) (~~~below (lo % 64)) (by omega)
      obtain ⟨middle, hmiddle, hlen', hbits'⟩ := @fillWords_spec first (lo / 64 + 1) (hi / 64) (by omega)
      have hsofar : ∀ j, pageBit middle j = (pageBit out j || decide (lo ≤ j ∧ j < hi / 64 * 64)) := fun j => by
        have hj64 : j % 64 < 64 := Nat.mod_lt j (by decide)
        rw [hbits', hbits, BitVec.getLsbD_not, getLsbD_below hlo64, Bool.or_assoc]
        congr 1
        rw [Bool.eq_iff_iff]
        simp only [Bool.and_eq_true, Bool.or_eq_true, decide_eq_true_eq, Bool.not_eq_true', decide_eq_false_iff_not]
        omega
      rw [hfirst]
      simp only [Option.bind_eq_bind, Option.bind_some]
      rw [hmiddle, Option.bind_some]
      by_cases hlast : 0 < hi % 64
      · rw [if_pos hlast]
        obtain ⟨last, hlast', hlen'', hbits''⟩ := @orWord_spec middle (hi / 64) (below (hi % 64)) (by omega)
        refine ⟨last, hlast', by omega, fun j => ?_⟩
        rw [hbits'', hsofar, getLsbD_below hhi64, Bool.or_assoc]
        congr 1
        rw [Bool.eq_iff_iff]
        simp only [Bool.and_eq_true, Bool.or_eq_true, decide_eq_true_eq]
        omega
      · rw [if_neg hlast]
        refine ⟨middle, rfl, by omega, fun j => ?_⟩
        rw [hsofar]
        congr 2
        rw [eq_iff_iff]
        omega

/-! ## Pieces -/

/-- The page is within the positions of a piece. -/
def Inside (size p : Nat) (piece : Nat × Nat) : Prop := piece.1 ≤ p * size ∧ (p + 1) * size ≤ piece.2

/-- A position as the 32-bit word it is cut to. -/
def word (i : Nat) : Nat := i % 2 ^ 32

/-- The runs of cleared positions, and what lies behind the mask. -/
def pieces (m : Grammar.RunMask) (total : Nat) : List (Nat × Nat) :=
  ((m.iterRuns.filter fun r => !r.value).map fun r => (r.start, r.stop)) ++ [(m.toVec.length, total)]

/-- The page is within one of the pieces. -/
def Whole (m : Grammar.RunMask) (size total p : Nat) : Prop := ∃ piece ∈ pieces m total, Inside size p piece

/-- The same, with the ends of the pieces cut to words. -/
def Cut (m : Grammar.RunMask) (size total p : Nat) : Prop :=
  ∃ piece ∈ pieces m total, Inside size p (word piece.1, word piece.2)

variable {m : Grammar.RunMask} {pageSize numPages total s e : U32} {p : Nat}

instance {size p : Nat} {piece : Nat × Nat} : Decidable (Inside size p piece) := inferInstanceAs (Decidable (_ ∧ _))

theorem Inside.lt {size : Nat} {piece : Nat × Nat} (h : Inside size p piece) (hsize : 0 < size) : piece.1 < piece.2 := by
  have hnext : (p + 1) * size = p * size + size := Nat.succ_mul p size
  have h1 := h.1
  have h2 := h.2
  omega

theorem setPageBitsInRange_spec (hsize : 0 < pageSize.toNat) (hout : numPages.toNat ≤ 64 * out.length) :
    ∃ out', setPageBitsInRange s e pageSize numPages out = some out' ∧ out'.length = out.length
      ∧ ∀ j, pageBit out' j = (pageBit out j || decide (j < numPages.toNat ∧ Inside pageSize.toNat j (s.toNat, e.toNat))) := by
  unfold setPageBitsInRange
  by_cases hempty : e ≤ s
  · rw [if_pos hempty]
    refine ⟨out, rfl, rfl, fun j => ?_⟩
    have hle : e.toNat ≤ s.toNat := BitVec.le_def.mp hempty
    rw [decide_eq_false, Bool.or_false]
    exact fun h => not_lt.mpr hle (h.2.lt hsize)
  · rw [if_neg hempty]
    have hlo : ∀ j, (s.toNat + pageSize.toNat - 1) / pageSize.toNat ≤ j ↔ s.toNat ≤ j * pageSize.toNat := fun j => by
      have hnext : (j + 1) * pageSize.toNat = j * pageSize.toNat + pageSize.toNat := Nat.succ_mul j _
      rw [← Nat.lt_succ_iff, Nat.div_lt_iff_lt_mul hsize, Nat.succ_eq_add_one]
      omega
    have hhi : ∀ j, j < min (e.toNat / pageSize.toNat) numPages.toNat ↔ j < numPages.toNat ∧ (j + 1) * pageSize.toNat ≤ e.toNat :=
      fun j => by rw [lt_min_iff, ← Nat.succ_le_iff, Nat.le_div_iff_mul_le hsize, and_comm]
    have hiff : ∀ j, ((s.toNat + pageSize.toNat - 1) / pageSize.toNat ≤ j ∧ j < min (e.toNat / pageSize.toNat) numPages.toNat)
        ↔ j < numPages.toNat ∧ Inside pageSize.toNat j (s.toNat, e.toNat) := fun j => by
      rw [hlo, hhi]
      exact and_left_comm
    dsimp only
    split
    · obtain ⟨out', hsome, hlen, hbits⟩ := @setBits_spec out ((s.toNat + pageSize.toNat - 1) / pageSize.toNat)
        (min (e.toNat / pageSize.toNat) numPages.toNat) ((min_le_right _ _).trans hout)
      refine ⟨out', hsome, hlen, fun j => ?_⟩
      rw [hbits, decide_eq_decide.mpr (hiff j)]
    · next hnone =>
        refine ⟨out, rfl, rfl, fun j => ?_⟩
        rw [← decide_eq_decide.mpr (hiff j), decide_eq_false (by omega), Bool.or_false]

theorem dropRuns_spec (hsize : 0 < pageSize.toNat) {pos : Nat} {runs : List MaskRun} {l : List Bool} (h : Tiled pos runs l) :
    ∀ {out : List U64}, numPages.toNat ≤ 64 * out.length →
      ∃ out', runs.foldlM (dropRun pageSize numPages) (BitVec.ofNat 32 pos, out) = some (BitVec.ofNat 32 (pos + l.length), out')
        ∧ out'.length = out.length ∧ ∀ j, pageBit out' j = true ↔ pageBit out j = true ∨ (j < numPages.toNat
          ∧ ∃ r ∈ runs, r.value = false ∧ Inside pageSize.toNat j (word r.start, word r.stop)) := by
  induction h with
  | nil => exact fun {out} _ => ⟨out, rfl, rfl, fun j => ⟨.inl, fun h => h.elim id fun ⟨_, r, hr, _⟩ => absurd hr not_mem_nil⟩⟩
  | @cons pos n v runs l hn _ ih =>
    intro out hout
    have hend : pos + (replicate n v ++ l).length = pos + n + l.length := by
      rw [length_append, length_replicate, add_assoc]
    rw [hend, foldlM_cons]
    unfold dropRun
    cases v with
    | true =>
      obtain ⟨out', hfold, hlen, hbits⟩ := ih hout
      refine ⟨out', hfold, hlen, fun j => ?_⟩
      rw [hbits]
      simp only [mem_cons, exists_eq_or_imp, Bool.true_eq_false, false_and, false_or]
    | false =>
      obtain ⟨next, hnext, hlen, hbits⟩ := @setPageBitsInRange_spec out pageSize numPages (BitVec.ofNat 32 pos)
        (BitVec.ofNat 32 (pos + n)) hsize hout
      obtain ⟨out', hfold, hlen', hbits'⟩ := @ih next (by rwa [hlen])
      refine ⟨out', ?_, hlen'.trans hlen, fun j => ?_⟩
      · simp only [Bool.false_eq_true, if_false]
        rw [hnext]
        exact hfold
      · rw [hbits', hbits, Bool.or_eq_true, decide_eq_true_eq, or_assoc]
        refine or_congr_right ?_
        rw [← and_or_left]
        simp only [mem_cons, exists_eq_or_imp, true_and, BitVec.toNat_ofNat]
        rfl

theorem mem_pieces {n : Nat} {piece : Nat × Nat} : piece ∈ pieces m n
    ↔ (∃ r ∈ m.iterRuns, r.value = false ∧ piece = (r.start, r.stop)) ∨ piece = (m.toVec.length, n) := by
  unfold pieces
  rw [mem_append, mem_map, mem_singleton]
  refine or_congr_left (exists_congr fun r => ?_)
  rw [mem_filter, Bool.not_eq_true', and_assoc, eq_comm (a := piece)]

/-- **What is marked**: the pages within a piece, as its ends are cut to words. -/
theorem droppablePageBits_spec (hsize : 0 < pageSize.toNat) (hout : numPages.toNat ≤ 64 * out.length) :
    ∃ out', droppablePageBits m pageSize numPages total out = some out'
      ∧ ∀ j, pageBit out' j = true ↔ pageBit out j = true ∨ (j < numPages.toNat ∧ Cut m pageSize.toNat total.toNat j) := by
  unfold droppablePageBits
  have hne : pageSize ≠ 0 := fun h => by
    rw [h] at hsize
    exact absurd hsize (by decide)
  by_cases hnone : numPages = 0
  · subst hnone
    rw [if_pos (.inl rfl)]
    exact ⟨out, rfl, fun j => ⟨.inl, fun h => h.elim id fun h => absurd h.1 (Nat.not_lt_zero j)⟩⟩
  · rw [if_neg (not_or.mpr ⟨hnone, hne⟩)]
    obtain ⟨runs, hruns, hlen, hbits⟩ := dropRuns_spec hsize (RunMask.tiled m) hout
    rw [zero_add] at hruns
    obtain ⟨tail, htail, -, hbits'⟩ := @setPageBitsInRange_spec runs pageSize numPages (BitVec.ofNat 32 m.toVec.length) total hsize
      (by rwa [hlen])
    have hall : ∀ j, pageBit tail j = true
        ↔ pageBit out j = true ∨ (j < numPages.toNat ∧ Cut m pageSize.toNat total.toNat j) := by
      intro j
      have htotal : word total.toNat = total.toNat := Nat.mod_eq_of_lt total.isLt
      rw [hbits', Bool.or_eq_true, decide_eq_true_eq, hbits, or_assoc, ← and_or_left, BitVec.toNat_ofNat]
      refine or_congr_right (and_congr_right fun _ => ?_)
      unfold Cut
      constructor
      · rintro (⟨r, hr, hvalue, hin⟩ | hin)
        · exact ⟨_, mem_pieces.mpr (.inl ⟨r, hr, hvalue, rfl⟩), hin⟩
        · exact ⟨_, mem_pieces.mpr (.inr rfl), by rwa [htotal]⟩
      · rintro ⟨piece, hpiece, hin⟩
        rcases mem_pieces.mp hpiece with ⟨r, hr, hvalue, rfl⟩ | rfl
        · exact .inl ⟨r, hr, hvalue, hin⟩
        · rw [htotal] at hin
          exact .inr hin
    rw [show (0 : U32) = BitVec.ofNat 32 0 from rfl, hruns]
    simp only [Option.bind_eq_bind, Option.bind_some]
    by_cases hcovered : BitVec.ofNat 32 m.toVec.length < total
    · rw [if_pos hcovered]
      exact ⟨tail, htail, hall⟩
    · rw [if_neg hcovered]
      refine ⟨runs, rfl, fun j => ?_⟩
      rw [← hall, hbits', Bool.or_eq_true, decide_eq_true_eq]
      refine ⟨.inl, fun h => h.resolve_right fun ⟨_, hin⟩ => ?_⟩
      exact hcovered (BitVec.lt_def.mpr (hin.lt hsize))

/-! ## Dead pages -/

/-- All positions of the page are below the end, and the mask has none of them set. -/
def Dead (m : Grammar.RunMask) (size total p : Nat) : Prop :=
  (p + 1) * size ≤ max m.toVec.length total ∧ ∀ i, p * size ≤ i → i < (p + 1) * size → m.toVec.getD i false = false

/-- A run of cleared positions ends within the page, and not at its end. -/
def Seam (m : Grammar.RunMask) (size p : Nat) : Prop :=
  ∃ r ∈ m.iterRuns, r.value = false ∧ p * size < r.stop ∧ r.stop < (p + 1) * size

variable {size n : Nat}

theorem Whole.dead (h : Whole m size n p) : Dead m size n p := by
  obtain ⟨piece, hpiece, h1, h2⟩ := h
  rcases mem_pieces.mp hpiece with ⟨r, hr, hvalue, rfl⟩ | rfl
  · have hbounds := (RunMask.tiled m).bounds hr
    refine ⟨?_, fun i hi hlt => ?_⟩
    · simp only at h2
      omega
    · have := (RunMask.tiled m).value_eq hr (h1.trans hi) (hlt.trans_le h2)
      rwa [hvalue, Nat.sub_zero] at this
  · refine ⟨h2.trans (le_max_right _ _), fun i hi _ => ?_⟩
    exact getD_eq_default _ _ (h1.trans hi)

/-- **A dead page is within one piece, or a run of cleared positions ends within it.** -/
theorem Dead.whole_iff (h : Dead m size n p) (hsize : 0 < size) : Whole m size n p ↔ ¬Seam m size p := by
  have hnext : (p + 1) * size = p * size + size := Nat.succ_mul p size
  constructor
  · rintro ⟨piece, hpiece, h1, h2⟩ ⟨r, hr, hvalue, h3, h4⟩
    have hbounds := (RunMask.tiled m).bounds hr
    rcases mem_pieces.mp hpiece with ⟨r', hr', hvalue', rfl⟩ | rfl
    · simp only at h1 h2
      rcases (RunMask.tiled m).apart hr hr' with rfl | h5 | h5
      · omega
      · omega
      · have := hbounds.2.1
        omega
    · simp only at h1 h2
      omega
  · intro hseam
    by_cases hlt : p * size < m.toVec.length
    · obtain ⟨r, hr, h1, h2, hvalue⟩ := (RunMask.tiled m).find (Nat.zero_le (p * size)) (by omega)
      rw [Nat.sub_zero, h.2 _ le_rfl (by omega)] at hvalue
      refine ⟨_, mem_pieces.mpr (.inl ⟨r, hr, hvalue, rfl⟩), h1, not_lt.mp fun h3 => ?_⟩
      exact hseam ⟨r, hr, hvalue, h2, h3⟩
    · refine ⟨_, mem_pieces.mpr (.inr rfl), not_lt.mp hlt, ?_⟩
      have := h.1
      simp only
      omega

theorem cut_iff_whole (hlen : m.toVec.length < 2 ^ 32) (hn : n < 2 ^ 32) : Cut m size n p ↔ Whole m size n p := by
  refine exists_congr fun piece => and_congr_right fun hpiece => ?_
  have hfit : piece.1 < 2 ^ 32 ∧ piece.2 < 2 ^ 32 := by
    rcases mem_pieces.mp hpiece with ⟨r, hr, -, rfl⟩ | rfl
    · have hbounds := (RunMask.tiled m).bounds hr
      simp only
      omega
    · exact ⟨hlen, hn⟩
  rw [word, word, Nat.mod_eq_of_lt hfit.1, Nat.mod_eq_of_lt hfit.2]

/-! ## What is marked -/

/-- Starting from nothing, the dead pages are marked and nothing else. -/
def MarksDead (m : Grammar.RunMask) (pageSize numPages total : U32) (out : List U64) : Prop :=
  ∃ out', droppablePageBits m pageSize numPages total out = some out'
    ∧ ∀ p, pageBit out' p = true ↔ p < numPages.toNat ∧ Dead m pageSize.toNat total.toNat p

/-- No run of cleared positions ends within a dead page; and in a mask that has positions that do not fit in a word
the cut pieces have the same pages. -/
structure Seamless (m : Grammar.RunMask) (size count total : Nat) : Prop where
  seams : ∀ p < count, Dead m size total p → Seam m size p → Cut m size total p
  kept : ∀ p < count, Whole m size total p → Cut m size total p
  dead : ∀ p < count, Cut m size total p → Dead m size total p

theorem seamless_iff {count : Nat} (hsize : 0 < size) (hlen : m.toVec.length < 2 ^ 32) (hn : n < 2 ^ 32) :
    Seamless m size count n ↔ ∀ p < count, Dead m size n p → ¬Seam m size p := by
  constructor
  · intro h p hp hdead hseam
    exact (hdead.whole_iff hsize).mp ((cut_iff_whole hlen hn).mp (h.seams p hp hdead hseam)) hseam
  · intro h
    refine ⟨fun p hp hdead hseam => absurd hseam (h p hp hdead), fun p _ => (cut_iff_whole hlen hn).mpr, fun p _ hcut => ?_⟩
    exact Whole.dead ((cut_iff_whole hlen hn).mp hcut)

/-- **Dead pages are marked, unless they have a seam.** -/
theorem droppable_pages_exact (m : Grammar.RunMask) (pageSize numPages total : U32) (out : List U64) (hsize : pageSize ≠ 0)
    (hzero : ∀ w ∈ out, w = 0) (hout : numPages.toNat ≤ 64 * out.length) :
    (MarksDead m pageSize numPages total out ↔ Seamless m pageSize.toNat numPages.toNat total.toNat)
      ∧ (m.toVec.length < 2 ^ 32 → (Seamless m pageSize.toNat numPages.toNat total.toNat
        ↔ ∀ p < numPages.toNat, Dead m pageSize.toNat total.toNat p → ¬Seam m pageSize.toNat p)) := by
  have hpos : 0 < pageSize.toNat := Nat.pos_of_ne_zero fun h => hsize (BitVec.eq_of_toNat_eq h)
  refine ⟨?_, fun hlen => seamless_iff hpos hlen total.isLt⟩
  have hclear : ∀ i, pageBit out i = false := fun i => by
    unfold pageBit
    rw [getD_eq_getElem?_getD]
    cases hw : out[i / 64]? with
    | none => exact BitVec.getLsbD_zero
    | some w =>
      rw [hzero w (mem_of_getElem? hw)]
      exact BitVec.getLsbD_zero
  obtain ⟨out', hsome, hbits⟩ := @droppablePageBits_spec out m pageSize numPages total hpos hout
  have hbits' : ∀ p, pageBit out' p = true ↔ p < numPages.toNat ∧ Cut m pageSize.toNat total.toNat p := fun p => by
    rw [hbits, hclear, or_iff_right Bool.false_ne_true]
  constructor
  · rintro ⟨marked, hmarked, hdead⟩
    cases hmarked.symm.trans hsome
    have hiff : ∀ p < numPages.toNat, Cut m pageSize.toNat total.toNat p ↔ Dead m pageSize.toNat total.toNat p := fun p hp => by
      have := (hbits' p).symm.trans (hdead p)
      rwa [and_iff_right hp, and_iff_right hp] at this
    exact ⟨fun p hp hd _ => (hiff p hp).mpr hd, fun p hp hw => (hiff p hp).mpr hw.dead, fun p hp => (hiff p hp).mp⟩
  · intro h
    refine ⟨out', hsome, fun p => (hbits' p).trans (and_congr_right fun hp => ⟨h.dead p hp, fun hdead => ?_⟩)⟩
    by_cases hseam : Seam m pageSize.toNat p
    · exact h.seams p hp hdead hseam
    · exact h.kept p hp ((hdead.whole_iff hpos).mpr hseam)

/-- Four cleared positions, then four set ones. -/
theorem droppable_pages_exact_two : (MarksDead ⟨[4, 4], 8⟩ 4 2 8 [0] ↔ Seamless ⟨[4, 4], 8⟩ 4 2 8)
    ∧ ((Grammar.RunMask.toVec ⟨[4, 4], 8⟩).length < 2 ^ 32 → (Seamless ⟨[4, 4], 8⟩ 4 2 8
      ↔ ∀ p < 2, Dead ⟨[4, 4], 8⟩ 4 8 p → ¬Seam ⟨[4, 4], 8⟩ 4 p)) :=
  droppable_pages_exact ⟨[4, 4], 8⟩ 4 2 8 [0] (by decide) (fun _ hw => List.mem_singleton.mp hw) (by decide)

/-- Three cleared positions and one behind the mask make a page, and it is not marked. -/
theorem droppable_page_missed : ¬MarksDead ⟨[3], 3⟩ 4 1 4 [0] := by
  rintro ⟨out', hout, hbits⟩
  have hnothing : droppablePageBits ⟨[3], 3⟩ 4 1 4 [0] = some [0] := rfl
  cases hout.symm.trans hnothing
  have hdead : Dead ⟨[3], 3⟩ 4 4 0 := by
    refine ⟨by decide, fun i _ hi => ?_⟩
    have hvec : Grammar.RunMask.toVec ⟨[3], 3⟩ = [false, false, false] := rfl
    rw [hvec]
    interval_cases i <;> rfl
  have hset : pageBit [0] 0 = true := (hbits 0).mpr ⟨by decide, hdead⟩
  exact absurd hset (by decide)

end RunMask

end Pie.Proof
