import Pie.Proof.BrleRuns

/-!
# Masking and writing without some positions

Both walk the runs and a sorted list of ranges at once. Masking cuts the
positions at every place where the run or the range can change, so that each
piece has the value of its middle.
-/

namespace Pie.Proof

open List Grammar Lib Grammar.RunMask

variable {ranges : List (Nat × Nat)} {l : List Bool} {pos a b x i n : Nat} {runs : List MaskRun} {flag v : Bool}
  {r : U32 × U32} {st : Grammar.RunMask.Skip}

/-- Some range holds position `i`. -/
def within (ranges : List (Nat × Nat)) (i : Nat) : Bool :=
  ranges.any (fun r => decide (r.1 ≤ i ∧ i < r.2))

/-- Ranges that are not empty, in order and apart. -/
structure Ordered (ranges : List (Nat × Nat)) : Prop where
  nonempty : ∀ r ∈ ranges, r.1 < r.2
  apart : ranges.Pairwise (fun r r' => r.2 ≤ r'.1)

theorem Ordered.sublist {ranges ranges' : List (Nat × Nat)} (h : Ordered ranges)
    (hs : ranges'.Sublist ranges) : Ordered ranges' :=
  ⟨fun r hr => h.nonempty r (hs.subset hr), h.apart.sublist hs⟩

/-- Past the ranges that end by `q`, only the next can hold it. -/
theorem Ordered.head_within (h : Ordered ranges) (q : Nat) :
    ((ranges.dropWhile (fun r => decide (r.2 ≤ q))).head?).any (fun r => decide (r.1 ≤ q ∧ q < r.2))
      = within ranges q := by
  induction ranges with
  | nil => rfl
  | cons r ranges ih =>
    have hrest := h.sublist (sublist_cons_self r ranges)
    by_cases hr : r.2 ≤ q
    · rw [dropWhile_cons_of_pos (by simpa using hr), ih hrest]
      simp [within, not_lt.mpr hr]
    · rw [dropWhile_cons_of_neg (by simpa using hr)]
      have hlater : within ranges q = false := by
        rw [within, any_eq_false]
        intro r' hr'
        have := (pairwise_cons.mp h.apart).1 r' hr'
        simp only [decide_eq_true_eq]
        omega
      have hcons : within (r :: ranges) q = (decide (r.1 ≤ q ∧ q < r.2) || within ranges q) := rfl
      rw [hcons, hlater, Bool.or_false]
      rfl

theorem within_dropWhile {q i : Nat} (hi : q ≤ i) :
    within (ranges.dropWhile (fun r => decide (r.2 ≤ q))) i = within ranges i := by
  induction ranges with
  | nil => rfl
  | cons r ranges ih =>
    by_cases hr : r.2 ≤ q
    · rw [dropWhile_cons_of_pos (by simpa using hr), ih]
      have hout : ¬ i < r.2 := by omega
      simp [within, hout]
    · rw [dropWhile_cons_of_neg (by simpa using hr)]

/-- A list that changes only at the positions of `s` is constant between two of them. -/
theorem constant_between {α : Type} {f : Nat → α} {s : Finset Nat} (hf : ∀ i, i + 1 < b → i + 1 ∉ s → f (i + 1) = f i)
    (hgap : ∀ x ∈ s, ¬ (a < x ∧ x < b)) : ∀ i, a ≤ i → i < b → f i = f a := by
  intro i hai
  induction i, hai using Nat.le_induction with
  | base => intro _; rfl
  | succ i hi ih =>
    intro hlt
    rw [hf i hlt (fun hs => hgap _ hs ⟨by omega, hlt⟩), ih (by omega)]

/-- A tiled list changes only where a run starts. -/
theorem Tiled.same (h : Tiled pos runs l) :
    ∀ {i : Nat}, pos ≤ i → i + 1 < pos + l.length → (∀ r ∈ runs, r.start ≠ i + 1) →
      l.getD (i + 1 - pos) false = l.getD (i - pos) false := by
  induction h with
  | nil => intro i hi hlt _; simp at hlt; omega
  | @cons pos n v runs l hn hrest ih =>
    intro i hi hlt hne
    rw [length_append, length_replicate] at hlt
    by_cases hin : i + 1 < pos + n
    · rw [getD_append _ _ _ _ (by rw [length_replicate]; omega),
        getD_append _ _ _ _ (by rw [length_replicate]; omega)]
      simp only [getD_eq_getElem?_getD, getElem?_replicate]
      rw [if_pos (by omega), if_pos (by omega)]
    · by_cases hseam : i + 1 = pos + n
      · exfalso
        cases hrest with
        | nil => simp at hlt; omega
        | cons _ _ => exact hne _ (mem_cons_of_mem _ mem_cons_self) hseam.symm
      · rw [getD_append_right _ _ _ _ (by rw [length_replicate]; omega),
          getD_append_right _ _ _ _ (by rw [length_replicate]; omega),
          length_replicate, Nat.sub_sub, Nat.sub_sub]
        exact ih (by omega) (by omega) (fun r hr => hne r (mem_cons_of_mem _ hr))

theorem Tiled.bounds (h : Tiled pos runs l)
    {r : MaskRun} (hr : r ∈ runs) : pos ≤ r.start ∧ r.start < r.stop ∧ r.stop ≤ pos + l.length := by
  induction h with
  | nil => simp at hr
  | @cons pos n v runs l hn _ ih =>
    rw [length_append, length_replicate]
    rcases mem_cons.mp hr with rfl | hr
    · simp only
      omega
    · have := ih hr
      omega

namespace RunMask

variable {m : RunMask}

/-- What masking leaves at position `i`. -/
def maskedAt (m : RunMask) (ranges : List (Nat × Nat)) (flag : Bool) (i : Nat) : Bool :=
  if within ranges i then flag else m.toVec.getD i false

theorem mem_events : x ∈ m.events ranges ↔ x = 0 ∨ x = m.totalSize
      ∨ (∃ r ∈ ranges, min r.1 m.totalSize < min r.2 m.totalSize
          ∧ (x = min r.1 m.totalSize ∨ x = min r.2 m.totalSize))
      ∨ ∃ r ∈ m.iterRuns, x = r.start ∨ x = r.stop := by
  simp only [events, Finset.mem_insert, Finset.mem_union, mem_toFinset,
    mem_flatMap, mem_filter, mem_map, decide_eq_true_eq, mem_cons,
    not_mem_nil, or_false, len]
  constructor
  · rintro (h | h | ⟨p, ⟨⟨r, hr, rfl⟩, hlt⟩, hx⟩ | ⟨r, hr, hx⟩)
    · exact .inl h
    · exact .inr (.inl h)
    · exact .inr (.inr (.inl ⟨r, hr, hlt, hx⟩))
    · exact .inr (.inr (.inr ⟨r, hr, hx⟩))
  · rintro (h | h | ⟨r, hr, hlt, hx⟩ | ⟨r, hr, hx⟩)
    · exact .inl h
    · exact .inr (.inl h)
    · exact .inr (.inr (.inl ⟨_, ⟨⟨r, hr, rfl⟩, hlt⟩, hx⟩))
    · exact .inr (.inr (.inr ⟨r, hr, hx⟩))

theorem maskedAt_succ (h : Sums m) (ho : Ordered ranges) (hi : i + 1 < m.totalSize) (hev : i + 1 ∉ m.events ranges) :
    maskedAt m ranges flag (i + 1) = maskedAt m ranges flag i := by
  have hlen := h.length
  have hw : within ranges (i + 1) = within ranges i := by
    refine Bool.eq_iff_iff.mpr ?_
    simp only [within, any_eq_true, decide_eq_true_eq]
    have hr : ∀ r ∈ ranges, r.1 ≠ i + 1 ∧ r.2 ≠ i + 1 := by
      intro r hr
      have hlt := ho.nonempty r hr
      refine ⟨fun he => hev ?_, fun he => hev ?_⟩
      · exact mem_events.mpr (.inr (.inr (.inl ⟨r, hr, by omega, by omega⟩)))
      · exact mem_events.mpr (.inr (.inr (.inl ⟨r, hr, by omega, by omega⟩)))
    constructor
    · rintro ⟨r, hmem, h1, h2⟩
      exact ⟨r, hmem, by have := (hr r hmem).1; omega, by omega⟩
    · rintro ⟨r, hmem, h1, h2⟩
      exact ⟨r, hmem, by omega, by have := (hr r hmem).2; omega⟩
  have hv : m.toVec.getD (i + 1) false = m.toVec.getD i false := by
    have := (tiled m).same (i := i) (Nat.zero_le _) (by omega) (fun r hr he =>
      hev (mem_events.mpr (.inr (.inr (.inr ⟨r, hr, .inl he.symm⟩)))))
    simpa using this
  rw [maskedAt, maskedAt, hw, hv]

/-- The state of the sweep at position `a`: the buffer denotes the new mask below it, and what is
left of the ranges and the runs is enough for the positions from it on. -/
structure Swept (m : RunMask) (ranges : List (Nat × Nat)) (flag : Bool) (a : Nat)
    (st : Grammar.RunMask.Sweep) : Prop where
  buffer : bits st.buffer = (List.range a).map (maskedAt m ranges flag)
  sublist : st.ranges.Sublist ranges
  within : ∀ i, a ≤ i → Proof.within st.ranges i = Proof.within ranges i
  runs : ∃ pos, pos ≤ a ∧ Tiled pos st.runs (m.toVec.drop pos)

theorem sweepWindow_swept (h : Sums m) (hsize : m.totalSize < 2 ^ 32)
    (ho : Ordered ranges) (hab : a < b) (hb : b ≤ m.totalSize)
    (hgap : ∀ x ∈ m.events ranges, ¬ (a < x ∧ x < b)) {st : Sweep}
    (hst : Swept m ranges flag a st) :
    ∃ st', sweepWindow flag st (a, b) = some st' ∧ Swept m ranges flag b st' := by
  have hlen := h.length
  set mid := a + (b - a) / 2 with hmid
  have hconst : ∀ i, a ≤ i → i < b → maskedAt m ranges flag i = maskedAt m ranges flag a :=
    constant_between (fun i hi hev => maskedAt_succ h ho (by omega) hev) hgap
  have hpiece : ∀ v, maskedAt m ranges flag mid = v →
      bits (pushRun st.buffer v (BitVec.ofNat 32 (b - a)))
        = (range b).map (maskedAt m ranges flag) := by
    intro v hv
    have hfit : (BitVec.ofNat 32 (b - a)).toNat = b - a := by
      rw [BitVec.toNat_ofNat]
      exact Nat.mod_eq_of_lt (by omega)
    have hbuf : (bits st.buffer).length = a := by rw [hst.buffer]; simp
    rw [bits_pushRun (by rw [hfit, hbuf]; omega), hfit, hst.buffer]
    have hsplit : range b = range a ++ range' a (b - a) := by
      rw [range_eq_range', range_eq_range', show b = a + (b - a) by omega, ← range'_append_1]
      simp
    rw [hsplit, map_append]
    congr 1
    refine (eq_replicate_iff.mpr ⟨by simp, ?_⟩).symm
    intro x hx
    obtain ⟨i, hi, rfl⟩ := mem_map.mp hx
    rw [mem_range'_1] at hi
    rw [hconst i hi.1 (by omega), ← hconst mid (by omega) (by omega), hv]
  have hord := ho.sublist hst.sublist
  have hhead := hord.head_within mid
  rw [hst.within mid (by omega)] at hhead
  have hwithin : ∀ i, b ≤ i →
      Proof.within (st.ranges.dropWhile (fun r => decide (r.2 ≤ mid))) i = Proof.within ranges i := by
    intro i hi
    rw [within_dropWhile (by omega), hst.within i (by omega)]
  have hsub := (dropWhile_sublist (l := st.ranges) (fun r => decide (r.2 ≤ mid))).trans hst.sublist
  obtain ⟨pos, hpos, htiled⟩ := hst.runs
  unfold sweepWindow
  simp only [if_neg (not_le.mpr hab), ← hmid]
  by_cases hmask : Proof.within ranges mid = true
  · rw [hmask] at hhead
    rw [if_pos hhead]
    refine ⟨_, rfl, hpiece flag (by rw [maskedAt, if_pos hmask]), hsub, hwithin, pos, by omega, htiled⟩
  · rw [Bool.not_eq_true] at hmask
    rw [hmask] at hhead
    rw [if_neg (by rw [hhead]; simp)]
    obtain ⟨r, rest, pos', hdrop, h1, h2, h3, _, _, hval⟩ := htiled.advance (q := mid) (by omega)
      (by rw [length_drop]; omega)
    rw [hdrop]
    refine ⟨_, rfl, hpiece r.value ?_, hsub, hwithin, pos', by omega, ?_⟩
    · rw [maskedAt, hmask, if_neg (by simp), getD_eq_getElem?_getD]
      rw [getElem?_drop, show pos + (mid - pos) = mid by omega] at hval
      rw [hval]
      rfl
    · rw [drop_drop, show pos + (pos' - pos) = pos' by omega] at h3
      exact h3

theorem le_getLast {l : List Nat} (h : l.Pairwise (· < ·)) (hx : x ∈ l) : x ≤ l.getLast (ne_nil_of_mem hx) := by
  have hne := ne_nil_of_mem hx
  rw [← dropLast_append_getLast hne, pairwise_append] at h
  rw [← dropLast_append_getLast hne, mem_append] at hx
  rcases hx with hx | hx
  · exact (h.2.2 x hx _ (by simp)).le
  · exact (mem_singleton.mp hx).le

section

variable (h : Sums m) (hsize : m.totalSize < 2 ^ 32)
include h hsize

theorem sweep_swept
    (ho : Ordered ranges) (flag : Bool) : ∀ {rest : List Nat} {a : Nat} (st : Sweep),
      (a :: rest).Pairwise (· < ·) → (∀ x ∈ rest, x ≤ m.totalSize) →
      (∀ x ∈ m.events ranges, a < x → x ∈ rest) → Swept m ranges flag a st →
      ∃ st', ((a :: rest).zip rest).foldlM (sweepWindow flag) st = some st'
        ∧ Swept m ranges flag ((a :: rest).getLast (by simp)) st' := by
  intro rest
  induction rest with
  | nil => intro a st _ _ _ hst; exact ⟨st, rfl, hst⟩
  | cons b rest ih =>
    intro a st hsorted hle hev hst
    rw [pairwise_cons] at hsorted
    have hab := hsorted.1 b mem_cons_self
    have hgap : ∀ x ∈ m.events ranges, ¬ (a < x ∧ x < b) := by
      rintro x hx ⟨h1, h2⟩
      rcases mem_cons.mp (hev x hx h1) with rfl | hmem
      · omega
      · have := (pairwise_cons.mp hsorted.2).1 x hmem
        omega
    obtain ⟨st₁, hrun₁, hst₁⟩ := sweepWindow_swept h hsize ho hab (hle b mem_cons_self) hgap hst
    obtain ⟨st', hrun, hst'⟩ := ih _ hsorted.2 (fun x hx => hle x (mem_cons_of_mem _ hx)) (by
      intro x hx hbx
      rcases mem_cons.mp (hev x hx (by omega)) with rfl | hmem
      · omega
      · exact hmem) hst₁
    refine ⟨st', ?_, by rw [getLast_cons (by simp)]; exact hst'⟩
    rw [zip_cons_cons, foldlM_cons, hrun₁]
    exact hrun

/-- **Masking ranges** sets exactly the positions within them. -/
theorem maskInternal_denotes
    (ho : Ordered ranges) (flag : Bool) : ∃ m', m.maskInternal ranges flag = some m'
      ∧ Denotes m' ((range m.totalSize).map (maskedAt m ranges flag)) := by
  have hlen := h.length
  unfold maskInternal
  by_cases htriv : ranges = [] ∨ m.totalSize = 0
  · rw [if_pos htriv]
    refine ⟨m, rfl, ?_, by simp⟩
    refine ext_getElem (by simp [hlen]) ?_
    intro i h1 h2
    have hnone : within ranges i = false := by
      rcases htriv with rfl | h0
      · rfl
      · omega
    simp [maskedAt, hnone, getD_eq_getElem?_getD, getElem?_eq_getElem h1]
  · rw [if_neg htriv]
    rw [not_or] at htriv
    set points : List Nat := (m.events ranges).sort with hdef
    have hsorted : points.Pairwise (· < ·) := by
      have hle := Finset.pairwise_sort (m.events ranges) (fun a b : Nat => a ≤ b)
      have hne := Finset.sort_nodup (m.events ranges) (fun a b : Nat => a ≤ b)
      exact (hle.and hne).imp (fun hab => lt_of_le_of_ne hab.1 hab.2)
    have hmem : ∀ {x}, x ∈ points ↔ x ∈ m.events ranges := Finset.mem_sort _
    have hbound : ∀ x ∈ m.events ranges, x ≤ m.totalSize := by
      intro x hx
      rcases mem_events.mp hx with rfl | rfl | ⟨r, _, _, hx⟩ | ⟨r, hr, hx⟩
      · omega
      · exact le_refl _
      · omega
      · have := (tiled m).bounds hr
        omega
    have hzero : 0 ∈ points := hmem.mpr (mem_events.mpr (.inl rfl))
    obtain ⟨a, rest, hpoints⟩ := exists_cons_of_ne_nil (ne_nil_of_mem hzero)
    rw [hpoints] at hsorted hmem
    have ha : a = 0 := by
      rcases mem_cons.mp (hmem.mpr (mem_events.mpr (.inl rfl))) with h0 | h0
      · exact h0.symm
      · have := (pairwise_cons.mp hsorted).1 0 h0
        omega
    have hlast : (a :: rest).getLast (by simp) = m.totalSize := by
      have hin : (a :: rest).getLast (by simp) ∈ m.events ranges := hmem.mp (getLast_mem _)
      have hmax := hmem.mpr (mem_events.mpr (.inr (.inl rfl)))
      have hle := le_getLast hsorted hmax
      have := hbound _ hin
      omega
    obtain ⟨st', hrun, hst'⟩ := sweep_swept h hsize ho flag (a := a)
      ⟨[], ranges, m.iterRuns⟩ hsorted
      (fun x hx => hbound x (hmem.mp (mem_cons_of_mem _ hx)))
      (fun x hx hax => by
        rcases mem_cons.mp (hmem.mpr hx) with rfl | hx
        · omega
        · exact hx)
      ⟨by rw [ha]; rfl, Sublist.refl _, fun _ _ => rfl, 0, Nat.zero_le _, tiled m⟩
    rw [hlast] at hst'
    refine ⟨{ m with buffer := st'.buffer }, ?_, ?_, by simp⟩
    · simp only [hpoints, tail_cons, hrun, Option.bind_eq_bind, Option.bind_some]
    · rw [toVec_eq]
      exact hst'.buffer

theorem maskRange_denotes (start stop : Nat)
    (flag : Bool) : ∃ m', m.maskRange start stop flag = some m'
      ∧ Denotes m' ((range m.totalSize).map (fun i =>
          if start ≤ i ∧ i < stop then flag else m.toVec.getD i false)) := by
  unfold maskRange
  by_cases hle : stop ≤ start
  · rw [if_pos hle]
    obtain ⟨m', hrun, hden⟩ := maskInternal_denotes h hsize (show Ordered [] from ⟨by simp, by simp⟩) flag
    refine ⟨m', ?_, ?_⟩
    · rw [← hrun]
      simp [maskInternal]
    · convert hden using 3 with i
      have hno : ¬ (start ≤ i ∧ i < stop) := by omega
      simp [maskedAt, within, hno]
  · rw [if_neg hle]
    obtain ⟨m', hrun, hden⟩ := maskInternal_denotes h hsize
      (show Ordered [(start, stop)] from ⟨by simpa using hle, by simp⟩) flag
    refine ⟨m', hrun, ?_⟩
    convert hden using 3 with i
    simp [maskedAt, within]

end

theorem groupRanges_spec : ∀ {rest : List Nat} {start stop : Nat}, start < stop →
    (∀ x ∈ rest, stop ≤ x) → rest.Pairwise (· < ·) →
      Ordered (groupRanges rest start stop)
        ∧ (∀ r ∈ groupRanges rest start stop, start ≤ r.1)
        ∧ ∀ i, within (groupRanges rest start stop) i = true ↔
            (start ≤ i ∧ i < stop) ∨ i ∈ rest := by
  intro rest
  induction rest with
  | nil =>
    intro start stop hlt _ _
    exact ⟨⟨by simpa [groupRanges] using hlt, by simp [groupRanges]⟩,
      by simp [groupRanges], by simp [groupRanges, within]⟩
  | cons x rest ih =>
    intro start stop hlt hge hsorted
    rw [pairwise_cons] at hsorted
    have hx := hge x mem_cons_self
    have hnext : ∀ y ∈ rest, x + 1 ≤ y := fun y hy => hsorted.1 y hy
    rw [groupRanges]
    by_cases he : x = stop
    · rw [if_pos he]
      obtain ⟨h1, h2, h3⟩ := ih (show start < x + 1 by omega) hnext hsorted.2
      refine ⟨h1, h2, ?_⟩
      intro i
      rw [h3, mem_cons]
      constructor
      · rintro (hi | hi)
        · by_cases hix : i = x
          · exact .inr (.inl hix)
          · exact .inl (by omega)
        · exact .inr (.inr hi)
      · rintro (hi | rfl | hi)
        · exact .inl (by omega)
        · exact .inl (by omega)
        · exact .inr hi
    · rw [if_neg he]
      obtain ⟨h1, h2, h3⟩ := ih (show x < x + 1 by omega) hnext hsorted.2
      refine ⟨⟨?_, ?_⟩, ?_, ?_⟩
      · intro r hr
        rcases mem_cons.mp hr with rfl | hr
        · exact hlt
        · exact h1.nonempty r hr
      · rw [pairwise_cons]
        refine ⟨?_, h1.apart⟩
        intro r hr
        have := h2 r hr
        show stop ≤ r.1
        omega
      · intro r hr
        rcases mem_cons.mp hr with rfl | hr
        · exact le_refl _
        · have := h2 r hr
          omega
      · intro i
        have hcons : within ((start, stop) :: groupRanges rest x (x + 1)) i
            = (decide (start ≤ i ∧ i < stop)
              || within (groupRanges rest x (x + 1)) i) := rfl
        rw [hcons, Bool.or_eq_true, h3, decide_eq_true_eq, mem_cons]
        constructor
        · rintro (hi | hi | hi)
          · exact .inl hi
          · exact .inr (.inl (by omega))
          · exact .inr (.inr hi)
        · rintro (hi | rfl | hi)
          · exact .inl hi
          · exact .inr (.inl (by omega))
          · exact .inr (.inr hi)

/-- **Masking indices** sets exactly those. -/
theorem mask_denotes (h : Sums m) (hsize : m.totalSize < 2 ^ 32) (indices : List Nat) (flag : Bool) :
    ∃ m', m.mask indices flag = some m'
      ∧ Denotes m' ((range m.totalSize).map (fun i =>
          if i ∈ indices then flag else m.toVec.getD i false)) := by
  unfold mask
  set sorted := (indices.mergeSort (fun a b => decide (a ≤ b))).dedup with hdef
  have hmem : ∀ {i}, i ∈ sorted ↔ i ∈ indices := by
    intro i
    rw [hdef, mem_dedup, (mergeSort_perm _ _).mem_iff]
  have hsorted : sorted.Pairwise (· < ·) := by
    have hle := (@List.pairwise_mergeSort _ (fun (a b : Nat) => decide (a ≤ b))
      (by intro a b c hab hbc; simp only [decide_eq_true_eq] at *; omega)
      (by intro a b; simp only [Bool.or_eq_true, decide_eq_true_eq]; omega) indices).imp
        (fun h => of_decide_eq_true h)
    exact ((hle.sublist (dedup_sublist _)).and (nodup_dedup _)).imp
      (fun hab => lt_of_le_of_ne hab.1 hab.2)
  cases hs : sorted with
  | nil =>
    obtain ⟨m', hrun, hden⟩ := maskInternal_denotes h hsize (show Ordered [] from ⟨by simp, by simp⟩) flag
    have hm : m' = m := by
      simpa [maskInternal] using hrun.symm
    refine ⟨m, rfl, ?_⟩
    rw [hm] at hden
    convert hden using 3 with i
    have hno : i ∉ indices := by rw [← hmem, hs]; simp
    simp [maskedAt, within, hno]
  | cons first rest =>
    rw [hs] at hsorted hmem
    rw [pairwise_cons] at hsorted
    obtain ⟨hord, _, hwithin⟩ := groupRanges_spec
      (show first < first + 1 by omega) hsorted.1 hsorted.2
    obtain ⟨m', hrun, hden⟩ := maskInternal_denotes h hsize hord flag
    refine ⟨m', hrun, ?_⟩
    convert hden using 3 with i
    have hiff : within (groupRanges rest first (first + 1)) i = true ↔ i ∈ indices := by
      rw [hwithin, ← hmem, mem_cons]
      constructor
      · rintro (hi | hi)
        · exact .inl (by omega)
        · exact .inr hi
      · rintro (rfl | hi)
        · exact .inl (by omega)
        · exact .inr hi
    simp only [maskedAt, hiff]

end RunMask

/-! ## Writing without some positions -/

theorem countP_interval (a b s n : Nat) :
    (range' s n).countP (fun i => decide (a ≤ i ∧ i < b)) = min b (s + n) - max a s := by
  induction n with
  | zero => simp
  | succ n ih =>
    rw [range'_1_concat, countP_append, ih, countP_singleton]
    by_cases h : a ≤ s + n ∧ s + n < b
    · rw [if_pos (decide_eq_true h)]
      omega
    · rw [if_neg (by simpa using h)]
      omega

theorem countP_cons_apart {r : Nat × Nat} {l : List Nat} (h : ∀ r' ∈ ranges, r.2 ≤ r'.1) :
    l.countP (within (r :: ranges)) =
      l.countP (fun i => decide (r.1 ≤ i ∧ i < r.2)) + l.countP (within ranges) := by
  induction l with
  | nil => rfl
  | cons i l ih =>
    rw [countP_cons, countP_cons, countP_cons, ih]
    have hcons : within (r :: ranges) i = (decide (r.1 ≤ i ∧ i < r.2) || within ranges i) := rfl
    by_cases hi : r.1 ≤ i ∧ i < r.2
    · have hno : within ranges i = false := by
        rw [within, any_eq_false]
        intro r' hr'
        have := h r' hr'
        simp only [decide_eq_true_eq]
        omega
      simp [hcons, hi, hno]
      omega
    · simp [hcons, hi]
      omega

theorem countP_past {s n : Nat} (h : ∀ r ∈ ranges, s + n ≤ r.1) : (range' s n).countP (within ranges) = 0 := by
  rw [countP_eq_zero]
  intro i hi
  rw [mem_range'_1] at hi
  rw [within, any_eq_true]
  rintro ⟨r, hr, hin⟩
  have := h r hr
  have := of_decide_eq_true hin
  omega

/-- The positions of a skip range. -/
def natRange (r : U32 × U32) : Nat × Nat := (r.1.toNat, r.2.toNat)

/-- Skip ranges in order and apart. -/
structure Skips (ranges : List (U32 × U32)) : Prop where
  forward : ∀ r ∈ ranges, r.1.toNat ≤ r.2.toNat
  apart : ranges.Pairwise (fun r r' => r.2.toNat ≤ r'.1.toNat)

theorem Skips.tail {ranges : List (U32 × U32)} (h : Skips (r :: ranges)) : Skips ranges :=
  ⟨fun r' hr' => h.forward r' (mem_cons_of_mem _ hr'), (pairwise_cons.mp h.apart).2⟩

theorem Skips.next {ranges : List (U32 × U32)} (h : Skips (r :: ranges)) :
    ∀ r' ∈ ranges.map natRange, (natRange r).2 ≤ r'.1 := by
  intro r' hr'
  obtain ⟨q, hq, rfl⟩ := mem_map.mp hr'
  exact (pairwise_cons.mp h.apart).1 q hq

/-- What the ranges take of one run, and that what is left of them serves the next. -/
theorem skipRun_spec {s e : U32} (hse : s.toNat ≤ e.toNat) : ∀ {ranges : List (U32 × U32)} (acc : U32), Skips ranges →
    acc.toNat + (range' s.toNat (e.toNat - s.toNat)).countP (within (ranges.map natRange)) < 2 ^ 32 →
    (skipRun s e ranges acc).1.toNat = acc.toNat
        + (range' s.toNat (e.toNat - s.toNat)).countP (within (ranges.map natRange))
      ∧ Skips (skipRun s e ranges acc).2
      ∧ ∀ i, e.toNat ≤ i → within ((skipRun s e ranges acc).2.map natRange) i
          = within (ranges.map natRange) i := by
  intro ranges
  induction ranges with
  | nil =>
    intro acc h _
    refine ⟨?_, h, fun _ _ => rfl⟩
    simp [skipRun, within]
  | cons r ranges ih =>
    intro acc h hlt
    obtain ⟨rs, re⟩ := r
    have hforward : rs.toNat ≤ re.toNat := h.forward (rs, re) mem_cons_self
    have hnext := h.next
    rw [map_cons, countP_cons_apart hnext, natRange, countP_interval] at hlt ⊢
    simp only [Nat.add_sub_cancel' hse] at hlt ⊢
    rw [skipRun]
    simp only [BitVec.le_def, BitVec.lt_def]
    by_cases hbreak : e.toNat ≤ rs.toNat
    · rw [if_pos hbreak]
      refine ⟨?_, h, fun _ _ => rfl⟩
      show acc.toNat = _
      rw [countP_past]
      · omega
      · intro r' hr'
        have : re.toNat ≤ r'.1 := hnext r' hr'
        omega
    · rw [if_neg hbreak]
      set oS := if rs.toNat ≤ s.toNat then s else rs with hoS
      set oE := if re.toNat ≤ e.toNat then re else e with hoE
      have hS : oS.toNat = max rs.toNat s.toNat := by
        rw [hoS]
        split <;> omega
      have hE : oE.toNat = min re.toNat e.toNat := by
        rw [hoE]
        split <;> omega
      set acc' := if oS.toNat < oE.toNat then acc + (oE - oS) else acc with hacc
      have hacc' : acc'.toNat = acc.toNat + (min re.toNat e.toNat - max rs.toNat s.toNat) := by
        rw [hacc]
        split
        · rename_i hov
          have hsub : (oE - oS).toNat = oE.toNat - oS.toNat :=
            BitVec.toNat_sub_of_le (BitVec.le_def.mpr hov.le)
          rw [toNat_add_of_lt (by rw [hsub]; omega), hsub, hS, hE]
        · omega
      by_cases hdone : re.toNat ≤ e.toNat
      · rw [if_pos hdone]
        obtain ⟨h1, h2, h3⟩ := ih acc' h.tail (by rw [hacc']; omega)
        refine ⟨by rw [h1, hacc']; omega, h2, ?_⟩
        intro i hi
        rw [h3 i hi]
        have hcons : within ((rs.toNat, re.toNat) :: ranges.map natRange) i
            = (decide (rs.toNat ≤ i ∧ i < re.toNat) || within (ranges.map natRange) i) := rfl
        have hno : ¬ i < re.toNat := by omega
        rw [hcons]
        simp [hno]
      · rw [if_neg hdone]
        refine ⟨?_, h, fun _ _ => rfl⟩
        show acc'.toNat = _
        rw [hacc', countP_past]
        · omega
        · intro r' hr'
          have : re.toNat ≤ r'.1 := hnext r' hr'
          omega

/-- The elements of `l`, the first at `pos`, whose position no range holds. -/
def kept (ranges : List (Nat × Nat)) (l : List Bool) (pos : Nat) : List Bool :=
  ((l.zipIdx pos).filter (fun p => !within ranges p.2)).map Prod.fst

theorem kept_append (ranges : List (Nat × Nat)) (l l' : List Bool) (pos : Nat) :
    kept ranges (l ++ l') pos = kept ranges l pos ++ kept ranges l' (pos + l.length) := by
  rw [kept, zipIdx_append, filter_append, map_append]
  rfl

theorem kept_length (ranges : List (Nat × Nat)) (l : List Bool) (pos : Nat) :
    (kept ranges l pos).length + (range' pos l.length).countP (within ranges) = l.length := by
  induction l generalizing pos with
  | nil => rfl
  | cons b l ih =>
    have := ih (pos + 1)
    rw [kept] at this ⊢
    rw [zipIdx_cons, filter_cons, length_cons, range'_succ, countP_cons]
    cases hb : within ranges pos <;> simp_all <;> omega

theorem kept_replicate (ranges : List (Nat × Nat)) (n : Nat) (v : Bool) (pos : Nat) :
    kept ranges (replicate n v) pos =
      replicate (n - (range' pos n).countP (within ranges)) v := by
  refine eq_replicate_iff.mpr ⟨?_, ?_⟩
  · have := kept_length ranges (replicate n v) pos
    rw [length_replicate] at this
    omega
  · intro b hb
    obtain ⟨p, hp, rfl⟩ := mem_map.mp hb
    have := fst_mem_of_mem_zipIdx (mem_of_mem_filter hp)
    exact eq_of_mem_replicate this

/-- The state of the write: the output denotes what was kept, and ends with the value it says. -/
structure Written (st : Grammar.RunMask.Skip) (l : List Bool) : Prop where
  denotes : bits st.out = l
  total : st.newTotal.toNat = l.length
  none : st.lastValue = none → st.out = []
  some : ∀ {v}, st.lastValue = some v → ∃ init r, st.out = init ++ [r] ∧ after false init.length = v
  skips : Skips st.ranges

theorem Written.push (h : Written st l)
    {len : U32} {ranges : List (U32 × U32)} (hs : Skips ranges) (hlt : l.length + len.toNat < 2 ^ 32) :
    Written (st.write v len ranges) (l ++ replicate len.toNat v)
      ∧ (st.write v len ranges).ranges = ranges := by
  have htotal : (st.newTotal + len).toNat = (l ++ replicate len.toNat v).length := by
    rw [toNat_add_of_lt (by rw [h.total]; exact hlt), h.total, length_append, length_replicate]
  have hden := h.denotes
  unfold Skip.write
  cases hv : st.lastValue with
  | none =>
    have hout := h.none hv
    rw [hout, bits_nil] at hden
    subst hden
    simp only [hout, nil_append]
    refine ⟨⟨?_, by simpa using htotal, by simp, ?_, hs⟩, trivial⟩
    · cases v <;> simp [bits]
    · intro w hw
      cases hw
      cases v with
      | true => exact ⟨[0], len, by simp, rfl⟩
      | false => exact ⟨[], len, by simp, rfl⟩
  | some lv =>
    obtain ⟨init, r, hsplit, hval⟩ := h.some hv
    have hr := last_le init r
    rw [← hsplit, hden] at hr
    by_cases hlv : lv = v
    · simp only [if_pos hlv]
      refine ⟨⟨?_, htotal, by simp, ?_, hs⟩, trivial⟩
      · show bits (growLast st.out len) = _
        rw [hsplit, bits_growLast (by omega), ← hsplit, hden, hval, hlv]
      · intro w hw
        cases hw
        exact ⟨init, r + len, by rw [hsplit, growLast_concat], hval⟩
    · have hflip : (!lv) = v := by cases lv <;> cases v <;> simp_all
      simp only [if_neg hlv]
      refine ⟨⟨?_, htotal, by simp, ?_, hs⟩, trivial⟩
      · show bits (st.out ++ [len]) = _
        rw [bits_concat, hden, hsplit, length_append, length_singleton, after_succ', hval, hflip]
      · intro w hw
        cases hw
        refine ⟨st.out, len, rfl, ?_⟩
        rw [hsplit, length_append, length_singleton, after_succ', hval, hflip]

theorem skipStep_written {out : List Bool} (h : Written st out)
    (hranges : ∀ i, pos ≤ i → within (st.ranges.map natRange) i = within ranges i)
    (hlt : out.length + n < 2 ^ 32) (hpos : pos + n < 2 ^ 32) :
    Written (skipStep st ⟨v, pos, pos + n⟩)
        (out ++ kept ranges (replicate n v) pos)
      ∧ ∀ i, pos + n ≤ i →
          within ((skipStep st ⟨v, pos, pos + n⟩).ranges.map natRange) i
            = within ranges i := by
  have hs : (BitVec.ofNat 32 pos).toNat = pos := by
    rw [BitVec.toNat_ofNat]
    exact Nat.mod_eq_of_lt (by omega)
  have he : (BitVec.ofNat 32 (pos + n)).toNat = pos + n := by
    rw [BitVec.toNat_ofNat]
    exact Nat.mod_eq_of_lt hpos
  set s := BitVec.ofNat 32 pos with hsdef
  set e := BitVec.ofNat 32 (pos + n) with hedef
  have hcount : (range' pos n).countP (within (st.ranges.map natRange))
      = (range' pos n).countP (within ranges) := by
    refine countP_congr ?_
    intro i hi
    rw [mem_range'_1] at hi
    rw [hranges i hi.1]
  have hle : (range' pos n).countP (within ranges) ≤ n := by
    have := countP_le_length (p := within ranges) (l := range' pos n)
    simpa using this
  obtain ⟨h1, h2, h3⟩ := skipRun_spec (s := s) (e := e) (by omega) 0
    h.skips (by rw [hs, he, Nat.add_sub_cancel_left, hcount]; simp; omega)
  rw [hs, he, Nat.add_sub_cancel_left, hcount] at h1
  rw [show (0 : U32).toNat = 0 from rfl, zero_add] at h1
  rw [he] at h3
  have hrest : ∀ i, pos + n ≤ i →
      within ((skipRun s e st.ranges 0).2.map natRange) i = within ranges i := by
    intro i hi
    rw [h3 i hi, hranges i (by omega)]
  set skipped := (skipRun s e st.ranges 0).1 with hskipped
  have heff : ((e - s) - skipped).toNat = n - (range' pos n).countP (within ranges) := by
    have hes : (e - s).toNat = n := by
      rw [BitVec.toNat_sub_of_le (BitVec.le_def.mpr (by omega)), hs, he]
      omega
    rw [BitVec.toNat_sub_of_le (BitVec.le_def.mpr (by omega)), hes, h1]
  rw [kept_replicate, ← heff]
  have hstep : skipStep st ⟨v, pos, pos + n⟩ =
      if e - s - skipped = 0 then { st with ranges := (skipRun s e st.ranges 0).2 }
      else st.write v (e - s - skipped) (skipRun s e st.ranges 0).2 := rfl
  rw [hstep]
  by_cases h0 : e - s - skipped = 0
  · rw [if_pos h0, h0]
    exact ⟨⟨by simpa using h.denotes, by simpa using h.total, h.none, h.some, h2⟩, hrest⟩
  · rw [if_neg h0]
    obtain ⟨hw, hr⟩ := h.push (v := v) h2 (by rw [heff]; omega)
    refine ⟨hw, ?_⟩
    intro i hi
    rw [hr]
    exact hrest i hi

theorem skip_tiled (htiled : Tiled pos runs l) : ∀ {st : Skip} {out : List Bool}, Written st out →
      (∀ i, pos ≤ i → within (st.ranges.map natRange) i = within ranges i) →
      out.length + l.length < 2 ^ 32 → pos + l.length < 2 ^ 32 →
      Written (runs.foldl skipStep st) (out ++ kept ranges l pos) := by
  induction htiled with
  | nil => intro st out h _ _ _; simpa [kept] using h
  | @cons pos n v runs l hn _ ih =>
    intro st out h hranges hlt hpos
    rw [length_append, length_replicate] at hlt hpos
    obtain ⟨h1, h2⟩ := skipStep_written (v := v) h hranges (n := n) (by omega) (by omega)
    have hk := kept_length ranges (replicate n v) pos
    rw [length_replicate] at hk
    rw [foldl_cons, kept_append, length_replicate, ← append_assoc]
    refine ih h1 h2 ?_ (by omega)
    rw [length_append]
    omega

namespace RunMask

variable {m : RunMask}

/-- **Writing without the skipped positions** denotes the mask without them. -/
theorem writeSkipping_spec (h : Sums m) (hsize : m.totalSize < 2 ^ 32) {skips : List (U32 × U32)}
    (hs : Skips skips) : bits (m.writeSkipping skips []).2 = kept (skips.map natRange) m.toVec 0
      ∧ (m.writeSkipping skips []).1.toNat = (kept (skips.map natRange) m.toVec 0).length := by
  have hlen := h.length
  have hw : Written ⟨none, 0, skips, []⟩ [] := ⟨rfl, rfl, fun _ => rfl, by simp, hs⟩
  have := skip_tiled (tiled m) hw (fun _ _ => rfl)
    (by simpa [hlen] using hsize) (by omega)
  exact ⟨this.denotes, this.total⟩

end RunMask

end Pie.Proof
