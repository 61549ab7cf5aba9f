import Pie.Grammar.Brle
import Pie.Lib.Loops

/-!
# What the mask operations compute

A buffer denotes a list of booleans, and `iter_runs` tiles that list. Every
operation that walks the runs is proved over a tiling, so that the parity of the
buffer and the seams between runs are dealt with once, where a run is pushed.
-/

namespace Pie.Proof

open Grammar Lib Grammar.RunMask

variable {init rest : List U32} {len r x : U32} {v : Bool} {α : Type} {a b : Nat}

/-! ## Buffers -/

/-- The list a buffer denotes. -/
def bits (buffer : List U32) : List Bool := alternate false (buffer.map BitVec.toNat)

@[simp] theorem bits_nil : bits [] = [] := rfl

theorem bits_length (buffer : List U32) : (bits buffer).length = (buffer.map BitVec.toNat).sum :=
  alternate_length

theorem after_false (n : Nat) : after false n = (n % 2 != 0) := by
  unfold after
  rcases Nat.mod_two_eq_zero_or_one n with h | h <;> simp [h]

theorem bits_concat (init : List U32) (r : U32) :
    bits (init ++ [r]) = bits init ++ List.replicate r.toNat (after false init.length) := by
  rw [bits, List.map_append, List.map_singleton, alternate_concat, List.length_map]
  rfl

theorem bits_append (a b : List U32) :
    bits (a ++ b) = bits a ++ alternate (after false a.length) (b.map BitVec.toNat) := by
  rw [bits, List.map_append, alternate_append, List.length_map]
  rfl

theorem lastRunIsTrue_concat (init : List U32) (r : U32) : lastRunIsTrue (init ++ [r]) = after false init.length := by
  simp [lastRunIsTrue, after_false]

theorem growLast_concat (init : List U32) (r len : U32) : growLast (init ++ [r]) len = init ++ [r + len] := by
  simp [growLast]

theorem toNat_add_of_lt {x y : U32} (h : x.toNat + y.toNat < 2 ^ 32) : (x + y).toNat = x.toNat + y.toNat := by
  rw [BitVec.toNat_add, Nat.mod_eq_of_lt h]

theorem bits_growLast (h : r.toNat + len.toNat < 2 ^ 32) : bits (growLast (init ++ [r]) len) =
      bits (init ++ [r]) ++ List.replicate len.toNat (after false init.length) := by
  rw [growLast_concat, bits_concat, bits_concat, toNat_add_of_lt h, List.append_assoc, ← List.replicate_add]

theorem concat_cases (l : List α) : l = [] ∨ ∃ init r, l = init ++ [r] :=
  (List.eq_nil_or_concat l).imp id (fun ⟨init, r, h⟩ => ⟨init, r, by simpa using h⟩)

theorem last_le (init : List U32) (r : U32) : r.toNat ≤ (bits (init ++ [r])).length := by
  rw [bits_concat, List.length_append, List.length_replicate]
  omega

/-- **Pushing a run** appends it, whatever the buffer ends with. -/
theorem bits_pushRun {buffer : List U32} (h : (bits buffer).length + len.toNat < 2 ^ 32) :
    bits (pushRun buffer v len) = bits buffer ++ List.replicate len.toNat v := by
  rcases concat_cases buffer with rfl | ⟨init, r, rfl⟩
  · cases v <;> simp [pushRun, bits]
  · have hempty : (init ++ [r]).isEmpty = false := by simp
    rw [pushRun, hempty, lastRunIsTrue_concat]
    by_cases hv : after false init.length = v
    · simp only [hv, beq_self_eq_true, if_true, Bool.false_eq_true, if_false]
      rw [bits_growLast (by have := last_le init r; omega), hv]
    · have hne : (after false init.length == v) = false := by simpa using hv
      simp only [hne, Bool.false_eq_true, if_false]
      rw [bits_concat (init ++ [r]), List.length_append, List.length_singleton, after_succ']
      rw [show (!after false init.length) = v by cases v <;> simp_all]

/-! ## Tilings -/

/-- `runs` are the non-empty runs of a list whose first element is at `pos`. -/
inductive Tiled : Nat → List MaskRun → List Bool → Prop where
  | nil {pos : Nat} : Tiled pos [] []
  | cons {pos n : Nat} {v : Bool} {runs : List MaskRun} {l : List Bool} : 0 < n →
      Tiled (pos + n) runs l → Tiled pos (⟨v, pos, pos + n⟩ :: runs) (List.replicate n v ++ l)

theorem iterRunsFrom_tiled : ∀ (buffer : List U32) (index pos : Nat), Tiled pos (iterRunsFrom buffer index pos)
      (alternate (index % 2 != 0) (buffer.map BitVec.toNat))
  | [], _, _ => .nil
  | r :: rest, index, pos => by
    have ih := iterRunsFrom_tiled rest (index + 1) (pos + r.toNat)
    have hpar : ((index + 1) % 2 != 0) = !(index % 2 != 0) := by
      rw [← after_false, ← after_false, after_succ']
    rw [hpar] at ih
    rw [iterRunsFrom, List.map_cons, alternate_cons]
    split
    · rename_i hr
      exact .cons hr ih
    · rename_i hr
      have h0 : r.toNat = 0 := by omega
      simpa [h0] using ih

namespace Tiled

variable {pos : Nat} {runs : List MaskRun} {l : List Bool}

theorem flatMap_eq (h : Tiled pos runs l) :
    runs.flatMap (fun r => List.replicate (r.stop - r.start) r.value) = l := by
  induction h with
  | nil => rfl
  | cons _ _ ih => rw [List.flatMap_cons, ih]; simp

end Tiled

namespace RunMask

variable {m other : RunMask}

/-- **What a mask denotes** is what its buffer does. -/
theorem toVec_eq (m : RunMask) : m.toVec = bits m.buffer :=
  (iterRunsFrom_tiled m.buffer 0 0).flatMap_eq

theorem tiled (m : RunMask) : Tiled 0 m.iterRuns m.toVec := by
  rw [toVec_eq]
  exact iterRunsFrom_tiled m.buffer 0 0

/-- The runs sum to the size. -/
def Sums (m : RunMask) : Prop := (m.buffer.map BitVec.toNat).sum = m.totalSize

theorem Sums.length (h : Sums m) : m.toVec.length = m.totalSize := by
  rw [toVec_eq, bits_length]
  exact h

theorem sums_iff : Sums m ↔ m.toVec.length = m.totalSize := by
  rw [toVec_eq, bits_length]
  rfl

/-- `m` denotes `l`, and its size is the length of it. -/
def Denotes (m : RunMask) (l : List Bool) : Prop := m.toVec = l ∧ m.totalSize = l.length

theorem Denotes.sums {l : List Bool} (h : Denotes m l) : Sums m := by
  rw [sums_iff, h.1, h.2]

theorem Sums.denotes (h : Sums m) : Denotes m m.toVec := ⟨rfl, h.length.symm⟩

/-! ## Growing -/

theorem append_denotes (h : Sums m) (flag : Bool) (hlt : m.totalSize + 1 < 2 ^ 32) :
    Denotes (m.append flag) (m.toVec ++ [flag]) := by
  have hlen := h.length
  refine ⟨?_, by simp [append, hlen]⟩
  rw [toVec_eq] at hlen ⊢
  show bits (pushRun m.buffer flag 1) = _
  rw [bits_pushRun (by simpa [hlen] using hlt), toVec_eq]
  rfl

theorem bits_growLast_append (h : r.toNat + x.toNat < 2 ^ 32) :
    bits (growLast (init ++ [r]) x ++ rest) = bits (init ++ [r])
      ++ alternate (after false init.length) ((x :: rest).map BitVec.toNat) := by
  rw [bits_append, bits_growLast h, growLast_concat, List.length_append, List.length_singleton,
    after_succ', List.map_cons, alternate_cons, List.append_assoc]

/-- What `extend` takes to be the first run of the other mask. -/
theorem first_run {first : Bool} (h : first = ((x :: rest).head? == some 0 && decide (1 < (x :: rest).length))) :
    (first = true ∧ x = 0 ∧ ∃ y tail, rest = y :: tail) ∨ first = false := by
  cases first with
  | false => exact .inr rfl
  | true =>
    refine .inl ⟨rfl, ?_⟩
    cases rest with
    | nil => simp at h
    | cons y tail => simpa using h

/-- **Extending** a mask appends the other. -/
theorem extend_denotes (h : Sums m) (h' : Sums other) (hlt : m.totalSize + other.totalSize < 2 ^ 32) :
    Denotes (m.extend other) (m.toVec ++ other.toVec) := by
  have hlen := h.length
  have hlen' := h'.length
  unfold extend
  split
  · rename_i hempty
    have h0 : other.totalSize = 0 := by simpa [isEmpty] using hempty
    have hnil : other.toVec = [] := List.length_eq_zero_iff.mp (by omega)
    simpa [hnil] using h.denotes
  · split
    · rename_i _ hempty
      have h0 : m.totalSize = 0 := by simpa [isEmpty] using hempty
      have hnil : m.toVec = [] := List.length_eq_zero_iff.mp (by omega)
      simpa [hnil] using h'.denotes
    · rename_i hother hself
      refine ⟨?_, by simp [hlen, hlen']⟩
      rw [toVec_eq, toVec_eq m, toVec_eq other]
      rw [toVec_eq] at hlen hlen'
      obtain ⟨init, r, hm⟩ : ∃ init r, m.buffer = init ++ [r] := by
        rcases concat_cases m.buffer with hb | hb
        · rw [hb] at hlen
          simp [isEmpty, ← hlen] at hself
        · exact hb
      obtain ⟨x, rest, ho⟩ : ∃ x rest, other.buffer = x :: rest := by
        cases hb : other.buffer with
        | nil =>
          rw [hb] at hlen'
          simp [isEmpty, ← hlen'] at hother
        | cons x rest => exact ⟨x, rest, rfl⟩
      have hr : r.toNat ≤ m.totalSize := by
        rw [← hlen, hm]
        exact last_le init r
      have hx : ((x :: rest).map BitVec.toNat).sum = other.totalSize := by
        rw [← ho]
        exact h'
      simp only [hm, ho, lastRunIsTrue_concat]
      set first := (x :: rest).head? == some 0 && decide (1 < (x :: rest).length) with hfirst
      -- the four ways the last run of one mask meets the first of the other
      rcases first_run hfirst with ⟨hf, rfl, y, tail, rfl⟩ | hf
      · have hy : r.toNat + y.toNat < 2 ^ 32 := by
          simp only [List.map_cons, List.sum_cons] at hx
          omega
        rw [hf]
        cases hlast : after false init.length with
        | true =>
          simp only [beq_self_eq_true, if_true, List.drop_succ_cons, List.drop_zero,
            List.getD_cons_succ, List.getD_cons_zero]
          rw [bits_growLast_append hy, hlast]
          simp [bits]
        | false =>
          simp only [Bool.false_beq, Bool.not_true, Bool.false_eq_true, if_false, if_true,
            List.drop_succ_cons, List.drop_zero]
          rw [bits_append (init ++ [r]), List.length_append, List.length_singleton, after_succ', hlast]
          simp [bits]
      · have hy : r.toNat + x.toNat < 2 ^ 32 := by
          simp only [List.map_cons, List.sum_cons] at hx
          omega
        rw [hf]
        cases hlast : after false init.length with
        | true =>
          simp only [Bool.true_beq, Bool.false_eq_true, if_false]
          rw [bits_append (init ++ [r]), List.length_append, List.length_singleton, after_succ', hlast]
          rfl
        | false =>
          simp only [beq_self_eq_true, if_true, Bool.false_eq_true, if_false, List.drop_succ_cons,
            List.drop_zero, List.getD_cons_zero]
          rw [bits_growLast_append hy, hlast]
          rfl

/-! ## Cutting -/

theorem slice_replicate {n a b : Nat} : ((List.replicate n v).take b).drop a = List.replicate (min n b - a) v := by
  rw [List.take_replicate, List.drop_replicate, min_comm]

theorem slice_append {l l' : List α} : ((l ++ l').take b).drop a =
      (l.take b).drop a ++ (l'.take (b - l.length)).drop (a - l.length) := by
  rw [List.take_append, List.drop_append, List.length_take]
  congr 1
  by_cases hb : b ≤ l.length
  · rw [Nat.sub_eq_zero_of_le hb]
    simp
  · rw [min_eq_right (by omega)]

/-- The runs within `a..b` put together are that part of the list. -/
theorem clip_tiled {pos a b : Nat} {runs : List MaskRun} {l : List Bool} (h : Tiled pos runs l) :
    ∀ {buffer : List U32}, (bits buffer).length + l.length < 2 ^ 32 →
      bits (runs.foldl (clip a b) buffer)
        = bits buffer ++ (l.take (b - pos)).drop (a - pos) := by
  induction h with
  | nil => intro buffer _; simp
  | @cons pos n v runs l hn _ ih =>
    intro buffer hlt
    rw [List.length_append, List.length_replicate] at hlt
    have hstep : bits (clip a b buffer ⟨v, pos, pos + n⟩)
        = bits buffer ++ List.replicate (min n (b - pos) - (a - pos)) v := by
      unfold clip
      simp only
      split
      · have hk : min (pos + n) b - max pos a = min n (b - pos) - (a - pos) := by omega
        have hfit : (BitVec.ofNat 32 (min n (b - pos) - (a - pos))).toNat
            = min n (b - pos) - (a - pos) := by
          rw [BitVec.toNat_ofNat]
          exact Nat.mod_eq_of_lt (by omega)
        rw [hk, bits_pushRun (by rw [hfit]; omega), hfit]
      · have hk : min n (b - pos) - (a - pos) = 0 := by omega
        rw [hk]
        simp
    rw [List.foldl_cons, ih, hstep]
    · rw [slice_append, slice_replicate, List.length_replicate, List.append_assoc, Nat.sub_sub, Nat.sub_sub]
    · rw [hstep, List.length_append, List.length_replicate]
      omega

section

variable (h : Sums m) (hlt : m.totalSize < 2 ^ 32)
include h hlt

theorem slice_denotes (a b : Nat) :
    Denotes (m.slice a b) ((m.toVec.take b).drop a) := by
  have hlen := h.length
  have hsize : m.len = m.totalSize := rfl
  unfold slice
  by_cases hle : min b m.len ≤ a
  · rw [if_pos hle, List.drop_eq_nil_of_le (by rw [List.length_take]; omega)]
    exact ⟨rfl, rfl⟩
  · rw [if_neg hle]
    refine ⟨?_, by simp only [List.length_drop, List.length_take]; omega⟩
    rw [toVec_eq]
    show bits (m.iterRuns.foldl _ []) = _
    rw [clip_tiled (tiled m) (by simpa [hlen] using hlt), bits_nil, List.nil_append, Nat.sub_zero, Nat.sub_zero]
    congr 1
    rw [hsize, ← hlen, ← List.take_eq_take_min]

/-- **Removing a range.** -/
theorem removeRange_denotes (a b : Nat) (hab : a ≤ b) :
    Denotes (m.removeRange a b) (m.toVec.take a ++ m.toVec.drop b) := by
  have hlen := h.length
  have hsize : m.len = m.totalSize := rfl
  unfold removeRange
  by_cases hle : min b m.len ≤ a
  · rw [if_pos hle]
    have hall : m.toVec.take a ++ m.toVec.drop b = m.toVec := by
      by_cases hb : b ≤ m.totalSize
      · rw [show a = b by omega, List.take_append_drop]
      · rw [List.take_of_length_le (by omega), List.drop_eq_nil_of_le (by omega), List.append_nil]
    rw [hall]
    exact h.denotes
  · rw [if_neg hle]
    have hhead := slice_denotes h hlt 0 a
    have htail := slice_denotes h hlt (min b m.len) m.len
    rw [List.drop_zero] at hhead
    rw [List.take_of_length_le (by omega)] at htail
    have hb : m.toVec.drop (min b m.len) = m.toVec.drop b := by
      by_cases hb : b ≤ m.totalSize
      · rw [min_eq_left (by omega)]
      · rw [min_eq_right (by omega), List.drop_eq_nil_of_le (by omega), List.drop_eq_nil_of_le (by omega)]
    rw [hb] at htail
    have hext := extend_denotes hhead.sums htail.sums (by
      rw [hhead.2, htail.2, List.length_take, List.length_drop]
      omega)
    rw [hhead.1, htail.1] at hext
    exact hext

theorem remove_denotes {i : Nat} (hi : i < m.totalSize) :
    Denotes (m.remove i) (m.toVec.eraseIdx i) := by
  unfold remove
  rw [if_pos (show i < m.len from hi), List.eraseIdx_eq_take_drop_succ]
  exact removeRange_denotes h hlt i (i + 1) (by omega)

end

/-! ## Reading -/

/-- **Whether a range has one value.** -/
theorem rangeAllValue_tiled {pos stop : Nat} {expected : Bool} {runs : List MaskRun} {l : List Bool}
    (h : Tiled pos runs l) : ∀ {covered : Nat}, pos ≤ covered → stop ≤ pos + l.length →
      rangeAllValue stop expected runs covered
        = ((l.take (stop - pos)).drop (covered - pos)).all (· == expected) := by
  induction h with
  | nil =>
    intro covered hpos hstop
    simp only [List.length_nil, add_zero] at hstop
    simp only [rangeAllValue, List.take_nil, List.drop_nil, List.all_nil]
    exact decide_eq_true (by omega)
  | @cons pos n v runs l hn _ ih =>
    intro covered hpos hstop
    rw [List.length_append, List.length_replicate] at hstop
    rw [slice_append, slice_replicate, List.all_append, List.length_replicate, Nat.sub_sub, Nat.sub_sub]
    rw [rangeAllValue]
    simp only
    by_cases hcut : max pos covered < min (pos + n) stop
    · rw [if_pos hcut]
      obtain ⟨k, hk⟩ : ∃ k, min n (stop - pos) - (covered - pos) = k + 1 :=
        ⟨min n (stop - pos) - (covered - pos) - 1, by omega⟩
      by_cases hv : v = expected
      · subst hv
        rw [if_neg (by simp), hk]
        by_cases hend : stop ≤ min (pos + n) stop
        · rw [if_pos hend, show stop - (pos + n) = 0 by omega]
          simp
        · rw [if_neg hend, if_neg (by omega), ih (by omega) (by omega),
            show min (pos + n) stop - (pos + n) = 0 by omega,
            show covered - (pos + n) = 0 by omega]
          simp
      · rw [if_pos hv, hk, List.replicate_succ]
        simp [hv]
    · rw [if_neg hcut, show min n (stop - pos) - (covered - pos) = 0 by omega, List.replicate_zero,
        List.all_nil, Bool.true_and]
      by_cases hend : stop ≤ pos + n
      · rw [if_pos hend, show stop - (pos + n) = 0 by omega]
        simp only [List.take_zero, List.drop_nil, List.all_nil]
        exact decide_eq_true (by omega)
      · rw [if_neg hend, ih (by omega) (by omega)]

theorem isRangeAllValue_eq (h : Sums m) {start stop : Nat} (hstop : stop ≤ m.totalSize)
    (expected : Bool) : m.isRangeAllValue start stop expected
      = ((m.toVec.take stop).drop start).all (· == expected) := by
  have hlen := h.length
  have hsize : m.len = m.totalSize := rfl
  unfold isRangeAllValue
  by_cases hle : stop ≤ start
  · rw [if_pos hle, List.drop_eq_nil_of_le (by rw [List.length_take]; omega)]
    rfl
  · rw [if_neg hle, if_neg (by omega), rangeAllValue_tiled (tiled m) (Nat.zero_le _) (by omega),
      Nat.sub_zero, Nat.sub_zero]

end RunMask

/-- The runs from the one that holds position `q` on. -/
theorem Tiled.advance {pos q : Nat} {runs : List MaskRun} {l : List Bool} (h : Tiled pos runs l)
    (hpos : pos ≤ q) (hq : q < pos + l.length) : ∃ r rest pos',
      runs.dropWhile (fun r => decide (r.stop ≤ q)) = r :: rest ∧ pos ≤ pos' ∧ pos' ≤ q
        ∧ Tiled pos' (r :: rest) (l.drop (pos' - pos)) ∧ r.start ≤ q ∧ q < r.stop
        ∧ l[q - pos]? = some r.value := by
  induction h with
  | nil => simp at hq; omega
  | @cons pos n v runs l hn hrest ih =>
    rw [List.length_append, List.length_replicate] at hq
    by_cases hin : q < pos + n
    · refine ⟨⟨v, pos, pos + n⟩, runs, pos, ?_, le_refl _, hpos, ?_, hpos, hin, ?_⟩
      · rw [List.dropWhile_cons_of_neg (by simpa using hin)]
      · rw [Nat.sub_self, List.drop_zero]
        exact .cons hn hrest
      · rw [List.getElem?_append_left (by rw [List.length_replicate]; omega),
          List.getElem?_replicate, if_pos (by omega)]
    · obtain ⟨r, rest, pos', hdrop, h1, h2, h3, h4, h5, h6⟩ := ih (by omega) (by omega)
      refine ⟨r, rest, pos', ?_, by omega, h2, ?_, h4, h5, ?_⟩
      · rw [List.dropWhile_cons_of_pos (by simpa using hin)]
        exact hdrop
      · rw [List.drop_append, List.length_replicate,
          List.drop_eq_nil_of_le (by rw [List.length_replicate]; omega), List.nil_append]
        rw [show pos' - pos - n = pos' - (pos + n) by omega]
        exact h3
      · rw [List.getElem?_append_right (by rw [List.length_replicate]; omega),
          List.length_replicate, show q - pos - n = q - (pos + n) by omega]
        exact h6

theorem Tiled.seek_eq {pos q : Nat} {runs : List MaskRun} {l : List Bool} (h : Tiled pos runs l)
    (hpos : pos ≤ q) : seek q runs =
      (((runs.dropWhile (fun r => decide (r.stop ≤ q))).head?).map MaskRun.value,
        runs.dropWhile (fun r => decide (r.stop ≤ q))) := by
  induction h with
  | nil => rfl
  | @cons pos n v runs l hn hrest ih =>
    rw [seek]
    by_cases hin : q < pos + n
    · rw [if_pos ⟨hpos, hin⟩, List.dropWhile_cons_of_neg (by simpa using hin)]
      rfl
    · rw [if_neg (by simp [hin]), List.dropWhile_cons_of_pos (by simpa using hin)]
      exact ih (by omega)

namespace RunMask

variable {m other : RunMask}

/-- One query after another, each at or past the last. -/
theorem queries_tiled {qs : List (Nat × Nat)} : ∀ {pos : Nat} {runs : List MaskRun} {l : List Bool}
    {results : List Bool}, Tiled pos runs l → qs.Pairwise (fun a b => a.2 ≤ b.2) →
      (∀ q ∈ qs, pos ≤ q.2 ∧ q.2 < pos + l.length) →
      (qs.foldl answer (results, runs)).1
        = qs.foldl (fun res q => res.set q.1 (l.getD (q.2 - pos) false)) results := by
  induction qs with
  | nil => intros; rfl
  | cons q qs ih =>
    intro pos runs l results h hsorted hrange
    rw [List.pairwise_cons] at hsorted
    obtain ⟨hpos, hq⟩ := hrange q List.mem_cons_self
    obtain ⟨r, rest, pos', hdrop, h1, h2, h3, h4, h5, h6⟩ := h.advance hpos hq
    have hval : l.getD (q.2 - pos) false = r.value := by rw [List.getD_eq_getElem?_getD, h6]; rfl
    rw [List.foldl_cons, List.foldl_cons]
    rw [show answer (results, runs) q = (results.set q.1 r.value, r :: rest) by
      simp only [answer, h.seek_eq hpos, hdrop, List.head?_cons, Option.map_some]]
    rw [ih h3 hsorted.2, hval]
    · -- the list that is left reads the same at the queries that are left
      refine List.foldl_ext _ _ _ ?_
      intro res q' hq'
      have hle := hsorted.1 q' hq'
      rw [List.getD_eq_getElem?_getD, List.getD_eq_getElem?_getD, List.getElem?_drop,
        show pos' - pos + (q'.2 - pos') = q'.2 - pos by omega]
    · intro q' hq'
      have hle := hsorted.1 q' hq'
      have hlt := (hrange q' (List.mem_cons_of_mem _ hq')).2
      rw [List.length_drop]
      omega

/-- **Querying positions** gives the values there, in the order asked. -/
theorem isMasked_eq (h : Sums m) {indices : List Nat} (hin : ∀ i ∈ indices, i < m.totalSize) :
    m.isMasked indices = some (indices.map (fun i => m.toVec.getD i false)) := by
  have hlen := h.length
  have hsize : m.len = m.totalSize := rfl
  unfold isMasked
  rw [if_neg (by
    rw [List.any_eq_true]
    rintro ⟨i, hi, hle⟩
    have := hin i hi
    have hle := of_decide_eq_true hle
    omega)]
  set pairs := indices.zipIdx.map (fun p => (p.2, p.1)) with hpairs
  set sorted := pairs.mergeSort (fun a b => decide (a.2 ≤ b.2)) with hsortdef
  have hperm : sorted.Perm pairs := List.mergeSort_perm _ _
  have hmem : ∀ q, q ∈ pairs ↔ indices[q.1]? = some q.2 := by
    intro q
    rw [hpairs, List.mem_map]
    constructor
    · rintro ⟨⟨i, k⟩, hp, rfl⟩
      exact (List.mem_zipIdx_iff_getElem?.mp hp)
    · intro hq
      exact ⟨(q.2, q.1), List.mem_zipIdx_iff_getElem?.mpr hq, rfl⟩
  have hnd : (sorted.map Prod.fst).Nodup := by
    have hfst : pairs.map Prod.fst = List.range indices.length := by
      rw [hpairs, List.map_map]
      show indices.zipIdx.map Prod.snd = _
      rw [List.zipIdx_map_snd, List.range_eq_range']
    rw [(hperm.map Prod.fst).nodup_iff, hfst]
    exact List.nodup_range
  have hsorted : sorted.Pairwise (fun a b => a.2 ≤ b.2) := by
    have := @List.pairwise_mergeSort _ (fun (a b : Nat × Nat) => decide (a.2 ≤ b.2))
      (by intro a b c hab hbc; simp only [decide_eq_true_eq] at *; omega)
      (by intro a b; simp only [Bool.or_eq_true, decide_eq_true_eq]; omega) pairs
    exact this.imp (fun h => of_decide_eq_true h)
  have hrange : ∀ q ∈ sorted, 0 ≤ q.2 ∧ q.2 < 0 + m.toVec.length := by
    intro q hq
    have := hin q.2 (List.mem_of_getElem? ((hmem q).mp (hperm.mem_iff.mp hq)))
    omega
  congr 1
  rw [queries_tiled (tiled m) hsorted hrange]
  refine List.ext_getElem? ?_
  intro i
  cases hi : indices[i]? with
  | none =>
    have hge : indices.length ≤ i := List.getElem?_eq_none_iff.mp hi
    rw [List.getElem?_map, hi, List.getElem?_eq_none_iff.mpr]
    · rfl
    · rw [foldl_set_length (f := fun k => m.toVec.getD (k - 0) false), List.length_replicate]
      exact hge
  | some x =>
    have hlt : i < indices.length := (List.getElem?_eq_some_iff.mp hi).1
    have hq : (i, x) ∈ sorted := hperm.mem_iff.mpr ((hmem (i, x)).mpr hi)
    have hroom : i < (List.replicate indices.length false).length := by simpa using hlt
    have := foldl_set_of_mem (f := fun k => m.toVec.getD (k - 0) false) hnd hq hroom
    rw [this, List.getElem?_map, hi]
    rfl

end RunMask

end Pie.Proof
