import Pie.Lib.Loops
import Pie.Proof.ArenaAliases

/-!
# Lifetimes

After the last pass over the slots each of them has a span, and it is live in
some class, unless the table has no class at all. Nothing on the way panics but
a node without a mask.
-/

namespace Pie.Proof.Lifetimes

open List Pie.Poem Pie.Poem.Arena Lib Aliases ClassSet

variable {trace : Trace} {id stop v c : Nat} {mask : ClassSet} {f : Span → Span} {value : ValueId} {new : Span}

theorem isEmpty_iff {set : ClassSet} : set.isEmpty = true ↔ ∀ c, set.contains c = false := by
  unfold ClassSet.isEmpty ClassSet.contains Bits.has
  rw [decide_eq_true_eq]
  constructor
  · intro h c
    rw [h, Nat.zero_testBit]
  · intro h
    exact Nat.eq_of_testBit_eq (fun i => by rw [h i, Nat.zero_testBit])

theorem contains_of {l : List Nat} : (ClassSet.of l).contains c = true ↔ c ∈ l := by
  have key : ∀ (l : List Nat) (set : ClassSet), (l.foldl insert set).contains c = true ↔
      set.contains c = true ∨ c ∈ l := by
    intro l
    induction l with
    | nil => intro set; simp
    | cons a l ih =>
      intro set
      rw [foldl_cons, ih]
      unfold ClassSet.insert ClassSet.contains
      rw [Bits.has_add, Bool.or_eq_true, decide_eq_true_eq, mem_cons, or_assoc, @eq_comm _ c a]
  unfold ClassSet.of
  rw [key]
  unfold ClassSet.empty ClassSet.contains
  rw [Bits.has_zero]
  simp

theorem everywhere_lt {classes : ClassTable} : classes.everywhere.contains c = true ↔ c < classes.classes.length := by
  unfold ClassTable.everywhere
  rw [contains_of, mem_range]

/-! ## What one step changes -/

/-- A span for each place, and no class that the table does not have. -/
structure Kept (n k : Nat) (lives : Lives) : Prop where
  spans : lives.spans.length = n
  liveIn : lives.liveIn.length = n
  known : ∀ set ∈ lives.liveIn, ∀ c, set.contains c = true → c < k

variable {n k : Nat} {lives : Lives}

theorem Kept.span (h : Kept n k lives) : Kept n k (lives.span value new f) :=
  ⟨by rw [Lives.span, length_set]; exact h.spans, h.liveIn, h.known⟩

theorem Kept.widen (h : Kept n k lives)
    (hm : ∀ c, mask.contains c = true → c < k) : Kept n k (lives.widen value mask) := by
  refine ⟨h.spans, by rw [Lives.widen, length_set]; exact h.liveIn, fun set hset c hc => ?_⟩
  rcases mem_or_eq_of_mem_set hset with hset | rfl
  · exact h.known set hset c hc
  · rw [contains_union, Bool.or_eq_true] at hc
    rcases hc with hc | hc
    · rw [getD_eq_getElem?_getD] at hc
      cases hv : lives.liveIn[value]? with
      | none =>
        rw [hv] at hc
        unfold ClassSet.contains at hc
        rw [Option.getD_none, empty, Bits.has_zero] at hc
        cases hc
      | some set =>
        rw [hv] at hc
        exact h.known set (mem_of_getElem? hv) c hc
    · exact hm c hc

theorem span_self (h : value < lives.spans.length) :
    ∃ span, (lives.span value new f).spans[value]? = some (some span) := by
  rw [Lives.span, getElem?_set_self h]
  exact ⟨_, rfl⟩

theorem span_keeps {value i : ValueId} {new span : Span} (h : lives.spans[i]? = some (some span)) :
    ∃ span', (lives.span value new f).spans[i]? = some (some span') := by
  by_cases hi : value = i
  · subst hi
    exact span_self (List.getElem?_eq_some_iff.mp h).1
  · rw [Lives.span, getElem?_set_ne hi]
    exact ⟨span, h⟩

theorem widen_self {value c : Nat} (h : value < lives.liveIn.length) :
    ((lives.widen value mask).liveIn.getD value empty).contains c
      = ((lives.liveIn.getD value empty).contains c || mask.contains c) := by
  unfold Lives.widen
  rw [getD_eq_getElem?_getD, getElem?_set_self h, Option.getD_some, contains_union]

theorem widen_other {value i : Nat} (h : value ≠ i) :
    (lives.widen value mask).liveIn.getD i empty = lives.liveIn.getD i empty := by
  unfold Lives.widen
  rw [getD_eq_getElem?_getD, getElem?_set_ne h, ← getD_eq_getElem?_getD]

/-! ## The passes -/

section Passes

variable {classes : ClassTable} {placements : List Placement}

/-- The only panic is a node without a mask. -/
abbrev Masked (trace : Trace) (classes : ClassTable) (e : Stop Error) : Prop :=
  trace.nodes.length ≤ classes.nodeMask.length → e ≠ .panic

section

variable (hf : Forest placements)
include hf

theorem root_masked (value : ValueId) :
    Sound (Masked trace classes) (RootOf placements value) (root placements value) := by
  obtain ⟨r, hr, hroot⟩ := root_spec hf value
  rw [hr]
  exact hroot

theorem touch_kept {node : Nat}
    (hm : ∀ c, mask.contains c = true → c < k) (h : Kept n k lives) :
    Sound (Masked trace classes) (Kept n k) (touch placements lives value node mask) := by
  unfold touch
  refine (root_masked hf value).bind (fun r _ => ?_)
  split
  · exact h.span.widen hm
  · exact h

theorem touchNode_kept {node : Node × Nat}
    (hn : node.2 < trace.nodes.length) (h : Kept n classes.classes.length lives) :
    Sound (Masked trace classes) (Kept n classes.classes.length) (touchNode classes placements lives node) := by
  unfold touchNode
  split
  · rename_i hnone
    intro hlen
    rw [getElem?_eq_none_iff] at hnone
    omega
  · rename_i mask hmask
    exact Sound.foldlM (fun value _ lives hl =>
      touch_kept hf (classes.mask_lt mask (mem_of_getElem? hmask)) hl) h

theorem exportOne_kept {value : Readers × ValueId}
    (h : Kept n classes.classes.length lives) :
    Sound (Masked trace classes) (Kept n classes.classes.length) (exportOne classes placements stop lives value) := by
  unfold exportOne
  refine (root_masked hf value.2).bind (fun r _ => ?_)
  split
  · refine Sound.pure ?_
    split
    · exact h.span.widen (fun c => everywhere_lt.mp)
    · exact h.span
  · exact h

theorem feed_kept {merge : ValueId} (h : Kept n k lives) :
    Sound (Masked trace classes) (Kept n k) (feed placements stop lives merge) := by
  unfold feed
  refine (root_masked hf merge).bind (fun r _ => ?_)
  split
  · exact h.span
  · exact h

end

theorem rest_kept (h : Kept n classes.classes.length lives) :
    Kept n classes.classes.length (rest classes placements stop lives id) := by
  unfold rest
  split
  · dsimp only
    split
    · exact h.span.widen (fun c => everywhere_lt.mp)
    · exact h.span
  · exact h

/-- A slot that has been seen by the last pass. -/
def Seen (classes : ClassTable) (lives : Lives) (id : Nat) : Prop :=
  (∃ span, lives.spans[id]? = some (some span))
    ∧ (classes.classes.length = 0 ∨ (lives.liveIn.getD id ClassSet.empty).isEmpty = false)

theorem Seen.span (h : Seen classes lives id) : Seen classes (lives.span v new f) id := by
  obtain ⟨⟨span, hspan⟩, hlive⟩ := h
  exact ⟨span_keeps hspan, hlive⟩

theorem Seen.widen (h : Seen classes lives id) : Seen classes (lives.widen v mask) id := by
  refine ⟨h.1, h.2.imp_right (fun hlive => ?_)⟩
  rw [← Bool.not_eq_true, isEmpty_iff] at hlive ⊢
  intro hall
  refine hlive (fun c => ?_)
  have hc := hall c
  by_cases hv : v = id
  · subst hv
    by_cases hlt : v < lives.liveIn.length
    · rw [widen_self hlt, Bool.or_eq_false_iff] at hc
      exact hc.1
    · rw [getD_eq_getElem?_getD, getElem?_eq_none (by omega)]
      exact Bits.has_zero c
  · rwa [widen_other hv] at hc

theorem Seen.rest (h : Seen classes lives id) : Seen classes (rest classes placements stop lives v) id := by
  unfold Arena.rest
  split
  · dsimp only
    split
    · exact h.span.widen
    · exact h.span
  · exact h

theorem rest_seen (hk : Kept n classes.classes.length lives) (hid : id < n)
    (ha : isArena placements id = true) : Seen classes (rest classes placements stop lives id) id := by
  have hspan : ∃ span, (lives.span id ⟨0, stop⟩ (fun span => span)).spans[id]? = some (some span) :=
    span_self (by rw [hk.spans]; exact hid)
  have hlive : id < (lives.span id ⟨0, stop⟩ (fun span => span)).liveIn.length := by
    rw [hk.span.liveIn]
    exact hid
  unfold Arena.rest
  rw [if_pos ha]
  dsimp only
  split
  · refine ⟨hspan, ?_⟩
    rcases Nat.eq_zero_or_pos classes.classes.length with h0 | hpos
    · exact .inl h0
    · right
      rw [← Bool.not_eq_true, isEmpty_iff]
      intro hall
      have hc := hall 0
      rw [widen_self hlive, Bool.or_eq_false_iff, everywhere_lt.mpr hpos] at hc
      exact absurd hc.2 (by decide)
  · rename_i he
    exact ⟨hspan, .inr (by simpa using he)⟩

/-- **Every slot is live at some time and in some class.** -/
theorem lives_spec (hf : Forest placements) :
    Sound (Masked trace classes) (fun lives => Kept placements.length classes.classes.length lives
      ∧ ∀ id, isArena placements id = true → Seen classes lives id) (Arena.lives trace placements classes) := by
  unfold Arena.lives
  have hinit : Kept placements.length classes.classes.length
      ⟨placements.map (fun _ => none), placements.map (fun _ => empty)⟩ := by
    refine ⟨length_map _, length_map _, fun set hset c hc => ?_⟩
    obtain ⟨_, -, rfl⟩ := mem_map.mp hset
    exact absurd hc (by rw [show empty.contains c = false from Bits.has_zero c]; decide)
  refine (Sound.foldlM (fun node hnode lives h => touchNode_kept hf ?_ h) hinit).bind (fun touched h => ?_)
  · exact (List.getElem?_eq_some_iff.mp (mem_zipIdx_iff_getElem?.mp hnode)).1
  refine (Sound.foldlM (fun value _ lives h => exportOne_kept hf h) h).bind (fun exported h => ?_)
  refine (Sound.foldlM (fun merge _ lives h => feed_kept hf h) h).bind (fun fed h => Sound.pure ?_)
  have hall := foldl_range_rule (n := placements.length) (f := rest classes placements trace.nodes.length)
    (fun k lives => Kept placements.length classes.classes.length lives
      ∧ ∀ id < k, isArena placements id = true → Seen classes lives id)
    ⟨h, by simp⟩ (fun k hk lives hl => ⟨rest_kept hl.1, fun id hid ha => ?_⟩)
  · refine ⟨hall.1, fun id ha => hall.2 id ?_ ha⟩
    unfold isArena at ha
    split at ha
    · rename_i slot hslot
      exact (List.getElem?_eq_some_iff.mp hslot).1
    · cases ha
  · rcases Nat.lt_succ_iff_lt_or_eq.mp hid with hid | rfl
    · exact (hl.2 id hid ha).rest
    · exact rest_seen hl.1 hk ha

end Passes

end Pie.Proof.Lifetimes
