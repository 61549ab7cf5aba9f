import Pie.Proof.PqFans

/-!
# Reduction

A reduction goes down to the lowest node that holds the set, reduces there, and
puts the tree in its canonical form. What comes out stands for the orders of the
tree in which the set is a block; nothing comes out when there is no such order.
-/

namespace Pie.Proof.PqTrees

open List Pie.Poem.Pq Lib.Blocks

variable {set : List Leaf}

/-- What marking the children gives: their marks, or a child that is stuck. -/
def MarkedAll (set : List Leaf) (kids : List Node) : Option (List (Node × Mark)) → Prop
  | some ms => List.Forall₂ (Marked set) kids ms
  | none => ∃ k ∈ kids, Stuck set k

variable {kids : List Node}

theorem marks_spec (hg : ∀ k ∈ kids, Grown k)
    (h : ∀ k ∈ kids, full set k ≠ 0 → full set k ≠ size k → Sided set k (reduceAt set false k)) :
    MarkedAll set kids (marks set kids) := by
  induction kids with
  | nil => exact .nil
  | cons c kids ih =>
    have hc := hg c mem_cons_self
    have hrest := ih (fun k hk => hg k (mem_cons_of_mem _ hk)) (fun k hk => h k (mem_cons_of_mem _ hk))
    -- what is found of the first child, then of the others
    have hfirst : ∀ first : Option (Node × Mark), (∀ e, first = some e → Marked set c e) →
        (first = none → Stuck set c) →
        MarkedAll set (c :: kids) (first.bind (fun here => (marks set kids).map (here :: ·))) := by
      intro first hsome hnone
      cases first with
      | none => exact ⟨c, mem_cons_self, hnone rfl⟩
      | some e =>
        cases hms : marks set kids with
        | none =>
          rw [hms] at hrest
          obtain ⟨k, hk, hstuck⟩ := hrest
          exact ⟨k, mem_cons_of_mem _ hk, hstuck⟩
        | some ms =>
          rw [hms] at hrest
          exact .cons (hsome e rfl) hrest
    unfold marks
    refine hfirst _ ?_ ?_
    · intro e he
      split at he
      · rename_i h0
        cases he
        exact .empty hc h0
      · rename_i h0
        split at he
        · rename_i hf
          cases he
          exact .full hc h0 hf
        · rename_i hf
          have hs := h c mem_cons_self h0 hf
          obtain ⟨⟨m, t⟩, hr, rfl⟩ := Option.map_eq_some_iff.mp he
          rw [hr] at hs
          exact hs
    · intro he
      split at he
      · cases he
      · rename_i h0
        split at he
        · cases he
        · rename_i hf
          have hs := h c mem_cons_self h0 hf
          rw [Option.map_eq_none_iff.mp he] at hs
          exact ⟨h0, hs⟩

theorem reduceAt_sided (t : Node) : Grown t → full set t ≠ 0 → full set t ≠ size t →
    Sided set t (reduceAt set false t) := by
  induction t using Node.induct with
  | leaf l =>
    intro _ h0 hn
    unfold full at h0 hn
    split at h0
    · rename_i hl
      rw [if_pos hl] at hn
      exact absurd rfl hn
    · exact absurd rfl h0
  | p kids ih =>
    intro hg h0 hn
    have hmarks := marks_spec hg.kids_p.2 (fun k hk => ih k hk (hg.kids_p.2 k hk))
    show Sided set (.p kids) ((marks set kids).bind (reduceP false))
    cases hms : marks set kids with
    | some ms =>
      rw [hms] at hmarks
      exact reduceP_sided hmarks hg h0 hn
    | none =>
      rw [hms] at hmarks
      obtain ⟨k, hk, hstuck⟩ := hmarks
      intro o ho
      obtain ⟨l, hl, ho⟩ := mem_orders_p.mp ho
      exact hstuck.not_ends (hl.mem_iff.mpr hk) ho
  | q kids ih =>
    intro hg h0 hn
    have hmarks := marks_spec hg.kids_q.2 (fun k hk => ih k hk (hg.kids_q.2 k hk))
    show Sided set (.q kids) ((marks set kids).bind (reduceQ false))
    cases hms : marks set kids with
    | some ms =>
      rw [hms] at hmarks
      exact reduceQ_sided hmarks hg h0 hn
    | none =>
      rw [hms] at hmarks
      obtain ⟨k, hk, hstuck⟩ := hmarks
      intro o ho
      rcases mem_orders_q.mp ho with ho | ho
      · exact hstuck.not_ends hk ho
      · exact hstuck.not_ends (mem_reverse.mpr hk) ho

theorem marks_grown (hg : ∀ k ∈ kids, Grown k) : MarkedAll set kids (marks set kids) :=
  marks_spec hg (fun k hk => reduceAt_sided k (hg k hk))

theorem reduceAt_rooted_p (hg : Grown (.p kids)) (hk : 2 ≤ holders set kids) :
    Rooted set (.p kids) ((reduceAt set true (.p kids)).map Prod.snd) := by
  have hmarks : MarkedAll set kids (marks set kids) := marks_grown hg.kids_p.2
  show Rooted set (.p kids) (((marks set kids).bind (reduceP true)).map Prod.snd)
  cases hms : marks set kids with
  | some ms =>
    rw [hms] at hmarks
    exact reduceP_rooted hmarks hg (by rw [hits_eq hmarks]; exact hk)
  | none =>
    rw [hms] at hmarks
    obtain ⟨k, hmem, hstuck⟩ := hmarks
    intro o ho
    obtain ⟨l, hl, ho⟩ := mem_orders_p.mp ho
    exact hstuck.not_block (hl.mem_iff.mpr hmem) (by rwa [holders, hl.countP_eq]) ho

theorem reduceAt_rooted_q (hg : Grown (.q kids)) (hk : 2 ≤ holders set kids) :
    Rooted set (.q kids) ((reduceAt set true (.q kids)).map Prod.snd) := by
  have hmarks : MarkedAll set kids (marks set kids) := marks_grown hg.kids_q.2
  show Rooted set (.q kids) (((marks set kids).bind (reduceQ true)).map Prod.snd)
  cases hms : marks set kids with
  | some ms =>
    rw [hms] at hmarks
    exact reduceQ_rooted hmarks hg (by rw [hits_eq hmarks]; exact hk)
  | none =>
    rw [hms] at hmarks
    obtain ⟨k, hmem, hstuck⟩ := hmarks
    intro o ho
    rcases mem_orders_q.mp ho with ho | ho
    · exact hstuck.not_block hmem hk ho
    · exact hstuck.not_block (mem_reverse.mpr hmem) (by rwa [holders, (reverse_perm kids).countP_eq]) ho

/-! ## Down to the root of the set -/

theorem fullAll_filter (kids : List Node) :
    fullAll set kids = fullAll set (kids.filter (fun c => decide (0 < full set c))) := by
  induction kids with
  | nil => rfl
  | cons c kids ih =>
    rw [filter_cons, fullAll, ih]
    split
    · rfl
    · rename_i h
      have h0 : full set c = 0 := by simpa using h
      rw [h0, zero_add]

theorem holders_of_onlyOne (hfull : fullAll set kids = set.length) (hset : 2 ≤ set.length) :
    (onlyOne set kids = true ∧ ∃ c, kids.filter (fun c => decide (0 < full set c)) = [c] ∧ full set c = set.length)
      ∨ (onlyOne set kids = false ∧ 2 ≤ holders set kids) := by
  rw [fullAll_filter] at hfull
  unfold onlyOne holders
  rw [countP_eq_length_filter]
  cases hf : kids.filter (fun c => decide (0 < full set c)) with
  | nil =>
    rw [hf] at hfull
    exact absurd hfull (by rw [fullAll]; omega)
  | cons c l =>
    cases l with
    | nil =>
      rw [hf] at hfull
      have hc : full set c = set.length := by simpa [fullAll] using hfull
      exact .inl ⟨decide_eq_true hc, c, rfl, hc⟩
    | cons d l => exact .inr ⟨rfl, by rw [length_cons, length_cons]; omega⟩

theorem reduceOnly_spec {c : Node} : ∀ {kids : List Node}, kids.filter (fun c => decide (0 < full set c)) = [c] →
    ∃ l l', kids = l ++ c :: l' ∧ (∀ k ∈ l ++ l', full set k = 0)
      ∧ reduceOnly set kids = (reducePertinent set c).map (fun t => l ++ t :: l') := by
  intro kids
  induction kids with
  | nil => exact nofun
  | cons d kids ih =>
    intro h
    rw [filter_cons] at h
    split at h
    · rename_i hd
      obtain ⟨rfl, hnil⟩ := List.cons.inj h
      refine ⟨[], kids, rfl, fun k hk => ?_, ?_⟩
      · have := filter_eq_nil_iff.mp hnil k hk
        simpa using this
      · rw [reduceOnly, if_pos (of_decide_eq_true hd)]
        rfl
    · rename_i hd
      obtain ⟨l, l', rfl, hzero, heq⟩ := ih h
      have h0 : full set d = 0 := by simpa using hd
      refine ⟨d :: l, l', rfl, forall_mem_cons.mpr ⟨h0, hzero⟩, ?_⟩
      rw [reduceOnly, if_neg (by rw [h0]; exact lt_irrefl 0), heq, Option.map_map]
      rfl

theorem clear_of_zero {l : List Node} (h : ∀ k ∈ l, full set k = 0) {x : List Leaf} (hx : x ∈ seq l) : Clear set x :=
  clear_of_holders (countP_eq_zero.mpr (fun k hk => by rw [h k hk]; decide)) hx

/-- Between what is clear, the set is a block where it is one in the child. -/
theorem block_between {x w y : List Leaf} (hx : Clear set x) (hy : Clear set y) :
    Block set (x ++ w ++ y) ↔ Block set w := by
  rw [block_append_clear hy, block_clear_append hx]

section Only

variable {c t : Node} {l l' : List Node} {o : List Leaf}

theorem mem_seq_middle : o ∈ seq (l ++ c :: l') ↔ ∃ x ∈ seq l, ∃ w ∈ orders c, ∃ y ∈ seq l', x ++ w ++ y = o := by
  rw [mem_seq_append]
  constructor
  · rintro ⟨x, hx, z, hz, rfl⟩
    obtain ⟨w, hw, y, hy, rfl⟩ := mem_seq_cons.mp hz
    exact ⟨x, hx, w, hw, y, hy, append_assoc _ _ _⟩
  · rintro ⟨x, hx, w, hw, y, hy, rfl⟩
    exact ⟨x, hx, w ++ y, mem_seq_cons.mpr ⟨w, hw, y, hy, rfl⟩, (append_assoc _ _ _).symm⟩

theorem kept_seq (h : ∀ w, w ∈ orders t ↔ w ∈ orders c ∧ Block set w) (hl : ∀ k ∈ l, full set k = 0)
    (hl' : ∀ k ∈ l', full set k = 0) : o ∈ seq (l ++ t :: l') ↔ o ∈ seq (l ++ c :: l') ∧ Block set o := by
  rw [mem_seq_middle, mem_seq_middle]
  constructor
  · rintro ⟨x, hx, w, hw, y, hy, rfl⟩
    obtain ⟨hwc, hb⟩ := (h w).mp hw
    exact ⟨⟨x, hx, w, hwc, y, hy, rfl⟩, (block_between (clear_of_zero hl hx) (clear_of_zero hl' hy)).mpr hb⟩
  · rintro ⟨⟨x, hx, w, hw, y, hy, rfl⟩, hb⟩
    exact ⟨x, hx, w, (h w).mpr ⟨hw, (block_between (clear_of_zero hl hx) (clear_of_zero hl' hy)).mp hb⟩, y, hy, rfl⟩

/-- One child in the middle of a P node is as good as one at its end. -/
theorem orders_p_middle : orders (.p (l ++ c :: l')) = orders (.p (l ++ l' ++ [c])) :=
  orders_p_perm (perm_middle.trans (perm_append_singleton c (l ++ l')).symm)

theorem kept_p (h : ∀ w, w ∈ orders t ↔ w ∈ orders c ∧ Block set w) (hl : ∀ k ∈ l ++ l', full set k = 0) :
    o ∈ orders (.p (l ++ t :: l')) ↔ o ∈ orders (.p (l ++ c :: l')) ∧ Block set o := by
  have hclear : ∀ {k k' : List Node}, (k ++ k').Perm (l ++ l') → (∀ {x}, x ∈ seq k → Clear set x)
      ∧ ∀ {y}, y ∈ seq k' → Clear set y := fun hk =>
    ⟨clear_of_zero (fun a ha => hl a (hk.mem_iff.mp (mem_append_left _ ha))),
      clear_of_zero (fun a ha => hl a (hk.mem_iff.mp (mem_append_right _ ha)))⟩
  rw [@orders_p_middle t, @orders_p_middle c, mem_orders_p_snoc, mem_orders_p_snoc]
  constructor
  · rintro ⟨k, k', hk, x, hx, w, hw, y, hy, rfl⟩
    obtain ⟨hwc, hb⟩ := (h w).mp hw
    exact ⟨⟨k, k', hk, x, hx, w, hwc, y, hy, rfl⟩, (block_between ((hclear hk).1 hx) ((hclear hk).2 hy)).mpr hb⟩
  · rintro ⟨⟨k, k', hk, x, hx, w, hw, y, hy, rfl⟩, hb⟩
    exact ⟨k, k', hk, x, hx, w, (h w).mpr ⟨hw, (block_between ((hclear hk).1 hx) ((hclear hk).2 hy)).mp hb⟩, y, hy, rfl⟩

/-- No block in the child is no block in the node. -/
theorem no_block_seq (h : ∀ w ∈ orders c, ¬Block set w) (hl : ∀ k ∈ l, full set k = 0)
    (hl' : ∀ k ∈ l', full set k = 0) (ho : o ∈ seq (l ++ c :: l')) : ¬Block set o := by
  obtain ⟨x, hx, w, hw, y, hy, rfl⟩ := mem_seq_middle.mp ho
  rw [block_between (clear_of_zero hl hx) (clear_of_zero hl' hy)]
  exact h w hw

theorem no_block_p (h : ∀ w ∈ orders c, ¬Block set w) (hl : ∀ k ∈ l ++ l', full set k = 0)
    (ho : o ∈ orders (.p (l ++ c :: l'))) : ¬Block set o := by
  rw [orders_p_middle] at ho
  obtain ⟨k, k', hk, x, hx, w, hw, y, hy, rfl⟩ := mem_orders_p_snoc.mp ho
  rw [block_between (clear_of_zero (fun a ha => hl a (hk.mem_iff.mp (mem_append_left _ ha))) hx)
    (clear_of_zero (fun a ha => hl a (hk.mem_iff.mp (mem_append_right _ ha))) hy)]
  exact h w hw

end Only

theorem grown_replace {c t : Node} {l l' : List Node} (hg : ∀ k ∈ l ++ c :: l', Grown k) (ht : Grown t) :
    l ++ t :: l' ≠ [] ∧ ∀ k ∈ l ++ t :: l', Grown k := by
  refine ⟨by simp, fun k hk => ?_⟩
  rcases mem_append.mp hk with hk | hk
  · exact hg k (mem_append_left _ hk)
  · rcases mem_cons.mp hk with rfl | hk
    · exact ht
    · exact hg k (mem_append_right _ (mem_cons_of_mem _ hk))

/-- **A reduction keeps the orders in which the set is a block**, and fails when there is none. -/
theorem reducePertinent_rooted (hset : 2 ≤ set.length) (t : Node) : Grown t → full set t = set.length →
    Rooted set t (reducePertinent set t) := by
  induction t using Node.induct with
  | leaf l =>
    intro _ hfull
    unfold full at hfull
    split at hfull <;> omega
  | p kids ih =>
    intro hg hfull
    unfold reducePertinent
    rcases @holders_of_onlyOne _ kids hfull hset with ⟨hone, c, hc, hcfull⟩ | ⟨hone, hk⟩
    · rw [if_pos hone]
      obtain ⟨l, l', rfl, hzero, heq⟩ := reduceOnly_spec hc
      have hroot := ih c (by simp) (hg.kids_p.2 c (by simp)) hcfull
      rw [heq, Option.map_map]
      cases hr : reducePertinent set c with
      | some t =>
        rw [hr] at hroot
        obtain ⟨hne, hall⟩ := grown_replace hg.kids_p.2 hroot.grown
        exact ⟨.p hne hall, fun o => kept_p hroot.orders hzero⟩
      | none =>
        rw [hr] at hroot
        exact fun o ho => no_block_p hroot hzero ho
    · rw [if_neg (by rw [hone]; exact Bool.false_ne_true)]
      exact reduceAt_rooted_p hg hk
  | q kids ih =>
    intro hg hfull
    unfold reducePertinent
    rcases @holders_of_onlyOne _ kids hfull hset with ⟨hone, c, hc, hcfull⟩ | ⟨hone, hk⟩
    · rw [if_pos hone]
      obtain ⟨l, l', rfl, hzero, heq⟩ := reduceOnly_spec hc
      have hroot := ih c (by simp) (hg.kids_q.2 c (by simp)) hcfull
      have hl : ∀ k ∈ l, full set k = 0 := fun k hk => hzero k (mem_append_left _ hk)
      have hl' : ∀ k ∈ l', full set k = 0 := fun k hk => hzero k (mem_append_right _ hk)
      have hrev : ∀ d : Node, (l ++ d :: l').reverse = l'.reverse ++ d :: l.reverse := fun d => by simp
      have hlr : ∀ k ∈ l.reverse, full set k = 0 := fun k hk => hl k (mem_reverse.mp hk)
      have hlr' : ∀ k ∈ l'.reverse, full set k = 0 := fun k hk => hl' k (mem_reverse.mp hk)
      rw [heq, Option.map_map]
      cases hr : reducePertinent set c with
      | some t =>
        rw [hr] at hroot
        obtain ⟨hne, hall⟩ := grown_replace hg.kids_q.2 hroot.grown
        refine ⟨.q hne hall, fun o => ?_⟩
        show o ∈ orders (.q (l ++ t :: l')) ↔ _
        rw [mem_orders_q, mem_orders_q, or_and_right, hrev, hrev, kept_seq hroot.orders hl hl',
          kept_seq hroot.orders hlr' hlr]
      | none =>
        rw [hr] at hroot
        intro o ho
        rw [mem_orders_q, hrev] at ho
        rcases ho with ho | ho
        · exact no_block_seq hroot hl hl' ho
        · exact no_block_seq hroot hlr' hlr ho
    · rw [if_neg (by rw [hone]; exact Bool.false_ne_true)]
      exact reduceAt_rooted_q hg hk

end Pie.Proof.PqTrees
