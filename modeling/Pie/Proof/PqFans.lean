import Mathlib.Tactic.Abel
import Pie.Proof.PqTemplates

/-!
# The templates of P nodes

The children of a P node stand in any order, so its words are those of the rows
that its marked children can form. The empties are in any order around the
block, the fulls in any order within it, and of parts there is room for one at
either end.
-/

namespace Pie.Proof.PqTrees

open List Pie.Poem.Pq Lib.Blocks

variable {set : List Leaf}

/-! ## Children by their marks -/

def emptyOf (ms : List (Node × Mark)) : List (Node × Mark) := ms.filter (fun e => e.2 == .empty)

def fullOf (ms : List (Node × Mark)) : List (Node × Mark) := ms.filter (fun e => e.2 == .full)

def partOf (ms : List (Node × Mark)) : List (Node × Mark) := ms.filter (fun e => e.2.isPart)

variable {ms : List (Node × Mark)}

theorem emptyOf_self (h : AllEmpty ms) : emptyOf ms = ms :=
  filter_eq_self.mpr (fun e he => isEmpty_beq.mpr (h e he))

theorem fullOf_self (h : AllFull ms) : fullOf ms = ms :=
  filter_eq_self.mpr (fun e he => isFull_beq.mpr (h e he))

theorem partOf_self (h : OnePart ms) : partOf ms = ms := by
  rcases h with rfl | ⟨inner, split, rfl⟩ <;> rfl

theorem AllEmpty.others (h : AllEmpty ms) : fullOf ms = [] ∧ partOf ms = [] :=
  ⟨filter_eq_nil_iff.mpr (fun e he => by rw [h e he]; decide),
    filter_eq_nil_iff.mpr (fun e he => by rw [h e he]; decide)⟩

theorem AllFull.others (h : AllFull ms) : emptyOf ms = [] ∧ partOf ms = [] :=
  ⟨filter_eq_nil_iff.mpr (fun e he => by rw [h e he]; decide),
    filter_eq_nil_iff.mpr (fun e he => by rw [h e he]; decide)⟩

theorem OnePart.others (h : OnePart ms) : emptyOf ms = [] ∧ fullOf ms = [] := by
  rcases h with rfl | ⟨inner, split, rfl⟩ <;> exact ⟨rfl, rfl⟩

theorem emptyOf_append (ms ls : List (Node × Mark)) : emptyOf (ms ++ ls) = emptyOf ms ++ emptyOf ls :=
  filter_append ..

theorem fullOf_append (ms ls : List (Node × Mark)) : fullOf (ms ++ ls) = fullOf ms ++ fullOf ls :=
  filter_append ..

theorem partOf_append (ms ls : List (Node × Mark)) : partOf (ms ++ ls) = partOf ms ++ partOf ls :=
  filter_append ..

theorem split_perm (ms : List (Node × Mark)) : (emptyOf ms ++ partOf ms ++ fullOf ms).Perm ms := by
  induction ms with
  | nil => exact .nil
  | cons e ms ih =>
    obtain ⟨c, m⟩ := e
    cases m with
    | empty => exact ih.cons _
    | full => exact perm_middle.trans (ih.cons _)
    | part split =>
      show (emptyOf ms ++ (c, Mark.part split) :: partOf ms ++ fullOf ms).Perm _
      rw [append_assoc, cons_append]
      refine perm_middle.trans (Perm.cons _ ?_)
      rwa [← append_assoc]

theorem parts_eq (ms : List (Node × Mark)) : parts ms = parts (partOf ms) := by
  induction ms with
  | nil => rfl
  | cons e ms ih =>
    obtain ⟨c, m⟩ := e
    cases m with
    | empty => exact ih
    | full => exact ih
    | part split =>
      show (c, split) :: parts ms = (c, split) :: parts (partOf ms)
      rw [ih]

theorem parted_partOf (hp : Parted ms) : ∀ e ∈ partOf ms, ∃ inner split, e = (.q inner, .part split) := fun e he =>
  hp e (mem_filter.mp he).1 (mem_filter.mp he).2

/-! ## Words of a P node -/

section PNode

variable {kids : List Node} {ms : List (Node × Mark)} {o : List Leaf}

section

variable (h : Forall₂ (Marked set) kids ms)
include h

theorem exists_marked {l : List Node} (hl : l.Perm kids) :
    ∃ ls, Forall₂ (Marked set) l ls ∧ ls.Perm ms := perm_comp_forall₂ hl h

theorem exists_unmarked {ls : List (Node × Mark)} (hl : ls.Perm ms) :
    ∃ l, Forall₂ (Marked set) l ls ∧ l.Perm kids := by
  obtain ⟨l, hm, hp⟩ := perm_comp_forall₂ hl h.flip
  exact ⟨l, hm.flip, hp⟩

theorem ends_p :
    (o ∈ orders (.p kids) ∧ Ends set o) ↔ ∃ ls, ls.Perm ms ∧ Side ls ∧ o ∈ seq (flats ls) := by
  rw [mem_orders_p]
  constructor
  · rintro ⟨⟨l, hl, ho⟩, he⟩
    obtain ⟨ls, hm, hp⟩ := exists_marked h hl
    exact ⟨ls, hp, (ends_seq hm).mp ⟨ho, he⟩⟩
  · rintro ⟨ls, hp, hs⟩
    obtain ⟨l, hm, hl⟩ := exists_unmarked h hp
    obtain ⟨ho, he⟩ := (ends_seq hm).mpr hs
    exact ⟨⟨l, hl, ho⟩, he⟩

theorem block_p (hhits : 2 ≤ hits ms) : (o ∈ orders (.p kids) ∧ Block set o) ↔
    ∃ ls, ls.Perm ms ∧ ∃ es ps fs qs gs, Row ls es ps fs qs gs ∧ o ∈ seq (spread es ps fs qs gs) := by
  rw [mem_orders_p]
  constructor
  · rintro ⟨⟨l, hl, ho⟩, hb⟩
    obtain ⟨ls, hm, hp⟩ := exists_marked h hl
    refine ⟨ls, hp, (block_rows hm ?_).mp ⟨ho, hb⟩⟩
    rwa [hits, hp.countP_eq]
  · rintro ⟨ls, hp, hs⟩
    obtain ⟨l, hm, hl⟩ := exists_unmarked h hp
    obtain ⟨ho, hb⟩ := (block_rows hm (by rwa [hits, hp.countP_eq])).mpr hs
    exact ⟨⟨l, hl, ho⟩, hb⟩

end

theorem OnePart.of_perm {ps qs : List (Node × Mark)} (h : OnePart ps) (hp : ps.Perm qs) : qs = ps := by
  rcases h with rfl | ⟨inner, split, rfl⟩
  · exact nil_perm.mp hp
  · exact perm_singleton.mp hp.symm

/-- The rows that are on one side, by what they are made of. -/
theorem side_rows (hp : Parted ms) : (∃ ls, ls.Perm ms ∧ Side ls ∧ o ∈ seq (flats ls)) ↔ OnePart (partOf ms)
    ∧ ∃ x ∈ orders (.p (marked .empty ms)), ∃ y ∈ seq (flats (partOf ms)), ∃ z ∈ orders (.p (marked .full ms)),
      x ++ y ++ z = o := by
  constructor
  · rintro ⟨ls, hperm, hside, ho⟩
    obtain ⟨es, ps, fs, rfl, hes, hps, hfs⟩ := flank_of_side (fun e he => hp e (hperm.mem_iff.mp he)) hside
    have hpart := hperm.filter (fun e => e.2.isPart)
    have hempty := hperm.filter (fun e => e.2 == .empty)
    have hfull := hperm.filter (fun e => e.2 == .full)
    change (partOf (es ++ ps ++ fs)).Perm (partOf ms) at hpart
    change (emptyOf (es ++ ps ++ fs)).Perm (emptyOf ms) at hempty
    change (fullOf (es ++ ps ++ fs)).Perm (fullOf ms) at hfull
    rw [partOf_append, partOf_append, hes.others.2, hfs.others.2, partOf_self hps, append_nil, nil_append] at hpart
    rw [emptyOf_append, emptyOf_append, hps.others.1, hfs.others.1, emptyOf_self hes, append_nil, append_nil] at hempty
    rw [fullOf_append, fullOf_append, hes.others.1, hps.others.2, fullOf_self hfs, append_nil, nil_append] at hfull
    rw [hps.of_perm hpart]
    refine ⟨hps, ?_⟩
    rw [flats_append, flats_append, flats_empty hes, flats_full hfs] at ho
    obtain ⟨xy, hxy, z, hz, rfl⟩ := mem_seq_append.mp ho
    obtain ⟨x, hx, y, hy, rfl⟩ := mem_seq_append.mp hxy
    exact ⟨x, mem_orders_p.mpr ⟨_, hempty.map _, hx⟩, y, hy, z, mem_orders_p.mpr ⟨_, hfull.map _, hz⟩, rfl⟩
  · rintro ⟨hps, x, hx, y, hy, z, hz, rfl⟩
    obtain ⟨l, hl, hx⟩ := mem_orders_p.mp hx
    obtain ⟨k, hk, hz⟩ := mem_orders_p.mp hz
    obtain ⟨es, hes, rfl⟩ := exists_perm_map hl
    obtain ⟨fs, hfs, rfl⟩ := exists_perm_map hk
    have hallE : AllEmpty es := fun e he => isEmpty_beq.mp (mem_filter.mp (hes.mem_iff.mp he)).2
    have hallF : AllFull fs := fun e he => isFull_beq.mp (mem_filter.mp (hfs.mem_iff.mp he)).2
    refine ⟨es ++ partOf ms ++ fs, ((hes.append (Perm.refl _)).append hfs).trans (split_perm ms),
      (Flank.mk rfl hallE hps hallF).side, ?_⟩
    rw [flats_append, flats_append, flats_empty hallE, flats_full hallF]
    exact append_mem_seq (append_mem_seq hx hy) hz

/-! ## A P node below the root of the set -/

theorem marked_of_mem {m : Mark} {k : Node} (hk : k ∈ marked m ms) : ∃ e ∈ ms, e.1 = k ∧ e.2 = m := by
  obtain ⟨e, he, rfl⟩ := mem_map.mp hk
  exact ⟨e, (mem_filter.mp he).1, rfl, beq_iff_eq.mp (mem_filter.mp he).2⟩

theorem grown_of_marked (h : Forall₂ (Marked set) kids ms) {m : Mark} : ∀ k ∈ marked m ms, Grown k := by
  intro k hk
  obtain ⟨e, he, rfl, -⟩ := marked_of_mem hk
  exact grown_marked h e he

theorem allEmpty_of_nil (hpart : partOf ms = []) (hfull : marked .full ms = []) : AllEmpty ms := by
  have hf : fullOf ms = [] := map_eq_nil_iff.mp hfull
  have hperm := split_perm ms
  rw [hpart, hf, append_nil, append_nil] at hperm
  exact fun e he => isEmpty_beq.mp (mem_filter.mp (hperm.mem_iff.mpr he)).2

theorem allFull_of_nil (hpart : partOf ms = []) (hempty : marked .empty ms = []) : AllFull ms := by
  have he : emptyOf ms = [] := map_eq_nil_iff.mp hempty
  have hperm := split_perm ms
  rw [hpart, he, append_nil, nil_append] at hperm
  exact fun e he => isFull_beq.mp (mem_filter.mp (hperm.mem_iff.mpr he)).2

theorem parts_isEmpty (hp : Parted ms) : (parts ms).isEmpty = true ↔ partOf ms = [] := by
  rw [parts_eq]
  cases hpart : partOf ms with
  | nil => exact iff_of_true rfl rfl
  | cons e l =>
    obtain ⟨inner, split, rfl⟩ := parted_partOf hp e (by rw [hpart]; exact mem_cons_self)
    exact iff_of_false Bool.false_ne_true nofun

theorem reduceP_sided (h : Forall₂ (Marked set) kids ms) (hg : Grown (.p kids)) (h0 : full set (.p kids) ≠ 0)
    (hn : full set (.p kids) ≠ size (.p kids)) : Sided set (.p kids) (reduceP false ms) := by
  have hmem : leavesAll kids ∈ orders (.p kids) := mem_orders_p.mpr ⟨kids, List.Perm.refl _, leavesAll_mem kids⟩
  have hempty := not_allEmpty h (fun hc => h0 ((full_eq_zero hmem).mpr hc))
  have hfull := not_allFull h (fun hc => hn ((full_eq_size hmem).mpr hc))
  have hp := parted h
  have hwords : ∀ o, (o ∈ orders (.p kids) ∧ Ends set o) ↔ _ := fun o => (ends_p h).trans (side_rows hp)
  unfold reduceP
  dsimp only
  rw [if_neg (fun hb => by
      rw [Bool.and_eq_true, parts_isEmpty hp, List.isEmpty_iff] at hb
      exact hempty (allEmpty_of_nil hb.1 hb.2)),
    if_neg (fun hb => by
      rw [Bool.and_eq_true, parts_isEmpty hp, List.isEmpty_iff] at hb
      exact hfull (allFull_of_nil hb.1 hb.2)), if_neg Bool.false_ne_true, parts_eq]
  cases hpart : partOf ms with
  | nil =>
    have hE : marked .empty ms ≠ [] := fun he => hfull (allFull_of_nil hpart he)
    have hF : marked .full ms ≠ [] := fun hf => hempty (allEmpty_of_nil hpart hf)
    refine .part hg h0 hn (.q nofun ?_) (fun o => ?_)
    · refine forall_mem_cons.mpr ⟨grown_group hE (grown_of_marked h), forall_mem_singleton.mpr ?_⟩
      exact grown_group hF (grown_of_marked h)
    · rw [hwords, hpart, mem_seq_cons]
      simp only [mem_seq_singleton, orders_group]
      constructor
      · rintro ⟨x, hx, z, hz, rfl⟩
        exact ⟨.inl rfl, x, hx, [], mem_seq_nil.mpr rfl, z, hz, by rw [append_nil]⟩
      · rintro ⟨-, x, hx, y, hy, z, hz, rfl⟩
        obtain rfl := mem_seq_nil.mp hy
        exact ⟨x, hx, z, hz, by rw [append_nil]⟩
  | cons e l =>
    obtain ⟨inner, split, rfl⟩ := parted_partOf hp e (by rw [hpart]; exact mem_cons_self)
    cases l with
    | nil =>
      have hq : Grown (.q inner) := grown_marked h _ (mem_filter.mp
        (show (Node.q inner, Mark.part split) ∈ partOf ms by rw [hpart]; exact mem_cons_self)).1
      refine .part hg h0 hn (.q ?_ ?_) (fun o => ?_)
      · intro hnil
        exact hq.kids_q.1 (append_eq_nil_iff.mp (append_eq_nil_iff.mp hnil).1).2
      · exact forall_mem_append.mpr ⟨forall_mem_append.mpr
          ⟨grown_grouped (grown_of_marked h), hq.kids_q.2⟩, grown_grouped (grown_of_marked h)⟩
      · rw [hwords, hpart, mem_seq_append]
        simp only [mem_seq_append, mem_seq_grouped]
        constructor
        · rintro ⟨_, ⟨x, hx, y, hy, rfl⟩, z, hz, rfl⟩
          exact ⟨.inr ⟨_, _, rfl⟩, x, hx, y, by simpa [flats, flat, detach] using hy, z, hz, rfl⟩
        · rintro ⟨-, x, hx, y, hy, z, hz, rfl⟩
          exact ⟨x ++ y, ⟨x, hx, y, by simpa [flats, flat, detach] using hy, rfl⟩, z, hz, rfl⟩
    | cons d l =>
      obtain ⟨inner', split', rfl⟩ := parted_partOf hp d (by rw [hpart]; simp)
      intro o ho he
      obtain ⟨hone, -⟩ := (hwords o).mp ⟨ho, he⟩
      rw [hpart] at hone
      rcases hone with hone | ⟨_, _, hone⟩ <;> simp at hone

/-! ## A P node at the root of the set -/

/-- What stands between the empties: a part, the fulls in any order, a part turned round. -/
def Core (ms : List (Node × Mark)) (w : List Leaf) : Prop :=
  ∃ ps qs, OnePart ps ∧ OnePart qs ∧ (ps ++ qs).Perm (partOf ms) ∧ ∃ u ∈ seq (flats ps),
    ∃ z ∈ orders (.p (marked .full ms)), ∃ v ∈ seq (flats qs).reverse, u ++ z ++ v = w

theorem core_rows (hp : Parted ms) :
    (∃ ls, ls.Perm ms ∧ ∃ es ps fs qs gs, Row ls es ps fs qs gs ∧ o ∈ seq (spread es ps fs qs gs)) ↔
      ∃ l l', (l ++ l').Perm (marked .empty ms) ∧ ∃ x ∈ seq l, ∃ w, Core ms w ∧ ∃ y ∈ seq l', x ++ w ++ y = o := by
  constructor
  · rintro ⟨ls, hperm, es, ps, fs, qs, gs, hrow, ho⟩
    have hpart := hperm.filter (fun e => e.2.isPart)
    have hempty := hperm.filter (fun e => e.2 == .empty)
    have hfull := hperm.filter (fun e => e.2 == .full)
    change (partOf ls).Perm (partOf ms) at hpart
    change (emptyOf ls).Perm (emptyOf ms) at hempty
    change (fullOf ls).Perm (fullOf ms) at hfull
    rw [hrow.eq] at hpart hempty hfull
    simp only [partOf_append, hrow.head.others.2, hrow.block.others.2, hrow.tail.others.2, partOf_self hrow.first,
      partOf_self hrow.second, append_nil, nil_append] at hpart
    simp only [emptyOf_append, hrow.first.others.1, hrow.second.others.1, hrow.block.others.1, emptyOf_self hrow.head,
      emptyOf_self hrow.tail, append_nil] at hempty
    simp only [fullOf_append, hrow.head.others.1, hrow.tail.others.1, hrow.first.others.2, hrow.second.others.2,
      fullOf_self hrow.block, append_nil, nil_append] at hfull
    unfold spread at ho
    obtain ⟨a, ha, y, hy, rfl⟩ := mem_seq_append.mp ho
    obtain ⟨b, hb, v, hv, rfl⟩ := mem_seq_append.mp ha
    obtain ⟨c, hc, z, hz, rfl⟩ := mem_seq_append.mp hb
    obtain ⟨x, hx, u, hu, rfl⟩ := mem_seq_append.mp hc
    refine ⟨es.map Prod.fst, gs.map Prod.fst, by rw [← map_append]; exact hempty.map _, x, hx, u ++ z ++ v,
      ⟨ps, qs, hrow.first, hrow.second, hpart, u, hu, z, mem_orders_p.mpr ⟨_, hfull.map _, hz⟩, v, hv, rfl⟩, y, hy, ?_⟩
    simp only [append_assoc]
  · rintro ⟨l, l', hl, x, hx, _, ⟨ps, qs, hps, hqs, hpart, u, hu, z, hz, v, hv, rfl⟩, y, hy, rfl⟩
    obtain ⟨k, hk, hz⟩ := mem_orders_p.mp hz
    obtain ⟨fs, hfs, rfl⟩ := exists_perm_map hk
    obtain ⟨ds, hds, hmap⟩ := exists_perm_map hl
    obtain ⟨es, gs, rfl, rfl, rfl⟩ := map_eq_append_iff.mp hmap
    have hallE : AllEmpty (es ++ gs) := fun e he => isEmpty_beq.mp (mem_filter.mp (hds.mem_iff.mp he)).2
    have hallF : AllFull fs := fun e he => isFull_beq.mp (mem_filter.mp (hfs.mem_iff.mp he)).2
    refine ⟨es ++ ps ++ fs ++ qs ++ gs, ?_, es, ps, fs, qs, gs, ⟨rfl, fun e he => hallE e (mem_append_left _ he),
      hps, hallF, hqs, fun e he => hallE e (mem_append_right _ he)⟩, ?_⟩
    · refine Perm.trans ?_ (split_perm ms)
      refine Perm.trans ?_ ((hds.append hpart).append hfs)
      -- the same blocks in another order
      rw [← Multiset.coe_eq_coe]
      simp only [← Multiset.coe_add]
      abel
    · unfold spread
      have hall := append_mem_seq (append_mem_seq (append_mem_seq (append_mem_seq hx hu) hz) hv) hy
      simpa only [append_assoc] using hall

theorem mem_orders_p_snoc {l : List Node} {b : Node} : o ∈ orders (.p (l ++ [b])) ↔
    ∃ k k', (k ++ k').Perm l ∧ ∃ x ∈ seq k, ∃ w ∈ orders b, ∃ y ∈ seq k', x ++ w ++ y = o := by
  rw [mem_orders_p]
  constructor
  · rintro ⟨j, hj, ho⟩
    obtain ⟨k, k', rfl⟩ := append_of_mem (hj.mem_iff.mpr mem_append_cons_self)
    obtain ⟨x, hx, z, hz, rfl⟩ := mem_seq_append.mp ho
    obtain ⟨w, hw, y, hy, rfl⟩ := mem_seq_cons.mp hz
    refine ⟨k, k', ?_, x, hx, w, hw, y, hy, append_assoc _ _ _⟩
    have hcons : (b :: (k ++ k')).Perm (b :: l) :=
      perm_middle.symm.trans (hj.trans (perm_append_singleton b l))
    exact hcons.cons_inv
  · rintro ⟨k, k', hk, x, hx, w, hw, y, hy, rfl⟩
    refine ⟨k ++ b :: k', perm_middle.trans ((hk.cons b).trans (perm_append_singleton b l).symm), ?_⟩
    rw [append_assoc]
    exact append_mem_seq hx (mem_seq_cons.mpr ⟨w, hw, y, hy, rfl⟩)

/-- **A node for the core** beside the empties is what the root becomes. -/
theorem kept_core (h : Forall₂ (Marked set) kids ms) (hhits : 2 ≤ hits ms) {b : Node} (hb : Grown b)
    (hcore : ∀ w, w ∈ orders b ↔ Core ms w) : Kept set (.p kids) (.p (marked .empty ms ++ [b])) := by
  refine ⟨.p (by simp) (forall_mem_append.mpr ⟨grown_of_marked h, forall_mem_singleton.mpr hb⟩), fun o => ?_⟩
  rw [block_p h hhits, core_rows (parted h), mem_orders_p_snoc]
  simp only [hcore]

theorem core_nil (hpart : partOf ms = []) (w : List Leaf) : w ∈ orders (.p (marked .full ms)) ↔ Core ms w := by
  unfold Core
  rw [hpart]
  constructor
  · intro hw
    exact ⟨[], [], .inl rfl, .inl rfl, .nil, [], mem_seq_nil.mpr rfl, w, hw, [], mem_seq_nil.mpr rfl,
      append_nil w⟩
  · rintro ⟨ps, qs, -, -, hperm, u, hu, z, hz, v, hv, rfl⟩
    obtain ⟨rfl, rfl⟩ := append_eq_nil_iff.mp (perm_nil.mp hperm)
    rw [mem_seq_nil.mp hu, mem_seq_nil.mp hv, append_nil]
    exact hz

theorem flats_one (inner : List Node) (split : Nat) : flats [(.q inner, .part split)] = inner := by
  simp [flats, flat, detach]

theorem core_one {inner : List Node} {split : Nat} (hpart : partOf ms = [(.q inner, .part split)]) (w : List Leaf) :
    w ∈ orders (.q (inner ++ grouped (marked .full ms))) ↔ Core ms w := by
  unfold Core
  rw [hpart, mem_orders_q, mem_seq_reverse]
  simp only [mem_seq_append, mem_seq_grouped]
  constructor
  · rintro (⟨u, hu, z, hz, rfl⟩ | ⟨u, hu, z, hz, hw⟩)
    · refine ⟨[_], [], .inr ⟨_, _, rfl⟩, .inl rfl, Perm.refl _, u, ?_, z, hz, [], mem_seq_nil.mpr rfl,
        append_nil _⟩
      rwa [flats_one]
    · refine ⟨[], [_], .inl rfl, .inr ⟨_, _, rfl⟩, Perm.refl _, [], mem_seq_nil.mpr rfl, z.reverse,
        reverse_mem _ _ hz, u.reverse, ?_, ?_⟩
      · rw [flats_one]
        exact reverse_mem_seq hu
      · rw [nil_append, ← reverse_append, hw, reverse_reverse]
  · rintro ⟨ps, qs, hps, hqs, hperm, u, hu, z, hz, v, hv, rfl⟩
    rcases append_eq_singleton_iff.mp (perm_singleton.mp hperm) with ⟨rfl, rfl⟩ | ⟨rfl, rfl⟩
    · right
      rw [flats_one, mem_seq_reverse] at hv
      rw [mem_seq_nil.mp hu]
      exact ⟨v.reverse, hv, z.reverse, reverse_mem _ _ hz, by rw [nil_append, reverse_append]⟩
    · left
      rw [flats_one] at hu
      rw [mem_seq_nil.mp hv]
      exact ⟨u, hu, z, hz, (append_nil _).symm⟩

theorem perm_two {α : Type} {a b c d : α} (h : [a, b].Perm [c, d]) : (a = c ∧ b = d) ∨ (a = d ∧ b = c) := by
  rcases mem_pair.mp (h.mem_iff.mp mem_cons_self) with rfl | rfl
  · exact .inl ⟨rfl, singleton_perm_singleton.mp h.cons_inv⟩
  · exact .inr ⟨rfl, singleton_perm_singleton.mp (h.trans (Perm.swap _ _ _)).cons_inv⟩

theorem core_two {one two : List Node} {split split' : Nat}
    (hpart : partOf ms = [(.q one, .part split), (.q two, .part split')]) (w : List Leaf) :
    w ∈ orders (.q (one ++ grouped (marked .full ms) ++ two.reverse)) ↔ Core ms w := by
  unfold Core
  rw [hpart, mem_orders_q, mem_seq_reverse]
  simp only [mem_seq_append, mem_seq_grouped]
  constructor
  · rintro (⟨_, ⟨u, hu, z, hz, rfl⟩, v, hv, rfl⟩ | ⟨_, ⟨u, hu, z, hz, rfl⟩, v, hv, hw⟩)
    · refine ⟨[_], [_], .inr ⟨_, _, rfl⟩, .inr ⟨_, _, rfl⟩, Perm.refl _, u, ?_, z, hz, v, ?_, rfl⟩
      · rwa [flats_one]
      · rwa [flats_one]
    · -- the word read from the other end
      refine ⟨[_], [_], .inr ⟨_, _, rfl⟩, .inr ⟨_, _, rfl⟩, Perm.swap _ _ _, v.reverse, ?_, z.reverse,
        reverse_mem _ _ hz, u.reverse, ?_, ?_⟩
      · rw [flats_one]
        exact mem_seq_reverse.mp hv
      · rw [flats_one]
        exact reverse_mem_seq hu
      · rw [← reverse_reverse w, ← hw]
        simp only [reverse_append, append_assoc]
  · rintro ⟨ps, qs, hps, hqs, hperm, u, hu, z, hz, v, hv, rfl⟩
    rcases hps with rfl | ⟨inner, s, rfl⟩
    · have hlen := hperm.length_eq
      rcases hqs with rfl | ⟨inner', s', rfl⟩ <;> exact absurd hlen (by simp)
    · rcases hqs with rfl | ⟨inner', s', rfl⟩
      · exact absurd hperm.length_eq (by simp)
      · rw [flats_one] at hu hv
        rcases perm_two hperm with h | h
        · obtain ⟨⟨rfl, -⟩, rfl, -⟩ : (inner = one ∧ s = split) ∧ inner' = two ∧ s' = split' := by simpa using h
          exact .inl ⟨_, ⟨u, hu, z, hz, rfl⟩, v, hv, rfl⟩
        · obtain ⟨⟨rfl, -⟩, rfl, -⟩ : (inner = two ∧ s = split') ∧ inner' = one ∧ s' = split := by simpa using h
          right
          refine ⟨_, ⟨v.reverse, mem_seq_reverse.mp hv, z.reverse, reverse_mem _ _ hz, rfl⟩, u.reverse,
            reverse_mem_seq hu, ?_⟩
          simp only [reverse_append, append_assoc]

theorem core_three {a b c : Node × Mark} {l : List (Node × Mark)} (hpart : partOf ms = a :: b :: c :: l)
    (w : List Leaf) : ¬Core ms w := by
  rintro ⟨ps, qs, hps, hqs, hperm, -⟩
  have hlen := hperm.length_eq
  rw [hpart, length_append] at hlen
  have hone : ∀ {l : List (Node × Mark)}, OnePart l → l.length ≤ 1 := by
    rintro l (rfl | ⟨_, _, rfl⟩)
    · exact Nat.zero_le _
    · exact le_rfl
  have h1 := hone hps
  have h2 := hone hqs
  simp only [length_cons] at hlen
  omega

theorem reduceP_rooted (h : List.Forall₂ (Marked set) kids ms) (hg : Grown (.p kids)) (hhits : 2 ≤ hits ms) :
    Rooted set (.p kids) ((reduceP true ms).map Prod.snd) := by
  have hp := parted h
  have hempty : ¬AllEmpty ms := by
    intro hall
    have hzero : hits ms = 0 := countP_eq_zero.mpr (fun e he => by rw [hall e he]; simp)
    omega
  unfold reduceP
  dsimp only
  rw [if_neg (fun hb => by
      rw [Bool.and_eq_true, parts_isEmpty hp, List.isEmpty_iff] at hb
      exact hempty (allEmpty_of_nil hb.1 hb.2))]
  by_cases hfull : AllFull ms
  · rw [if_pos (by
      rw [Bool.and_eq_true, parts_isEmpty hp, List.isEmpty_iff]
      exact ⟨hfull.others.2, map_eq_nil_iff.mpr hfull.others.1⟩), nodes_of_full h hfull]
    refine ⟨hg, fun o => ⟨fun ho => ⟨ho, ?_⟩, fun ho => ho.1⟩⟩
    obtain ⟨l, hl, ho⟩ := mem_orders_p.mp ho
    obtain ⟨ls, hm, hperm⟩ := exists_marked h hl
    exact ((solid_seq hm ho).mpr (fun e he => hfull e (hperm.mem_iff.mp he))).block
  · rw [if_neg (fun hb => by
      rw [Bool.and_eq_true, parts_isEmpty hp, List.isEmpty_iff] at hb
      exact hfull (allFull_of_nil hb.1 hb.2)), if_pos rfl, parts_eq]
    have hgrown : ∀ e ∈ partOf ms, Grown e.1 := fun e he => grown_marked h e (mem_filter.mp he).1
    cases hpart : partOf ms with
    | nil =>
      refine kept_core h hhits (grown_group (fun hf => hempty (allEmpty_of_nil hpart hf)) (grown_of_marked h)) ?_
      intro w
      rw [orders_group]
      exact core_nil hpart w
    | cons e l =>
      obtain ⟨one, split, rfl⟩ := parted_partOf hp e (by rw [hpart]; exact mem_cons_self)
      have hq := (hgrown _ (by rw [hpart]; exact mem_cons_self)).kids_q
      cases l with
      | nil =>
        have hkept : Kept set (.p kids) (.p (marked .empty ms ++ [.q (one ++ grouped (marked .full ms))])) := by
          refine kept_core h hhits (.q (fun hnil => hq.1 (append_eq_nil_iff.mp hnil).1) ?_) (core_one hpart)
          exact forall_mem_append.mpr ⟨hq.2, grown_grouped (grown_of_marked h)⟩
        show Rooted set (.p kids) (Option.map Prod.snd (if (marked .full ms).isEmpty = true
          then some (Mark.full, Node.p (marked .empty ms ++ [.q one]))
          else some (Mark.full, .p (marked .empty ms ++ [.q (one ++ [group (marked .full ms)])]))))
        unfold grouped at hkept
        split
        · rename_i hnil
          rw [if_pos hnil, append_nil] at hkept
          exact hkept
        · rename_i hne
          rw [if_neg hne] at hkept
          exact hkept
      | cons d l =>
        obtain ⟨two, split', rfl⟩ := parted_partOf hp d (by rw [hpart]; simp)
        have hq' := (hgrown (.q two, .part split') (by rw [hpart]; simp)).kids_q
        cases l with
        | nil =>
          refine kept_core h hhits (.q (fun hnil => hq.1 ?_) ?_) (core_two hpart)
          · exact (append_eq_nil_iff.mp (append_eq_nil_iff.mp hnil).1).1
          · refine forall_mem_append.mpr ⟨forall_mem_append.mpr
              ⟨hq.2, grown_grouped (grown_of_marked h)⟩, fun k hk => hq'.2 k (mem_reverse.mp hk)⟩
        | cons c l =>
          obtain ⟨three, split'', rfl⟩ := parted_partOf hp c (by rw [hpart]; simp)
          intro o ho hb
          obtain ⟨_, _, _, _, _, w, hw, _⟩ := (core_rows hp).mp ((block_p h hhits).mp ⟨ho, hb⟩)
          exact core_three hpart w hw

end PNode

end Pie.Proof.PqTrees
