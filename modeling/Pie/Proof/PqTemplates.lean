import Pie.Proof.PqScan

/-!
# The templates

What a node becomes when its children are marked. Below the root of the set it
becomes a Q node that stands for its words that end in the set; at the root, a
node that stands for its words in which the set is a block. Where there is no
such word there is no such node.
-/

namespace Pie.Proof.PqTrees

open List Pie.Poem.Pq Lib.Blocks

variable {e : Node × Mark} {es fs gs ps qs : List (Node × Mark)} {o : List Leaf}

variable {set : List Leaf}

/-! ## Marks of a node that is neither empty nor full -/

section Mixed

variable {kids : List Node} {ms : List (Node × Mark)}

theorem leavesAll_mem (kids : List Node) : leavesAll kids ∈ seq kids := leavesAll_mem_seq (fun k _ => leaves_mem k)

theorem not_allEmpty (h : Forall₂ (Marked set) kids ms) (h0 : ¬Clear set (leavesAll kids)) : ¬AllEmpty ms :=
  fun he => h0 ((clear_seq h (leavesAll_mem kids)).mpr he)

theorem not_allFull (h : Forall₂ (Marked set) kids ms) (h0 : ¬Solid set (leavesAll kids)) : ¬AllFull ms :=
  fun he => h0 ((solid_seq h (leavesAll_mem kids)).mpr he)

theorem Marked.grown_flat {c : Node} (h : Marked set c e) : flat e ≠ [] ∧ ∀ k ∈ flat e, Grown k := by
  cases h with
  | empty hg _ => exact ⟨nofun, fun k hk => by rw [mem_singleton.mp hk]; exact hg⟩
  | full hg _ _ => exact ⟨nofun, fun k hk => by rw [mem_singleton.mp hk]; exact hg⟩
  | part _ _ _ hq _ => exact hq.kids_q

section

variable (h : Forall₂ (Marked set) kids ms)
include h

theorem grown_each : ∀ e ∈ ms, flat e ≠ [] ∧ ∀ k ∈ flat e, Grown k := by
  induction h with
  | nil => exact nofun
  | cons hm _ ih => exact forall_mem_cons.mpr ⟨hm.grown_flat, ih⟩

theorem grown_flats : (kids ≠ [] → flats ms ≠ []) ∧ ∀ k ∈ flats ms, Grown k := by
  induction h with
  | nil => exact ⟨fun h => absurd rfl h, nofun⟩
  | cons hm _ ih =>
    rw [flats_cons]
    exact ⟨fun _ hnil => hm.grown_flat.1 (append_eq_nil_iff.mp hnil).1, forall_mem_append.mpr ⟨hm.grown_flat.2, ih.2⟩⟩

theorem grown_marked : ∀ e ∈ ms, Grown e.1 := by
  induction h with
  | nil => exact nofun
  | cons hm _ ih =>
    refine forall_mem_cons.mpr ⟨?_, ih⟩
    cases hm with
    | empty hg _ => exact hg
    | full hg _ _ => exact hg
    | part _ _ _ hq _ => exact hq

theorem nodes_of_full (hf : AllFull ms) : ms.map Prod.fst = kids := by
  induction h with
  | nil => rfl
  | @cons c e kids ms hm _ ih =>
    rw [map_cons, ih (fun d hd => hf d (mem_cons_of_mem _ hd))]
    cases hm with
    | empty => rfl
    | full => rfl
    | part => exact absurd (hf _ mem_cons_self) nofun

end

end Mixed

/-! ## A Q node below the root of the set -/

theorem Side.all_empty (he : e.2 = .empty) : ∀ {ms : List (Node × Mark)}, Side (ms ++ [e]) →
    AllEmpty (ms ++ [e]) := by
  intro ms
  induction ms with
  | nil => exact fun _ => forall_mem_singleton.mpr he
  | cons d ms ih =>
    intro h
    rcases h with ⟨hd, h⟩ | ⟨-, hall⟩
    · exact forall_mem_cons.mpr ⟨hd, ih h⟩
    · have hfull := hall e mem_append_cons_self
      rw [he] at hfull
      cases hfull

theorem Side.all_full (he : e.2 = .full) {ms : List (Node × Mark)} (h : Side (e :: ms)) : AllFull (e :: ms) := by
  rcases h with ⟨hempty, -⟩ | ⟨-, hall⟩
  · rw [he] at hempty
    cases hempty
  · exact forall_mem_cons.mpr ⟨he, hall⟩

/-- A row that is on one side read from either end is one part alone. -/
theorem side_both {ms : List (Node × Mark)} (h : Side ms) (hr : Side ms.reverse) (hempty : ¬AllEmpty ms)
    (hfull : ¬AllFull ms) : ms.reverse = ms := by
  cases ms with
  | nil => rfl
  | cons e ms =>
    rcases h with ⟨he, -⟩ | ⟨he, hall⟩
    · rw [reverse_cons] at hr
      refine absurd (fun d hd => ?_) hempty
      exact hr.all_empty he d (by rw [← reverse_cons]; exact mem_reverse.mpr hd)
    · -- the last of the others would be full, and so all of them
      cases hlast : ms.reverse with
      | nil => rw [reverse_eq_nil_iff.mp hlast]; rfl
      | cons d l =>
        have hd : d.2 = .full := hall d (mem_reverse.mp (by rw [hlast]; exact mem_cons_self))
        rw [reverse_cons, hlast] at hr
        refine absurd (fun f hf => hr.all_full hd f ?_) hfull
        show f ∈ (d :: l) ++ [e]
        rw [← hlast, ← reverse_cons]
        exact mem_reverse.mpr hf

section QNode

variable {kids : List Node} {ms : List (Node × Mark)}

theorem ends_q (h : Forall₂ (Marked set) kids ms) : (o ∈ orders (.q kids) ∧ Ends set o) ↔
    (Side ms ∧ o ∈ seq (flats ms)) ∨ (Side ms.reverse ∧ o ∈ seq (flats ms.reverse)) := by
  rw [mem_orders_q, or_and_right, ends_seq h, ends_seq (rel_reverse h)]

theorem scanSide_of_side (hp : Parted ms) (h : Side ms) : ∃ scan, scanSide (ms.map Prod.snd) = some scan := by
  obtain ⟨es, ps, fs, hflank⟩ := flank_of_side hp h
  exact ⟨_, scanSide_flank hflank⟩

theorem spliceSide_of_scan (hp : Parted ms) {scan : Nat × Option Nat} (h : scanSide (ms.map Prod.snd) = some scan) :
    Side ms ∧ ∃ split, spliceSide ms scan = some (.part split, .q (flats ms)) := by
  obtain ⟨es, ps, fs, hflank⟩ := scanSide_some hp h
  rw [scanSide_flank hflank] at h
  cases h
  exact ⟨hflank.side, spliceSide_flank hflank⟩

/-- What a reduction below the root of the set gives. -/
def Sided (set : List Leaf) (c : Node) : Option (Mark × Node) → Prop
  | some (m, t) => Marked set c (t, m)
  | none => ∀ o ∈ orders c, ¬Ends set o

theorem reduceQ_sided (h : Forall₂ (Marked set) kids ms) (hg : Grown (.q kids)) (h0 : full set (.q kids) ≠ 0)
    (hn : full set (.q kids) ≠ size (.q kids)) : Sided set (.q kids) (reduceQ false ms) := by
  have hmem : leavesAll kids ∈ orders (.q kids) := mem_orders_q.mpr (.inl (leavesAll_mem kids))
  have hempty := not_allEmpty h (fun hc => h0 ((full_eq_zero hmem).mpr hc))
  have hfull := not_allFull h (fun hc => hn ((full_eq_size hmem).mpr hc))
  have hp := parted h
  have hmarks : (ms.map Prod.snd).reverse = ms.reverse.map Prod.snd := map_reverse.symm
  unfold reduceQ
  dsimp only
  rw [if_neg (fun hall => hempty (fun e he => isEmpty_beq.mp (all_eq_true.mp hall _ (mem_map_of_mem he)))),
    if_neg (fun hall => hfull (fun e he => isFull_beq.mp (all_eq_true.mp hall _ (mem_map_of_mem he)))),
    if_neg Bool.false_ne_true]
  cases hscan : scanSide (ms.map Prod.snd) with
  | some scan =>
    obtain ⟨hside, split, hsplice⟩ := spliceSide_of_scan hp hscan
    show Sided set (.q kids) (spliceSide ms scan)
    rw [hsplice]
    refine .part hg h0 hn (.q ((grown_flats h).1 hg.kids_q.1) (grown_flats h).2) (fun o => ?_)
    rw [ends_q h]
    constructor
    · exact fun ho => .inl ⟨hside, ho⟩
    · rintro (⟨-, ho⟩ | ⟨hr, ho⟩)
      · exact ho
      · rwa [side_both hside hr hempty hfull] at ho
  | none =>
    have hnot : ¬Side ms := by
      intro hside
      obtain ⟨scan, hs⟩ := scanSide_of_side hp hside
      rw [hscan] at hs
      cases hs
    show Sided set (.q kids) ((scanSide (ms.map Prod.snd).reverse).bind (spliceSide ms.reverse))
    rw [hmarks]
    have hpr := parted (rel_reverse h)
    cases hscan' : scanSide (ms.reverse.map Prod.snd) with
    | some scan =>
      obtain ⟨hside, split, hsplice⟩ := spliceSide_of_scan hpr hscan'
      rw [Option.bind_some, hsplice]
      have hgr := grown_flats (rel_reverse h)
      refine .part hg h0 hn (.q (hgr.1 (by simpa using hg.kids_q.1)) hgr.2) (fun o => ?_)
      rw [ends_q h]
      exact ⟨fun ho => .inr ⟨hside, ho⟩, fun ho => (ho.resolve_left (fun ho => hnot ho.1)).2⟩
    | none =>
      intro o ho he
      rcases (ends_q h).mp ⟨ho, he⟩ with ⟨hside, -⟩ | ⟨hside, -⟩
      · exact hnot hside
      · obtain ⟨scan, hs⟩ := scanSide_of_side hpr hside
        rw [hscan'] at hs
        cases hs

/-! ## A Q node at the root of the set -/

/-- The node stands for the words of the other in which the set is a block. -/
structure Kept (set : List Leaf) (c t : Node) : Prop where
  grown : Grown t
  orders : ∀ o, o ∈ orders t ↔ o ∈ orders c ∧ Block set o

/-- What a reduction at the root of the set gives. -/
def Rooted (set : List Leaf) (c : Node) : Option Node → Prop
  | some t => Kept set c t
  | none => ∀ o ∈ orders c, ¬Block set o

theorem block_q (h : Forall₂ (Marked set) kids ms) (hhits : 2 ≤ hits ms) :
    (o ∈ orders (.q kids) ∧ Block set o) ↔ ∃ es ps fs qs gs, Row ms es ps fs qs gs
      ∧ (o ∈ seq (spread es ps fs qs gs) ∨ o ∈ seq (spread es ps fs qs gs).reverse) := by
  rw [mem_orders_q, or_and_right, block_rows h hhits, mem_seq_reverse, ← block_reverse, block_rows h hhits]
  constructor
  · rintro (⟨es, ps, fs, qs, gs, hrow, ho⟩ | ⟨es, ps, fs, qs, gs, hrow, ho⟩)
    · exact ⟨es, ps, fs, qs, gs, hrow, .inl ho⟩
    · exact ⟨es, ps, fs, qs, gs, hrow, .inr (mem_seq_reverse.mpr ho)⟩
  · rintro ⟨es, ps, fs, qs, gs, hrow, ho | ho⟩
    · exact .inl ⟨es, ps, fs, qs, gs, hrow, ho⟩
    · exact .inr ⟨es, ps, fs, qs, gs, hrow, mem_seq_reverse.mp ho⟩

/-- With two hits the row has something at the start of its block. -/
theorem Row.ne (h : Row ms es ps fs qs gs) (hhits : 2 ≤ hits ms) : ps ++ fs ≠ [] := by
  intro hnil
  obtain ⟨rfl, rfl⟩ := append_eq_nil_iff.mp hnil
  have hzero : ∀ l : List (Node × Mark), AllEmpty l → hits l = 0 := by
    intro l hl
    refine countP_eq_zero.mpr (fun e he => ?_)
    rw [hl e he]
    simp
  have hqs : hits qs ≤ 1 := by
    rcases h.second with rfl | ⟨inner, split, rfl⟩
    · exact Nat.zero_le _
    · exact countP_le_length
  have hsum : hits ms = hits es + hits qs + hits gs := by
    rw [h.eq]
    unfold hits
    simp only [append_nil, countP_append]
  rw [hzero es h.head, hzero gs h.tail] at hsum
  omega

section

variable (h : Forall₂ (Marked set) kids ms)
include h

theorem grown_spread
    (hrow : Row ms es ps fs qs gs) : ∀ k ∈ spread es ps fs qs gs, Grown k := by
  have hnodes := grown_marked h
  have hflat : ∀ l : List (Node × Mark), (∀ e ∈ l, e ∈ ms) → ∀ k ∈ flats l, Grown k := by
    intro l hl k hk
    obtain ⟨e, he, hk⟩ := mem_flatMap.mp hk
    exact (grown_each h e (hl e he)).2 k hk
  have hmap : ∀ l : List (Node × Mark), (∀ e ∈ l, e ∈ ms) → ∀ k ∈ l.map Prod.fst, Grown k := by
    intro l hl k hk
    obtain ⟨e, he, rfl⟩ := mem_map.mp hk
    exact hnodes e (hl e he)
  rw [hrow.eq] at hmap hflat
  unfold spread
  intro k hk
  simp only [mem_append, mem_reverse] at hk hmap hflat
  rcases hk with (((hk | hk) | hk) | hk) | hk
  · exact hmap es (fun e he => by simp [he]) k hk
  · exact hflat ps (fun e he => by simp [he]) k hk
  · exact hmap fs (fun e he => by simp [he]) k hk
  · exact hflat qs (fun e he => by simp [he]) k hk
  · exact hmap gs (fun e he => by simp [he]) k hk

theorem spread_ne
    (hrow : Row ms es ps fs qs gs) (hhits : 2 ≤ hits ms) : spread es ps fs qs gs ≠ [] := by
  intro hnil
  unfold spread at hnil
  simp only [append_eq_nil_iff, map_eq_nil_iff, reverse_eq_nil_iff] at hnil
  obtain ⟨⟨⟨⟨-, hps⟩, hfs⟩, -⟩, -⟩ := hnil
  refine hrow.ne hhits (append_eq_nil_iff.mpr ⟨?_, hfs⟩)
  cases ps with
  | nil => rfl
  | cons e ps =>
    rw [flats_cons] at hps
    exact absurd (append_eq_nil_iff.mp hps).1 (grown_each h e (by rw [hrow.eq]; simp)).1

theorem reduceQ_rooted (hg : Grown (.q kids)) (hhits : 2 ≤ hits ms) :
    Rooted set (.q kids) ((reduceQ true ms).map Prod.snd) := by
  have hp := parted h
  have hempty : ¬AllEmpty ms := by
    intro hall
    have hzero : hits ms = 0 := countP_eq_zero.mpr (fun e he => by rw [hall e he]; simp)
    omega
  unfold reduceQ
  dsimp only
  rw [if_neg (fun hall => hempty (fun e he => isEmpty_beq.mp (all_eq_true.mp hall _ (mem_map_of_mem he))))]
  by_cases hfull : AllFull ms
  · rw [if_pos (all_eq_true.mpr fun m hm => by
      obtain ⟨e, he, rfl⟩ := mem_map.mp hm
      exact isFull_beq.mpr (hfull e he)), nodes_of_full h hfull]
    refine ⟨hg, fun o => ⟨fun ho => ⟨ho, ?_⟩, fun ho => ho.1⟩⟩
    rcases mem_orders_q.mp ho with ho | ho
    · exact ((solid_seq h ho).mpr hfull).block
    · exact ((solid_seq (rel_reverse h) ho).mpr hfull.reverse).block
  · rw [if_neg (fun hall => hfull (fun e he => isFull_beq.mp
      (all_eq_true.mp hall _ (mem_map_of_mem he)))), if_pos rfl]
    cases hscan : scanRoot (ms.map Prod.snd) with
    | none =>
      intro o ho hb
      obtain ⟨es, ps, fs, qs, gs, hrow, -⟩ := (block_q h hhits).mp ⟨ho, hb⟩
      rw [scanRoot_row hrow (hrow.ne hhits)] at hscan
      cases hscan
    | some scan =>
      obtain ⟨es, ps, fs, qs, gs, hrow⟩ := scanRoot_some hp hscan
      rw [scanRoot_row hrow (hrow.ne hhits)] at hscan
      cases hscan
      show Rooted set (.q kids) (((spliceRoot ms (scanOf es ps fs qs)).bind
        (fun out => some (Mark.full, Node.q out))).map Prod.snd)
      rw [spliceRoot_row hrow]
      refine ⟨.q (spread_ne h hrow hhits) (grown_spread h hrow), fun o => ?_⟩
      rw [block_q h hhits, mem_orders_q]
      constructor
      · exact fun ho => ⟨es, ps, fs, qs, gs, hrow, ho⟩
      · rintro ⟨es', ps', fs', qs', gs', hrow', ho⟩
        -- the scan is the same, and so is what is spliced
        have hsame := scanRoot_row hrow' (hrow'.ne hhits)
        rw [scanRoot_row hrow (hrow.ne hhits)] at hsame
        have hsplice := spliceRoot_row hrow'
        rw [← Option.some.inj hsame, spliceRoot_row hrow] at hsplice
        rwa [Option.some.inj hsplice]

end

end QNode

end Pie.Proof.PqTrees
