import Pie.Proof.PqMarks

/-!
# Scanning a Q node

A scan finds the marks of a row in their order, empties, a part, fulls, and from
the root of the set another part and empties again. It succeeds on the rows of
this shape, and what is spliced is the row with its parts laid open.
-/

namespace Pie.Proof.PqTrees

open List Pie.Poem.Pq Lib.Blocks

variable {ps es fs gs qs : List (Node × Mark)} {kids : List Node} {m : Mark}

variable {set : List Leaf}

/-! ## Shapes of a row -/

def AllEmpty (ms : List (Node × Mark)) : Prop := ∀ e ∈ ms, e.2 = .empty

def AllFull (ms : List (Node × Mark)) : Prop := ∀ e ∈ ms, e.2 = .full

/-- At most one child, and it is a part. -/
def OnePart (ms : List (Node × Mark)) : Prop := ms = [] ∨ ∃ inner split, ms = [(.q inner, .part split)]

/-- Parts are Q nodes. -/
def Parted (ms : List (Node × Mark)) : Prop := ∀ e ∈ ms, e.2.isPart = true → ∃ inner split, e = (.q inner, .part split)

variable {ms a c : List (Node × Mark)}

theorem parted (h : Forall₂ (Marked set) kids ms) : Parted ms := by
  induction h with
  | nil => exact nofun
  | cons hm _ ih =>
    refine forall_mem_cons.mpr ⟨fun hpart => ?_, ih⟩
    cases hm with
    | empty => cases hpart
    | full => cases hpart
    | part => exact ⟨_, _, rfl⟩

theorem flats_empty (h : AllEmpty ms) : flats ms = ms.map Prod.fst := by
  induction ms with
  | nil => rfl
  | cons e ms ih =>
    rw [flats_cons, ih (fun d hd => h d (mem_cons_of_mem _ hd)), flat, h e mem_cons_self]
    rfl

theorem flats_full (h : AllFull ms) : flats ms = ms.map Prod.fst := by
  induction ms with
  | nil => rfl
  | cons e ms ih =>
    rw [flats_cons, ih (fun d hd => h d (mem_cons_of_mem _ hd)), flat, h e mem_cons_self]
    rfl

theorem AllEmpty.reverse (h : AllEmpty ms) : AllEmpty ms.reverse :=
  fun e he => h e (mem_reverse.mp he)

theorem AllFull.reverse (h : AllFull ms) : AllFull ms.reverse :=
  fun e he => h e (mem_reverse.mp he)

theorem OnePart.reverse (h : OnePart ms) : ms.reverse = ms := by
  rcases h with rfl | ⟨_, _, rfl⟩ <;> rfl

/-- Empties, at most one part, fulls. -/
structure Flank (ms es ps fs : List (Node × Mark)) : Prop where
  eq : ms = es ++ ps ++ fs
  head : AllEmpty es
  part : OnePart ps
  block : AllFull fs

theorem flank_of_side : ∀ {ms : List (Node × Mark)}, Parted ms → Side ms → ∃ es ps fs, Flank ms es ps fs := by
  intro ms
  induction ms with
  | nil => exact fun _ _ => ⟨[], [], [], rfl, nofun, .inl rfl, nofun⟩
  | cons e ms ih =>
    intro hp hs
    rcases hs with ⟨he, hs⟩ | ⟨he, hall⟩
    · obtain ⟨es, ps, fs, rfl, hes, hps, hfs⟩ := ih (fun d hd => hp d (mem_cons_of_mem _ hd)) hs
      exact ⟨e :: es, ps, fs, rfl, forall_mem_cons.mpr ⟨he, hes⟩, hps, hfs⟩
    · by_cases hpart : e.2.isPart = true
      · obtain ⟨inner, split, rfl⟩ := hp e mem_cons_self hpart
        exact ⟨[], [_], ms, rfl, nofun, .inr ⟨_, _, rfl⟩, hall⟩
      · refine ⟨[], [], e :: ms, rfl, nofun, .inl rfl, forall_mem_cons.mpr ⟨?_, hall⟩⟩
        cases hm : e.2 with
        | empty => exact absurd hm he
        | full => rfl
        | part _ => rw [hm] at hpart; exact absurd rfl hpart

theorem Flank.side {ms es ps fs : List (Node × Mark)} (h : Flank ms es ps fs) : Side ms := by
  obtain ⟨rfl, hes, hps, hfs⟩ := h
  induction es with
  | nil =>
    rcases hps with rfl | ⟨inner, split, rfl⟩
    · exact Side.of_full hfs
    · exact .inr ⟨nofun, hfs⟩
  | cons e es ih => exact .inl ⟨hes e mem_cons_self, ih (fun d hd => hes d (mem_cons_of_mem _ hd))⟩

/-- The nodes of a row around the block of the set, its parts laid open. -/
def spread (es ps fs qs gs : List (Node × Mark)) : List Node :=
  es.map Prod.fst ++ flats ps ++ fs.map Prod.fst ++ (flats qs).reverse ++ gs.map Prod.fst

/-- Empties, at most one part, fulls, at most one part, empties. -/
structure Row (ms es ps fs qs gs : List (Node × Mark)) : Prop where
  eq : ms = es ++ ps ++ fs ++ qs ++ gs
  head : AllEmpty es
  first : OnePart ps
  block : AllFull fs
  second : OnePart qs
  tail : AllEmpty gs

theorem row_of_cut {ms a b : List (Node × Mark)} (hp : Parted ms) (h : Cut ms a b) :
    ∃ es ps fs qs gs, Row ms es ps fs qs gs ∧ flats a ++ (flats b.reverse).reverse = spread es ps fs qs gs := by
  obtain ⟨rfl, hleft, hright⟩ := h
  obtain ⟨es, ps, fs, rfl, hes, hps, hfs⟩ := flank_of_side (fun e he => hp e (mem_append_left _ he)) hleft
  obtain ⟨gs, qs, hs, hb, hgs, hqs, hhs⟩ := flank_of_side
    (fun e he => hp e (mem_append_right _ (mem_reverse.mp he))) hright
  obtain rfl : b = hs.reverse ++ qs ++ gs.reverse := by
    rw [← reverse_reverse b, hb, reverse_append, reverse_append, hqs.reverse, append_assoc]
  refine ⟨es, ps, fs ++ hs.reverse, qs, gs.reverse, ⟨by simp only [append_assoc], hes, hps,
    forall_mem_append.mpr ⟨hfs, hhs.reverse⟩, hqs, hgs.reverse⟩, ?_⟩
  rw [hb, flats_append, flats_append, flats_append, flats_append, flats_empty hes, flats_full hfs, flats_empty hgs,
    flats_full hhs]
  unfold spread
  simp only [reverse_append, map_append, map_reverse, append_assoc]

theorem Row.cut {ms es ps fs qs gs : List (Node × Mark)} (h : Row ms es ps fs qs gs) :
    Cut ms (es ++ ps ++ fs) (qs ++ gs)
      ∧ flats (es ++ ps ++ fs) ++ (flats (qs ++ gs).reverse).reverse = spread es ps fs qs gs := by
  have hright : Flank (qs ++ gs).reverse gs.reverse qs [] := by
    refine ⟨?_, h.tail.reverse, h.second, nofun⟩
    rw [reverse_append, h.second.reverse, append_nil]
  refine ⟨⟨by rw [h.eq, append_assoc], (Flank.mk rfl h.head h.first h.block).side, hright.side⟩, ?_⟩
  rw [hright.eq, append_nil, flats_append, flats_append, flats_append, flats_empty h.head, flats_full h.block,
    flats_empty h.tail.reverse]
  unfold spread
  simp only [reverse_append, map_reverse, reverse_reverse, append_assoc]

/-- **The words in which the set is a block**, by the shape of the row. -/
theorem block_rows {o : List Leaf}
    (h : Forall₂ (Marked set) kids ms) (hhits : 2 ≤ hits ms) : (o ∈ seq kids ∧ Block set o) ↔
      ∃ es ps fs qs gs, Row ms es ps fs qs gs ∧ o ∈ seq (spread es ps fs qs gs) := by
  rw [block_seq h hhits]
  constructor
  · rintro ⟨a, b, hcut, x, y, rfl, hx, hy⟩
    obtain ⟨es, ps, fs, qs, gs, hrow, hflat⟩ := row_of_cut (parted h) hcut
    refine ⟨es, ps, fs, qs, gs, hrow, ?_⟩
    rw [← hflat]
    exact append_mem_seq hx (mem_seq_reverse.mpr hy)
  · rintro ⟨es, ps, fs, qs, gs, hrow, ho⟩
    obtain ⟨hcut, hflat⟩ := hrow.cut
    rw [← hflat] at ho
    obtain ⟨x, hx, y, hy, rfl⟩ := mem_seq_append.mp ho
    exact ⟨_, _, hcut, x, y, rfl, hx, mem_seq_reverse.mp hy⟩

/-! ## Scans -/

section Scan

variable {ms a b c : List (Node × Mark)} {p : Mark → Bool}

theorem skip_of (hms : ms = a ++ b ++ c) (hb : ∀ e ∈ b, p e.2 = true) (hc : ∀ e, c.head? = some e → p e.2 = false) :
    skip p (ms.map Prod.snd) a.length = (a ++ b).length := by
  have hstop : (c.map Prod.snd).takeWhile p = [] := by
    cases c with
    | nil => rfl
    | cons e c => rw [map_cons, takeWhile_cons, hc e rfl]; rfl
  have hlen : a.length = (a.map Prod.snd).length := (length_map _).symm
  unfold skip
  rw [hms, append_assoc, map_append, hlen, drop_left, map_append, takeWhile_append_of_pos (by
      intro m hm
      obtain ⟨e, he, rfl⟩ := mem_map.mp hm
      exact hb e he), hstop, append_nil, length_map, length_map, length_append]

theorem exists_skip (p : Mark → Bool) (hms : ms = a ++ c) :
    ∃ b d, c = b ++ d ∧ (∀ e ∈ b, p e.2 = true) ∧ (∀ e, d.head? = some e → p e.2 = false)
      ∧ skip p (ms.map Prod.snd) a.length = (a ++ b).length := by
  have hsplit := (takeWhile_append_dropWhile (p := fun e : Node × Mark => p e.2) (l := c)).symm
  have hpos : ∀ e ∈ c.takeWhile (fun e => p e.2), p e.2 = true := fun e he =>
    all_eq_true.mp (all_takeWhile (p := fun e : Node × Mark => p e.2)) e he
  have hneg : ∀ e, (c.dropWhile (fun e => p e.2)).head? = some e → p e.2 = false := by
    intro e he
    have := head?_dropWhile_not (fun e : Node × Mark => p e.2) c
    rw [he] at this
    simpa using this
  exact ⟨_, _, hsplit, hpos, hneg, skip_of (by rw [hms, append_assoc, ← hsplit]) hpos hneg⟩

theorem partAt_eq (hms : ms = a ++ c) : partAt (ms.map Prod.snd) a.length = (c.head?.map (·.2.isPart)).getD false := by
  unfold partAt
  rw [hms, getElem?_map, getElem?_append_right le_rfl, Nat.sub_self, ← head?_eq_getElem?, Option.map_map]
  rfl

/-- A part is found where there is one, and the scan goes on after it. -/
theorem part_of (hms : ms = a ++ ps ++ c) (hps : OnePart ps)
    (hc : ps = [] → ∀ e, c.head? = some e → e.2.isPart = false) :
    partAt (ms.map Prod.snd) a.length = !ps.isEmpty
      ∧ (if partAt (ms.map Prod.snd) a.length then a.length + 1 else a.length) = (a ++ ps).length := by
  rw [partAt_eq (by rw [hms, append_assoc])]
  rcases hps with rfl | ⟨inner, split, rfl⟩
  · have hnone : (c.head?.map (·.2.isPart)).getD false = false := by
      cases hh : c.head? with
      | none => rfl
      | some e => exact hc rfl e hh
    rw [nil_append, hnone, append_nil]
    exact ⟨rfl, rfl⟩
  · exact ⟨rfl, by rw [length_append]; rfl⟩

theorem exists_part (hp : Parted ms) (hms : ms = a ++ c) : ∃ ps d, c = ps ++ d ∧ OnePart ps
    ∧ partAt (ms.map Prod.snd) a.length = !ps.isEmpty
    ∧ (if partAt (ms.map Prod.snd) a.length then a.length + 1 else a.length) = (a ++ ps).length := by
  by_cases hpart : ∃ e, c.head? = some e ∧ e.2.isPart = true
  · obtain ⟨e, he, hpart⟩ := hpart
    obtain ⟨d, rfl⟩ := head?_eq_some_iff.mp he
    obtain ⟨inner, split, rfl⟩ := hp e (by rw [hms]; simp) hpart
    have hone : OnePart [(.q inner, Mark.part split)] := .inr ⟨_, _, rfl⟩
    exact ⟨[_], d, rfl, hone, part_of (by rw [hms, append_assoc]; rfl) hone nofun⟩
  · have hnone : ∀ e, c.head? = some e → e.2.isPart = false := by
      intro e he
      rw [← Bool.not_eq_true]
      exact fun h => hpart ⟨e, he, h⟩
    exact ⟨[], c, rfl, .inl rfl, part_of (by rw [hms, append_nil]) (.inl rfl) (fun _ => hnone)⟩

/-- Where the part of a row is, if it has one. -/
def placeOf (ps : List (Node × Mark)) (pos : Nat) : Option Nat := if !ps.isEmpty then some pos else none

theorem isEmpty_beq : (m == .empty) = true ↔ m = .empty := beq_iff_eq

theorem isFull_beq : (m == .full) = true ↔ m = .full := beq_iff_eq

theorem scanSide_flank (h : Flank ms es ps fs) :
    scanSide (ms.map Prod.snd) = some (es.length, placeOf ps es.length) := by
  have hhead : skip (· == .empty) (ms.map Prod.snd) 0 = es.length := by
    refine skip_of (a := []) (b := es) (c := ps ++ fs) (by rw [h.eq, append_assoc]; rfl)
      (fun e he => isEmpty_beq.mpr (h.head e he)) (fun e he => ?_)
    rcases h.part with rfl | ⟨inner, split, rfl⟩
    · rw [h.block e (mem_of_mem_head? he)]
      rfl
    · cases he
      rfl
  obtain ⟨hpart, hnext⟩ := part_of h.eq h.part (fun _ e he => by rw [h.block e (mem_of_mem_head? he)]; rfl)
  have hstop : skip (· == .full) (ms.map Prod.snd) (es ++ ps).length = (es ++ ps ++ fs).length :=
    skip_of (c := []) (by rw [h.eq, append_nil]) (fun e he => isFull_beq.mpr (h.block e he)) nofun
  unfold scanSide
  dsimp only
  rw [hhead, hnext, hstop, hpart, length_map, h.eq, if_pos rfl]
  rfl

theorem scanSide_some (hp : Parted ms) {scan : Nat × Option Nat} (h : scanSide (ms.map Prod.snd) = some scan) :
    ∃ es ps fs, Flank ms es ps fs := by
  obtain ⟨es, r, hr, hes, -, hhead⟩ := exists_skip (· == .empty) (nil_append ms).symm
  obtain ⟨ps, d, rfl, hps, -, hnext⟩ := exists_part (a := es) hp hr
  obtain ⟨fs, rest, rfl, hfs, -, hstop⟩ := exists_skip (a := es ++ ps) (· == .full)
    (show ms = es ++ ps ++ d by rw [hr, append_assoc])
  have hhead' : skip (· == .empty) (ms.map Prod.snd) 0 = es.length := hhead
  unfold scanSide at h
  dsimp only at h
  rw [hhead', hnext, hstop] at h
  split at h
  · rename_i hlen
    -- nothing is left when the scan reaches the end
    have hrest : rest = [] := by
      rw [length_map, hr] at hlen
      simp only [length_append] at hlen
      exact eq_nil_of_length_eq_zero (by omega)
    refine ⟨es, ps, fs, ?_, fun e he => isEmpty_beq.mp (hes e he), hps, fun e he => isFull_beq.mp (hfs e he)⟩
    rw [hr, hrest, append_nil, append_assoc]
  · cases h

/-- What the scan says of a row. -/
def scanOf (es ps fs qs : List (Node × Mark)) : RootScan :=
  ⟨es.length, placeOf ps es.length, ((es ++ ps).length, (es ++ ps ++ fs).length), placeOf qs (es ++ ps ++ fs).length⟩

theorem scanRoot_row (h : Row ms es ps fs qs gs) (hne : ps ++ fs ≠ []) :
    scanRoot (ms.map Prod.snd) = some (scanOf es ps fs qs) := by
  have hnotEmpty : ∀ e, (ps ++ fs ++ qs ++ gs).head? = some e → (e.2 == Mark.empty) = false := by
    intro e he
    rcases h.first with rfl | ⟨inner, split, rfl⟩
    · cases hfs : fs with
      | nil => exact absurd hfs hne
      | cons d fs' =>
        rw [hfs] at he
        obtain rfl : d = e := Option.some.inj he
        rw [h.block d (by rw [hfs]; exact mem_cons_self)]
        rfl
    · cases he
      rfl
  have hhead : skip (· == .empty) (ms.map Prod.snd) 0 = es.length :=
    skip_of (a := []) (b := es) (c := ps ++ fs ++ qs ++ gs) (by rw [h.eq]; simp only [append_assoc, nil_append])
      (fun e he => isEmpty_beq.mpr (h.head e he)) hnotEmpty
  obtain ⟨hfirst, hstart⟩ := part_of (a := es) (c := fs ++ qs ++ gs)
    (show ms = es ++ ps ++ (fs ++ qs ++ gs) by rw [h.eq]; simp only [append_assoc])
    h.first (fun hps e he => by
      cases hfs : fs with
      | nil => rw [hps, hfs] at hne; exact absurd rfl hne
      | cons d fs' =>
        rw [hfs] at he
        obtain rfl : d = e := Option.some.inj he
        rw [h.block d (by rw [hfs]; exact mem_cons_self)]
        rfl)
  have hstop : skip (· == .full) (ms.map Prod.snd) (es ++ ps).length = (es ++ ps ++ fs).length := by
    refine skip_of (c := qs ++ gs) (by rw [h.eq]; simp only [append_assoc])
      (fun e he => isFull_beq.mpr (h.block e he)) (fun e he => ?_)
    rcases h.second with rfl | ⟨inner, split, rfl⟩
    · rw [h.tail e (mem_of_mem_head? he)]
      rfl
    · cases he
      rfl
  obtain ⟨hsecond, hnext⟩ := part_of (a := es ++ ps ++ fs) h.eq h.second
    (fun _ e he => by rw [h.tail e (mem_of_mem_head? he)]; rfl)
  have hlast : skip (· == .empty) (ms.map Prod.snd) (es ++ ps ++ fs ++ qs).length = (es ++ ps ++ fs ++ qs ++ gs).length :=
    skip_of (c := []) (by rw [h.eq, append_nil]) (fun e he => isEmpty_beq.mpr (h.tail e he)) nofun
  unfold scanRoot
  dsimp only
  rw [hhead, hstart, hstop, hnext, hlast, hfirst, hsecond, length_map, h.eq, if_pos rfl]
  rfl

theorem scanRoot_some (hp : Parted ms) {scan : RootScan} (h : scanRoot (ms.map Prod.snd) = some scan) :
    ∃ es ps fs qs gs, Row ms es ps fs qs gs := by
  obtain ⟨es, r, hr, hes, -, hhead⟩ := exists_skip (· == .empty) (nil_append ms).symm
  have hhead' : skip (· == .empty) (ms.map Prod.snd) 0 = es.length := hhead
  obtain ⟨ps, d, rfl, hps, -, hstart⟩ := exists_part (a := es) hp hr
  rw [← append_assoc] at hr
  obtain ⟨fs, t, rfl, hfs, -, hstop⟩ := exists_skip (a := es ++ ps) (· == .full) hr
  rw [← append_assoc] at hr
  obtain ⟨qs, u, rfl, hqs, -, hnext⟩ := exists_part (a := es ++ ps ++ fs) hp hr
  rw [← append_assoc] at hr
  obtain ⟨gs, rest, rfl, hgs, -, hlast⟩ := exists_skip (a := es ++ ps ++ fs ++ qs) (· == .empty) hr
  unfold scanRoot at h
  dsimp only at h
  rw [hhead', hstart, hstop, hnext, hlast] at h
  split at h
  · rename_i hlen
    have hrest : rest = [] := by
      rw [length_map, hr] at hlen
      simp only [length_append] at hlen
      exact eq_nil_of_length_eq_zero (by omega)
    rw [hrest, append_nil] at hr
    exact ⟨es, ps, fs, qs, gs, hr, fun e he => isEmpty_beq.mp (hes e he), hps,
      fun e he => isFull_beq.mp (hfs e he), hqs, fun e he => isEmpty_beq.mp (hgs e he)⟩
  · cases h

end Scan

/-! ## Splicing -/

theorem detachAt_of {inner : List Node} {split : Nat}
    (hms : ms = a ++ (.q inner, .part split) :: c) : detachAt ms a.length = some inner := by
  unfold detachAt
  rw [hms, getElem?_append_right le_rfl, Nat.sub_self]
  rfl

theorem drop_nodes (hms : ms = a ++ c) : (ms.map Prod.fst).drop a.length = c.map Prod.fst := by
  rw [hms, map_append, ← length_map Prod.fst, drop_left]

theorem take_nodes (hms : ms = a ++ c) : (ms.map Prod.fst).take a.length = a.map Prod.fst := by
  rw [hms, map_append, ← length_map Prod.fst, take_left]

theorem spliceRoot_row {ms es ps fs qs gs : List (Node × Mark)} (h : Row ms es ps fs qs gs) :
    spliceRoot ms (scanOf es ps fs qs) = some (spread es ps fs qs gs) := by
  have hfirst : openFirst ms (placeOf ps es.length) = some (flats ps) := by
    rcases h.first with rfl | ⟨inner, split, rfl⟩
    · rfl
    · show detachAt ms es.length = _
      rw [detachAt_of (c := fs ++ qs ++ gs) (show ms = es ++ (.q inner, .part split) :: (fs ++ qs ++ gs) by
        rw [h.eq]; simp)]
      simp [flats, flat, detach]
  have hblock : ((ms.map Prod.fst).drop (es ++ ps).length).take ((es ++ ps ++ fs).length - (es ++ ps).length)
      = fs.map Prod.fst := by
    have hsub : (es ++ ps ++ fs).length - (es ++ ps).length = (fs.map Prod.fst).length := by
      rw [@List.length_append _ _ fs, Nat.add_sub_cancel_left, length_map]
    rw [drop_nodes (c := fs ++ qs ++ gs) (by rw [h.eq]; simp only [append_assoc]), hsub, append_assoc,
      map_append, take_left]
  have htail : openTail ms (es ++ ps ++ fs).length (placeOf qs (es ++ ps ++ fs).length)
      = some ((flats qs).reverse ++ gs.map Prod.fst) := by
    rcases h.second with rfl | ⟨inner, split, rfl⟩
    · show some ((ms.map Prod.fst).drop (es ++ ps ++ fs).length) = _
      rw [drop_nodes (c := gs) (by rw [h.eq]; simp only [append_assoc, nil_append])]
      rfl
    · have hdrop := drop_nodes h.eq
      rw [length_append] at hdrop
      show (detachAt ms (es ++ ps ++ fs).length).map (fun far => far.reverse
        ++ (ms.map Prod.fst).drop ((es ++ ps ++ fs).length + [(Node.q inner, Mark.part split)].length)) = _
      rw [hdrop, detachAt_of (c := gs) (show ms = (es ++ ps ++ fs) ++ (.q inner, .part split) :: gs by
        rw [h.eq]; simp)]
      simp [flats, flat, detach]
  have hhead : (ms.map Prod.fst).take es.length = es.map Prod.fst :=
    take_nodes (c := ps ++ fs ++ qs ++ gs) (by rw [h.eq]; simp only [append_assoc])
  unfold spliceRoot scanOf
  dsimp only
  rw [hfirst, hblock, htail, hhead]
  unfold spread
  simp only [append_assoc]
  rfl

theorem spliceSide_flank {ms es ps fs : List (Node × Mark)} (h : Flank ms es ps fs) :
    ∃ split, spliceSide ms (es.length, placeOf ps es.length) = some (.part split, .q (flats ms)) := by
  have hflat : flats ms = es.map Prod.fst ++ flats ps ++ fs.map Prod.fst := by
    rw [h.eq, flats_append, flats_append, flats_empty h.head, flats_full h.block]
  have hnodes : ms.map Prod.fst = es.map Prod.fst ++ (ps.map Prod.fst ++ fs.map Prod.fst) := by
    rw [h.eq, append_assoc, map_append, map_append]
  have hlen : es.length = (es.map Prod.fst).length := (length_map _).symm
  rw [hflat]
  rcases h.part with rfl | ⟨inner, split, rfl⟩
  · refine ⟨es.length, ?_⟩
    show some (Mark.part es.length, Node.q ((ms.map Prod.fst).take es.length ++ (ms.map Prod.fst).drop es.length)) = _
    rw [take_append_drop, hnodes]
    simp [flats]
  · have hget : ms[es.length]? = some (Node.q inner, Mark.part split) := by
      rw [h.eq, append_assoc, getElem?_append_right le_rfl, Nat.sub_self]
      rfl
    refine ⟨es.length + split, ?_⟩
    unfold spliceSide
    rw [show placeOf [(Node.q inner, Mark.part split)] es.length = some es.length from rfl]
    dsimp only
    rw [hget]
    unfold detachAt
    rw [hget]
    show some (Mark.part (es.length + split), Node.q ((ms.map Prod.fst).take es.length ++ inner
      ++ (ms.map Prod.fst).drop (es.length + 1))) = _
    rw [hnodes, hlen, take_left, drop_append]
    simp [flats, flat, detach]

end Pie.Proof.PqTrees
