import Pie.Exec.Paging
import Pie.Lib.Fallible
import Pie.Lib.Rings

/-!
# Windows keep their tokens

A lane stores its rows one after the other, each at a page that its windowed table
names. The pages from the window of a fire's first row to its last row are never
more than the ring has, so no row is stored over one that is still read.
-/

namespace Pie.Proof.Paging

open List Pie.Exec.Kv Lib Lib.Fallible Lib.Rings

variable {p : Paging} {page a b i id q : Nat} {out out' : Geometry} {tables : List (List Nat)} {what : String}
  {writes : List (Nat × Nat)}

section

variable {n d k : Nat}

theorem le_divCeil_mul (hd : 0 < d) : n ≤ divCeil n d * d := by
  have hdiv := Nat.div_add_mod (n + d - 1) d
  have hmod := Nat.mod_lt (n + d - 1) hd
  rw [mul_comm] at hdiv
  unfold divCeil
  omega

theorem div_sub_le (hd : 0 < d) (hle : b ≤ a + n) : b / d ≤ a / d + divCeil n d := by
  have hn := le_divCeil_mul (n := n) hd
  have ha := Nat.div_add_mod a d
  have hmod := Nat.mod_lt a hd
  have hlt : b < (a / d + divCeil n d + 1) * d := by
    rw [add_mul, add_mul, mul_comm (a / d)]
    omega
  have := (Nat.div_lt_iff_lt_mul hd).mpr hlt
  omega

theorem narrow_eq_ok {m : Nat} : narrow n what = .ok m ↔ n ≤ I32_MAX ∧ m = n := by
  unfold narrow
  split
  · rename_i h
    exact ⟨fun he => ⟨h, (Except.ok.inj he).symm⟩, fun he => by rw [he.2]⟩
  · rename_i h
    exact ⟨nofun, fun he => absurd he.1 h⟩

end

/-! ## Accepted lanes -/

section

variable {paging : Paging} {seat : Seat} {table : List Nat}

/-- What is checked of a lane. -/
structure Fits (paging : Paging) (seat : Seat) (table : List Nat) : Prop where
  seated : table = [] → seat.after ≤ paging.context
  stated : table ≠ [] → seat.pages paging ≤ table.length

theorem writesOf_offsets {pageOf : Nat → Nat} (h : writesOf paging seat pageOf = .ok writes) :
    writes.map Prod.snd = (range seat.rows).map fun token => (seat.had + token) % paging.pageSize := by
  have hall := mapM_eq_ok.mp h
  clear h
  generalize range seat.rows = tokens at hall
  induction hall with
  | nil => rfl
  | cons hab _ ih =>
    obtain ⟨page, -, hab⟩ := bind_eq_ok.mp hab
    obtain ⟨offset, hoffset, hab⟩ := bind_eq_ok.mp hab
    rw [map_cons, map_cons, ih, ← Except.ok.inj hab, (narrow_eq_ok.mp hoffset).2]

theorem laneOf_cases {indices : List Nat} (h : laneOf paging seat table = .ok (indices, writes)) :
    Fits paging seat table
      ∧ writes.map Prod.snd = (range seat.rows).map fun token => (seat.had + token) % paging.pageSize := by
  unfold laneOf at h
  dsimp only at h
  split at h
  · rename_i htable
    split at h
    · cases h
    split at h
    · cases h
    · rename_i hafter
      obtain ⟨_, -, h⟩ := bind_eq_ok.mp h
      obtain ⟨_, hwrites, h⟩ := bind_eq_ok.mp h
      cases h
      exact ⟨⟨fun _ => not_lt.mp hafter, fun hne => absurd htable hne⟩, writesOf_offsets hwrites⟩
  · rename_i htable
    split at h
    · cases h
    · rename_i hpages
      obtain ⟨_, -, h⟩ := bind_eq_ok.mp h
      obtain ⟨_, hwrites, h⟩ := bind_eq_ok.mp h
      cases h
      exact ⟨⟨fun he => absurd he htable, fun _ => not_lt.mp hpages⟩, writesOf_offsets hwrites⟩

/-- The offsets at which the rows of a lane are written. -/
def offsetsOf (paging : Paging) (seat : Seat) : List Nat :=
  (List.range seat.rows).map fun token => (seat.had + token) % paging.pageSize

theorem pushLane_cases (h : pushLane paging tables out (seat, i) = .ok out') :
    Fits paging seat (tables.getD i []) ∧ out'.writeOffset = out.writeOffset ++ offsetsOf paging seat := by
  unfold pushLane at h
  obtain ⟨⟨indices, writes⟩, hlane, h⟩ := bind_eq_ok.mp h
  obtain ⟨_, -, h⟩ := bind_eq_ok.mp h
  obtain ⟨_, -, h⟩ := bind_eq_ok.mp h
  obtain ⟨_, -, h⟩ := bind_eq_ok.mp h
  obtain ⟨hfits, hoffsets⟩ := laneOf_cases hlane
  rw [← Except.ok.inj h]
  exact ⟨hfits, by rw [hoffsets]; rfl⟩

/-- Every lane of a fire fits, and its rows are written behind those of the lanes before. -/
theorem pushLanes_cases {seats : List Seat} {n : Nat}
    (h : (seats.zipIdx n).foldlM (pushLane paging tables) out = .ok out') :
    (∀ i seat, seats[i]? = some seat → Fits paging seat (tables.getD (n + i) []))
      ∧ out'.writeOffset = out.writeOffset ++ seats.flatMap (offsetsOf paging) := by
  induction seats generalizing out n with
  | nil =>
    cases h
    exact ⟨nofun, (append_nil _).symm⟩
  | cons seat seats ih =>
    rw [zipIdx_cons] at h
    obtain ⟨out₁, hpush, h⟩ := foldlM_cons_eq_ok.mp h
    obtain ⟨hfits, hoffset⟩ := pushLane_cases hpush
    obtain ⟨hrest, hoffsets⟩ := ih h
    refine ⟨fun i seat' hi => ?_, ?_⟩
    · cases i with
      | zero =>
        cases hi
        exact hfits
      | succ i =>
        have := hrest i seat' hi
        rwa [add_right_comm, add_assoc] at this
    · rw [hoffsets, hoffset, flatMap_cons, append_assoc]

/-! ## Windowed tables -/

/-- The page in the windowed pool that a lane has at a place that is not behind its window. -/
def idOf (paging : Paging) (seat : Seat) (table : List Nat) (page : Nat) : Nat :=
  if table = [] then 1 + seat.slot * paging.windowRing + page % paging.windowRing else table.getD page U32_MAX + 1

theorem idOf_ne_zero : idOf paging seat table page ≠ 0 := by
  unfold idOf
  split <;> omega

theorem checked_page {id id' : Nat} {e e' : Fault} {p : Prop} [Decidable p]
    (h : (if id' = 0 then .error e else if p then .error e' else narrow id' what) = .ok id) : id = id' := by
  split at h
  · cases h
  split at h
  · cases h
  · exact (narrow_eq_ok.mp h).2

theorem windowPage_cases {w : Windowed} (h : windowPage paging w seat table [] page = .ok id) :
    id = if page < (seat.had - w.tokens) / paging.pageSize then 0 else idOf paging seat table page := by
  unfold windowPage at h
  dsimp only at h
  split at h
  · rename_i hbehind
    rw [if_pos hbehind, ← Except.ok.inj h]
  · rename_i hbehind
    rw [if_neg (fun hne => hne rfl)] at h
    rw [if_neg hbehind, idOf]
    split at h
    · rename_i htable
      rw [pure_bind] at h
      rw [if_pos htable, checked_page h]
    · rename_i htable
      rw [pure_bind] at h
      rw [if_neg htable, checked_page h]

/-- The windowed table has an entry for each page of the lane. -/
theorem windowTable_getElem {w : Windowed} {window : List Nat} (hkept : paging.window = some w)
    (h : windowTable paging seat table [] = .ok window) (hpage : page < seat.pages paging) :
    window[page]? = some (if page < (seat.had - w.tokens) / paging.pageSize then 0 else idOf paging seat table page) := by
  unfold windowTable at h
  rw [hkept] at h
  obtain ⟨hlen, hall⟩ := forall₂_iff_get.mp (mapM_eq_ok.mp h)
  rw [length_range] at hlen
  have hat := hall page (by rwa [length_range]) (hlen ▸ hpage)
  rw [get_eq_getElem, get_eq_getElem, getElem_range] at hat
  rw [getElem?_eq_getElem (hlen ▸ hpage), ← windowPage_cases hat]

end

/-! ## Lanes of a fire -/

section

variable {paging : Paging} {w : Windowed} {f f' : Fired paging} {token : Nat}

theorem fits : Fits paging f.seat f.table := by
  have hfits := (pushLanes_cases f.accepted).1 f.lane f.seat f.lane_eq
  rwa [zero_add] at hfits

theorem page_lt (hsize : 0 < paging.pageSize) (h : q < f.seat.after) : q / paging.pageSize < f.seat.pages paging := by
  have hle := le_divCeil_mul (n := f.seat.after) hsize
  have hlt : q / paging.pageSize < divCeil f.seat.after paging.pageSize :=
    (Nat.div_lt_iff_lt_mul hsize).mpr (lt_of_lt_of_le h hle)
  exact lt_of_lt_of_le hlt (le_max_left _ _)

theorem offset_eq (h : token < f.seat.rows) :
    f.geometry.writeOffset.getD (f.start + token) 0 = (f.seat.had + token) % paging.pageSize := by
  have hoffset := (pushLanes_cases f.accepted).2
  have hlt : f.lane < f.seats.length := (List.getElem?_eq_some_iff.mp f.lane_eq).1
  have hsplit : f.seats = f.seats.take f.lane ++ f.seat :: f.seats.drop (f.lane + 1) := by
    conv_lhs => rw [← take_append_drop f.lane f.seats, drop_eq_getElem_cons hlt,
      (List.getElem?_eq_some_iff.mp f.lane_eq).2]
  have hstart : ((f.seats.take f.lane).flatMap (offsetsOf paging)).length = f.start := by
    rw [length_flatMap, Fired.start]
    refine congrArg sum (map_congr_left fun seat _ => ?_)
    rw [offsetsOf, length_map, length_range]
  have hlen : (offsetsOf paging f.seat).length = f.seat.rows := by
    rw [offsetsOf, length_map, length_range]
  rw [hoffset, nil_append, hsplit, flatMap_append, flatMap_cons, getD_eq_getElem?_getD,
    getElem?_append_right (by omega), hstart, Nat.add_sub_cancel_left, getElem?_append_left (hlen ▸ h), offsetsOf,
    getElem?_map, getElem?_range h]
  rfl

theorem pageAt_eq (hkept : paging.window = some w) (hsize : 0 < paging.pageSize) (h : token < f.seat.rows) :
    f.pageAt token = idOf paging f.seat f.table ((f.seat.had + token) / paging.pageSize) := by
  have hpage : (f.seat.had + token) / paging.pageSize < f.seat.pages paging :=
    page_lt hsize (Nat.add_lt_add_left h _)
  have hle : (f.seat.had - w.tokens) / paging.pageSize ≤ (f.seat.had + token) / paging.pageSize :=
    Nat.div_le_div_right (by omega)
  rw [Fired.pageAt, getD_eq_getElem?_getD, windowTable_getElem hkept f.windowed hpage, if_neg (not_lt.mpr hle)]
  rfl

theorem cellAt_eq (hkept : paging.window = some w) (hsize : 0 < paging.pageSize) (h : token < f.seat.rows) :
    f.cellAt token = (idOf paging f.seat f.table ((f.seat.had + token) / paging.pageSize), (f.seat.had + token) % paging.pageSize) := by
  rw [Fired.cellAt, pageAt_eq hkept hsize h, offset_eq h]

end

/-! ## Runs of a lane -/

variable {paging : Paging} (fires : List (Fired paging))

/-- The rows of some fires. -/
def rowsOf : Nat := (fires.map fun f => f.seat.rows).sum

/-- The lane is seated in one slot. -/
def Seated : Prop := ∃ slot, ∀ f ∈ fires, f.table = [] ∧ f.seat.slot = slot

/-- The lane has pages of its own, and more of them from fire to fire. -/
structure Stated {paging : Paging} (fires : List (Fired paging)) : Prop where
  stated : ∀ f ∈ fires, f.table ≠ []
  distinct : ∀ f ∈ fires, f.table.Nodup
  grows : fires.Pairwise fun f f' => f.table <+: f'.table

/-- A run of fires of one lane, which has what was fired before. -/
structure Run {paging : Paging} (maxTokens : Nat) (fires : List (Fired paging)) : Prop where
  least : ∀ f ∈ fires, 1 ≤ f.seat.rows
  most : ∀ f ∈ fires, f.seat.rows ≤ maxTokens
  had : ∀ k f, fires[k]? = some f → f.seat.had = rowsOf (fires.take k)
  lane : Seated fires ∨ Stated fires

/-- What the windowed pool holds after some fires. -/
def pool : Pool := fires.foldl store fun _ => none

/-- What a fire of a run finds in the pool. -/
structure Keeps {paging : Paging} (window : Nat) (fires : List (Fired paging)) (f : Fired paging) : Prop where
  /-- Every position in the window of a row is where the windowed table says, and that is not the null page. -/
  holds : ∀ token < f.seat.rows, ∀ q, q ≤ f.seat.had + token → f.seat.had + token ≤ q + window →
    ∃ page, f.window[q / paging.pageSize]? = some page ∧ page ≠ 0 ∧ pool fires (page, q % paging.pageSize) = some q
  /-- What is wholly behind the window of the first row reads the null page. -/
  behind : ∀ page < f.seat.pages paging, (page + 1) * paging.pageSize ≤ f.seat.had - window → f.window[page]? = some 0
  stored : ∀ token < f.seat.rows, f.pageAt token ≠ 0

/-- Two lanes in different slots, or with tables that have no page in common. -/
def Apart (f f' : Fired paging) : Prop :=
  (f.table = [] ∧ f'.table = [] ∧ f.seat.slot ≠ f'.seat.slot) ∨ (f.table ≠ [] ∧ f'.table ≠ [] ∧ f.table.Disjoint f'.table)

section

variable {paging : Paging} {w : Windowed} {maxTokens : Nat} {fires : List (Fired paging)} {f : Fired paging}

theorem foldl_congr_mem {α β : Type} {g g' : β → α → β} {l : List α} {b : β} (h : ∀ b, ∀ a ∈ l, g b a = g' b a) :
    l.foldl g b = l.foldl g' b := by
  induction l generalizing b with
  | nil => rfl
  | cons a l ih =>
    rw [foldl_cons, foldl_cons, h b a mem_cons_self, ih fun b a ha => h b a (mem_cons_of_mem _ ha)]

theorem pool_eq {cell : Nat → Nat × Nat} (hhad : ∀ k g, fires[k]? = some g → g.seat.had = rowsOf (fires.take k))
    (hcell : ∀ g ∈ fires, ∀ token < g.seat.rows, g.cellAt token = cell (g.seat.had + token)) :
    pool fires = (range (rowsOf fires)).foldl (write cell) fun _ => none := by
  induction fires using reverseRecOn with
  | nil => rfl
  | append_singleton fires g ih =>
    have hbefore : g.seat.had = rowsOf fires := by
      have := hhad fires.length g (by rw [getElem?_append_right le_rfl, Nat.sub_self]; rfl)
      rwa [take_left'] at this
      rfl
    have hrows : rowsOf (fires ++ [g]) = rowsOf fires + g.seat.rows := by
      rw [rowsOf, map_append, sum_append]
      rfl
    have hih := ih (fun k h hk => by
      have hlt := (List.getElem?_eq_some_iff.mp hk).1
      have := hhad k h (by rw [getElem?_append_left hlt, hk])
      rwa [take_append_of_le_length (le_of_lt hlt)] at this)
      fun h hh => hcell h (mem_append_left _ hh)
    rw [pool, foldl_append, foldl_cons, foldl_nil, hrows, range_add, foldl_append, ← hih, foldl_map]
    refine foldl_congr_mem fun held token ht => ?_
    have ht := mem_range.mp ht
    rw [hcell g mem_append_cons_self token ht, hbefore]
    rfl

/-- What a window that is kept comes to, if its pages can be counted. -/
structure Kept (paging : Paging) (w : Windowed) (maxTokens : Nat) : Prop where
  size : 0 < paging.pageSize
  slot : 0 < paging.pagesPerSlot
  window : paging.window = some w
  ring : paging.windowRing
    = min (min (divCeil w.tokens paging.pageSize + 1) paging.pagesPerSlot + (divCeil maxTokens paging.pageSize + 1)) paging.pagesPerSlot

/-- From the window of a fire to its last row there are no more pages than the ring has. -/
theorem page_lt_ring (hkept : Kept paging w maxTokens) (hmost : f.seat.rows ≤ maxTokens) (hseated : f.table = []) {q r : Nat}
    (hq : f.seat.had ≤ q + w.tokens) (hr : r < f.seat.after) :
    r / paging.pageSize < q / paging.pageSize + paging.windowRing := by
  have hafter : f.seat.after ≤ paging.pagesPerSlot * paging.pageSize :=
    le_trans (fits.seated hseated) (min_le_left _ _)
  -- a lane does not outgrow its slot
  have hslot : r / paging.pageSize < paging.pagesPerSlot := (Nat.div_lt_iff_lt_mul hkept.size).mpr (lt_of_lt_of_le hr hafter)
  have hwindow := div_sub_le (d := paging.pageSize) hkept.size hq
  have hfire : r / paging.pageSize ≤ f.seat.had / paging.pageSize + divCeil maxTokens paging.pageSize := by
    refine div_sub_le hkept.size ?_
    have hrows : f.seat.after = f.seat.had + f.seat.rows := rfl
    omega
  rw [hkept.ring, ← Nat.add_min_add_left]
  generalize r / paging.pageSize = last at *
  generalize q / paging.pageSize = first at *
  refine lt_min ?_ (by omega)
  rcases le_total (divCeil w.tokens paging.pageSize + 1) paging.pagesPerSlot with hheld | hheld
  · rw [min_eq_left hheld]
    omega
  · rw [min_eq_right hheld]
    omega

theorem table_prefix {a b : List Nat} (h : a <+: b) {i d : Nat} (hi : i < a.length) : a.getD i d = b.getD i d := by
  obtain ⟨c, rfl⟩ := h
  rw [getD_eq_getElem?_getD, getD_eq_getElem?_getD, getElem?_append_left hi]

theorem idOf_same (hlane : Seated fires ∨ Stated fires) {k : Nat} (hk : fires[k]? = some f)
    {g : Fired paging} (hg : g ∈ fires.take (k + 1)) (hpage : page < g.seat.pages paging) :
    idOf paging g.seat g.table page = idOf paging f.seat f.table page := by
  have hf : f ∈ fires := mem_of_getElem? hk
  rcases hlane with ⟨slot, hslot⟩ | hstated
  · obtain ⟨hg, hgslot⟩ := hslot g (mem_of_mem_take hg)
    obtain ⟨hf, hfslot⟩ := hslot f hf
    rw [idOf, idOf, if_pos hg, if_pos hf, hgslot, hfslot]
  · have hgne := hstated.stated g (mem_of_mem_take hg)
    have hlen : page < g.table.length := lt_of_lt_of_le hpage (fits.stated hgne)
    have hprefix : g.table <+: f.table := by
      obtain ⟨hlt, hfk⟩ := List.getElem?_eq_some_iff.mp hk
      obtain ⟨i, hi, rfl⟩ := getElem_of_mem hg
      rw [length_take] at hi
      rw [getElem_take]
      rcases lt_or_eq_of_le (Nat.le_of_lt_succ (lt_of_lt_of_le hi (min_le_left _ _))) with hik | hik
      · exact hfk ▸ pairwise_iff_getElem.mp hstated.grows i k (by omega) hlt hik
      · subst hik
        rw [hfk]
    rw [idOf, idOf, if_neg hgne, if_neg (hstated.stated f hf), table_prefix hprefix hlen]

theorem idOf_ne (hseated : f.table = [] ∨ f.table ≠ [] ∧ f.table.Nodup) (hlt : a < b)
    (hring : f.table = [] → b < a + paging.windowRing) (hb : b < f.seat.pages paging) :
    idOf paging f.seat f.table a ≠ idOf paging f.seat f.table b := by
  rcases hseated with hseated | ⟨hne, hnodup⟩
  · rw [idOf, idOf, if_pos hseated, if_pos hseated]
    have := mod_ne hlt (hring hseated)
    omega
  · have hlen : b < f.table.length := lt_of_lt_of_le hb (fits.stated hne)
    rw [idOf, idOf, if_neg hne, if_neg hne, getD_eq_getElem?_getD, getD_eq_getElem?_getD,
      getElem?_eq_getElem (lt_trans hlt hlen), getElem?_eq_getElem hlen, Option.getD_some, Option.getD_some]
    intro he
    exact ne_of_lt hlt ((Nodup.getElem_inj_iff hnodup).mp (Nat.succ.inj he))

/-- **Each fire of a run finds its window.** -/
theorem keeps (hkept : Kept paging w maxTokens) (hrun : Run maxTokens fires) {k : Nat} (hk : fires[k]? = some f) :
    Keeps w.tokens (fires.take (k + 1)) f := by
  have hmem : f ∈ fires := mem_of_getElem? hk
  obtain ⟨hlt, hfk⟩ := List.getElem?_eq_some_iff.mp hk
  have hrows : rowsOf (fires.take (k + 1)) = f.seat.after := by
    rw [rowsOf, take_succ_eq_append_getElem hlt, map_append, sum_append, hfk, Seat.after, hrun.had k f hk]
    rfl
  let cell := fun q => (idOf paging f.seat f.table (q / paging.pageSize), q % paging.pageSize)
  have hpool : pool (fires.take (k + 1)) = (range f.seat.after).foldl (write cell) fun _ => none := by
    rw [← hrows]
    refine pool_eq (fun i g hg => ?_) fun g hg token ht => ?_
    · have hi := (List.getElem?_eq_some_iff.mp hg).1
      rw [length_take] at hi
      rw [getElem?_take_of_lt (by omega)] at hg
      rw [take_take, min_eq_left (by omega)]
      exact hrun.had i g hg
    · rw [cellAt_eq hkept.window hkept.size ht, idOf_same hrun.lane hk hg (page_lt hkept.size (Nat.add_lt_add_left ht _))]
  have hlane : f.table = [] ∨ f.table ≠ [] ∧ f.table.Nodup := by
    rcases hrun.lane with ⟨slot, hslot⟩ | hstated
    · exact .inl (hslot f hmem).1
    · exact .inr ⟨hstated.stated f hmem, hstated.distinct f hmem⟩
  refine ⟨fun token ht q hle hwindow => ?_, fun page hpage hbehind => ?_, fun token ht => ?_⟩
  · have hq : f.seat.had ≤ q + w.tokens := by omega
    have hafter : q < f.seat.after := Nat.lt_of_le_of_lt hle (Nat.add_lt_add_left ht _)
    have hentry : (f.seat.had - w.tokens) / paging.pageSize ≤ q / paging.pageSize := Nat.div_le_div_right (by omega)
    refine ⟨_, (windowTable_getElem hkept.window f.windowed (page_lt hkept.size hafter)).trans
      (congrArg some (if_neg (not_lt.mpr hentry))), idOf_ne_zero, ?_⟩
    rw [hpool]
    -- no row behind `q` has its cell
    refine @written_cell _ _ cell _ _ _ hafter fun r hqr hr he => ?_
    obtain ⟨hid, hoffset⟩ := Prod.mk.inj he
    have hpages : q / paging.pageSize ≤ r / paging.pageSize := Nat.div_le_div_right (le_of_lt hqr)
    rcases lt_or_eq_of_le hpages with hpage | hpage
    · exact idOf_ne hlane hpage (fun hseated => page_lt_ring hkept (hrun.most f hmem) hseated hq hr) (page_lt hkept.size hr)
        hid.symm
    · have hq := Nat.div_add_mod q paging.pageSize
      have hr := Nat.div_add_mod r paging.pageSize
      rw [← hpage, hoffset] at hr
      omega
  · have hle : page + 1 ≤ (f.seat.had - w.tokens) / paging.pageSize := (Nat.le_div_iff_mul_le hkept.size).mpr hbehind
    rw [windowTable_getElem hkept.window f.windowed hpage, if_pos (Nat.lt_of_succ_le hle)]
  · rw [pageAt_eq hkept.window hkept.size ht]
    exact idOf_ne_zero

/-- Lanes that are apart do not store into each other's pages. -/
theorem pageAt_apart (hkept : Kept paging w maxTokens) {f f' : Fired paging} (h : Apart f f') {token token' : Nat}
    (ht : token < f.seat.rows) (ht' : token' < f'.seat.rows) : f.pageAt token ≠ f'.pageAt token' := by
  rw [pageAt_eq hkept.window hkept.size ht, pageAt_eq hkept.window hkept.size ht']
  have hpage := page_lt hkept.size (Nat.add_lt_add_left ht f.seat.had)
  have hpage' := page_lt hkept.size (Nat.add_lt_add_left ht' f'.seat.had)
  generalize (f.seat.had + token) / paging.pageSize = page at *
  generalize (f'.seat.had + token') / paging.pageSize = page' at *
  rcases h with ⟨hseated, hseated', hslot⟩ | ⟨hstated, hstated', hdisjoint⟩
  · -- the rings of two slots lie behind each other
    have hring : 0 < paging.windowRing := by
      rw [hkept.ring]
      exact lt_min (Nat.succ_pos _) hkept.slot
    have hin := Nat.mod_lt page hring
    have hin' := Nat.mod_lt page' hring
    rw [idOf, idOf, if_pos hseated, if_pos hseated']
    rcases Nat.lt_or_gt_of_ne hslot with hlt | hlt
    · have := Nat.mul_le_mul_right paging.windowRing (Nat.succ_le_of_lt hlt)
      rw [Nat.succ_mul] at this
      omega
    · have := Nat.mul_le_mul_right paging.windowRing (Nat.succ_le_of_lt hlt)
      rw [Nat.succ_mul] at this
      omega
  · have hlen : page < f.table.length := lt_of_lt_of_le hpage (fits.stated hstated)
    have hlen' : page' < f'.table.length := lt_of_lt_of_le hpage' (fits.stated hstated')
    rw [idOf, idOf, if_neg hstated, if_neg hstated', getD_eq_getElem?_getD,
      getD_eq_getElem?_getD, getElem?_eq_getElem hlen, getElem?_eq_getElem hlen', Option.getD_some,
      Option.getD_some]
    exact fun he => hdisjoint (getElem_mem hlen) (Nat.succ.inj he ▸ getElem_mem hlen')

end

theorem divCeil_le {n d : Nat} (hd : 0 < d) : divCeil n d ≤ n := by
  refine Nat.lt_succ_iff.mp ((Nat.div_lt_iff_lt_mul hd).mpr ?_)
  have := Nat.le_mul_of_pos_right n hd
  rw [Nat.succ_mul]
  omega

theorem windowed_window {window maxTokens : Nat} (h : window < p.context) :
    (p.windowed (some window) maxTokens).window = some ⟨window, (divCeil maxTokens p.pageSize + 1) % 2 ^ 32⟩ := by
  have hfilter : (some window).filter (fun tokens => decide (tokens < p.context)) = some window :=
    Option.filter_some_pos (decide_eq_true h)
  rw [Paging.windowed, hfilter]
  rfl

theorem windowHeld_eq {w : Windowed} (h : p.window = some w) :
    p.windowHeld = min ((divCeil w.tokens p.pageSize + 1) % 2 ^ 32) p.pagesPerSlot := by
  rw [Paging.windowHeld, h]

theorem windowRing_eq {w : Windowed} (h : p.window = some w) :
    p.windowRing = min ((p.windowHeld + w.firePages) % 2 ^ 32) p.pagesPerSlot := by
  rw [Paging.windowRing, h]

theorem kept_of {pageSize context slots pages window maxTokens : Nat}
    (hof : Paging.of pageSize context slots pages = .ok p) (hwindow : window < p.context)
    (hpages : (p.windowed (some window) maxTokens).windowHeld + (divCeil maxTokens pageSize + 1) < 2 ^ 32) :
    Kept (p.windowed (some window) maxTokens) ⟨window, divCeil maxTokens pageSize + 1⟩ maxTokens := by
  obtain ⟨hsize, hslot, hp⟩ : 0 < p.pageSize ∧ 0 < p.pagesPerSlot ∧ p.pageSize = pageSize := by
    unfold Paging.of at hof
    split at hof
    · cases hof
    · rename_i hsize
      cases hof
      exact ⟨Nat.pos_of_ne_zero hsize, lt_of_lt_of_le Nat.one_pos (le_max_right _ _), rfl⟩
  subst hp
  have hmax : window < U32_MAX := lt_of_lt_of_le hwindow (min_le_right _ _)
  have hceil := divCeil_le (n := window) hsize
  have hfire : (divCeil maxTokens p.pageSize + 1) % 2 ^ 32 = divCeil maxTokens p.pageSize + 1 := Nat.mod_eq_of_lt (by omega)
  have hkept : (p.windowed (some window) maxTokens).window = some ⟨window, divCeil maxTokens p.pageSize + 1⟩ :=
    (windowed_window hwindow).trans (by rw [hfire])
  refine ⟨hsize, hslot, hkept, ?_⟩
  have hheld := windowHeld_eq hkept
  rw [Nat.mod_eq_of_lt (by unfold U32_MAX at hmax; show divCeil window p.pageSize + 1 < _; omega)] at hheld
  rw [windowRing_eq hkept, Nat.mod_eq_of_lt hpages, hheld]
  rfl

/-- What a window is for: no lane loses a token that is still in it, and lanes that are apart leave each other alone. -/
def KeepsWindow (p : Paging) (window maxTokens : Nat) : Prop :=
  (∀ fires : List (Fired (p.windowed (some window) maxTokens)), Run maxTokens fires → ∀ k f, fires[k]? = some f →
      Keeps window (fires.take (k + 1)) f)
    ∧ ∀ f f' : Fired (p.windowed (some window) maxTokens), Apart f f' → ∀ token < f.seat.rows, ∀ token' < f'.seat.rows,
      f.pageAt token ≠ f'.pageAt token'

/-- The first fire of a lane, of one row. -/
def firstFire : Fired ((⟨16, 16, 1, 16, none⟩ : Paging).windowed (some 32) 16) where
  seats := [⟨0, 0, 1⟩]
  tables := []
  geometry := ⟨[0, 1], [0], [1], [1], [0], [0]⟩
  lane := 0
  seat := ⟨0, 0, 1⟩
  window := [1]
  lane_eq := rfl
  accepted := by decide
  windowed := by decide

theorem run_single {maxTokens : Nat} {f : Fired paging} (hleast : 1 ≤ f.seat.rows)
    (hmost : f.seat.rows ≤ maxTokens) (hhad : f.seat.had = 0) (htable : f.table = []) : Run maxTokens [f] := by
  refine ⟨forall_mem_singleton.mpr hleast, forall_mem_singleton.mpr hmost, fun k g hk => ?_,
    .inl ⟨f.seat.slot, forall_mem_singleton.mpr ⟨htable, rfl⟩⟩⟩
  cases k with
  | zero =>
    cases hk
    exact hhad
  | succ k => cases hk

/-- The first fire of a lane whose window spans the context. -/
def wideFire : Fired ((⟨16, 4, 1, 16, none⟩ : Paging).windowed (some 64) 16) where
  seats := [⟨0, 0, 1⟩]
  tables := []
  geometry := ⟨[0, 1], [0], [1], [1], [0], [0]⟩
  lane := 0
  seat := ⟨0, 0, 1⟩
  window := []
  lane_eq := rfl
  accepted := by decide
  windowed := by decide

/-- Three rows through a ring whose length wrapped. -/
def wrappedFire : Fired ((⟨1, 8, 1, 8, none⟩ : Paging).windowed (some 1) 4294967295) where
  seats := [⟨0, 0, 3⟩]
  tables := []
  geometry := ⟨[0, 3], [0, 1, 2], [1], [3], [0, 1, 2], [0, 0, 0]⟩
  lane := 0
  seat := ⟨0, 0, 3⟩
  window := [1, 2, 1]
  lane_eq := rfl
  accepted := by decide
  windowed := by decide

end Pie.Proof.Paging
