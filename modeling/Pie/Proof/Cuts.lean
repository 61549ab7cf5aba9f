import Pie.Lib.Fallible
import Pie.Lib.Loops
import Pie.Pipeline.Fire

/-!
# The pieces of a pass

The pieces of a lane follow each other from its first row to its last, and the
last of them holds every row that is looked at. What the requests of the pieces
carry, one after the other, is what the pass carries.
-/

namespace Pie.Proof.Cuts

open List Option Lib Fire

theorem pageEnd_spec {held rows share page start : Nat} (hheld : held + rows < 2 ^ 32) (hpage : 0 < page)
    (hshare : 0 < share) (hrows : share < rows - start) : ∃ stop, pageEnd held start share page = some stop ∧
      start < stop ∧ stop ≤ start + share ∧ (page ≤ share → page ∣ held + stop) := by
  have h₁ : add32 held start = some (held + start) := if_pos (by omega)
  have h₂ : add32 (held + start) share = some (held + start + share) := if_pos (by omega)
  have hstop : pageEnd held start share page = some (if (held + start + share) / page * page - held ≤ start then
      start + share else (held + start + share) / page * page - held) := by
    unfold pageEnd
    rw [h₁, bind_eq_bind, bind_some, h₂]
    rfl
  refine ⟨_, hstop, lt_pageEnd hshare hstop, ?_⟩
  have hfloor : (held + start + share) / page * page ≤ held + start + share := Nat.div_mul_le_self _ _
  have hnext : held + start + share < (held + start + share) / page * page + page := Nat.lt_div_mul_add hpage
  split
  · rename_i hle
    refine ⟨le_rfl, fun hps => ?_⟩
    -- With a page in the share there is a boundary past `start`.
    omega
  · rename_i hgt
    refine ⟨by omega, fun _ => ?_⟩
    have hback : held + ((held + start + share) / page * page - held) = (held + start + share) / page * page := by omega
    rw [hback]
    exact dvd_mul_left _ _

/-- What the loop gives from `start` on. -/
structure Shared (held rows share page start : Nat) (ends : List Nat) : Prop where
  inside : ∀ e ∈ ends, start < e ∧ e < rows
  aligned : page ≤ share → ∀ e ∈ ends, page ∣ held + e
  reach : 0 < share → ∀ x, start < x → x ≤ rows → ∃ g ∈ start :: ends, g < x ∧ x ≤ g + share

theorem shareEnds_spec {held rows share page : Nat} (hheld : held + rows < 2 ^ 32) (hpage : 0 < page) :
    ∀ {left start : Nat}, rows - start = left → ∃ ends, shareEnds held rows share page start = some ends ∧
      Shared held rows share page start ends := by
  intro left
  induction left using Nat.strongRecOn with
  | ind left ih =>
    intro start hleft
    rw [shareEnds]
    split
    · rename_i hrun
      obtain ⟨stop, hstop, hlt, hle, haligned⟩ := pageEnd_spec hheld hpage hrun.1 hrun.2
      obtain ⟨ends, hends, hshared⟩ := ih (rows - stop) (by omega) rfl
      refine ⟨stop :: ends, ?_, ?_, ?_, ?_⟩
      · split
        · rename_i hnone
          rw [hstop] at hnone
          cases hnone
        · rename_i stop' hsome
          cases hstop.symm.trans hsome
          rw [hends]
          rfl
      · refine forall_mem_cons.mpr ⟨⟨hlt, by omega⟩, fun e he => ?_⟩
        have := hshared.inside e he
        omega
      · exact fun hps => forall_mem_cons.mpr ⟨haligned hps, hshared.aligned hps⟩
      · intro hs x hx hrows
        rcases lt_or_ge stop x with hsx | hsx
        · obtain ⟨g, hg, hlt⟩ := hshared.reach hs x hsx hrows
          exact ⟨g, mem_cons_of_mem _ hg, hlt⟩
        · exact ⟨start, mem_cons_self, hx, by omega⟩
    · rename_i hstay
      refine ⟨[], rfl, forall_mem_nil _, fun _ => forall_mem_nil _, fun hs x hx hrows => ?_⟩
      exact ⟨start, mem_cons_self, hx, by omega⟩

/-! ## One lane -/

/-- A lane as the engine takes it: what it says of its rows is about rows it has. -/
structure ValidLane (lane : Lane) : Prop where
  held : lane.kv.held + lane.tokens.length < 2 ^ 32
  positions : lane.positions = [] ∨ lane.positions.length = lane.tokens.length
  masks : ∀ masks, lane.mask = some (.rows masks) → masks.length = lane.tokens.length
  readout : ∀ read, lane.readout = .rows read → ∀ row ∈ read, row < lane.tokens.length

theorem ValidLane.rows_eq {lane : Lane} (h : ValidLane lane) : lane.rows = lane.tokens.length := by
  have := h.held
  unfold Lane.rows
  omega

/-- The pieces of a lane: they follow each other, and all but the last end where they may. -/
structure LaneCuts (lane : Lane) (share page : Nat) (forced : List Nat) (cuts : List (Nat × Nat)) : Prop where
  tiles : Tiles 0 lane.tokens.length cuts
  ne : cuts ≠ []
  nonempty : 0 < lane.tokens.length → ∀ cut ∈ cuts, cut.1 < cut.2
  bounded : 0 < share → ∀ cut ∈ cuts.dropLast, cut.2 - cut.1 ≤ share
  aligned : max page 1 ≤ share → ∀ cut ∈ cuts.dropLast, cut.2 ∉ forced → max page 1 ∣ lane.kv.held + cut.2

/-- The rows from `start` on have every row the readout and the capture of scores look at. -/
structure HoldsReads (lane : Lane) (start : Nat) : Prop where
  last : lane.readout = .last → 0 < lane.tokens.length → start < lane.tokens.length
  rows : ∀ read, lane.readout = .rows read → ∀ row ∈ read, start ≤ row
  scores : lane.capturesScores = true → start ≤ lane.tokens.length - ATTN_SCORE_OBSERVE

/-- They have every row a media span names. -/
def HoldsMedia (req : FireRequest) (lane start : Nat) : Prop :=
  ∀ media ∈ req.media, media.lane = lane → ∀ row ∈ media.routes, 0 ≤ row → (start : Int) ≤ row

theorem holdsReads_zero (lane : Lane) : HoldsReads lane 0 where
  last := fun _ h => h
  rows := fun _ _ _ _ => Nat.zero_le _
  scores := fun _ => Nat.zero_le _

theorem holdsMedia_zero (req : FireRequest) (lane : Nat) : HoldsMedia req lane 0 := fun _ _ _ _ _ h => h

variable {start i stop page share : Nat} {req full : FireRequest} {cuts : List (Nat × Nat)}
  {perLane : List (List (Nat × Nat))} {α : Type} {cut : Nat × Nat} {last : Bool} {pieces : List Piece}
  {reqs : List FireRequest} {forced : List Nat}

theorem holdsReads_of_le {lane : Lane} (h : start ≤ tailRow lane lane.tokens.length) : HoldsReads lane start := by
  unfold tailRow at h
  -- the observed scores only take rows away
  have hread {read rows : Nat} (h : start ≤ if lane.capturesScores then min read rows else read) : start ≤ read := by
    split at h
    · exact h.trans (min_le_left _ _)
    · exact h
  refine ⟨fun hlast hrows => ?_, fun read hr row hrow => ?_, fun hscores => ?_⟩
  · rw [hlast] at h
    have : start ≤ lane.tokens.length - 1 := hread h
    omega
  · rw [hr] at h
    exact (hread h).trans (min?_le hrow)
  · dsimp only at h
    rw [if_pos hscores] at h
    exact h.trans (min_le_right _ _)

theorem holdsMedia_of_le {start d : Nat} (h : start ≤ (firstMediaRow req).getD d) : HoldsMedia req 0 start := by
  intro media hmedia hlane row hrow hpos
  have hmem : row.toNat ∈ ((req.media.filter fun media => media.lane = 0).flatMap (·.routes)).filterMap routeRow := by
    refine mem_filterMap.mpr ⟨row, ?_, if_pos hpos⟩
    exact mem_flatMap.mpr ⟨media, mem_filter.mpr ⟨hmedia, decide_eq_true hlane⟩, hrow⟩
  have := h.trans (min?_le hmem)
  omega

theorem laneCuts_whole {lane : Lane} (share page : Nat) (forced : List Nat) :
    LaneCuts lane share page forced [(0, lane.tokens.length)] where
  tiles := ⟨rfl, Nat.zero_le _, rfl⟩
  ne := cons_ne_nil _ _
  nonempty := fun h cut hcut => by rw [mem_singleton.mp hcut]; exact h
  bounded := fun _ _ hcut => (nomatch hcut)
  aligned := fun _ _ hcut => (nomatch hcut)

/-- The ends of the pieces, before they are put in order. -/
def ends (forced shared : List Nat) (tail rows : Nat) : List Nat :=
  (forced.filter (fun stop => 0 < stop ∧ stop < rows) ++ shared).filter (· ≤ tail) ++ [rows]

theorem mem_ends {forced shared : List Nat} {tail rows x : Nat} : x ∈ ends forced shared tail rows ↔
    ((x ∈ forced ∧ 0 < x ∧ x < rows) ∨ x ∈ shared) ∧ x ≤ tail ∨ x = rows := by
  unfold ends
  rw [mem_append, mem_filter, mem_append, mem_filter, mem_singleton, decide_eq_true_iff, decide_eq_true_iff]

theorem laneCuts_of_ends {lane : Lane} {share page tail : Nat} {forced shared : List Nat}
    (hrows : 0 < lane.tokens.length)
    (hshared : Shared lane.kv.held lane.tokens.length share (max page 1) 0 shared) :
    LaneCuts lane share page forced (cutsFrom 0 (ascending (ends forced shared tail lane.tokens.length))) ∧
    ∃ start ≤ tail, (cutsFrom 0 (ascending (ends forced shared tail lane.tokens.length))).getLast? =
      some (start, lane.tokens.length) := by
  generalize hes : ascending (ends forced shared tail lane.tokens.length) = es
  have hmem : ∀ {x : Nat}, x ∈ es ↔
      ((x ∈ forced ∧ 0 < x ∧ x < lane.tokens.length) ∨ x ∈ shared) ∧ x ≤ tail ∨ x = lane.tokens.length := by
    intro x
    rw [← hes, mem_ascending, mem_ends]
  have hinside : ∀ x ∈ es, 0 < x ∧ x ≤ lane.tokens.length := by
    intro x hx
    rcases hmem.mp hx with ⟨⟨-, h₁, h₂⟩ | hx, -⟩ | rfl
    · exact ⟨h₁, h₂.le⟩
    · exact ⟨(hshared.inside x hx).1, (hshared.inside x hx).2.le⟩
    · exact ⟨hrows, le_rfl⟩
  have hsort : (0 :: es).Pairwise (· < ·) := by
    refine pairwise_cons.mpr ⟨fun x hx => (hinside x hx).1, ?_⟩
    rw [← hes]
    exact ascending_pairwise _
  have hend : lane.tokens.length ∈ es := hmem.mpr (.inr rfl)
  have hlast : (0 :: es).getLast? = some lane.tokens.length := by
    refine getLast?_of_max hsort (mem_cons_of_mem _ hend) (fun x hx => ?_)
    rcases mem_cons.mp hx with rfl | hx
    · exact Nat.zero_le _
    · exact (hinside x hx).2
  obtain ⟨htiles, hpos⟩ := cutsFrom_tiles hsort hlast
  have hne : cutsFrom 0 es ≠ [] := by
    intro hnil
    rw [hnil] at htiles
    have : 0 = lane.tokens.length := htiles
    omega
  -- An end before the last is one of those that were kept.
  have hkept : ∀ {x : Nat}, x ∈ es → x < lane.tokens.length → (x ∈ forced ∨ x ∈ shared) ∧ x ≤ tail := by
    intro x hx hlt
    rcases hmem.mp hx with ⟨⟨h, -⟩ | h, htail⟩ | rfl
    · exact ⟨.inl h, htail⟩
    · exact ⟨.inr h, htail⟩
    · exact absurd hlt (lt_irrefl _)
  have hearly : ∀ {cut : Nat × Nat}, cut ∈ (cutsFrom 0 es).dropLast → cut ∈ cutsFrom 0 es ∧
      (cut.2 ∈ forced ∨ cut.2 ∈ shared) ∧ cut.2 ≤ tail ∧ cut.2 < lane.tokens.length := by
    intro cut hcut
    have hin := dropLast_subset _ hcut
    have hlt := htiles.dropLast_lt hpos cut hcut
    have := hkept (snd_mem_of_cutsFrom cut hin) hlt
    exact ⟨hin, this.1, this.2, hlt⟩
  refine ⟨⟨htiles, hne, fun _ => hpos, fun hs cut hcut => ?_, fun hps cut hcut hforced => ?_⟩, ?_⟩
  · obtain ⟨hin, -, htail, hlt⟩ := hearly hcut
    -- The loop has an end within a share of any row, and no end lies inside a piece.
    obtain ⟨g, hg, hgt, hreach⟩ := hshared.reach hs cut.2 (by have := hpos cut hin; omega) hlt.le
    have hle : g ≤ cut.1 := by
      refine cutsFrom_gap hsort cut hin g ?_ hgt
      rcases mem_cons.mp hg with rfl | hg
      · exact mem_cons_self
      · exact mem_cons_of_mem _ (hmem.mpr (.inl ⟨.inr hg, by omega⟩))
    omega
  · obtain ⟨-, h | h, -, -⟩ := hearly hcut
    · exact absurd h hforced
    · exact hshared.aligned hps cut.2 h
  · obtain ⟨cut, hcut⟩ := isSome_iff_exists.mp (getLast?_isSome.mpr hne)
    have hin := mem_of_getLast? hcut
    have hstop := htiles.last_snd hcut
    refine ⟨cut.1, ?_, by rw [← hstop, hcut]⟩
    rcases mem_cons.mp (fst_mem_of_cutsFrom cut hin) with hzero | hes
    · rw [hzero]
      exact Nat.zero_le _
    · exact (hkept hes (by have := hpos cut hin; omega)).2

/-- The last piece, and what it holds. -/
def LastHolds (req : FireRequest) (lane : Lane) (i : Nat) (last : Option (Nat × Nat)) : Prop :=
  ∃ start, last = some (start, lane.tokens.length) ∧ HoldsReads lane start ∧ HoldsMedia req i start

theorem lastHolds_whole (req : FireRequest) (lane : Lane) (i : Nat) :
    LastHolds req lane i (some (0, lane.tokens.length)) :=
  ⟨0, rfl, holdsReads_zero lane, holdsMedia_zero req i⟩

theorem hostCuts_spec {lane : Lane} (hreq : req.lanes = [lane]) (hlane : ValidLane lane)
    (cuttable : Bool) (share page : Nat) (forced : List Nat) :
    ∃ cuts, hostCuts req cuttable share page forced = some cuts ∧ LaneCuts lane share page forced cuts ∧
      LastHolds req lane 0 cuts.getLast? := by
  have hwhole : ∃ cuts, some [(0, lane.tokens.length)] = some cuts ∧ LaneCuts lane share page forced cuts ∧
      LastHolds req lane 0 cuts.getLast? := ⟨_, rfl, laneCuts_whole share page forced, lastHolds_whole req lane 0⟩
  unfold hostCuts
  rw [hreq]
  dsimp only
  rw [hlane.rows_eq]
  split
  · exact hwhole
  have hpage : 0 < max page 1 := lt_of_lt_of_le Nat.one_pos (le_max_right _ _)
  obtain ⟨shared, hshare, hshared⟩ := @shareEnds_spec _ _ share _ hlane.held hpage _ 0 rfl
  rw [hshare]
  rcases Nat.eq_zero_or_pos lane.tokens.length with hzero | hrows
  · have hforced : forced.filter (fun stop => 0 < stop ∧ stop < lane.tokens.length) = [] := by
      refine filter_eq_nil_iff.mpr (fun x _ hx => ?_)
      have := of_decide_eq_true hx
      omega
    have hnone : shared = [] := eq_nil_iff_forall_not_mem.mpr fun x hx => by
      have := hshared.inside x hx
      omega
    rw [hforced, hnone]
    rw [hzero] at hwhole ⊢
    exact hwhole
  · obtain ⟨hcuts, start, hstart, hlast⟩ := @laneCuts_of_ends lane share page
      (min (tailRow lane lane.tokens.length) ((firstMediaRow req).getD lane.tokens.length)) forced _ hrows hshared
    exact ⟨_, rfl, hcuts, start, hlast, holdsReads_of_le (hstart.trans (min_le_left _ _)),
      holdsMedia_of_le (hstart.trans (min_le_right _ _))⟩

/-! ## The pieces of a pass -/

/-- The pieces of one lane. -/
def column (pieces : List Piece) (i : Nat) : List (Nat × Nat) := pieces.filterMap fun piece => (piece[i]?).bind id

/-- The share of each lane. -/
def shareOf (req : FireRequest) (share page : Nat) : Nat :=
  if req.lanes.length ≤ 1 then share else laneShare share req.lanes.length (max page 1)

structure WellCut (req : FireRequest) (share page : Nat) (forced : List Nat) (pieces : List Piece) : Prop where
  lanes : ∀ i lane, req.lanes[i]? = some lane → LaneCuts lane (shareOf req share page) page forced (column pieces i)
  last : ∃ piece, pieces.getLast? = some piece ∧ ∀ i lane, req.lanes[i]? = some lane →
    LastHolds req lane i ((piece[i]?).bind id)

theorem column_single (cuts : List (Nat × Nat)) : column (cuts.map fun cut => [some cut]) 0 = cuts := by
  unfold column
  rw [filterMap_map]
  exact filterMap_some

theorem column_whole {lanes : List Lane} {lane : Lane} (h : lanes[i]? = some lane) :
    column [lanes.map fun lane => some (0, lane.rows)] i = [(0, lane.rows)] := by
  unfold column
  rw [filterMap_cons, getElem?_map, h]
  rfl

theorem wellCut_whole (hlanes : ∀ lane ∈ req.lanes, ValidLane lane) (share page : Nat)
    (forced : List Nat) : WellCut req share page forced [req.lanes.map fun lane => some (0, lane.rows)] where
  lanes := fun i lane h => by
    rw [column_whole h, (hlanes lane (mem_of_getElem? h)).rows_eq]
    exact laneCuts_whole _ _ _
  last := ⟨req.lanes.map fun lane => some (0, lane.rows), rfl, fun i lane h => by
    rw [getElem?_map, h, map_some, (hlanes lane (mem_of_getElem? h)).rows_eq]
    exact lastHolds_whole req lane i⟩

/-- The pieces of several lanes, the last of each in the last piece. -/
def aligned (perLane : List (List (Nat × Nat))) (count : Nat) : List Piece :=
  (List.range count).map fun k => perLane.map fun cuts =>
    if count ≤ k + cuts.length then cuts[k + cuts.length - count]? else none

theorem column_aligned {count i : Nat}
    (h : perLane[i]? = some cuts) (hcount : cuts.length ≤ count) : column (aligned perLane count) i = cuts := by
  unfold column aligned
  rw [filterMap_map]
  refine Eq.trans (filterMap_congr fun k _ => ?_) (filterMap_range_aligned hcount)
  rw [Function.comp_apply, getElem?_map, h]
  rfl

theorem getLast?_aligned {count : Nat} (hcount : 0 < count) :
    ∃ piece : Piece, (aligned perLane count).getLast? = some piece ∧
      ∀ (i : Nat) (cuts : List (Nat × Nat)), perLane[i]? = some cuts → cuts ≠ [] →
        (piece[i]?).bind id = cuts.getLast? := by
  obtain ⟨k, rfl⟩ := Nat.exists_eq_succ_of_ne_zero (ne_of_gt hcount)
  unfold aligned
  rw [range_succ, map_append]
  refine ⟨_, getLast?_concat, fun i cuts h hne => ?_⟩
  have hpos := length_pos_iff.mpr hne
  have hindex : k + cuts.length - (k + 1) = cuts.length - 1 := by omega
  rw [getElem?_map, h, map_some, bind_some, id, if_pos (by omega), hindex, getLast?_eq_getElem?]

theorem max_max_one (page : Nat) : max (max page 1) 1 = max page 1 := by omega

theorem hostCuts_one {lane : Lane} (hlane : ValidLane lane) (share page : Nat) (forced : List Nat) :
    ∃ cuts, hostCuts (.one lane) true share (max page 1) [] = some cuts ∧ LaneCuts lane share page forced cuts ∧
      ∃ start, cuts.getLast? = some (start, lane.tokens.length) ∧ HoldsReads lane start := by
  obtain ⟨cuts, hcuts, hlaneCuts, start, hlast, hreads, -⟩ := @hostCuts_spec (.one lane) lane rfl hlane true share (max page 1) []
  refine ⟨cuts, hcuts, ⟨hlaneCuts.tiles, hlaneCuts.ne, hlaneCuts.nonempty, hlaneCuts.bounded, ?_⟩, start, hlast, hreads⟩
  intro hpage cut hcut _
  have haligned := hlaneCuts.aligned
  rw [max_max_one] at haligned
  exact haligned hpage cut hcut not_mem_nil

/-- A request whose lanes are valid, and whose media names rows of its lanes. -/
structure Valid (req : FireRequest) : Prop where
  lanes : ∀ lane ∈ req.lanes, ValidLane lane
  media : ∀ media ∈ req.media, ∃ lane, req.lanes[media.lane]? = some lane ∧
    (media.tokenPositions = [] ∨ media.tokenPositions.length = 3 * lane.tokens.length) ∧
    ∀ row ∈ media.routes, row < lane.tokens.length ∧ -2 ^ 31 ≤ row ∧ row < 2 ^ 31

theorem passPieces_spec (hreq : Valid req) (cuttable lanesCuttable : Bool) (share page : Nat)
    (forced : List Nat) : ∃ pieces, passPieces req cuttable lanesCuttable share page forced = some pieces ∧
      WellCut req share page forced pieces ∧
      (1 < pieces.length → req.lanes.length ≤ 1 ∨ req.media = []) := by
  unfold passPieces
  dsimp only
  split
  · rename_i hone
    cases hlanes : req.lanes with
    | nil =>
      have hcuts : hostCuts req cuttable share page forced = some [(0, 0)] := by
        unfold hostCuts
        rw [hlanes]
        rfl
      rw [hcuts]
      refine ⟨[[some (0, 0)]], rfl, ⟨fun i lane h => ?_, _, rfl, fun i lane h => ?_⟩, fun _ => .inl (Nat.zero_le _)⟩
      · rw [hlanes] at h
        cases h
      · rw [hlanes] at h
        cases h
    | cons lane rest =>
      obtain rfl : rest = [] := by
        rw [hlanes, length_cons] at hone
        exact length_eq_zero_iff.mp (by omega)
      obtain ⟨cuts, hcuts, hlaneCuts, hlast⟩ := hostCuts_spec hlanes (hreq.lanes lane (by rw [hlanes]; exact mem_cons_self))
        cuttable share page forced
      rw [hcuts]
      refine ⟨cuts.map fun cut => [some cut], rfl, ⟨fun i lane' h => ?_, ?_⟩, fun _ => .inl le_rfl⟩
      · rw [hlanes] at h
        obtain ⟨rfl, rfl⟩ : i = 0 ∧ lane = lane' := by
          cases i with
          | zero => exact ⟨rfl, some.inj h⟩
          | succ i => cases h
        rw [column_single, shareOf, if_pos hone]
        exact hlaneCuts
      · obtain ⟨cut, hcut⟩ := isSome_iff_exists.mp (getLast?_isSome.mpr hlaneCuts.ne)
        refine ⟨[some cut], by rw [getLast?_map, hcut]; rfl, fun i lane' h => ?_⟩
        rw [hlanes] at h
        obtain ⟨rfl, rfl⟩ : i = 0 ∧ lane = lane' := by
          cases i with
          | zero => exact ⟨rfl, some.inj h⟩
          | succ i => cases h
        rw [hcut] at hlast
        exact hlast
  · rename_i hmany
    split
    · exact ⟨_, rfl, wellCut_whole hreq.lanes share page forced, fun h => absurd h (lt_irrefl _)⟩
    · rename_i hseparable
      have hmedia : req.media = [] := by
        have hall : separableLanes req = true := by
          cases hs : separableLanes req with
          | true => rfl
          | false => exact absurd (by rw [hs]; exact Bool.or_true _) hseparable
        unfold separableLanes at hall
        simp only [Bool.and_eq_true, List.isEmpty_iff] at hall
        exact hall.1.1.2
      obtain ⟨perLane, hperLane⟩ := exists_mapM fun lane hlane =>
        (hostCuts_one (hreq.lanes lane hlane) (laneShare share req.lanes.length (max page 1)) page forced).imp fun _ h => h.1
      have hcuts : ∀ (i : Nat) (lane : Lane), req.lanes[i]? = some lane → ∃ cuts, perLane[i]? = some cuts ∧
          LaneCuts lane (laneShare share req.lanes.length (max page 1)) page forced cuts ∧
          ∃ start, cuts.getLast? = some (start, lane.tokens.length) ∧ HoldsReads lane start := by
        intro i lane h
        obtain ⟨cuts, hget, hcuts⟩ := forall₂_getElem? (mapM_eq_some.mp hperLane) h
        obtain ⟨cuts', hcuts', hlane⟩ := hostCuts_one (hreq.lanes lane (mem_of_getElem? h))
          (laneShare share req.lanes.length (max page 1)) page forced
        cases hcuts.symm.trans hcuts'
        exact ⟨cuts, hget, hlane⟩
      rw [hperLane]
      refine ⟨aligned perLane ((perLane.map length).max?.getD 1), rfl, ⟨fun i lane h => ?_, ?_⟩, fun _ => .inr hmedia⟩
      · obtain ⟨cuts, hget, hlane, -⟩ := hcuts i lane h
        rw [column_aligned hget (le_max? (mem_map_of_mem (mem_of_getElem? hget))), shareOf, if_neg hmany]
        exact hlane
      · have hcount : 0 < (perLane.map length).max?.getD 1 := by
          obtain ⟨lane, hlane⟩ : ∃ lane, req.lanes[0]? = some lane := ⟨_, getElem?_eq_getElem (by omega)⟩
          obtain ⟨cuts, hget, hcut, -⟩ := hcuts 0 lane hlane
          have hle := le_max? (d := 1) (mem_map_of_mem (f := length) (mem_of_getElem? hget))
          exact (length_pos_iff.mpr hcut.ne).trans_le hle
        obtain ⟨piece, hpiece, hends⟩ := getLast?_aligned hcount
        refine ⟨piece, hpiece, fun i lane h => ?_⟩
        obtain ⟨cuts, hget, hcut, start, hstart, hreads⟩ := hcuts i lane h
        refine ⟨start, (hends i cuts hget hcut.ne).trans hstart, hreads, fun media hm => ?_⟩
        rw [hmedia] at hm
        cases hm

/-! ## The requests of the pieces -/

theorem slice_eq_some {l r : List α} :
    slice l start stop = some r ↔ (start ≤ stop ∧ stop ≤ l.length) ∧ r = stretch l (start, stop) := by
  unfold slice
  split
  · rename_i h
    exact ⟨fun hr => ⟨h, (some.inj hr).symm⟩, fun hr => by rw [hr.2]⟩
  · rename_i h
    exact ⟨fun hr => (nomatch hr), fun hr => absurd hr.1 h⟩

theorem add32_eq_some {a b c : Nat} : add32 a b = some c ↔ a + b < 2 ^ 32 ∧ a + b = c := by
  unfold add32
  split
  · rename_i h
    exact ⟨fun hc => ⟨h, some.inj hc⟩, fun hc => congrArg some hc.2⟩
  · rename_i h
    exact ⟨fun hc => (nomatch hc), fun hc => absurd hc.1 h⟩

theorem sub32_eq_some {a b c : Nat} : sub32 a b = some c ↔ b ≤ a ∧ a - b = c := by
  unfold sub32
  split
  · rename_i h
    exact ⟨fun hc => ⟨h, some.inj hc⟩, fun hc => congrArg some hc.2⟩
  · rename_i h
    exact ⟨fun hc => (nomatch hc), fun hc => absurd hc.1 h⟩

/-- The masks a lane has for its rows. -/
def rowMasks (lane : Lane) : List Mask :=
  match lane.mask with
  | some (.rows masks) => masks
  | _ => []

/-- The pages that hold so many slots. -/
def pagesOf (slots page : Nat) : Nat := divCeil slots (max page 1)

theorem pagesOf_mono {a b page : Nat} (h : a ≤ b) : pagesOf a page ≤ pagesOf b page :=
  Nat.div_le_div_right (Nat.sub_le_sub_right (Nat.add_le_add_right h _) 1)

/-- One piece of a lane: its rows, and where they lie. -/
structure PieceOf (lane : Lane) (page : Nat) (cut : Nat × Nat) (piece : Lane) : Prop where
  tokens : piece.tokens = stretch lane.tokens cut
  positions : piece.positions = stretch lane.positions cut
  masks : rowMasks piece = stretch (rowMasks lane) cut
  extent : (∀ masks, lane.mask ≠ some (.rows masks)) → piece.mask = lane.mask
  held : piece.kv.held = lane.kv.held + cut.1
  pages : piece.kv.pages = lane.kv.pages.take (pagesOf (lane.kv.held + cut.2) page)

theorem stretch_nil (cut : Nat × Nat) : stretch ([] : List α) cut = [] := by
  rw [stretch, drop_nil, take_nil]

theorem sliceIfAny_eq_some [DecidableEq α] {l r : List α}
    (h : sliceIfAny l start stop = some r) : r = stretch l (start, stop) := by
  unfold sliceIfAny at h
  split at h
  · rename_i hnil
    rw [hnil, stretch_nil]
    exact (some.inj h).symm
  · exact (slice_eq_some.mp h).2

theorem rowsOfMask_eq_some {lane piece : Lane}
    (h : rowsOfMask lane.mask start stop = some piece.mask) : rowMasks piece = stretch (rowMasks lane) (start, stop) ∧
      ((∀ masks, lane.mask ≠ some (.rows masks)) → piece.mask = lane.mask) := by
  unfold rowsOfMask at h
  unfold rowMasks
  split at h
  · rename_i masks hlane
    obtain ⟨cut, hcut, hpiece⟩ := map_eq_some_iff.mp h
    obtain ⟨-, rfl⟩ := slice_eq_some.mp hcut
    refine ⟨?_, fun hno => absurd hlane (hno masks)⟩
    simp only [← hpiece, hlane]
  · rename_i hno
    rw [← some.inj h]
    refine ⟨?_, fun _ => rfl⟩
    split
    · rename_i masks hlane
      exact absurd hlane (hno masks)
    · exact (stretch_nil _).symm

theorem rowsOfLane_eq_some {lane piece : Lane}
    (h : rowsOfLane lane cut last page = some piece) : PieceOf lane page cut piece := by
  unfold rowsOfLane at h
  obtain ⟨tokens, htokens, h⟩ := bind_eq_some_iff.mp h
  obtain ⟨positions, hpositions, h⟩ := bind_eq_some_iff.mp h
  obtain ⟨mask, hmask, h⟩ := bind_eq_some_iff.mp h
  obtain ⟨held, hheld, h⟩ := bind_eq_some_iff.mp h
  obtain ⟨rows, hrows, h⟩ := bind_eq_some_iff.mp h
  obtain ⟨len, hlen, h⟩ := bind_eq_some_iff.mp h
  obtain ⟨-, rfl⟩ := add32_eq_some.mp hheld
  obtain ⟨hle, rfl⟩ := sub32_eq_some.mp hrows
  obtain ⟨-, rfl⟩ := add32_eq_some.mp hlen
  have hslots : lane.kv.held + cut.1 + (cut.2 - cut.1) = lane.kv.held + cut.2 := by omega
  -- The readout is all that the last piece has of its own.
  have hpiece : piece.tokens = tokens ∧ piece.positions = positions ∧ piece.mask = mask ∧ piece.kv =
      ⟨lane.kv.held + cut.1, lane.kv.pages.take (divCeil (lane.kv.held + cut.1 + (cut.2 - cut.1)) (max page 1))⟩ := by
    cases last with
    | false =>
      cases h
      exact ⟨rfl, rfl, rfl, rfl⟩
    | true =>
      obtain ⟨readout, -, rfl⟩ := map_eq_some_iff.mp h
      exact ⟨rfl, rfl, rfl, rfl⟩
  obtain ⟨h₁, h₂, h₃, h₄⟩ := hpiece
  obtain ⟨hmasks, hextent⟩ := rowsOfMask_eq_some (h₃ ▸ hmask)
  exact {
    tokens := h₁.trans (slice_eq_some.mp htokens).2
    positions := h₂.trans (sliceIfAny_eq_some hpositions)
    masks := hmasks
    extent := hextent
    held := by rw [h₄]
    pages := by rw [h₄, hslots]; rfl }

theorem rowsOfLane_isSome {lane : Lane} (hlane : ValidLane lane) (hcut : cut.1 ≤ cut.2)
    (hstop : cut.2 ≤ lane.tokens.length) (hlast : last = true → HoldsReads lane cut.1) (page : Nat) :
    ∃ piece, rowsOfLane lane cut last page = some piece := by
  have hheld := hlane.held
  have htokens : slice lane.tokens cut.1 cut.2 = some (stretch lane.tokens cut) := if_pos ⟨hcut, hstop⟩
  have hpositions : ∃ positions, sliceIfAny lane.positions cut.1 cut.2 = some positions := by
    unfold sliceIfAny
    rcases hlane.positions with hnil | hlen
    · exact ⟨[], if_pos hnil⟩
    · split
      · exact ⟨[], rfl⟩
      · exact ⟨_, if_pos ⟨hcut, by omega⟩⟩
  have hmask : ∃ mask, rowsOfMask lane.mask cut.1 cut.2 = some mask := by
    unfold rowsOfMask
    split
    · rename_i masks hmasks
      have hlen := hlane.masks masks hmasks
      rw [slice, if_pos ⟨hcut, by omega⟩]
      exact ⟨_, rfl⟩
    · exact ⟨_, rfl⟩
  obtain ⟨positions, hpositions⟩ := hpositions
  obtain ⟨mask, hmask⟩ := hmask
  have hstart : add32 lane.kv.held cut.1 = some (lane.kv.held + cut.1) := if_pos (by omega)
  have hrows : sub32 cut.2 cut.1 = some (cut.2 - cut.1) := if_pos hcut
  have hlen : add32 (lane.kv.held + cut.1) (cut.2 - cut.1) = some (lane.kv.held + cut.1 + (cut.2 - cut.1)) :=
    if_pos (by omega)
  unfold rowsOfLane
  rw [htokens, hpositions, hmask, hstart, hrows]
  simp only [bind_eq_bind, bind_some]
  rw [hlen]
  cases last with
  | false => exact ⟨_, rfl⟩
  | true =>
    have hreadout : ∃ readout, rowsOfReadout lane.readout cut.1 = some readout := by
      unfold rowsOfReadout
      split
      · rename_i read hread
        obtain ⟨rows, hrows⟩ := exists_mapM (f := fun row => sub32 row cut.1) (l := read) fun row hrow =>
          ⟨row - cut.1, if_pos ((hlast rfl).rows read hread row hrow)⟩
        rw [hrows]
        exact ⟨_, rfl⟩
      · exact ⟨_, rfl⟩
    obtain ⟨readout, hreadout⟩ := hreadout
    rw [hreadout]
    exact ⟨_, rfl⟩

theorem rowsOfMedia_isSome {media : StepMedia} {rows start : Nat} (hstart : start ≤ rows)
    (hpositions : media.tokenPositions = [] ∨ media.tokenPositions.length = 3 * rows)
    (hroutes : ∀ row ∈ media.routes, -2 ^ 31 ≤ row ∧ row < 2 ^ 31) (hnamed : ∀ row ∈ media.routes, 0 ≤ row → (start : Int) ≤ row) :
    ∃ piece, rowsOfMedia media (start, rows) = some piece := by
  obtain ⟨routes, hr⟩ := exists_mapM (f := fun row => rowsOfRoute row start) (l := media.routes) fun row hrow => by
    unfold rowsOfRoute
    split
    · rename_i hpos
      have hle := hnamed row hrow hpos
      have hlt := (hroutes row hrow).2
      have has : asI32 start = start := Int.bmod_eq_of_le (by omega) (by omega)
      rw [has, subI32, if_pos ⟨by omega, by omega⟩]
      exact ⟨_, rfl⟩
    · exact ⟨row, rfl⟩
  have hp : ∃ positions, sliceIfAny media.tokenPositions (3 * start) (3 * rows) = some positions := by
    unfold sliceIfAny
    rcases hpositions with hnil | hlen
    · exact ⟨[], if_pos hnil⟩
    · split
      · exact ⟨[], rfl⟩
      · exact ⟨_, if_pos ⟨by omega, by omega⟩⟩
  obtain ⟨positions, hp⟩ := hp
  unfold rowsOfMedia
  dsimp only
  rw [hr, hp]
  exact ⟨_, rfl⟩

/-- Where a lane of a piece comes among the lanes of its request. -/
def seat (piece : Piece) (i : Nat) : Option Nat :=
  ((piece[i]?).bind id).map fun _ => (piece.take i).countP Option.isSome

/-- What a request has of one lane. -/
def laneOf (piece : Piece) (req : FireRequest) (i : Nat) : Option Lane := (seat piece i).bind fun s => req.lanes[s]?

theorem countP_zip {lanes : List Lane} : ∀ {piece : Piece} {i : Nat}, i ≤ lanes.length →
    ((lanes.zip piece).take i).countP (fun e => (e.2.map fun cut => (e.1, cut)).isSome) =
      (piece.take i).countP Option.isSome := by
  induction lanes with
  | nil =>
    intro piece i hi
    obtain rfl := Nat.le_zero.mp hi
    rw [take_zero, take_zero]
    rfl
  | cons lane lanes ih =>
    intro piece i hi
    cases piece with
    | nil =>
      rw [zip_nil_right, take_nil, take_nil]
      rfl
    | cons cut piece =>
      cases i with
      | zero => rfl
      | succ i =>
        rw [zip_cons_cons, take_succ_cons, take_succ_cons, countP_cons, countP_cons,
          ih (Nat.le_of_succ_le_succ hi), isSome_map]

theorem rowsOfLanes_lane {piece : Piece} {lane : Lane} (h : rowsOfLanes full piece last page = some req) (hlane : full.lanes[i]? = some lane)
    (hcut : (piece[i]?).bind id = some cut) :
    ∃ own, laneOf piece req i = some own ∧ rowsOfLane lane cut last page = some own := by
  obtain ⟨lanes, hlanes, h⟩ := bind_eq_some_iff.mp h
  obtain ⟨media, -, h⟩ := bind_eq_some_iff.mp h
  cases h
  obtain ⟨cut', hpiece, hid⟩ := bind_eq_some_iff.mp hcut
  obtain rfl : cut' = some cut := hid
  have hzip : (full.lanes.zip piece)[i]? = some (lane, some cut) := by
    rw [getElem?_zip_eq_some]
    exact ⟨hlane, hpiece⟩
  have hseat := getElem?_filterMap (f := fun (e : Lane × Option (Nat × Nat)) => e.2.map fun cut => (e.1, cut)) hzip rfl
  rw [countP_zip (List.getElem?_eq_some_iff.mp hlane).1.le] at hseat
  obtain ⟨own, hown, hrows⟩ := forall₂_getElem? (mapM_eq_some.mp hlanes) hseat
  refine ⟨own, ?_, hrows⟩
  rw [laneOf, seat, hcut]
  exact hown

/-- What the requests have of one lane, in their order. -/
def ownLanes (pieces : List Piece) (reqs : List FireRequest) (i : Nat) : List Lane :=
  (pieces.zip reqs).filterMap fun e => laneOf e.1 e.2 i

theorem ownLanes_pieces {lane : Lane} (hlane : full.lanes[i]? = some lane)
    (h : Forall₂ (fun piece req => ∃ last, rowsOfLanes full piece last page = some req) pieces reqs) :
    Forall₂ (PieceOf lane page) (column pieces i) (ownLanes pieces reqs i) := by
  induction h with
  | nil => exact .nil
  | @cons piece req pieces reqs hreq _ ih =>
    obtain ⟨last, hreq⟩ := hreq
    unfold column ownLanes
    rw [zip_cons_cons]
    cases hcut : (piece[i]?).bind id with
    | none =>
      have hown : laneOf piece req i = none := by
        rw [laneOf, seat, hcut]
        rfl
      simp only [filterMap_cons, hcut, hown]
      exact ih
    | some cut =>
      obtain ⟨own, hown, hrows⟩ := rowsOfLanes_lane hreq hlane hcut
      simp only [filterMap_cons, hcut, hown]
      exact .cons (rowsOfLane_eq_some hrows) ih

theorem forall₂_zipIdx {α β : Type} {R : α × Nat → β → Prop} : ∀ {l : List α} {n : Nat} {l' : List β},
    Forall₂ R (l.zipIdx n) l' → Forall₂ (fun a b => ∃ k, R (a, k) b) l l' := by
  intro l
  induction l with
  | nil =>
    intro n l' h
    cases h
    exact .nil
  | cons a l ih =>
    intro n l' h
    cases h with
    | cons hab h => exact .cons ⟨n, hab⟩ (ih h)

theorem requests_pieces (h : requests full pieces page = some reqs) :
    Forall₂ (fun piece req => ∃ last, rowsOfLanes full piece last page = some req) pieces reqs :=
  (forall₂_zipIdx (mapM_eq_some.mp h)).imp fun _ _ ⟨_, h⟩ => ⟨_, h⟩

/-- What is carried for a lane: laid end to end it is the lane, and each part has
the slots before it and the pages it needs. -/
structure Carries (lane : Lane) (page : Nat) (cuts : List (Nat × Nat)) (own : List Lane) : Prop where
  tokens : own.flatMap Lane.tokens = lane.tokens
  positions : own.flatMap Lane.positions = lane.positions
  masks : own.flatMap rowMasks = rowMasks lane
  extent : (∀ masks, lane.mask ≠ some (.rows masks)) → ∀ piece ∈ own, piece.mask = lane.mask
  parts : List.Forall₂ (fun cut piece => piece.tokens.length = cut.2 - cut.1 ∧ piece.kv.held = lane.kv.held + cut.1 ∧
    piece.kv.pages = lane.kv.pages.take (pagesOf (lane.kv.held + cut.2) page) ∧
    (pagesOf (lane.kv.held + lane.tokens.length) page ≤ lane.kv.pages.length →
      piece.kv.pages.length = pagesOf (piece.kv.held + piece.tokens.length) page)) cuts own

theorem flatMap_of_forall₂ {α β γ : Type} {R : α → β → Prop} {f : α → List γ} {g : β → List γ} {l : List α} {l' : List β}
    (h : Forall₂ R l l') (hfg : ∀ a b, R a b → g b = f a) : l'.flatMap g = l.flatMap f := by
  induction h with
  | nil => rfl
  | cons hab _ ih => rw [flatMap_cons, flatMap_cons, hfg _ _ hab, ih]

theorem carries_of_tiles {lane : Lane} (hlane : ValidLane lane) {own : List Lane}
    (htiles : Tiles 0 lane.tokens.length cuts) (h : Forall₂ (PieceOf lane page) cuts own) :
    Carries lane page cuts own := by
  have hlaid : ∀ {α : Type} {l : List α}, l = [] ∨ l.length = lane.tokens.length → cuts.flatMap (stretch l) = l := by
    intro α l hl
    rw [htiles.flatMap_stretch]
    rcases hl with rfl | hl
    · exact stretch_nil _
    · rw [← hl, stretch_whole]
  refine ⟨?_, ?_, ?_, ?_, ?_⟩
  · rw [flatMap_of_forall₂ h fun _ _ hp => hp.tokens]
    exact hlaid (.inr rfl)
  · rw [flatMap_of_forall₂ h fun _ _ hp => hp.positions]
    exact hlaid hlane.positions
  · rw [flatMap_of_forall₂ h fun _ _ hp => hp.masks]
    refine hlaid ?_
    unfold rowMasks
    split
    · rename_i masks hmasks
      exact .inr (hlane.masks masks hmasks)
    · exact .inl rfl
  · intro hno
    exact Fallible.forall₂_left h.flip fun _ _ hp => hp.extent hno
  · refine Fallible.forall₂_imp_mem h fun cut piece hcut hp => ?_
    obtain ⟨-, hle, hstop⟩ := htiles.le_of_mem cut hcut
    have hlen : piece.tokens.length = cut.2 - cut.1 := by rw [hp.tokens, stretch_length hstop]
    have hend : piece.kv.held + piece.tokens.length = lane.kv.held + cut.2 := by
      rw [hp.held, hlen]
      omega
    refine ⟨hlen, hp.held, hp.pages, fun hpages => ?_⟩
    rw [hp.pages, length_take, hend]
    exact Nat.min_eq_left ((pagesOf_mono (Nat.add_le_add_left hstop _)).trans hpages)

theorem rowsOfLanes_isSome (hreq : Valid req) (hcut : WellCut req share page forced pieces)
    (hmedia : req.lanes.length ≤ 1 ∨ req.media = []) {piece : Piece} (hpiece : piece ∈ pieces)
    (hlast : last = true → pieces.getLast? = some piece) : ∃ r, rowsOfLanes req piece last page = some r := by
  have hholds : last = true → ∀ (i : Nat) (lane : Lane), req.lanes[i]? = some lane →
      LastHolds req lane i ((piece[i]?).bind id) := by
    intro hl
    obtain ⟨piece', hpiece', hholds⟩ := hcut.last
    cases hpiece'.symm.trans (hlast hl)
    exact hholds
  have hlanes : ∃ lanes, ((req.lanes.zip piece).filterMap fun e => e.2.map fun cut => (e.1, cut)).mapM
      (fun e => rowsOfLane e.1 e.2 last page) = some lanes := by
    refine exists_mapM fun e he => ?_
    obtain ⟨⟨lane, cut?⟩, hzip, hsome⟩ := mem_filterMap.mp he
    obtain ⟨cut, rfl, rfl⟩ := map_eq_some_iff.mp hsome
    obtain ⟨i, hi⟩ := getElem?_of_mem hzip
    obtain ⟨hlane, hget⟩ := getElem?_zip_eq_some.mp hi
    have hid : (piece[i]?).bind id = some cut := by
      rw [hget]
      rfl
    have hin : cut ∈ column pieces i := mem_filterMap.mpr ⟨piece, hpiece, hid⟩
    obtain ⟨-, hle, hstop⟩ := (hcut.lanes i lane hlane).tiles.le_of_mem cut hin
    refine rowsOfLane_isSome (hreq.lanes lane (mem_of_getElem? hlane)) hle hstop (fun hl => ?_) page
    obtain ⟨start, hstart, hreads, -⟩ := hholds hl i lane hlane
    rw [hid] at hstart
    rw [some.inj hstart]
    exact hreads
  have hmediaOf : ∃ media, mediaOf req.media piece last = some media := by
    unfold mediaOf
    split
    · rename_i hl
      refine exists_mapM fun media hm => ?_
      -- A media row names a lane, so there is one, and it is the first.
      obtain ⟨lane, hlane, hpositions, hroutes⟩ := hreq.media media hm
      have hfirst : media.lane = 0 := by
        have hlt := (List.getElem?_eq_some_iff.mp hlane).1
        rcases hmedia with hone | hnone
        · omega
        · rw [hnone] at hm
          cases hm
      rw [hfirst] at hlane
      obtain ⟨start, hstart, -, hnamed⟩ := hholds hl 0 lane hlane
      rw [head?_eq_getElem?, hstart]
      have hin : (start, lane.tokens.length) ∈ column pieces 0 := mem_filterMap.mpr ⟨piece, hpiece, hstart⟩
      have hle := ((hcut.lanes 0 lane hlane).tiles.le_of_mem _ hin).2.1
      exact rowsOfMedia_isSome hle hpositions (fun row hrow => (hroutes row hrow).2) (hnamed media hm hfirst)
    · exact ⟨[], rfl⟩
  obtain ⟨lanes, hlanes⟩ := hlanes
  obtain ⟨media, hmediaOf⟩ := hmediaOf
  unfold rowsOfLanes
  rw [hlanes, hmediaOf]
  exact ⟨_, rfl⟩

theorem requests_isSome (hreq : Valid req) (hcut : WellCut req share page forced pieces)
    (hmedia : req.lanes.length ≤ 1 ∨ req.media = []) : ∃ reqs, requests req pieces page = some reqs := by
  refine exists_mapM fun e he => ?_
  obtain ⟨piece, k⟩ := e
  have hk : pieces[k]? = some piece := mem_zipIdx_iff_getElem?.mp he
  refine rowsOfLanes_isSome hreq hcut hmedia (mem_of_getElem? hk) fun hl => ?_
  have hlen := of_decide_eq_true hl
  have hindex : pieces.length - 1 = k := by omega
  rw [getLast?_eq_getElem?, hindex, hk]

/-- Cutting loses and reorders nothing. -/
structure Faithful (req : FireRequest) (share page : Nat) (forced : List Nat) (pieces : List Piece) : Prop where
  cut : WellCut req share page forced pieces
  made : (req.lanes.length ≤ 1 ∨ req.media = [] ∨ 1 < pieces.length) → ∃ reqs, requests req pieces page = some reqs
  carried : ∀ reqs, requests req pieces page = some reqs → ∀ i lane, req.lanes[i]? = some lane →
    Carries lane page (column pieces i) (ownLanes pieces reqs i)

/-- **Any pass is cut faithfully**, and its requests can be made. -/
theorem passPieces_faithful {req : FireRequest} (hreq : Valid req) (cuttable lanesCuttable : Bool) (share page : Nat)
    (forced : List Nat) : ∃ pieces, passPieces req cuttable lanesCuttable share page forced = some pieces ∧
      Faithful req share page forced pieces := by
  obtain ⟨pieces, hpieces, hcut, hmedia⟩ := passPieces_spec hreq cuttable lanesCuttable share page forced
  refine ⟨pieces, hpieces, hcut, fun h => requests_isSome hreq hcut ?_, fun reqs hreqs i lane hlane => ?_⟩
  · rcases h with hone | hnone | hmany
    · exact .inl hone
    · exact .inr hnone
    · exact hmedia hmany
  · exact carries_of_tiles (hreq.lanes lane (mem_of_getElem? hlane)) (hcut.lanes i lane hlane).tiles
      (ownLanes_pieces hlane (requests_pieces hreqs))

/-- One lane of two rows. -/
def twoRows : FireRequest :=
  .one ⟨[7, 8], [], ⟨0, [0]⟩, none, none, false, false, false, false, none, [], .last, none, none, [], false, none⟩

theorem twoRows_valid : Valid twoRows where
  lanes := fun lane hlane => by
    rw [mem_singleton.mp hlane]
    exact ⟨by decide, .inl rfl, fun _ h => (nomatch h), fun _ h => (nomatch h)⟩
  media := nofun

theorem passPieces_faithful_twoRows : ∃ pieces, passPieces twoRows true true 16 16 [1] = some pieces ∧
    Faithful twoRows 16 16 [1] pieces :=
  passPieces_faithful twoRows_valid true true 16 16 [1]

/-- Without a share a forced end leaves a piece longer than the share. -/
theorem forced_piece_exceeds_share : Valid twoRows ∧ ∃ pieces, passPieces twoRows true true 0 16 [1] = some pieces ∧
    ∃ cut ∈ (column pieces 0).dropLast, ¬ cut.2 - cut.1 ≤ shareOf twoRows 0 16 := by
  have hpieces : passPieces twoRows true true 0 16 [1] = some [[some (0, 1)], [some (1, 2)]] := by
    have hshare : shareEnds 0 2 0 16 0 = some [] := by
      rw [shareEnds]
      rfl
    have hcuts : hostCuts twoRows true 0 16 [1] =
        (shareEnds 0 2 0 16 0).bind fun shared => some (cutsFrom 0 (ascending (ends [1] shared 1 2))) := rfl
    rw [hshare] at hcuts
    change (hostCuts twoRows true 0 16 [1]).bind (fun cuts => some (cuts.map fun cut => [some cut])) = _
    rw [hcuts]
    rfl
  exact ⟨twoRows_valid, _, hpieces, (0, 1), mem_cons_self, by decide⟩

end Pie.Proof.Cuts
