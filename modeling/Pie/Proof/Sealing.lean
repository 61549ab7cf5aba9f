import Pie.Lib.Tallies
import Pie.Proof.Parks

/-!
# A pass fills the waves within their limits

A unit is measured against what the waves hold already, and placed whole or not
at all. So the waves of a pass are those of the front frames of the lanes it
took, and a unit is left behind only for a frame without fires or for a wave that
it would overfill.
-/

namespace Pie.Proof.Sealing

open List Std Pie.Scheduler Lib.Maps Lib.Tallies FramePolicy Passes Parks PlacedFire

variable {done chosen order taken unit : List ProcessId} {s : LaneState} {front : PendingFrame} {k : Nat}
  {rest : List PendingFrame} {units : List (List ProcessId)} {lanes : TreeMap ProcessId LaneState}

/-! ## What is queued -/

/-- The frames of a lane. -/
def framesOf (p : FramePolicy) (id : ProcessId) : List PendingFrame := (p.lanes[id]?.map LaneState.frames).getD []

/-- A frame whose fires go to waves of their own, each of them small enough. -/
structure Suits (p : FramePolicy) (frame : PendingFrame) : Prop where
  rows : ∀ fire ∈ frame.fires, fire.rows ≤ p.maxWaveRows
  tokens : ∀ fire ∈ frame.fires, fire.tokens ≤ p.maxWaveTokens
  slots : ∀ fire ∈ frame.fires, fire.slot < p.k
  distinct : (frame.fires.map ArrivedFire.slot).Nodup

def Fed (p : FramePolicy) : Prop := ∀ id, ∀ frame ∈ framesOf p id, Suits p frame

/-- The fires of a frame that go to a wave. -/
def firesAt (i : Nat) (frame : PendingFrame) : List ArrivedFire :=
  frame.fires.filter fun fire => decide (fire.slot = i) && fire.fireId.isSome

/-- Everything in the frame was rejected. -/
def Rejected (frame : PendingFrame) : Prop := frame.isComplete = true ∧ ∀ fire ∈ frame.fires, fire.fireId = none

variable {p q : FramePolicy} {fill : Fill} {frame : PendingFrame} {id : ProcessId} {i : Nat}

theorem framesOf_some (h : p.lanes[id]? = some s) : framesOf p id = s.frames := by
  rw [framesOf, h]
  rfl

theorem live_nil : live k frame = [] ↔ ∀ fire ∈ frame.fires, fire.fireId = none := by
  rw [live, filterMap_eq_nil_iff]
  exact forall₂_congr fun fire _ => Option.map_eq_none_iff

/-- Where a live fire goes. -/
def placed (fire : ArrivedFire) : PlacedFire := ⟨fire.slot, fire.fireId.getD 0, max fire.rows 1, fire.tokens⟩

theorem live_eq (h : Suits p frame) : live p.k frame = (frame.fires.filter fun fire => fire.fireId.isSome).map placed := by
  rw [live, ← filterMap_eq_filter, map_filterMap]
  refine filterMap_congr fun fire hfire => ?_
  have hslot : min fire.slot (p.k - 1) = fire.slot := min_eq_left (Nat.le_sub_one_of_lt (h.slots fire hfire))
  cases hid : fire.fireId with
  | none => simp [Option.guard, hid]
  | some fireId => simp [Option.guard, placed, hid, hslot]

theorem live_wave_lt (h : Suits p frame) : ∀ fire ∈ live p.k frame, fire.wave < p.k := by
  intro fire hfire
  rw [live_eq h] at hfire
  obtain ⟨arrived, ha, rfl⟩ := mem_map.mp hfire
  exact h.slots arrived (mem_filter.mp ha).1

theorem live_nodup (h : Suits p frame) : ((live p.k frame).map wave).Nodup := by
  rw [live_eq h, map_map]
  exact h.distinct.sublist (filter_sublist.map _)

/-- The live fires of a wave are those of its slot. -/
theorem labelled_live (h : Suits p frame) (i : Nat) :
    labelled wave i (live p.k frame) = (firesAt i frame).map placed := by
  rw [labelled, live_eq h, filter_map, filter_filter]
  rfl

/-! ## What a lane offers -/

/-- The fires of the front frame, each with its wave. -/
def offer (p : FramePolicy) (id : ProcessId) : List PlacedFire := ((framesOf p id).head?.map (live p.k)).getD []

def Within (p : FramePolicy) (fires : List PlacedFire) : Prop :=
  ∀ i < p.k, total PlacedFire.wave PlacedFire.rows i fires ≤ p.maxWaveRows ∧
    total PlacedFire.wave PlacedFire.tokens i fires ≤ p.maxWaveTokens

theorem Within.sublist {xs ys : List PlacedFire} (h : Within p ys) (hs : xs.Sublist ys) : Within p xs :=
  fun i hi => ⟨(total_sublist hs).trans (h i hi).1, (total_sublist hs).trans (h i hi).2⟩

theorem within_nil : Within p [] := fun _ _ => ⟨Nat.zero_le _, Nat.zero_le _⟩

theorem offer_cons (h : framesOf p id = front :: rest) : offer p id = live p.k front := by
  rw [offer, h]
  rfl

/-- Fires that may be placed together: distinct waves. -/
structure Apart (k : Nat) (fires : List PlacedFire) : Prop where
  below : ∀ fire ∈ fires, fire.wave < k
  nodup : (fires.map PlacedFire.wave).Nodup

theorem offer_apart (hp : Fed p) (id : ProcessId) : Apart p.k (offer p id) := by
  cases hf : framesOf p id with
  | nil => rw [offer, hf]; exact ⟨nofun, nodup_nil⟩
  | cons front rest =>
    have hsuits : Suits p front := hp id front (hf ▸ mem_cons_self)
    rw [offer_cons hf]
    exact ⟨live_wave_lt hsuits, live_nodup hsuits⟩

/-! ## Measuring a unit -/

/-- What a loop over the fires adds up for the waves. -/
def tally (k : Nat) (f : PlacedFire → Nat) (fires : List PlacedFire) : List Nat :=
  fires.foldl (fun sums fire => addTo sums fire.wave (f fire)) (List.replicate k 0)

theorem tally_getD (f : PlacedFire → Nat) (fires : List PlacedFire) (hi : i < k) :
    (tally k f fires).getD i 0 = total wave f i fires := by
  have h : tally k f fires = (range k).map fun i => total wave f i fires := foldl_add f k fires
  rw [h, getD_eq_getElem?_getD, getElem?_map, getElem?_range hi]
  rfl

theorem tally_append (f : PlacedFire → Nat) (xs ys : List PlacedFire) :
    ys.foldl (fun sums fire => addTo sums fire.wave (f fire)) (tally k f xs) = tally k f (xs ++ ys) :=
  foldl_append.symm

variable {before : List PlacedFire} {m : Measure}

/-- The test of one lane is that of all the fires together, for its own are in different waves. -/
theorem all_fits {chosen fires : List PlacedFire} (hfr : fill.rows = tally p.k rows before)
    (hft : fill.tokens = tally p.k tokens before) (hmr : m.rows = tally p.k rows chosen)
    (hmt : m.tokens = tally p.k tokens chosen) (hw : Within p (before ++ chosen)) (hf : Apart p.k fires) :
    fires.all (p.fits fill m) = true ↔ Within p (before ++ (chosen ++ fires)) := by
  have hfits : ∀ fire ∈ fires, p.fits fill m fire = true ↔
      total wave rows fire.wave (before ++ (chosen ++ fires)) ≤ p.maxWaveRows ∧
        total wave tokens fire.wave (before ++ (chosen ++ fires)) ≤ p.maxWaveTokens := by
    intro fire hfire
    have hi := hf.below fire hfire
    rw [fits, Bool.and_eq_true, decide_eq_true_iff, decide_eq_true_iff, hfr, hft, hmr, hmt, tally_getD _ _ hi,
      tally_getD _ _ hi, tally_getD _ _ hi, tally_getD _ _ hi]
    simp only [total_append, total_of_nodup hf.nodup hfire, add_assoc]
  rw [all_eq_true]
  constructor
  · intro h i hi
    by_cases hin : ∃ fire ∈ fires, fire.wave = i
    · obtain ⟨fire, hfire, rfl⟩ := hin
      exact (hfits fire hfire).mp (h fire hfire)
    · -- a wave without a fire of this lane stays as it was
      have hnone (f : PlacedFire → Nat) :
          total wave f i (before ++ (chosen ++ fires)) = total wave f i (before ++ chosen) := by
        rw [← append_assoc, total_append, total_of_not_mem fun fire hfire he => hin ⟨fire, hfire, he⟩, add_zero]
      rw [hnone, hnone]
      exact hw i hi
  · exact fun h fire hfire => (hfits fire hfire).mpr (h fire.wave (hf.below fire hfire))

/-- The front frame leaves. -/
def pop (s : LaneState) : LaneState := { s with frames := s.frames.tail }

/-- What measuring has found of the lanes `done`, of which it chose some. -/
structure Weighed (p : FramePolicy) (fill : Fill) (before : List PlacedFire) (done chosen : List ProcessId) (m : Measure) :
    Prop where
  fires : m.fires = chosen.map fun id => (id, offer p id)
  rows : m.rows = tally p.k PlacedFire.rows (chosen.flatMap (offer p))
  tokens : m.tokens = tally p.k PlacedFire.tokens (chosen.flatMap (offer p))
  within : Within p (before ++ chosen.flatMap (offer p))
  sub : chosen.Sublist done
  alive : ∀ id ∈ chosen, offer p id ≠ []
  whole : m.short = false → chosen = done
  short : m.short = true → (∃ id ∈ done, offer p id = []) ∨ ¬ Within p (before ++ done.flatMap (offer p))
  dropped : m.droppedEmpty = true ↔ fill.droppedEmpty = true ∨ ∃ id ∈ done, offer p id = []
  lanes : ∀ id, m.lanes[id]? = if id ∈ done ∧ offer p id = [] then fill.lanes[id]?.map pop else fill.lanes[id]?

/-- A lane whose front frame has no fire loses it. -/
theorem Weighed.drop (h : Weighed p fill before done chosen m)
    (hs : fill.lanes[id]? = some s) (hnil : offer p id = []) :
    Weighed p fill before (done ++ [id]) chosen
      { m with lanes := m.lanes.insert id (pop s), droppedEmpty := true, short := true } where
  fires := h.fires
  rows := h.rows
  tokens := h.tokens
  within := h.within
  sub := h.sub.trans (sublist_append_left _ _)
  alive := h.alive
  whole := nofun
  short := fun _ => .inl ⟨id, mem_append_right _ (mem_singleton_self id), hnil⟩
  dropped := ⟨fun _ => .inr ⟨id, mem_append_right _ (mem_singleton_self id), hnil⟩, fun _ => rfl⟩
  lanes := by
    intro other
    by_cases ho : id = other
    · subst ho
      rw [getElem?_insert_self, if_pos ⟨mem_append_right _ (mem_singleton_self id), hnil⟩, hs, Option.map_some]
    · rw [getElem?_insert_ne ho, h.lanes]
      refine if_congr (and_congr_left fun _ => ?_) rfl rfl
      rw [mem_append, mem_singleton]
      exact ⟨.inl, fun hm => hm.resolve_right (Ne.symm ho)⟩

theorem dead_append (hne : offer p id ≠ []) (other : ProcessId) :
    other ∈ done ++ [id] ∧ offer p other = [] ↔ other ∈ done ∧ offer p other = [] := by
  rw [mem_append, mem_singleton]
  exact ⟨fun ⟨hm, ho⟩ => ⟨hm.resolve_right fun he => hne (he ▸ ho), ho⟩, fun ⟨hm, ho⟩ => ⟨.inl hm, ho⟩⟩

theorem flatMap_snoc (ids : List ProcessId) (id : ProcessId) :
    (ids ++ [id]).flatMap (offer p) = ids.flatMap (offer p) ++ offer p id := by
  rw [flatMap_append, flatMap_singleton]

theorem Weighed.take (h : Weighed p fill before done chosen m) (hne : offer p id ≠ [])
    (hfit : Within p (before ++ (chosen ++ [id]).flatMap (offer p))) :
    Weighed p fill before (done ++ [id]) (chosen ++ [id])
      { m with
        rows := (offer p id).foldl (fun rows fire => addTo rows fire.wave fire.rows) m.rows
        tokens := (offer p id).foldl (fun tokens fire => addTo tokens fire.wave fire.tokens) m.tokens
        fires := m.fires ++ [(id, offer p id)] } where
  fires := by
    dsimp only
    rw [h.fires, map_append, map_singleton]
  rows := by
    dsimp only
    rw [h.rows, tally_append, flatMap_snoc]
  tokens := by
    dsimp only
    rw [h.tokens, tally_append, flatMap_snoc]
  within := hfit
  sub := h.sub.append (.refl _)
  alive := by
    intro other ho
    rcases mem_append.mp ho with ho | ho
    · exact h.alive other ho
    · rw [mem_singleton.mp ho]
      exact hne
  whole := fun hshort => by rw [h.whole hshort]
  short := by
    intro hshort
    rcases h.short hshort with ⟨other, ho, he⟩ | hn
    · exact .inl ⟨other, mem_append_left _ ho, he⟩
    · refine .inr fun hw => hn (hw.sublist ((Sublist.refl _).append ?_))
      rw [flatMap_snoc]
      exact sublist_append_left _ _
  dropped := by rw [exists_congr (dead_append hne), ← h.dropped]
  lanes := fun other => by rw [h.lanes, if_congr (dead_append hne other) rfl rfl]

/-- A lane that does not fit keeps the unit from being placed. -/
theorem Weighed.leave (h : Weighed p fill before done chosen m) (hne : offer p id ≠ [])
    (hfit : ¬ Within p (before ++ (chosen ++ [id]).flatMap (offer p))) :
    Weighed p fill before (done ++ [id]) chosen { m with short := true } where
  fires := h.fires
  rows := h.rows
  tokens := h.tokens
  within := h.within
  sub := h.sub.trans (sublist_append_left _ _)
  alive := h.alive
  whole := nofun
  short := by
    -- all of the unit would hold what was chosen, and this lane
    intro _
    refine .inr fun hw => hfit (hw.sublist ((Sublist.refl _).append ?_))
    exact (h.sub.append (.refl _)).flatMap _
  dropped := by rw [exists_congr (dead_append hne), ← h.dropped]
  lanes := fun other => by rw [h.lanes, if_congr (dead_append hne other) rfl rfl]

theorem measureLane_front (hs : m.lanes[id]? = some s) (hsf : s.frames = front :: rest) : p.measureLane fill m id =
      if live p.k front = [] then
        { m with lanes := m.lanes.insert id (pop s), droppedEmpty := true, short := true }
      else if (live p.k front).all (p.fits fill m) then
        { m with
          rows := (live p.k front).foldl (fun rows fire => addTo rows fire.wave fire.rows) m.rows
          tokens := (live p.k front).foldl (fun tokens fire => addTo tokens fire.wave fire.tokens) m.tokens
          fires := m.fires ++ [(id, live p.k front)] }
      else { m with short := true } := by
  rw [measureLane, hs, pop, hsf]
  dsimp only
  rw [hsf]
  rfl

/-- A lane that waits for its turn still has its frames. -/
structure Waits (p : FramePolicy) (fill : Fill) (id : ProcessId) : Prop where
  same : fill.lanes[id]? = p.lanes[id]?
  queued : framesOf p id ≠ []

theorem Weighed.step (hp : Fed p) (hfr : fill.rows = tally p.k PlacedFire.rows before)
    (hft : fill.tokens = tally p.k PlacedFire.tokens before) (h : Weighed p fill before done chosen m)
    (hnot : id ∉ done) (hid : Waits p fill id) :
    ∃ chosen, Weighed p fill before (done ++ [id]) chosen (p.measureLane fill m id) := by
  cases hs : p.lanes[id]? with
  | none => exact absurd (by rw [framesOf, hs]; rfl) hid.queued
  | some s =>
    have hhere : m.lanes[id]? = some s := by rw [h.lanes, if_neg fun hc => hnot hc.1, hid.same, hs]
    have hframes : framesOf p id = s.frames := framesOf_some hs
    cases hsf : s.frames with
    | nil => exact absurd (hframes.trans hsf) hid.queued
    | cons front rest =>
      rw [measureLane_front hhere hsf, ← offer_cons (hframes.trans hsf)]
      by_cases hnil : offer p id = []
      · rw [if_pos hnil]
        exact ⟨chosen, h.drop (hid.same.trans hs) hnil⟩
      · rw [if_neg hnil]
        have hall := all_fits hfr hft h.rows h.tokens h.within (offer_apart hp id)
        rw [← flatMap_snoc] at hall
        by_cases hfit : (offer p id).all (p.fits fill m) = true
        · rw [if_pos hfit]
          exact ⟨chosen ++ [id], h.take hnil (hall.mp hfit)⟩
        · rw [if_neg hfit]
          exact ⟨chosen, h.leave hnil (mt hall.mpr hfit)⟩

theorem measureUnit_weighed (hp : Fed p) (hfr : fill.rows = tally p.k rows before)
    (hft : fill.tokens = tally p.k tokens before) (hw : Within p before)
    (hnd : unit.Nodup) (hunit : ∀ id ∈ unit, Waits p fill id) :
    ∃ chosen, Weighed p fill before unit chosen (p.measureUnit fill unit) := by
  unfold measureUnit
  induction unit using reverseRecOn with
  | nil =>
    refine ⟨[], ⟨rfl, rfl, rfl, ?_, .refl _, nofun, fun _ => rfl, nofun, ?_, fun id => ?_⟩⟩
    · rw [flatMap_nil, append_nil]
      exact hw
    · exact ⟨.inl, fun h => h.resolve_right fun ⟨_, h, _⟩ => nomatch h⟩
    · rw [foldl_nil, if_neg fun h => nomatch h.1]
  | append_singleton unit id ih =>
    obtain ⟨hnd, -, hdis⟩ := nodup_append.mp hnd
    obtain ⟨chosen, h⟩ := ih hnd fun id h => hunit id (mem_append_left _ h)
    rw [foldl_append, foldl_cons, foldl_nil]
    exact h.step hp hfr hft (fun hin => hdis id hin id (mem_singleton_self id) rfl)
      (hunit id (mem_append_right _ (mem_singleton_self id)))

/-! ## Placing a unit -/

theorem getElem?_pops {ids : List ProcessId} (hnd : ids.Nodup) :
    (ids.foldl (fun lanes id => lanes.modify id pop) lanes)[id]? = if id ∈ ids then lanes[id]?.map pop else lanes[id]? := by
  induction ids generalizing lanes with
  | nil => rw [foldl_nil, if_neg not_mem_nil]
  | cons first ids ih =>
    obtain ⟨hfirst, hnd⟩ := nodup_cons.mp hnd
    rw [foldl_cons, ih hnd]
    by_cases hid : first = id
    · subst hid
      rw [if_neg hfirst, if_pos mem_cons_self, TreeMap.getElem?_modify_self]
    · rw [getElem?_modify_ne hid]
      exact if_congr (by rw [mem_cons, or_iff_right (Ne.symm hid)]) rfl rfl

/-- What a loop over the fires lists in the waves. -/
def listed (k : Nat) (fires : List PlacedFire) : List (List Nat) :=
  fires.foldl (fun waves fire => waves.modify fire.wave (· ++ [fire.fireId])) (List.replicate k [])

theorem listed_eq (k : Nat) (fires : List PlacedFire) :
    listed k fires = (range k).map fun i => (labelled wave i fires).map fireId :=
  foldl_snoc fireId k fires

theorem foldl_placeLane_eq (ids : List ProcessId) (f : Fill) :
    (ids.map fun id => (id, offer p id)).foldl placeLane f =
      { lanes := ids.foldl (fun lanes id => lanes.modify id pop) f.lanes
        waves := (ids.flatMap (offer p)).foldl (fun waves fire => waves.modify fire.wave (· ++ [fire.fireId])) f.waves
        rows := (ids.flatMap (offer p)).foldl (fun rows fire => addTo rows fire.wave fire.rows) f.rows
        tokens := (ids.flatMap (offer p)).foldl (fun tokens fire => addTo tokens fire.wave fire.tokens) f.tokens
        members := f.members ++ ids
        droppedEmpty := f.droppedEmpty } := by
  induction ids generalizing f with
  | nil => rw [append_nil]; rfl
  | cons id ids ih =>
    rw [map_cons, foldl_cons, ih, flatMap_cons, foldl_append, foldl_append, foldl_append]
    congr 1
    exact append_assoc f.members [id] ids

/-- What a pass has done for the units so far: it took the front frames of some lanes. -/
structure Filled (p : FramePolicy) (units : List (List ProcessId)) (taken : List ProcessId) (fill : Fill) : Prop where
  members : fill.members = taken
  waves : fill.waves = listed p.k (taken.flatMap (offer p))
  rows : fill.rows = tally p.k PlacedFire.rows (taken.flatMap (offer p))
  tokens : fill.tokens = tally p.k PlacedFire.tokens (taken.flatMap (offer p))
  within : Within p (taken.flatMap (offer p))
  sub : taken.Sublist units.flatten
  alive : ∀ id ∈ taken, offer p id ≠ []
  dropped : fill.droppedEmpty = true ↔ ∃ id ∈ units.flatten, offer p id = []
  lanes : ∀ id, fill.lanes[id]? =
    if id ∈ taken ∨ id ∈ units.flatten ∧ offer p id = [] then p.lanes[id]?.map pop else p.lanes[id]?
  /-- A unit that comes first is left behind only for a dead frame or for a wave that it would overfill. -/
  stuck : taken = [] → ∀ unit ∈ units, unit ≠ [] → (∃ id ∈ unit, offer p id = []) ∨ ¬ Within p (unit.flatMap (offer p))

theorem Filled.step (hp : Fed p) (h : Filled p units taken fill)
    (hnd : (units ++ [unit]).flatten.Nodup) (hqueued : ∀ id ∈ unit, framesOf p id ≠ []) :
    ∃ taken, Filled p (units ++ [unit]) taken (p.placeUnit fill unit) := by
  have hflat : (units ++ [unit]).flatten = units.flatten ++ unit := by
    rw [flatten_append, flatten_singleton]
  rw [hflat, nodup_append] at hnd
  obtain ⟨hndone, hndunit, hdis⟩ := hnd
  have hwaits : ∀ id ∈ unit, Waits p fill id := by
    -- the lanes of the unit are in no earlier one
    intro id hid
    refine ⟨?_, hqueued id hid⟩
    rw [h.lanes, if_neg fun hc => ?_]
    rcases hc with hin | ⟨hin, -⟩
    · exact hdis id (h.sub.subset hin) id hid rfl
    · exact hdis id hin id hid rfl
  obtain ⟨chosen, hm⟩ := measureUnit_weighed hp h.rows h.tokens h.within hndunit hwaits
  have hdropped : (p.measureUnit fill unit).droppedEmpty = true ↔ ∃ id ∈ (units ++ [unit]).flatten, offer p id = [] := by
    rw [hm.dropped, h.dropped, hflat]
    simp only [mem_append, or_and_right, exists_or]
  -- a lane of the unit without a fire has lost its front frame
  have hlanes (id : ProcessId) : (p.measureUnit fill unit).lanes[id]? =
      if id ∈ taken ∨ id ∈ (units ++ [unit]).flatten ∧ offer p id = [] then p.lanes[id]?.map pop else p.lanes[id]? := by
    have hmem : id ∈ (units ++ [unit]).flatten ↔ id ∈ units.flatten ∨ id ∈ unit := by rw [hflat, mem_append]
    rw [hm.lanes]
    by_cases hid : id ∈ unit
    · rw [(hwaits id hid).same]
      refine if_congr ⟨fun ⟨_, ho⟩ => .inr ⟨hmem.mpr (.inr hid), ho⟩, fun hc => ?_⟩ rfl rfl
      rcases hc with hin | ⟨-, ho⟩
      · exact absurd rfl (hdis id (h.sub.subset hin) id hid)
      · exact ⟨hid, ho⟩
    · rw [if_neg fun hc => hid hc.1, h.lanes]
      exact if_congr (or_congr_right (and_congr_left fun _ => (hmem.trans (or_iff_left hid)).symm)) rfl rfl
  unfold placeUnit
  dsimp only
  cases hshort : (p.measureUnit fill unit).short with
  | true =>
    rw [if_pos rfl]
    refine ⟨taken, ⟨h.members, h.waves, h.rows, h.tokens, h.within, ?_, h.alive, hdropped, hlanes, fun hnone => ?_⟩⟩
    · rw [hflat]
      exact h.sub.trans (sublist_append_left _ _)
    · intro other hother hne
      rcases mem_append.mp hother with hother | hother
      · exact h.stuck hnone other hother hne
      · rw [mem_singleton.mp hother]
        rcases hm.short hshort with hdead | hover
        · exact .inl hdead
        · rw [hnone, flatMap_nil, nil_append] at hover
          exact .inr hover
  | false =>
    obtain rfl : chosen = unit := hm.whole hshort
    rw [if_neg Bool.false_ne_true, hm.fires, foldl_placeLane_eq]
    have hflatMap : (taken ++ chosen).flatMap (offer p) = taken.flatMap (offer p) ++ chosen.flatMap (offer p) :=
      flatMap_append
    refine ⟨taken ++ chosen, ⟨by rw [h.members], ?_, ?_, ?_, ?_, ?_, ?_, hdropped, fun id => ?_, fun hnone => ?_⟩⟩
    · dsimp only
      rw [h.waves, hflatMap]
      exact foldl_append.symm
    · dsimp only
      rw [h.rows, hflatMap, tally_append]
    · dsimp only
      rw [h.tokens, hflatMap, tally_append]
    · rw [hflatMap]
      exact hm.within
    · rw [hflat]
      exact h.sub.append (.refl _)
    · intro id hid
      rcases mem_append.mp hid with hid | hid
      · exact h.alive id hid
      · exact hm.alive id hid
    · dsimp only
      rw [getElem?_pops hndunit, hlanes]
      by_cases hid : id ∈ chosen
      · have hlive := hm.alive id hid
        have hold : ¬ (id ∈ taken ∨ id ∈ (units ++ [chosen]).flatten ∧ offer p id = []) := by
          intro hc
          rcases hc with hin | ⟨-, ho⟩
          · exact hdis id (h.sub.subset hin) id hid rfl
          · exact hlive ho
        rw [if_pos hid, if_neg hold, if_pos (.inl (mem_append_right _ hid))]
      · rw [if_neg hid]
        exact if_congr (or_congr_left (by rw [mem_append, or_iff_left hid])) rfl rfl
    · -- nothing is taken from a unit only if nothing is in it
      obtain ⟨htaken, hchosen⟩ := append_eq_nil_iff.mp hnone
      intro other hother hne
      rcases mem_append.mp hother with hother | hother
      · exact h.stuck htaken other hother hne
      · exact absurd ((mem_singleton.mp hother).trans hchosen) hne

/-! ## A pass -/

theorem fillWaves_filled (hp : Fed p) (hnd : order.Nodup) (hqueued : ∀ id ∈ order, framesOf p id ≠ []) :
    ∃ taken, Filled p (unitsOf p.lanes order [] order) taken (p.fillWaves order) := by
  have hunits := (@unitsOf_nodup p.lanes order hnd order [] (fun _ h => h) nofun).1
  have hin : ∀ unit ∈ unitsOf p.lanes order [] order, ∀ id ∈ unit, framesOf p id ≠ [] := fun unit hunit id hid =>
    hqueued id (mem_unitsOf (fun _ h => h) id (mem_flatten.mpr ⟨unit, hunit, hid⟩))
  unfold fillWaves
  generalize unitsOf p.lanes order [] order = units at hunits hin
  induction units using reverseRecOn with
  | nil =>
    refine ⟨[], ⟨rfl, rfl, rfl, rfl, within_nil, .refl _, nofun, ?_, fun id => ?_, fun _ => nofun⟩⟩
    · exact ⟨nofun, fun ⟨_, h, _⟩ => nomatch h⟩
    · rw [foldl_nil, if_neg fun hc => ?_]
      rcases hc with hc | hc
      · cases hc
      · cases hc.1
  | append_singleton units unit ih =>
    have hprefix : units.flatten.Nodup := by
      rw [flatten_append] at hunits
      exact hunits.of_append_left
    obtain ⟨taken, h⟩ := ih hprefix fun unit h => hin unit (mem_append_left _ h)
    rw [foldl_append, foldl_cons, foldl_nil]
    exact h.step hp hunits (hin unit (mem_append_right _ (mem_singleton_self unit)))

theorem mem_unit : ∀ {l placed : List ProcessId}, id ∈ l → id ∉ placed →
      (match lanes[id]?.bind LaneState.groupKey with
        | none => [id]
        | some key => order.filter fun id => decide (lanes[id]?.bind LaneState.groupKey = some key)) ∈
          unitsOf lanes order placed l := by
  intro l
  induction l with
  | nil => exact fun h => nomatch h
  | cons first l ih =>
    intro placed hid hplaced
    unfold unitsOf
    split
    · rename_i hfirst
      have hne : id ≠ first := fun he => hplaced (he ▸ hfirst)
      exact ih ((mem_cons.mp hid).resolve_left hne) hplaced
    · split
      · rename_i hkey
        by_cases he : id = first
        · subst he
          rw [hkey]
          exact mem_cons_self
        · refine mem_cons_of_mem _ (ih ((mem_cons.mp hid).resolve_left he) fun h => ?_)
          exact (mem_cons.mp h).elim he hplaced
      · rename_i key hkey
        dsimp only
        by_cases hsame : lanes[id]?.bind LaneState.groupKey = some key
        · rw [hsame]
          exact mem_cons_self
        · -- a lane of another group is not placed with this one
          have hne : id ≠ first := fun he => hsame (he ▸ hkey)
          refine mem_cons_of_mem _ (ih ((mem_cons.mp hid).resolve_left hne) fun h => ?_)
          rcases mem_append.mp h with h | h
          · rcases mem_cons.mp h with h | h
            · exact hne h
            · exact hsame (of_decide_eq_true (mem_filter.mp h).2)
          · exact hplaced h

theorem mem_ready_iff : (id, s) ∈ p.ready ↔
    p.lanes[id]? = some s ∧ s.frontComplete = true ∧ p.groupShort s = false := by
  rw [ready, mem_filter, TreeMap.mem_toList_iff_getElem?_eq_some, Bool.and_eq_true, Bool.not_eq_true']

theorem ready_front (h : s.frontComplete = true) :
    ∃ front rest, s.frames = front :: rest ∧ front.isComplete = true := by
  unfold LaneState.frontComplete at h
  cases hf : s.frames with
  | nil => rw [hf] at h; cases h
  | cons front rest =>
    rw [hf] at h
    exact ⟨front, rest, rfl, h⟩

/-- The order of a pass. -/
def passOrder (schedule : Option (ProcessId → Int)) (midBoundary : Bool) (p : FramePolicy) : List ProcessId :=
  sealOrder (ranked schedule (p.ready.filter fun e => !(midBoundary && e.2.firedThisBoundary)))
    (ranked schedule (p.ready.filter fun e => midBoundary && e.2.firedThisBoundary))

variable {schedule : Option (ProcessId → Int)} {midBoundary : Bool}

theorem passOrder_nodup : (passOrder schedule midBoundary p).Nodup :=
  (order_perm p schedule _).nodup_iff.mpr (ready_nodup p)

theorem mem_passOrder : id ∈ passOrder schedule midBoundary p ↔ ∃ s, (id, s) ∈ p.ready := by
  unfold passOrder
  rw [(order_perm p schedule _).mem_iff, mem_map]
  exact ⟨fun ⟨e, he, hid⟩ => ⟨e.2, hid ▸ he⟩, fun ⟨s, hs⟩ => ⟨_, hs, rfl⟩⟩

/-- A lane of the order has a front frame that came whole. -/
theorem passOrder_front (h : id ∈ passOrder schedule midBoundary p) :
    ∃ front rest, framesOf p id = front :: rest ∧ front.isComplete = true := by
  obtain ⟨s, hs⟩ := mem_passOrder.mp h
  obtain ⟨hs, hfront, -⟩ := mem_ready_iff.mp hs
  rw [framesOf_some hs]
  exact ready_front hfront

theorem pass_filled (hp : Fed p) : ∃ taken,
    Filled p (unitsOf p.lanes (passOrder schedule midBoundary p) [] (passOrder schedule midBoundary p)) taken
      (p.fillWaves (passOrder schedule midBoundary p)) := by
  refine fillWaves_filled hp passOrder_nodup fun id hid => ?_
  obtain ⟨front, rest, hf, -⟩ := passOrder_front hid
  rw [hf]
  exact cons_ne_nil _ _

theorem Filled.taken_nil (hp : Fed p) (h : Filled p units taken fill) :
    fill.waves.all isEmpty = true ↔ taken = [] := by
  rw [h.waves, listed_eq]
  constructor
  · intro hall
    cases taken with
    | nil => rfl
    | cons id taken =>
      -- the first fire of a lane that was taken is in its wave
      obtain ⟨fire, fires, hoffer⟩ := exists_cons_of_ne_nil (h.alive id mem_cons_self)
      have hi : fire.wave < p.k := (offer_apart hp id).below fire (hoffer ▸ mem_cons_self)
      have hwave := all_eq_true.mp hall _ (mem_map_of_mem (mem_range.mpr hi))
      rw [List.isEmpty_iff, map_eq_nil_iff, labelled, filter_eq_nil_iff] at hwave
      refine absurd (decide_eq_true rfl) (hwave fire ?_)
      rw [flatMap_cons, hoffer]
      exact mem_cons_self
  · intro hnil
    rw [hnil, all_map, all_eq_true]
    exact fun i _ => rfl

/-! ## Dropping frames without fires -/

/-- The first frames leave. -/
def pops (n : Nat) (s : LaneState) : LaneState := { s with frames := s.frames.drop n }

/-- Some frames at the front of each lane are gone, all of them rejected. -/
structure Dropped (p q : FramePolicy) (n : ProcessId → Nat) : Prop where
  rest : q = { p with lanes := q.lanes }
  lanes : ∀ id, q.lanes[id]? = p.lanes[id]?.map (pops (n id))
  dead : ∀ id, ∀ frame ∈ (framesOf p id).take (n id), Rejected frame

variable {n : ProcessId → Nat}

theorem Dropped.refl (p : FramePolicy) : Dropped p p fun _ => 0 where
  rest := rfl
  lanes := fun id => by
    exact (Option.map_id' ..).symm
  dead := fun id frame h => by
    rw [take_zero] at h
    cases h

theorem Dropped.frames (h : Dropped p q n) (id : ProcessId) : framesOf q id = (framesOf p id).drop (n id) := by
  rw [framesOf, framesOf, h.lanes]
  cases p.lanes[id]? with
  | none => exact drop_nil.symm
  | some s => rfl

theorem Dropped.fed (h : Dropped p q n) (hp : Fed p) : Fed q := by
  intro id frame hframe
  rw [h.frames] at hframe
  obtain ⟨hr, ht, hs, hd⟩ := hp id frame (mem_of_mem_drop hframe)
  rw [h.rest]
  exact ⟨hr, ht, hs, hd⟩

theorem Dropped.trans {r : FramePolicy} {m : ProcessId → Nat} (h : Dropped p q n) (h' : Dropped q r m) :
    Dropped p r fun id => n id + m id where
  rest := by
    have hr := h'.rest
    rw [h.rest] at hr
    exact hr
  lanes := fun id => by
    rw [h'.lanes, h.lanes, Option.map_map]
    refine congrArg (fun f => p.lanes[id]?.map f) (funext fun s => ?_)
    rw [pops, ← drop_drop]
    rfl
  dead := fun id frame hframe => by
    rw [take_add] at hframe
    rcases mem_append.mp hframe with hframe | hframe
    · exact h.dead id frame hframe
    · rw [← h.frames] at hframe
      exact h'.dead id frame hframe

theorem rejected_front (hf : framesOf p id = front :: rest)
    (hc : front.isComplete = true) (ho : offer p id = []) : Rejected front :=
  ⟨hc, live_nil.mp ((offer_cons hf).symm.trans ho)⟩

theorem Filled.dropped_of_nil (h : Filled p units [] fill)
    (hfront : ∀ id ∈ units.flatten, ∃ front rest, framesOf p id = front :: rest ∧ front.isComplete = true) :
    Dropped p { p with lanes := fill.lanes } fun id => if id ∈ units.flatten ∧ offer p id = [] then 1 else 0 where
  rest := rfl
  lanes := fun id => by
    dsimp only
    rw [h.lanes]
    by_cases hdead : id ∈ units.flatten ∧ offer p id = []
    · rw [if_pos (.inr hdead), if_pos hdead]
      refine congrArg (fun f => p.lanes[id]?.map f) (funext fun s => ?_)
      rw [pop, pops, drop_one]
    · rw [if_neg fun hc => hc.elim (fun h => nomatch h) hdead, if_neg hdead]
      exact (Option.map_id' ..).symm
  dead := fun id frame hframe => by
    by_cases hdead : id ∈ units.flatten ∧ offer p id = []
    · obtain ⟨front, rest, hf, hc⟩ := hfront id hdead.1
      rw [if_pos hdead, hf, take_succ_cons, take_zero, mem_singleton] at hframe
      rw [hframe]
      exact rejected_front hf hc hdead.2
    · rw [if_neg hdead, take_zero] at hframe
      cases hframe

/-! ## The loop -/

/-- How a seal ends once no pass is repeated. -/
inductive Ends (schedule : Option (ProcessId → Int)) (midBoundary : Bool) (q : FramePolicy) : Bool → FramePolicy → Prop
  | still (h : midBoundary = true) : Ends schedule midBoundary q false q
  | none (h : (q.fillWaves (passOrder schedule midBoundary q)).waves.all List.isEmpty = true)
      (hd : (q.fillWaves (passOrder schedule midBoundary q)).droppedEmpty = false) :
      Ends schedule midBoundary q false
        { q with lanes := (q.fillWaves (passOrder schedule midBoundary q)).lanes }.dropIdle
  | sealed (h : ¬ (q.fillWaves (passOrder schedule midBoundary q)).waves.all List.isEmpty = true) :
      Ends schedule midBoundary q true (q.sealFrame (q.fillWaves (passOrder schedule midBoundary q)) midBoundary)

theorem sealLoop_succ (rounds : Nat) : sealLoop schedule midBoundary (rounds + 1) p =
    if midBoundary && (p.ready.filter fun e => !(midBoundary && e.2.firedThisBoundary)).isEmpty then some (false, p)
    else if (p.fillWaves (passOrder schedule midBoundary p)).waves.all isEmpty then
      if (p.fillWaves (passOrder schedule midBoundary p)).droppedEmpty then
        sealLoop schedule midBoundary rounds { p with lanes := (p.fillWaves (passOrder schedule midBoundary p)).lanes }
      else some (false, { p with lanes := (p.fillWaves (passOrder schedule midBoundary p)).lanes }.dropIdle)
    else some (true, p.sealFrame (p.fillWaves (passOrder schedule midBoundary p)) midBoundary) := rfl

/-- A pass that is repeated has only dropped frames. -/
theorem pass_dropped (hp : Fed p)
    (hnone : (p.fillWaves (passOrder schedule midBoundary p)).waves.all isEmpty = true) :
    ∃ n, Dropped p { p with lanes := (p.fillWaves (passOrder schedule midBoundary p)).lanes } n ∧
      ((p.fillWaves (passOrder schedule midBoundary p)).droppedEmpty = true → ∃ id, framesOf p id ≠ [] ∧ n id = 1) := by
  obtain ⟨taken, h⟩ := pass_filled hp
  obtain rfl := (h.taken_nil hp).mp hnone
  have hin : ∀ id ∈ (unitsOf p.lanes (passOrder schedule midBoundary p) [] (passOrder schedule midBoundary p)).flatten,
      id ∈ passOrder schedule midBoundary p := mem_unitsOf fun _ h => h
  refine ⟨_, h.dropped_of_nil fun id hid => passOrder_front (hin id hid), fun hdropped => ?_⟩
  obtain ⟨id, hid, ho⟩ := h.dropped.mp hdropped
  obtain ⟨front, rest, hf, -⟩ := passOrder_front (hin id hid)
  exact ⟨id, by rw [hf]; exact cons_ne_nil _ _, if_pos ⟨hid, ho⟩⟩

theorem sealLoop_ends : ∀ {rounds : Nat} {p : FramePolicy} {b : Bool} {p' : FramePolicy}, Fed p →
    sealLoop schedule midBoundary rounds p = some (b, p') → ∃ q n, Dropped p q n ∧ Ends schedule midBoundary q b p' := by
  intro rounds
  induction rounds with
  | zero => exact fun _ h => nomatch h
  | succ rounds ih =>
    intro p b p' hp h
    rw [sealLoop_succ] at h
    split at h
    · rename_i hstill
      cases h
      exact ⟨p, _, .refl p, .still (Bool.and_eq_true_iff.mp hstill).1⟩
    · split at h
      · rename_i hnone
        obtain ⟨n, hn, -⟩ := pass_dropped hp hnone
        split at h
        · obtain ⟨q, m, hq, hends⟩ := ih (hn.fed hp) h
          exact ⟨q, _, hn.trans hq, hends⟩
        · rename_i hd
          cases h
          exact ⟨p, _, .refl p, .none hnone (Bool.not_eq_true _ ▸ hd)⟩
      · rename_i hsome
        cases h
        exact ⟨p, _, .refl p, .sealed hsome⟩

/-- The frames of the lanes with these keys. -/
def queuedFrames (keys : List ProcessId) (p : FramePolicy) : Nat := (keys.map fun id => (framesOf p id).length).sum

theorem sealLoop_isSome {keys : List ProcessId} : ∀ {rounds : Nat} {p : FramePolicy}, Fed p →
    (∀ id, framesOf p id ≠ [] → id ∈ keys) → queuedFrames keys p < rounds →
    (sealLoop schedule midBoundary rounds p).isSome = true := by
  intro rounds
  induction rounds with
  | zero => exact fun _ _ h => absurd h (Nat.not_lt_zero _)
  | succ rounds ih =>
    intro p hp hkeys hcount
    rw [sealLoop_succ]
    split
    · rfl
    · split
      · rename_i hnone
        split
        · rename_i hd
          obtain ⟨n, hn, hone⟩ := pass_dropped hp hnone
          obtain ⟨id, hqueued, hid⟩ := hone hd
          have hle : ∀ id ∈ keys, (framesOf { p with lanes := (p.fillWaves (passOrder schedule midBoundary p)).lanes } id).length
              ≤ (framesOf p id).length := by
            intro id _
            rw [hn.frames, length_drop]
            exact Nat.sub_le ..
          refine ih (hn.fed hp) (fun id h => hkeys id fun hnil => h ?_) ?_
          · rw [hn.frames, hnil, drop_nil]
          · refine Nat.lt_of_lt_of_le (sum_lt_sum _ _ hle ⟨id, hkeys id hqueued, ?_⟩) (Nat.le_of_lt_succ hcount)
            rw [hn.frames, hid, length_drop]
            exact Nat.sub_lt (length_pos_iff.mpr hqueued) Nat.one_pos
        · rfl
      · rfl

theorem sealOnce_isSome (hp : Fed p) (schedule : Option (ProcessId → Int)) :
    ∃ n, ∀ rounds, n ≤ rounds → (p.sealOnce schedule rounds).isSome = true := by
  refine ⟨queuedFrames p.lanes.keys p + 1, fun rounds hrounds => ?_⟩
  unfold sealOnce
  split
  · refine sealLoop_isSome hp (fun id h => ?_) hrounds
    rw [TreeMap.mem_keys]
    by_contra hmem
    exact h (by rw [framesOf, TreeMap.getElem?_eq_none hmem]; rfl)
  · rfl

end Pie.Proof.Sealing
