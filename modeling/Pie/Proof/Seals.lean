import Pie.Proof.Sealing

/-!
# What a seal does

A seal comes to an end, for a pass is repeated only when a frame without fires has
gone. The frame that it seals holds whole front frames within the limits of the
waves. When the boundary is closed, a lane with a fire keeps a seal from ending
without a frame, unless it belongs to a group that the waves do not hold.
-/

namespace Pie.Proof.Seals

open List Std Pie.Scheduler Lib.Maps Lib.Tallies FramePolicy Passes Parks Sealing LaneState

variable {p q : FramePolicy} {fill : Fill} {id : ProcessId} {n : ProcessId → Nat}
  {schedule : Option (ProcessId → Int)} {midBoundary : Bool}

/-! ## Frames that share the waves -/

/-- The fires of the frames are within the limits in every wave; a fire has one row at least. -/
def Fits (p : FramePolicy) (fronts : List PendingFrame) : Prop :=
  ∀ i < p.k, ((fronts.flatMap (firesAt i)).map fun fire => max fire.rows 1).sum ≤ p.maxWaveRows ∧
    ((fronts.flatMap (firesAt i)).map ArrivedFire.tokens).sum ≤ p.maxWaveTokens

variable {fronts : List PendingFrame} {s : LaneState}

theorem labelled_fronts (h : ∀ front ∈ fronts, Suits p front) (i : Nat) :
    labelled PlacedFire.wave i (fronts.flatMap (live p.k)) = (fronts.flatMap (firesAt i)).map placed := by
  rw [labelled, filter_flatMap, map_flatMap]
  exact flatMap_congr fun front hfront => labelled_live (h front hfront) i

theorem within_fronts (h : ∀ front ∈ fronts, Suits p front) :
    Within p (fronts.flatMap (live p.k)) ↔ Fits p fronts := by
  refine forall₂_congr fun i _ => ?_
  rw [total, total, labelled_fronts h, map_map, map_map]
  rfl

theorem Within.perm {xs ys : List PlacedFire} (h : Within p xs) (hp : xs.Perm ys) : Within p ys := by
  intro i hi
  have htotal (f : PlacedFire → Nat) : total PlacedFire.wave f i ys = total PlacedFire.wave f i xs :=
    ((hp.symm.filter _).map f).sum_eq
  rw [htotal, htotal]
  exact h i hi

theorem suits_within (hrows : 0 < p.maxWaveRows) (hp : Fed p) (id : ProcessId) : Within p (offer p id) := by
  have hsmall : ∀ fire ∈ offer p id, fire.rows ≤ p.maxWaveRows ∧ fire.tokens ≤ p.maxWaveTokens := by
    intro fire hfire
    cases hf : framesOf p id with
    | nil =>
      rw [offer, hf] at hfire
      cases hfire
    | cons front rest =>
      have hsuits : Suits p front := hp id front (hf ▸ mem_cons_self)
      rw [offer_cons hf, live_eq hsuits] at hfire
      obtain ⟨arrived, ha, rfl⟩ := mem_map.mp hfire
      have ha := (mem_filter.mp ha).1
      exact ⟨max_le (hsuits.rows arrived ha) hrows, hsuits.tokens arrived ha⟩
  intro i _
  by_cases hin : ∃ fire ∈ offer p id, fire.wave = i
  · obtain ⟨fire, hfire, rfl⟩ := hin
    rw [total_of_nodup (offer_apart hp id).nodup hfire, total_of_nodup (offer_apart hp id).nodup hfire]
    exact hsmall fire hfire
  · rw [total_of_not_mem fun fire hfire he => hin ⟨fire, hfire, he⟩,
      total_of_not_mem fun fire hfire he => hin ⟨fire, hfire, he⟩]
    exact ⟨Nat.zero_le _, Nat.zero_le _⟩

/-! ## The frame that is sealed -/

/-- What a seal took: a front frame of each member, behind frames that were rejected. -/
structure Took (p p' : FramePolicy) (frame : SealedFrame) (front : ProcessId → PendingFrame) : Prop where
  sealed : p'.sealed = p.sealed ++ [frame]
  members : frame.members.Nodup
  busy : ∃ wave ∈ frame.waves, wave ≠ []
  waves : frame.waves = (List.range p.k).map fun i =>
    ((frame.members.map front).flatMap (firesAt i)).filterMap ArrivedFire.fireId
  fits : Fits p (frame.members.map front)
  whole : ∀ id ∈ frame.members, (front id).isComplete = true ∧
    ∃ gone, framesOf p id = gone ++ front id :: framesOf p' id ∧ ∀ frame ∈ gone, Rejected frame
  others : ∀ id, id ∉ frame.members →
    ∃ gone, framesOf p id = gone ++ framesOf p' id ∧ ∀ frame ∈ gone, Rejected frame

theorem dropIdle_frames (p : FramePolicy) (id : ProcessId) : framesOf p.dropIdle id = framesOf p id := by
  unfold framesOf dropIdle
  dsimp only
  rw [getElem?_retain]
  cases p.lanes[id]? with
  | none => rfl
  | some s =>
    rw [Option.filter_some]
    split
    · rfl
    · rename_i hidle
      rw [Bool.or_eq_true, not_or, Bool.not_eq_true', Bool.not_eq_false] at hidle
      exact (List.isEmpty_iff.mp hidle.2).symm

/-- A change of the lanes that leaves their frames alone. -/
theorem framesOf_modify (lanes : TreeMap ProcessId LaneState) (member : ProcessId) {f : LaneState → LaneState}
    (hf : ∀ s, (f s).frames = s.frames) :
    ((lanes.modify member f)[id]?.map frames) = lanes[id]?.map frames := by
  by_cases hid : member = id
  · subst hid
    rw [TreeMap.getElem?_modify_self, Option.map_map]
    exact congrArg (fun g => lanes[member]?.map g) (funext hf)
  · rw [getElem?_modify_ne hid]

theorem sealFrame_frames : framesOf (p.sealFrame fill midBoundary) id = framesOf { p with lanes := fill.lanes } id := by
  have hmark : ∀ {members : List ProcessId} {lanes : TreeMap ProcessId LaneState},
      (members.foldl (fun lanes member => lanes.modify member fun lane => { lane with firedThisBoundary := true })
        lanes)[id]?.map frames = lanes[id]?.map frames := by
    intro members
    induction members with
    | nil => exact rfl
    | cons member members ih => exact ih.trans (framesOf_modify _ member fun _ => rfl)
  unfold sealFrame
  rw [dropIdle_frames]
  refine (congrArg (Option.getD · []) hmark).trans ?_
  cases midBoundary with
  | true => rfl
  | false =>
    refine congrArg (Option.getD · []) ?_
    change ((fill.lanes.map fun _ lane => { lane with firedThisBoundary := false })[id]?.map frames) = _
    rw [TreeMap.getElem?_map, Option.map_map]
    rfl

theorem sealFrame_sealed : (p.sealFrame fill midBoundary).sealed = p.sealed ++ [⟨fill.waves, fill.members⟩] := by
  cases midBoundary with
  | true => rfl
  | false => rfl

/-- What was dropped before, and perhaps a front frame more. -/
theorem Dropped.gone (h : Dropped p q n) (id : ProcessId) :
    ∃ gone, framesOf p id = gone ++ framesOf q id ∧ ∀ frame ∈ gone, Rejected frame :=
  ⟨_, by rw [h.frames]; exact (take_append_drop ..).symm, h.dead id⟩

/-- The front frame of a lane that has one. -/
def frontOf (q : FramePolicy) (id : ProcessId) : PendingFrame := (framesOf q id).headD ⟨0, 0, false, false, []⟩

theorem frames_cons {front : PendingFrame} {rest : List PendingFrame} (hf : framesOf q id = front :: rest) :
    framesOf q id = frontOf q id :: (framesOf q id).tail := by
  rw [frontOf, hf]
  rfl

/-- The waves of a pass are those of the front frames it took. -/
theorem offers_fronts {taken : List ProcessId} (h : ∀ id ∈ taken, framesOf q id = frontOf q id :: (framesOf q id).tail) :
    taken.flatMap (offer q) = (taken.map (frontOf q)).flatMap (live q.k) := by
  rw [flatMap_map]
  exact flatMap_congr fun id hid => offer_cons (h id hid)

theorem placed_ids (fires : List ArrivedFire) (h : ∀ fire ∈ fires, fire.fireId.isSome = true) :
    (fires.map placed).map PlacedFire.fireId = fires.filterMap ArrivedFire.fireId := by
  rw [map_map, ← filterMap_eq_map]
  refine filterMap_congr fun fire hfire => ?_
  obtain ⟨fireId, hid⟩ := Option.isSome_iff_exists.mp (h fire hfire)
  rw [hid, Function.comp_apply, Function.comp_apply, placed, hid]
  rfl

theorem listed_fronts (h : ∀ front ∈ fronts, Suits p front) : listed p.k (fronts.flatMap (live p.k)) =
      (range p.k).map fun i => (fronts.flatMap (firesAt i)).filterMap ArrivedFire.fireId := by
  rw [listed_eq]
  refine map_congr_left fun i _ => ?_
  rw [labelled_fronts h, placed_ids]
  intro fire hfire
  obtain ⟨front, -, hfire⟩ := mem_flatMap.mp hfire
  exact (Bool.and_eq_true_iff.mp (mem_filter.mp hfire).2).2

theorem sealed_took (hp : Fed p) (hn : Dropped p q n)
    (hsome : ¬ (q.fillWaves (passOrder schedule midBoundary q)).waves.all isEmpty = true) :
    ∃ frame front, Took p (q.sealFrame (q.fillWaves (passOrder schedule midBoundary q)) midBoundary) frame front := by
  have hq := hn.fed hp
  obtain ⟨taken, h⟩ := @pass_filled q schedule midBoundary hq
  have hin : ∀ id ∈ (unitsOf q.lanes (passOrder schedule midBoundary q) [] (passOrder schedule midBoundary q)).flatten,
      ∃ front rest, framesOf q id = front :: rest ∧ front.isComplete = true := fun id hid =>
    passOrder_front (mem_unitsOf (fun _ h => h) id hid)
  have hnd := (@unitsOf_nodup q.lanes _ (passOrder_nodup (p := q)) (passOrder schedule midBoundary q) [] (fun _ h => h) nofun).1
  generalize q.fillWaves (passOrder schedule midBoundary q) = fill at hsome h
  generalize (unitsOf q.lanes (passOrder schedule midBoundary q) [] (passOrder schedule midBoundary q)) = units at h hin hnd
  -- what is left of the frames of a lane
  have hframes (id : ProcessId) : framesOf (q.sealFrame fill midBoundary) id =
      if id ∈ taken ∨ id ∈ units.flatten ∧ offer q id = [] then (framesOf q id).tail else framesOf q id := by
    rw [sealFrame_frames, framesOf]
    dsimp only
    rw [h.lanes]
    split
    · rw [framesOf, Option.map_map]
      cases q.lanes[id]? with
      | none => rfl
      | some s => rfl
    · rfl
  have hfront : ∀ id ∈ taken, (frontOf q id).isComplete = true ∧ framesOf q id = frontOf q id :: (framesOf q id).tail := by
    intro id hid
    obtain ⟨front, rest, hf, hc⟩ := hin id (h.sub.subset hid)
    refine ⟨?_, frames_cons hf⟩
    rw [frontOf, hf]
    exact hc
  have hsuits : ∀ frame ∈ taken.map (frontOf q), Suits q frame := by
    intro frame hframe
    obtain ⟨id, hid, rfl⟩ := mem_map.mp hframe
    exact hq id _ ((hfront id hid).2 ▸ mem_cons_self)
  have hoffers := offers_fronts fun id hid => (hfront id hid).2
  have hfits : Fits q (taken.map (frontOf q)) := (within_fronts hsuits).mp (hoffers ▸ h.within)
  have hlimits : q.k = p.k ∧ q.maxWaveRows = p.maxWaveRows ∧ q.maxWaveTokens = p.maxWaveTokens ∧ q.sealed = p.sealed := by
    rw [hn.rest]
    exact ⟨rfl, rfl, rfl, rfl⟩
  obtain ⟨hk, hrows, htokens, hsealed⟩ := hlimits
  refine ⟨⟨fill.waves, fill.members⟩, frontOf q, ?_, ?_, ?_, ?_, ?_, fun id hid => ?_, fun id hid => ?_⟩
  · rw [sealFrame_sealed, hsealed]
  · exact h.members ▸ hnd.sublist h.sub
  · obtain ⟨wave, hwave, hne⟩ := all_eq_false.mp (Bool.not_eq_true _ ▸ hsome)
    exact ⟨wave, hwave, fun hnil => hne (List.isEmpty_iff.mpr hnil)⟩
  · dsimp only
    rw [h.waves, hoffers, listed_fronts hsuits, h.members, hk]
  · dsimp only
    rw [h.members]
    intro i hi
    rw [← hrows, ← htokens]
    exact hfits i (hk ▸ hi)
  · dsimp only at hid
    rw [h.members] at hid
    obtain ⟨hcomplete, hf⟩ := hfront id hid
    obtain ⟨gone, hgone, hdead⟩ := Dropped.gone hn id
    refine ⟨hcomplete, gone, ?_, hdead⟩
    rw [hgone, hframes, if_pos (.inl hid), ← hf]
  · dsimp only at hid
    rw [h.members] at hid
    obtain ⟨gone, hgone, hdead⟩ := Dropped.gone hn id
    by_cases hlast : id ∈ units.flatten ∧ offer q id = []
    · -- a frame without fires went in this pass
      obtain ⟨front, rest, hf, hc⟩ := hin id hlast.1
      refine ⟨gone ++ [front], ?_, fun frame hframe => ?_⟩
      · rw [hgone, hframes, if_pos (.inr hlast), hf, append_assoc]
        rfl
      · rcases mem_append.mp hframe with hframe | hframe
        · exact hdead frame hframe
        · rw [mem_singleton.mp hframe]
          exact rejected_front hf hc hlast.2
    · refine ⟨gone, ?_, hdead⟩
      rw [hgone, hframes, if_neg fun hc => hc.elim hid hlast]

/-! ## A lane with a fire -/

/-- The front frame has a fire that was not rejected. -/
def HasFire (s : LaneState) : Prop := ∃ front ∈ s.frames.head?, ∃ fire ∈ front.fires, fire.fireId.isSome = true

/-- The lanes of a group that are ready. -/
def groupOf (p : FramePolicy) (key : ProcessId × Nat) : List (ProcessId × LaneState) :=
  p.ready.filter fun e => decide (e.2.groupKey = some key)

/-- The waves hold the group of the lane, if it has one: each of its ready lanes has a fire, and together they fit. -/
def GroupFits (p : FramePolicy) (s : LaneState) : Prop :=
  ∀ key, s.groupKey = some key →
    (∀ e ∈ groupOf p key, HasFire e.2) ∧ Fits p ((groupOf p key).filterMap fun e => e.2.frames.head?)

theorem HasFire.not_rejected (h : HasFire s) : ∀ front ∈ s.frames.head?, ¬ Rejected front := by
  obtain ⟨front, hfront, fire, hfire, hlive⟩ := h
  intro front' hfront' hrejected
  rw [Option.mem_def.mp hfront'] at hfront
  rw [Option.some.inj (Option.mem_def.mp hfront)] at hrejected
  rw [hrejected.2 fire hfire] at hlive
  cases hlive

/-- A lane whose front frame stays is as it was. -/
theorem Dropped.same (h : Dropped p q n) (hs : p.lanes[id]? = some s)
    (hfront : ∀ front ∈ s.frames.head?, ¬ Rejected front) : q.lanes[id]? = some s := by
  rw [h.lanes, hs, Option.map_some, pops]
  cases hf : s.frames with
  | nil =>
    rw [drop_nil, ← hf]
  | cons front rest =>
    cases hn : n id with
    | zero => rw [drop_zero, ← hf]
    | succ m =>
      have hdead := h.dead id front (by rw [framesOf_some hs, hf, hn]; exact mem_cons_self)
      rw [hf] at hfront
      exact absurd hdead (hfront front rfl)

theorem not_rejected_of_incomplete (h : s.frontComplete = false) : ∀ front ∈ s.frames.head?, ¬ Rejected front := by
  intro front hfront hrejected
  unfold frontComplete at h
  rw [Option.mem_def.mp hfront, Option.any_some, hrejected.1] at h
  cases h

section

variable {s : LaneState} {key : ProcessId × Nat}

theorem groupShort_eq_false (hkey : s.groupKey = some key) : p.groupShort s = false ↔
    p.cohorts.contains key = false ∧ ∀ (id : ProcessId) (t : LaneState), p.lanes[id]? = some t → t.groupKey = some key → t.owesItsGroup = false := by
  rw [groupShort, hkey]
  dsimp only
  rw [Bool.or_eq_false_iff, Bool.eq_false_iff (b := p.lanes.toList.any _), Ne, any_toList]
  refine and_congr_right fun _ => ⟨fun h id t ht hk => ?_, fun h => ?_⟩
  · by_contra howes
    refine h ⟨id, t, ht, ?_⟩
    rw [hk, beq_self_eq_true, Bool.true_and]
    exact Bool.not_eq_false _ ▸ howes
  · intro ⟨id, t, ht, hk⟩
    rw [Bool.and_eq_true, beq_iff_eq] at hk
    rw [h id t ht hk.1] at hk
    exact Bool.false_ne_true hk.2

theorem mem_groupOf {t : LaneState} (hshort : p.groupShort s = false) (hkey : s.groupKey = some key) :
    (id, t) ∈ groupOf p key ↔ p.lanes[id]? = some t ∧ t.frontComplete = true ∧ t.groupKey = some key := by
  rw [groupOf, mem_filter, decide_eq_true_iff, mem_ready_iff]
  refine ⟨fun ⟨⟨ht, hc, _⟩, hk⟩ => ⟨ht, hc, hk⟩, fun ⟨ht, hc, hk⟩ => ⟨⟨ht, hc, ?_⟩, hk⟩⟩
  rw [groupShort_eq_false hk]
  exact (groupShort_eq_false hkey).mp hshort

/-- Dropping frames leaves a group alone whose ready lanes have a fire each. -/
theorem Dropped.group (h : Dropped p q n) (hshort : p.groupShort s = false) (hkey : s.groupKey = some key)
    (hfires : ∀ e ∈ groupOf p key, HasFire e.2) (id : ProcessId) (t : LaneState) (hk : t.groupKey = some key) :
    q.lanes[id]? = some t ↔ p.lanes[id]? = some t := by
  have hforth : ∀ {t : LaneState}, t.groupKey = some key → p.lanes[id]? = some t → q.lanes[id]? = some t := by
    intro t hk ht
    cases hc : t.frontComplete with
    | true => exact Dropped.same h ht (hfires _ ((mem_groupOf hshort hkey).mpr ⟨ht, hc, hk⟩)).not_rejected
    | false => exact Dropped.same h ht (not_rejected_of_incomplete hc)
  refine ⟨fun ht => ?_, hforth hk⟩
  have hmap := ht
  rw [h.lanes, Option.map_eq_some_iff] at hmap
  obtain ⟨t', ht', hpops⟩ := hmap
  have hk' : t'.groupKey = some key := by rw [← hk, ← hpops]; rfl
  rw [hforth hk' ht'] at ht
  rw [← Option.some.inj ht]
  exact ht'

theorem Dropped.short (h : Dropped p q n) (hshort : p.groupShort s = false) (hkey : s.groupKey = some key)
    (hfires : ∀ e ∈ groupOf p key, HasFire e.2) : q.groupShort s = false := by
  obtain ⟨hcohort, howes⟩ := (groupShort_eq_false hkey).mp hshort
  rw [groupShort_eq_false hkey]
  refine ⟨?_, fun id t ht hk => howes id t ((Dropped.group h hshort hkey hfires id t hk).mp ht) hk⟩
  rw [h.rest]
  exact hcohort

theorem unit_groupOf (key : ProcessId × Nat) :
    ((passOrder schedule midBoundary p).filter fun id => decide (p.lanes[id]?.bind groupKey = some key)).Perm
      ((groupOf p key).map Prod.fst) := by
  refine (perm_ext_iff_of_nodup (passOrder_nodup.filter _) ?_).mpr fun id => ?_
  · exact (ready_nodup p).sublist (filter_sublist.map _)
  · rw [mem_filter, decide_eq_true_iff, mem_passOrder, mem_map]
    constructor
    · intro ⟨⟨t, ht⟩, hk⟩
      rw [(mem_ready_iff.mp ht).1, Option.bind_some] at hk
      exact ⟨(id, t), mem_filter.mpr ⟨ht, decide_eq_true hk⟩, rfl⟩
    · intro ⟨e, he, hid⟩
      subst hid
      obtain ⟨hready, hk⟩ := mem_filter.mp he
      exact ⟨⟨e.2, hready⟩, by rw [(mem_ready_iff.mp hready).1]; exact of_decide_eq_true hk⟩

end

theorem fronts_offer {lanes : List (ProcessId × LaneState)} (h : ∀ e ∈ lanes, q.lanes[e.1]? = some e.2) :
    (lanes.map Prod.fst).flatMap (offer q) = (lanes.filterMap fun e => e.2.frames.head?).flatMap (live q.k) := by
  induction lanes with
  | nil => rfl
  | cons e lanes ih =>
    have he : framesOf q e.1 = e.2.frames := framesOf_some (h e mem_cons_self)
    rw [map_cons, flatMap_cons, ih fun e he => h e (mem_cons_of_mem _ he), filterMap_cons, offer, he]
    cases e.2.frames.head? with
    | none => rfl
    | some front =>
      change _ = (front :: _).flatMap (live q.k)
      rw [flatMap_cons]
      rfl

/-- The group of a lane fits after the frames were dropped, as it did before. -/
theorem group_within (hp : Fed p) (hn : Dropped p q n) {key : ProcessId × Nat}
    (hshort : p.groupShort s = false) (hkey : s.groupKey = some key) (hgroup : GroupFits p s) :
    Within q (((passOrder schedule midBoundary q).filter fun id =>
      decide (q.lanes[id]?.bind groupKey = some key)).flatMap (offer q)) := by
  obtain ⟨hfires, hfits⟩ := hgroup key hkey
  have hshortq : q.groupShort s = false := Dropped.short hn hshort hkey hfires
  have hsame : ∀ e ∈ groupOf p key, q.lanes[e.1]? = some e.2 := by
    intro e he
    obtain ⟨ht, -, hk⟩ := (mem_groupOf hshort hkey).mp he
    exact (Dropped.group hn hshort hkey hfires e.1 e.2 hk).mpr ht
  have hperm : (groupOf p key).Perm (groupOf q key) := by
    refine (perm_ext_iff_of_nodup ?_ ?_).mpr fun e => ?_
    · exact ((ready_nodup p).of_map).filter _
    · exact ((ready_nodup q).of_map).filter _
    · obtain ⟨id, t⟩ := e
      rw [mem_groupOf hshort hkey, mem_groupOf hshortq hkey]
      refine ⟨fun ⟨ht, hc, hk⟩ => ⟨?_, hc, hk⟩, fun ⟨ht, hc, hk⟩ => ⟨?_, hc, hk⟩⟩
      · exact (Dropped.group hn hshort hkey hfires id t hk).mpr ht
      · exact (Dropped.group hn hshort hkey hfires id t hk).mp ht
  refine Within.perm ?_ (((unit_groupOf key).trans (hperm.symm.map _)).symm.flatMap_right _)
  rw [fronts_offer hsame, within_fronts]
  · have hlimits : q.k = p.k ∧ q.maxWaveRows = p.maxWaveRows ∧ q.maxWaveTokens = p.maxWaveTokens := by
      rw [hn.rest]
      exact ⟨rfl, rfl, rfl⟩
    obtain ⟨hk, hrows, htokens⟩ := hlimits
    intro i hi
    rw [hrows, htokens]
    exact hfits i (hk ▸ hi)
  · intro front hfront
    obtain ⟨e, he, hhead⟩ := mem_filterMap.mp hfront
    refine hn.fed hp e.1 front ?_
    rw [framesOf_some (hsame e he)]
    exact mem_of_mem_head? hhead

theorem sealed_of_fire (hp : Fed p) (hrows : 0 < p.maxWaveRows) (hs : p.lanes[id]? = some s)
    (hc : s.frontComplete = true) (hshort : p.groupShort s = false) (hfire : HasFire s) (hgroup : GroupFits p s)
    (hn : Dropped p q n) {b : Bool} {p' : FramePolicy} (hends : Ends schedule false q b p') : b = true := by
  cases hends with
  | still h => cases h
  | sealed h => rfl
  | none hnone hd =>
    exfalso
    have hq := hn.fed hp
    have hsq : q.lanes[id]? = some s := Dropped.same hn hs hfire.not_rejected
    obtain ⟨taken, h⟩ := @pass_filled q schedule false hq
    obtain rfl := (h.taken_nil hq).mp hnone
    have hlive : ∀ unit ∈ unitsOf q.lanes (passOrder schedule false q) [] (passOrder schedule false q),
        ¬ ∃ id ∈ unit, offer q id = [] := by
      intro unit hunit ⟨id, hid, ho⟩
      rw [h.dropped.mpr ⟨id, mem_flatten.mpr ⟨unit, hunit, hid⟩, ho⟩] at hd
      cases hd
    have hshortq : q.groupShort s = false := by
      cases hkey : s.groupKey with
      | none => rw [groupShort, hkey]
      | some key => exact Dropped.short hn hshort hkey (hgroup key hkey).1
    have hin : id ∈ passOrder schedule false q := mem_passOrder.mpr ⟨s, mem_ready_iff.mpr ⟨hsq, hc, hshortq⟩⟩
    have hunit := @mem_unit (passOrder schedule false q) q.lanes id (passOrder schedule false q) [] hin nofun
    rw [hsq, Option.bind_some] at hunit
    -- the unit of the lane would have been placed
    cases hkey : s.groupKey with
    | none =>
      rw [hkey] at hunit
      refine ((h.stuck rfl _ hunit (cons_ne_nil _ _)).resolve_left (hlive _ hunit)) ?_
      rw [flatMap_singleton]
      refine suits_within ?_ hq id
      rw [hn.rest]
      exact hrows
    | some key =>
      rw [hkey] at hunit
      have hself : id ∈ (passOrder schedule false q).filter fun id =>
          decide (q.lanes[id]?.bind groupKey = some key) :=
        mem_filter.mpr ⟨hin, by rw [hsq, Option.bind_some, hkey]; exact decide_eq_true rfl⟩
      exact ((h.stuck rfl _ hunit (ne_nil_of_mem hself)).resolve_left (hlive _ hunit))
        (group_within hp hn hshort hkey hgroup)

/-! ## The seal -/

/-- **A seal keeps the limits and comes to an end.** The frame it seals holds front frames whole, and of a closed
boundary it makes one whenever the waves hold a lane with a fire and its group. -/
theorem seal_keeps_limits (p : FramePolicy) (hp : Fed p) (schedule : Option (ProcessId → Int)) :
    (∃ n, ∀ rounds, n ≤ rounds → (p.sealOnce schedule rounds).isSome = true) ∧
      (∀ rounds p', p.sealOnce schedule rounds = some (true, p') → ∃ frame front, Took p p' frame front) ∧
      (p.boundaryOpen = false → 0 < p.maxWaveRows → ∀ (id : ProcessId) (s : LaneState), p.lanes[id]? = some s → s.frontComplete = true →
        p.groupShort s = false → HasFire s → GroupFits p s →
          ∀ rounds b p', p.sealOnce schedule rounds = some (b, p') → b = true) := by
  refine ⟨sealOnce_isSome hp schedule, fun rounds p' h => ?_, ?_⟩
  · unfold sealOnce at h
    split at h
    · obtain ⟨q, n, hn, hends⟩ := sealLoop_ends hp h
      cases hends with
      | sealed hsome => exact sealed_took hp hn hsome
    · cases h
  · intro hclosed hrows id s hs hc hshort hfire hgroup rounds b p' h
    have hready : p.haveSealCandidate = true := by
      rw [haveSealCandidate, any_toList]
      exact ⟨id, s, hs, by rw [hc, hshort]; rfl⟩
    rw [sealOnce, if_pos hready, hclosed] at h
    obtain ⟨q, n, hn, hends⟩ := sealLoop_ends hp h
    exact sealed_of_fire hp hrows hs hc hshort hfire hgroup hn hends

/-- A lane with one fire of one row. -/
def rowLane (group : Option Nat) (fireId : Nat) : LaneState :=
  ⟨some 9, true, false, false, none, [⟨0, 1, false, false, [⟨0, some fireId, 1, 1⟩]⟩], group, true⟩

/-- One wave for one row. -/
def rowPolicy (group : Option Nat) : FramePolicy :=
  { FramePolicy.new 1 1 8 0 0 with
    lanes := ((∅ : TreeMap ProcessId LaneState).insert 1 (rowLane group 5)).insert 2 (rowLane group 6) }

theorem rowPolicy_frames (group : Option Nat) (id : ProcessId) : ∀ frame ∈ framesOf (rowPolicy group) id,
    ∃ fireId, frame = ⟨0, 1, false, false, [⟨0, some fireId, 1, 1⟩]⟩ := by
  intro frame hframe
  rw [framesOf, rowPolicy] at hframe
  by_cases h₂ : 2 = id
  · subst h₂
    rw [getElem?_insert_self] at hframe
    exact ⟨6, mem_singleton.mp hframe⟩
  · by_cases h₁ : 1 = id
    · subst h₁
      rw [getElem?_insert_ne h₂, getElem?_insert_self] at hframe
      exact ⟨5, mem_singleton.mp hframe⟩
    · rw [getElem?_insert_ne h₂, getElem?_insert_ne h₁] at hframe
      cases hframe

theorem rowPolicy_fed (group : Option Nat) : Fed (rowPolicy group) := by
  intro id frame hframe
  obtain ⟨fireId, rfl⟩ := rowPolicy_frames group id frame hframe
  refine ⟨fun fire hfire => ?_, fun fire hfire => ?_, fun fire hfire => ?_, nodup_singleton 0⟩
  · exact mem_singleton.mp hfire ▸ Nat.le_refl 1
  · exact mem_singleton.mp hfire ▸ Nat.le_add_left 1 7
  · exact mem_singleton.mp hfire ▸ Nat.one_pos

theorem seal_keeps_limits_row : ∃ b p', (rowPolicy none).sealOnce none 1 = some (b, p') ∧ b = true := by
  have hends : ((rowPolicy none).sealOnce none 1).isSome = true := by decide +kernel
  obtain ⟨⟨b, p'⟩, h⟩ := Option.isSome_iff_exists.mp hends
  refine ⟨b, p', h, ?_⟩
  exact (seal_keeps_limits (rowPolicy none) (rowPolicy_fed none) none).2.2 (by decide +kernel) (by decide) 2 (rowLane none 6)
    (by rw [rowPolicy, getElem?_insert_self]) rfl rfl ⟨_, rfl, _, mem_singleton_self _, rfl⟩ nofun 1 b p' h

/-- Two lanes of a group whose rows the wave does not hold together are never sealed. -/
theorem crowded_group_waits : Fed (rowPolicy (some 0)) ∧ (rowPolicy (some 0)).boundaryOpen = false ∧
    (∃ s, (rowPolicy (some 0)).lanes[1]? = some s ∧ s.frontComplete = true ∧ (rowPolicy (some 0)).groupShort s = false ∧
      HasFire s) ∧
    ((rowPolicy (some 0)).sealOnce none 1).map Prod.fst = some false := by
  refine ⟨rowPolicy_fed _, by decide +kernel, ⟨rowLane (some 0) 5, ?_, rfl, by decide +kernel, ?_⟩, by decide +kernel⟩
  · rw [rowPolicy, getElem?_insert_ne (by decide), getElem?_insert_self]
  · exact ⟨_, rfl, _, mem_singleton_self _, rfl⟩

end Pie.Proof.Seals
