import Pie.Scheduler.Seal

/-!
# One pass over the lanes

What a pass does to one lane: it leaves the lane as it is, drops a first frame in
which everything was rejected, or puts the first frame into the waves. A lane is
met once, for the units of a pass have no lane in common.
-/

namespace Pie.Proof.Passes

open List Option Std Pie.Scheduler Lib.Maps FramePolicy

/-! ## Measuring -/

/-- What measuring did to a lane that was `o`. -/
inductive Measured (k : Nat) (lane : ProcessId) (o : Option LaneState) (m : Measure) : Prop
  | kept (h : m.lanes[lane]? = o) (hf : lane ∉ m.fires.map Prod.fst)
  | dropped {s : LaneState} {front : PendingFrame} {rest : List PendingFrame} (ho : o = some s)
      (hs : s.frames = front :: rest) (hlive : live k front = [])
      (h : m.lanes[lane]? = some { s with frames := rest }) (hf : lane ∉ m.fires.map Prod.fst)
  | counted {s : LaneState} {front : PendingFrame} {rest : List PendingFrame} (ho : o = some s)
      (hs : s.frames = front :: rest) (hlive : live k front ≠ []) (h : m.lanes[lane]? = o)
      (hf : (m.fires.map Prod.fst).count lane = 1)

/-- The fires that were measured have a wave to go to. -/
def Placeable (k : Nat) (fires : List (ProcessId × List PlacedFire)) : Prop :=
  ∀ e ∈ fires, e.2 ≠ [] ∧ ∀ fire ∈ e.2, fire.wave < k

theorem live_wave {k : Nat} (hk : 0 < k) {frame : PendingFrame} : ∀ fire ∈ live k frame, fire.wave < k := by
  intro fire hfire
  obtain ⟨arrived, -, h⟩ := mem_filterMap.mp hfire
  obtain ⟨fireId, -, rfl⟩ := map_eq_some_iff.mp h
  exact Nat.lt_of_le_of_lt (Nat.min_le_right _ _) (Nat.sub_lt hk Nat.one_pos)

variable {p : FramePolicy} {fill : Fill} {lane : ProcessId}

variable {m : Measure} {e : ProcessId × List PlacedFire} {lanes : TreeMap ProcessId LaneState}
  {order : List ProcessId}

theorem measureLane_placeable (hk : 0 < p.k) (h : Placeable p.k m.fires) (other : ProcessId) :
    Placeable p.k (p.measureLane fill m other).fires := by
  unfold measureLane
  split
  · exact h
  · split
    · exact h
    · rename_i state _ front rest _
      dsimp only
      split
      · exact h
      · rename_i hlive
        split
        · intro e he
          rcases mem_append.mp he with he | he
          · exact h e he
          · rw [mem_singleton.mp he]
            exact ⟨hlive, live_wave hk⟩
        · exact h

/-- Another lane that is measured leaves this one alone. -/
theorem measureLane_other {other : ProcessId} (hne : other ≠ lane) :
    (p.measureLane fill m other).lanes[lane]? = m.lanes[lane]? ∧
      ((p.measureLane fill m other).fires.map Prod.fst).count lane = (m.fires.map Prod.fst).count lane := by
  unfold measureLane
  split
  · exact ⟨rfl, rfl⟩
  · split
    · exact ⟨rfl, rfl⟩
    · dsimp only
      split
      · exact ⟨getElem?_insert_ne hne, rfl⟩
      · split
        · refine ⟨rfl, ?_⟩
          rw [map_append, count_append, map_singleton, count_singleton]
          simp [hne]
        · exact ⟨rfl, rfl⟩

theorem Measured.other {o : Option LaneState} {other : ProcessId} (h : Measured p.k lane o m)
    (hne : other ≠ lane) : Measured p.k lane o (p.measureLane fill m other) := by
  obtain ⟨hlanes, hcount⟩ := @measureLane_other p fill lane m other hne
  cases h with
  | kept h hf => exact .kept (hlanes.trans h) (count_eq_zero.mp (hcount.trans (count_eq_zero.mpr hf)))
  | dropped ho hs hlive h hf =>
    exact .dropped ho hs hlive (hlanes.trans h) (count_eq_zero.mp (hcount.trans (count_eq_zero.mpr hf)))
  | counted ho hs hlive h hf => exact .counted ho hs hlive (hlanes.trans h) (hcount.trans hf)

theorem measureLane_self {o : Option LaneState} (h : m.lanes[lane]? = o)
    (hf : lane ∉ m.fires.map Prod.fst) : Measured p.k lane o (p.measureLane fill m lane) := by
  unfold measureLane
  split
  · exact .kept h hf
  · rename_i state hstate
    have ho : o = some state := h.symm.trans hstate
    split
    · exact .kept h hf
    · rename_i front rest hframes
      dsimp only
      split
      · rename_i hlive
        exact .dropped ho hframes hlive getElem?_insert_self hf
      · rename_i hlive
        split
        · refine .counted ho hframes hlive h ?_
          rw [map_append, count_append, count_eq_zero.mpr hf, map_singleton, count_singleton, beq_self_eq_true]
          rfl
        · exact .kept h hf

theorem measured_foldl : ∀ {unit : List ProcessId} {o : Option LaneState} {m : Measure}, unit.Nodup →
    (lane ∉ unit → Measured p.k lane o m → Measured p.k lane o (unit.foldl (p.measureLane fill) m)) ∧
    (lane ∈ unit → m.lanes[lane]? = o → lane ∉ m.fires.map Prod.fst →
      Measured p.k lane o (unit.foldl (p.measureLane fill) m)) := by
  intro unit
  induction unit with
  | nil => exact fun _ => ⟨fun _ h => h, nofun⟩
  | cons other unit ih =>
    intro o m hnodup
    obtain ⟨hnot, hnodup⟩ := nodup_cons.mp hnodup
    rw [foldl_cons]
    refine ⟨fun hl h => ?_, fun hl h hf => ?_⟩
    · rw [mem_cons, not_or] at hl
      exact (ih hnodup).1 hl.2 (h.other (Ne.symm hl.1))
    · by_cases hself : other = lane
      · subst hself
        exact (ih hnodup).1 hnot (measureLane_self h hf)
      · have hin : lane ∈ unit := (mem_cons.mp hl).resolve_left (Ne.symm hself)
        obtain ⟨hlanes, hcount⟩ := @measureLane_other p fill lane m other hself
        exact (ih hnodup).2 hin (hlanes.trans h) (count_eq_zero.mp (hcount.trans (count_eq_zero.mpr hf)))

theorem placeable_foldl (hk : 0 < p.k) : ∀ {unit : List ProcessId} {m : Measure}, Placeable p.k m.fires →
    Placeable p.k (unit.foldl (p.measureLane fill) m).fires := by
  intro unit
  induction unit with
  | nil => exact fun h => h
  | cons other unit ih => exact fun h => ih (measureLane_placeable hk h other)

/-! ## Placing -/

theorem placeLane_lanes (f : Fill) (e : ProcessId × List PlacedFire) :
    (placeLane f e).lanes = f.lanes.modify e.1 fun state => { state with frames := state.frames.tail } := rfl

theorem placeLane_other {f : Fill} (hne : e.1 ≠ lane) : (placeLane f e).lanes[lane]? = f.lanes[lane]? := by
  rw [placeLane_lanes]
  exact getElem?_modify_ne hne

theorem foldl_placeLane_other : ∀ {fires : List (ProcessId × List PlacedFire)} {f : Fill}, lane ∉ fires.map Prod.fst →
    (fires.foldl placeLane f).lanes[lane]? = f.lanes[lane]? := by
  intro fires
  induction fires with
  | nil => exact fun _ => rfl
  | cons e fires ih =>
    intro f h
    rw [map_cons, mem_cons, not_or] at h
    rw [foldl_cons, ih h.2, placeLane_other (Ne.symm h.1)]

theorem foldl_placeLane_self : ∀ {fires : List (ProcessId × List PlacedFire)} {f : Fill},
    (fires.map Prod.fst).count lane = 1 →
    (fires.foldl placeLane f).lanes[lane]? = f.lanes[lane]?.map fun state => { state with frames := state.frames.tail } := by
  intro fires
  induction fires with
  | nil => exact nofun
  | cons e fires ih =>
    intro f h
    rw [map_cons] at h
    rw [foldl_cons]
    by_cases he : e.1 = lane
    · subst he
      rw [count_cons_self] at h
      have hnone : e.1 ∉ fires.map Prod.fst := count_eq_zero.mp (Nat.succ.inj h)
      rw [foldl_placeLane_other hnone, placeLane_lanes, TreeMap.getElem?_modify_self]
    · rw [count_cons_of_ne he] at h
      rw [ih h, placeLane_other he]

/-- Some wave has a fire. -/
def Busy (waves : List (List Nat)) : Prop := ∃ wave ∈ waves, wave ≠ []

theorem modify_busy {waves : List (List Nat)} {n : Nat} (fireId : Nat) (hn : n < waves.length) :
    Busy (waves.modify n (· ++ [fireId])) := by
  refine ⟨waves[n] ++ [fireId], mem_of_getElem? (i := n) ?_, append_ne_nil_of_right_ne_nil _ (cons_ne_nil _ _)⟩
  rw [getElem?_modify, getElem?_eq_getElem hn]
  exact congrArg some (if_pos rfl)

/-- The waves of a pass, once something was placed. -/
structure Waved (k : Nat) (f : Fill) : Prop where
  length : f.waves.length = k
  busy : f.members ≠ [] → Busy f.waves

theorem foldl_waves : ∀ {fires : List PlacedFire} {waves : List (List Nat)}, (∀ fire ∈ fires, fire.wave < waves.length) →
    (fires.foldl (fun waves fire => waves.modify fire.wave (· ++ [fire.fireId])) waves).length = waves.length ∧
    (Busy waves ∨ fires ≠ [] →
      Busy (fires.foldl (fun waves fire => waves.modify fire.wave (· ++ [fire.fireId])) waves)) := by
  intro fires
  induction fires with
  | nil => exact fun _ => ⟨rfl, fun h => h.resolve_right fun h => h rfl⟩
  | cons fire fires ih =>
    intro waves h
    have hlen : (waves.modify fire.wave (· ++ [fire.fireId])).length = waves.length := length_modify ..
    obtain ⟨hl, hb⟩ := @ih (waves.modify fire.wave (· ++ [fire.fireId])) fun fire' hf => by
      rw [hlen]
      exact h fire' (mem_cons_of_mem _ hf)
    exact ⟨hl.trans hlen, fun _ => hb (.inl (modify_busy _ (h fire mem_cons_self)))⟩

theorem placeLane_waved {k : Nat} {f : Fill} (hf : Waved k f)
    (he : e.2 ≠ [] ∧ ∀ fire ∈ e.2, fire.wave < k) : Waved k (placeLane f e) := by
  obtain ⟨hl, hb⟩ := @foldl_waves e.2 f.waves fun fire hfire => hf.length ▸ he.2 fire hfire
  exact ⟨hl.trans hf.length, fun _ => hb (.inr he.1)⟩

theorem foldl_placeLane_waved {k : Nat} : ∀ {fires : List (ProcessId × List PlacedFire)} {f : Fill}, Waved k f →
    Placeable k fires → Waved k (fires.foldl placeLane f) := by
  intro fires
  induction fires with
  | nil => exact fun h _ => h
  | cons e fires ih =>
    intro f hf h
    exact ih (placeLane_waved hf (h e mem_cons_self)) fun e' he' => h e' (mem_cons_of_mem _ he')

theorem foldl_placeLane_members : ∀ {fires : List (ProcessId × List PlacedFire)} {f : Fill},
    (fires.foldl placeLane f).members = f.members ++ fires.map Prod.fst := by
  intro fires
  induction fires with
  | nil => exact fun {f} => (append_nil f.members).symm
  | cons e fires ih =>
    intro f
    rw [foldl_cons, ih, map_cons]
    exact append_assoc f.members [e.1] _

/-! ## A pass -/

/-- What a pass did to a lane that was `o`; a lane that it placed is among its members. -/
inductive Passed (k : Nat) (lane : ProcessId) (o : Option LaneState) (f : Fill) : Prop
  | kept (h : f.lanes[lane]? = o)
  | dropped {s : LaneState} {front : PendingFrame} {rest : List PendingFrame} (ho : o = some s)
      (hs : s.frames = front :: rest) (hlive : live k front = []) (h : f.lanes[lane]? = some { s with frames := rest })
  | placed {s : LaneState} {front : PendingFrame} {rest : List PendingFrame} (ho : o = some s)
      (hs : s.frames = front :: rest) (hlive : live k front ≠ []) (h : f.lanes[lane]? = some { s with frames := rest })
      (hmember : f.members ≠ [])

theorem measureUnit_placeable (hk : 0 < p.k) (unit : List ProcessId) : Placeable p.k (p.measureUnit fill unit).fires :=
  placeable_foldl hk nofun

theorem placeUnit_waved (hk : 0 < p.k) {unit : List ProcessId} (h : Waved p.k fill) :
    Waved p.k (p.placeUnit fill unit) := by
  unfold placeUnit
  dsimp only
  split
  · exact ⟨h.length, h.busy⟩
  · exact foldl_placeLane_waved ⟨h.length, h.busy⟩ (measureUnit_placeable hk unit)

theorem placeUnit_members (unit : List ProcessId) (h : fill.members ≠ []) : (p.placeUnit fill unit).members ≠ [] := by
  unfold placeUnit
  dsimp only
  split
  · exact h
  · rw [foldl_placeLane_members]
    exact append_ne_nil_of_left_ne_nil h _

theorem placeUnit_other {unit : List ProcessId} (hunit : unit.Nodup) (hl : lane ∉ unit) :
    (p.placeUnit fill unit).lanes[lane]? = fill.lanes[lane]? := by
  have hstart : ∀ {unit : List ProcessId} {m : Measure}, lane ∉ unit → lane ∉ m.fires.map Prod.fst →
      (unit.foldl (p.measureLane fill) m).lanes[lane]? = m.lanes[lane]? ∧
        lane ∉ (unit.foldl (p.measureLane fill) m).fires.map Prod.fst := by
    intro unit
    induction unit with
    | nil => exact fun _ h => ⟨rfl, h⟩
    | cons other unit ih =>
      intro m hl hf
      rw [mem_cons, not_or] at hl
      obtain ⟨hlanes, hcount⟩ := @measureLane_other p fill lane m other (Ne.symm hl.1)
      obtain ⟨h₁, h₂⟩ := ih hl.2 (count_eq_zero.mp (hcount.trans (count_eq_zero.mpr hf)))
      exact ⟨h₁.trans hlanes, h₂⟩
  obtain ⟨hlanes, hfires⟩ := @hstart unit
    ⟨fill.lanes, replicate p.k 0, replicate p.k 0, [], fill.droppedEmpty, false⟩ hl not_mem_nil
  unfold placeUnit
  dsimp only
  split
  · exact hlanes
  · exact (foldl_placeLane_other hfires).trans hlanes

theorem placeUnit_self {unit : List ProcessId} (hunit : unit.Nodup) (hl : lane ∈ unit) :
    Passed p.k lane fill.lanes[lane]? (p.placeUnit fill unit) := by
  have hmeasured : Measured p.k lane fill.lanes[lane]? (p.measureUnit fill unit) :=
    (measured_foldl hunit).2 hl rfl not_mem_nil
  unfold placeUnit
  dsimp only
  split
  · cases hmeasured with
    | kept h hf => exact .kept h
    | dropped ho hs hlive h hf => exact .dropped ho hs hlive h
    | counted ho hs hlive h hf => exact .kept h
  · cases hmeasured with
    | kept h hf => exact .kept ((foldl_placeLane_other hf).trans h)
    | dropped ho hs hlive h hf => exact .dropped ho hs hlive ((foldl_placeLane_other hf).trans h)
    | @counted s front rest ho hs hlive h hf =>
      refine .placed ho hs hlive ?_ ?_
      · rw [foldl_placeLane_self hf]
        change Option.map _ (p.measureUnit fill unit).lanes[lane]? = _
        rw [h, ho, map_some, hs]
        rfl
      · rw [foldl_placeLane_members]
        refine append_ne_nil_of_right_ne_nil _ fun hnil => ?_
        rw [hnil] at hf
        cases hf

theorem foldl_placeUnit_other : ∀ {units : List (List ProcessId)} {fill : Fill}, units.flatten.Nodup →
    lane ∉ units.flatten → (units.foldl p.placeUnit fill).lanes[lane]? = fill.lanes[lane]? ∧
      (fill.members ≠ [] → (units.foldl p.placeUnit fill).members ≠ []) := by
  intro units
  induction units with
  | nil => exact fun _ _ => ⟨rfl, fun h => h⟩
  | cons unit units ih =>
    intro fill hnodup hl
    rw [flatten_cons] at hnodup hl
    rw [mem_append, not_or] at hl
    obtain ⟨h₁, h₂⟩ := @ih (p.placeUnit fill unit) hnodup.of_append_right hl.2
    exact ⟨h₁.trans (placeUnit_other hnodup.of_append_left hl.1), fun h => h₂ (placeUnit_members unit h)⟩

theorem foldl_placeUnit_passed : ∀ {units : List (List ProcessId)} {fill : Fill}, units.flatten.Nodup →
    lane ∈ units.flatten → Passed p.k lane fill.lanes[lane]? (units.foldl p.placeUnit fill) := by
  intro units
  induction units with
  | nil => exact fun _ h => (nomatch h)
  | cons unit units ih =>
    intro fill hnodup hl
    rw [flatten_cons] at hnodup hl
    rw [foldl_cons]
    by_cases hin : lane ∈ unit
    · have hnot : lane ∉ units.flatten := fun h => disjoint_of_nodup_append hnodup hin h
      obtain ⟨hlanes, hmembers⟩ := @foldl_placeUnit_other p lane units (p.placeUnit fill unit) hnodup.of_append_right hnot
      cases @placeUnit_self p fill lane unit hnodup.of_append_left hin with
      | kept h => exact .kept (hlanes.trans h)
      | dropped ho hs hlive h => exact .dropped ho hs hlive (hlanes.trans h)
      | placed ho hs hlive h hm => exact .placed ho hs hlive (hlanes.trans h) (hmembers hm)
    · have h := @ih (p.placeUnit fill unit) hnodup.of_append_right ((mem_append.mp hl).resolve_left hin)
      rw [placeUnit_other hnodup.of_append_left hin] at h
      exact h

/-! ## The units have no lane in common -/

theorem mem_unitsOf :
    ∀ {l placed : List ProcessId}, (∀ id ∈ l, id ∈ order) → ∀ id ∈ (unitsOf lanes order placed l).flatten, id ∈ order := by
  intro l
  induction l with
  | nil => exact fun _ id h => (nomatch h)
  | cons first l ih =>
    intro placed hl id hid
    have hrest : ∀ id ∈ l, id ∈ order := fun id h => hl id (mem_cons_of_mem _ h)
    unfold unitsOf at hid
    split at hid
    · exact ih hrest id hid
    · split at hid
      · rcases mem_append.mp (flatten_cons ▸ hid) with h | h
        · rw [mem_singleton.mp h]
          exact hl first mem_cons_self
        · exact ih hrest id h
      · dsimp only at hid
        rcases mem_append.mp (flatten_cons ▸ hid) with h | h
        · exact (mem_filter.mp h).1
        · exact ih hrest id h

theorem unitsOf_nodup (horder : order.Nodup) : ∀ {l placed : List ProcessId}, (∀ id ∈ l, id ∈ order) →
      (∀ id ∈ placed, ∀ key, lanes[id]?.bind LaneState.groupKey = some key →
        ∀ other ∈ order, lanes[other]?.bind LaneState.groupKey = some key → other ∈ placed) →
      (unitsOf lanes order placed l).flatten.Nodup ∧ ∀ id ∈ (unitsOf lanes order placed l).flatten, id ∉ placed := by
  intro l
  induction l with
  | nil => exact fun _ _ => ⟨nodup_nil, fun id h => (nomatch h)⟩
  | cons first l ih =>
    intro placed hl hclosed
    have hrest : ∀ id ∈ l, id ∈ order := fun id h => hl id (mem_cons_of_mem _ h)
    unfold unitsOf
    split
    · exact ih hrest hclosed
    · rename_i hfirst
      split
      · rename_i hkey
        obtain ⟨hnodup, hnot⟩ := @ih (first :: placed) hrest fun id hid key hk other ho hother => by
          rcases mem_cons.mp hid with rfl | hid
          · rw [hkey] at hk
            cases hk
          · exact mem_cons_of_mem _ (hclosed id hid key hk other ho hother)
        rw [flatten_cons]
        refine ⟨nodup_cons.mpr ⟨fun h => hnot first h mem_cons_self, hnodup⟩, fun id hid => ?_⟩
        rcases mem_cons.mp hid with rfl | hid
        · exact hfirst
        · exact fun h => hnot id hid (mem_cons_of_mem _ h)
      · rename_i key hkey
        dsimp only
        have hunit : ∀ {id : ProcessId}, id ∈ order.filter (fun id => decide (lanes[id]?.bind LaneState.groupKey = some key)) ↔
            id ∈ order ∧ lanes[id]?.bind LaneState.groupKey = some key := by
          intro id
          rw [mem_filter, decide_eq_true_iff]
        generalize hu : order.filter (fun id => decide (lanes[id]?.bind LaneState.groupKey = some key)) = unit at hunit
        obtain ⟨hnodup, hnot⟩ := @ih (first :: unit ++ placed) hrest fun id hid key' hk other ho hother => by
          have hgroup : id ∈ unit ∨ id = first → other ∈ first :: unit ++ placed := by
            intro h
            have hsame : key' = key := by
              rcases h with h | rfl
              · exact some.inj (hk.symm.trans (hunit.mp h).2)
              · exact some.inj (hk.symm.trans hkey)
            rw [hsame] at hother
            exact mem_append_left _ (mem_cons_of_mem _ (hunit.mpr ⟨ho, hother⟩))
          rcases mem_append.mp hid with hid | hid
          · rcases mem_cons.mp hid with rfl | hid
            · exact hgroup (.inr rfl)
            · exact hgroup (.inl hid)
          · exact mem_append_right _ (hclosed id hid key' hk other ho hother)
        rw [flatten_cons]
        refine ⟨nodup_append.mpr ⟨hu ▸ horder.filter _, hnodup, fun a ha b hb hab => ?_⟩, fun id hid => ?_⟩
        · subst hab
          exact hnot a hb (mem_append_left _ (mem_cons_of_mem _ ha))
        · rcases mem_append.mp hid with hid | hid
          · -- Were it placed, the group would be, and `first` with it.
            intro hplaced
            obtain ⟨ho, hk⟩ := hunit.mp hid
            exact hfirst (hclosed id hplaced key hk first (hl first mem_cons_self) hkey)
          · exact fun h => hnot id hid (mem_append_right _ h)

/-- **What a pass does to a lane.** Only a lane of the order is touched. -/
theorem fillWaves_passed (horder : order.Nodup) (lane : ProcessId) :
    (lane ∉ order → (p.fillWaves order).lanes[lane]? = p.lanes[lane]?) ∧
      Passed p.k lane p.lanes[lane]? (p.fillWaves order) := by
  obtain ⟨hnodup, -⟩ := @unitsOf_nodup p.lanes order horder order [] (fun _ h => h) nofun
  by_cases hl : lane ∈ (unitsOf p.lanes order [] order).flatten
  · refine ⟨fun h => absurd (mem_unitsOf (fun _ h => h) lane hl) h, ?_⟩
    exact @foldl_placeUnit_passed p lane _
      ⟨p.lanes, replicate p.k [], replicate p.k 0, replicate p.k 0, [], false⟩ hnodup hl
  · have hsame := (@foldl_placeUnit_other p lane _
      ⟨p.lanes, replicate p.k [], replicate p.k 0, replicate p.k 0, [], false⟩ hnodup hl).1
    exact ⟨fun _ => hsame, .kept hsame⟩

theorem fillWaves_waved (hk : 0 < p.k) (order : List ProcessId) : Waved p.k (p.fillWaves order) := by
  have hfold : ∀ {units : List (List ProcessId)} {fill : Fill}, Waved p.k fill → Waved p.k (units.foldl p.placeUnit fill) := by
    intro units
    induction units with
    | nil => exact fun h => h
    | cons unit units ih => exact fun h => ih (placeUnit_waved hk h)
  exact hfold ⟨length_replicate, fun h => absurd rfl h⟩

end Pie.Proof.Passes
