import Pie.Lib.Loops
import Pie.Proof.Preparations

/-!
# What a failed preparation gives back

A fire that is not prepared to the end cancels what it had: each slot and page is
in the grant or in a pool again, no fire of it is on its way, and no working set
holds anything else than before. One way out does not cancel: that of a group
whose working set is not there, after another group was prepared.
-/

namespace Pie.Proof.Rollbacks

open Option

open List hiding after
open Pie.Store Pie.Store.Rs Lib RsStore

variable {ws : RsWorkingSetId} {entry : RsEntry} {units total : RsUnits} {p : Preparing}
  {prepared : List RsPreparedWrite}

/-! ## The groups of a fire -/

section Loops

variable {h₀ h : Held} {sets : List RsWorkingSetId} {groups done rest : List GroupPlan} {group : GroupPlan}

/-- There is enough for what the groups take. -/
def Fits (h₀ : Held) (sets : List RsWorkingSetId) (groups : List GroupPlan) : Prop :=
  ∃ units, demand h₀.store sets (.groups groups) = .ok units ∧ (room h₀).covers units = true

/-- A group's working set is not there, and groups before it were prepared. -/
def Leaks (h₀ : Held) (sets : List RsWorkingSetId) (groups : List GroupPlan) : Prop :=
  ∃ before group after, groups = before ++ group :: after ∧ before ≠ [] ∧ Fits h₀ sets before ∧
    Unknown h₀.store sets group

/-- One group more of the loop of `demand`. -/
def totalling (s : RsStore) (sets : List RsWorkingSetId) (total : RsUnits) (group : GroupPlan) :
    Except (Stop PrepareError) RsUnits := do
  return total.add (← groupUnits s sets group)

theorem demand_groups {s : RsStore} : demand s sets (.groups groups) = groups.foldlM (totalling s sets) ⟨0, 0⟩ := rfl

theorem totalling_eq {s : RsStore} : totalling s sets total group = (groupUnits s sets group).map total.add := by
  unfold totalling
  cases groupUnits s sets group <;> rfl

theorem total_grows {s : RsStore} (h : groups.foldlM (totalling s sets) total = .ok units) :
    total.slots ≤ units.slots ∧ total.pages ≤ units.pages ∧
      ∀ group ∈ groups, ∃ more, groupUnits s sets group = .ok more := by
  induction groups generalizing total with
  | nil =>
    obtain rfl : total = units := Except.ok.inj h
    exact ⟨le_rfl, le_rfl, fun _ hmem => absurd hmem not_mem_nil⟩
  | cons group groups ih =>
    rw [foldlM_cons, totalling_eq] at h
    cases hmore : groupUnits s sets group with
    | error e =>
      rw [hmore] at h
      exact nomatch h
    | ok more =>
      rw [hmore] at h
      obtain ⟨hslots, hpages, hall⟩ := ih h
      refine ⟨le_trans (Nat.le_add_right _ _) hslots, le_trans (Nat.le_add_right _ _) hpages, ?_⟩
      intro g hmem
      rcases mem_cons.mp hmem with hmem | hmem
      · exact ⟨more, by rw [hmem]; exact hmore⟩
      · exact hall g hmem

theorem demand_concat {s : RsStore} (hdone : demand s sets (.groups done) = .ok units) :
    demand s sets (.groups (done ++ [group])) = (groupUnits s sets group).map units.add := by
  rw [demand_groups] at hdone ⊢
  rw [List.foldlM_append, hdone]
  change foldlM (totalling s sets) units [group] = _
  rw [foldlM_cons, totalling_eq]
  cases groupUnits s sets group <;> rfl

theorem demand_append {s : RsStore} (h : demand s sets (.groups (done ++ rest)) = .ok units) :
    ∃ first, demand s sets (.groups done) = .ok first ∧ first.slots ≤ units.slots ∧ first.pages ≤ units.pages := by
  rw [demand_groups, List.foldlM_append] at h
  rw [demand_groups]
  cases hfirst : done.foldlM (totalling s sets) ⟨0, 0⟩ with
  | error e =>
    rw [hfirst] at h
    exact nomatch h
  | ok first =>
    rw [hfirst] at h
    obtain ⟨hslots, hpages, -⟩ := total_grows h
    exact ⟨first, rfl, hslots, hpages⟩

theorem Fits.prefix (h : Fits h₀ sets (done ++ rest)) : Fits h₀ sets done := by
  obtain ⟨units, hunits, hcovers⟩ := h
  obtain ⟨first, hfirst, hslots, hpages⟩ := demand_append hunits
  rw [covers_iff] at hcovers
  exact ⟨first, hfirst, covers_iff.mpr ⟨by omega, by omega⟩⟩

theorem Fits.known (h : Fits h₀ sets groups) (hmem : group ∈ groups) : ¬ Unknown h₀.store sets group := by
  intro ⟨ws, hws, hgone⟩
  obtain ⟨units, hunits, -⟩ := h
  obtain ⟨-, -, hall⟩ := total_grows hunits
  obtain ⟨more, hmore⟩ := hall group hmem
  rw [groupUnits_eq, hws] at hmore
  change unitsOf h₀.store ws group = _ at hmore
  unfold unitsOf GroupPlan.write foldedSlot entry at hmore
  rw [hgone] at hmore
  exact nomatch hmore

theorem leaks_iff (hdone : Fits h₀ sets done) (hnot : ¬ Fits h₀ sets (done ++ [group])) :
    Leaks h₀ sets (done ++ group :: rest) ↔ done ≠ [] ∧ Unknown h₀.store sets group := by
  constructor
  · intro ⟨before, group', after, hsplit, hne, hfits, hunknown⟩
    rcases append_eq_append_iff.mp hsplit with ⟨c, hbefore, hrest⟩ | ⟨c, hdone', hrest⟩
    · cases c with
      | nil =>
        rw [append_nil] at hbefore
        rw [nil_append] at hrest
        cases hrest
        exact ⟨by rw [← hbefore]; exact hne, hunknown⟩
      | cons g c =>
        cases hrest
        rw [hbefore, append_cons] at hfits
        exact absurd hfits.prefix hnot
    · cases c with
      | nil =>
        rw [append_nil] at hdone'
        rw [nil_append] at hrest
        cases hrest
        exact ⟨by rw [hdone']; exact hne, hunknown⟩
      | cons g c =>
        cases hrest
        refine absurd hunknown (hdone.known ?_)
        rw [hdone']
        exact mem_append_cons_self
  · intro ⟨hne, hunknown⟩
    exact ⟨done, group, rest, rfl, hne, hdone, hunknown⟩

/-- What holds while the groups are prepared one after another. -/
def Under (h₀ : Held) (sets : List RsWorkingSetId) (groups rest : List GroupPlan) (p : Preparing) (h : Held) : Prop :=
  WaitsFor h₀ h p.prepared ∧ ∃ done units, groups = done ++ rest ∧ (done ≠ [] → p.prepared ≠ []) ∧
    (done = [] → p.prepared = []) ∧ demand h₀.store sets (.groups done) = .ok units ∧ room h₀ = (room h).add units

theorem Under.fits (h : Under h₀ sets groups [] p h') : Fits h₀ sets groups := by
  obtain ⟨-, done, units, hgroups, -, -, hunits, hroom⟩ := h
  rw [append_nil] at hgroups
  refine ⟨units, by rw [hgroups]; exact hunits, covers_iff.mpr ?_⟩
  rw [hroom]
  exact ⟨Nat.le_add_left _ _, Nat.le_add_left _ _⟩

theorem unknown_same {s s' : RsStore} (hsets : SameSets s s') : Unknown s' sets group ↔ Unknown s sets group := by
  constructor
  · intro ⟨ws, hws, hgone⟩
    refine ⟨ws, hws, ?_⟩
    by_contra hget
    obtain ⟨e, he⟩ := ne_none_iff_exists'.mp hget
    obtain ⟨e', he', -⟩ := hsets.kept ws e he
    rw [hgone] at he'
    exact nomatch he'
  · intro ⟨ws, hws, hgone⟩
    exact ⟨ws, hws, hsets.gone ws hgone⟩

theorem prepareOne_under (hunder : Under h₀ sets groups (group :: rest) p h) :
    Outcome True (prepareOne sets p group h) (Under h₀ sets groups rest)
      fun _ h' => Restored h₀ h' ↔ ¬ Leaks h₀ sets groups := by
  obtain ⟨hw, done, units, rfl, hsome, hnone, hunits, hroom⟩ := hunder
  have hsame := groupUnits_same hw.sets hw.refs sets group
  have hdone : Fits h₀ sets done := by
    refine ⟨units, hunits, covers_iff.mpr ?_⟩
    rw [hroom]
    exact ⟨Nat.le_add_left _ _, Nat.le_add_left _ _⟩
  refine ((prepareOne_outcome hw).mono fun p' h' ⟨hw', hne, more, hmore, hroom'⟩ => ?one).mono_error
    fun _ h' hfailed => ?failed
  case one =>
    rw [hsame] at hmore
    refine ⟨hw', done ++ [group], units.add more, by rw [append_assoc]; rfl, fun _ => hne,
      fun hnil => absurd hnil (append_ne_nil_of_right_ne_nil _ (cons_ne_nil _ _)),
      ?_, ?_⟩
    · rw [demand_concat hunits, hmore]
      rfl
    rw [hroom, hroom']
    unfold RsUnits.add
    dsimp only
    rw [RsUnits.mk.injEq]
    omega
  case failed =>
    rw [unknown_same hw.sets, hsame] at hfailed
    rcases hfailed with ⟨hunknown, hw'⟩ | ⟨hknown, hw', hshort⟩
    · -- the way out that cancels nothing
      rw [leaks_iff hdone fun hfits => hfits.known mem_append_cons_self hunknown]
      by_cases hnil : done = []
      · have hprepared := hnone hnil
        unfold WaitsFor at hw'
        rw [hprepared] at hw'
        exact iff_of_true hw'.restored fun hleak => hleak.1 hnil
      · obtain ⟨write, prepared, hprepared⟩ := exists_cons_of_ne_nil (hsome hnil)
        have hmem : write.seq ∈ p.prepared.map RsPreparedWrite.seq := by
          rw [hprepared]
          exact mem_cons_self
        exact iff_of_false (hw'.not_restored hmem) fun hnot => hnot ⟨hnil, hunknown⟩
    · refine iff_of_true hw'.restored fun hleak => hknown ((leaks_iff hdone ?_).mp hleak).2
      intro ⟨total, htotal, hcovers⟩
      cases hmore : groupUnits h₀.store sets group with
      | error e =>
        rw [demand_concat hunits, hmore] at htotal
        exact nomatch htotal
      | ok more =>
        rw [demand_concat hunits, hmore] at htotal
        rw [← Except.ok.inj htotal] at hcovers
        have hshort := hshort more hmore
        rw [← Bool.not_eq_true, covers_iff] at hshort
        rw [covers_iff, hroom] at hcovers
        unfold RsUnits.add at hcovers
        dsimp only at hcovers
        omega

end Loops

/-! ## Publishing, after which nothing fails -/

section Publishing

variable {s s' s'' : RsStore}

/-- Each working set that is there stays there. -/
def Stays (s s' : RsStore) : Prop := ∀ ws e, s.workingSets.get ws = some e → ∃ e', s'.workingSets.get ws = some e'

theorem Stays.of_eq (h : s'.workingSets = s.workingSets) : Stays s s' := fun _ e he => ⟨e, by rw [h]; exact he⟩

theorem Stays.trans (h : Stays s s') (h' : Stays s' s'') : Stays s s'' := by
  intro ws e he
  obtain ⟨e', he'⟩ := h ws e he
  exact h' ws e' he'

theorem stays_setEntry : Stays s (s.setEntry ws entry) := by
  intro ws' e he
  unfold setEntry
  by_cases heq : ws' = ws
  · rw [heq] at he ⊢
    exact ⟨entry, GenMap.get_set_self he⟩
  · exact ⟨e, (GenMap.get_set_of_ne heq).trans he⟩

theorem recycle_sets {ids : List RsSlotId} {epoch : Nat} : (s.recycle ids epoch).workingSets = s.workingSets :=
  recycle_returned.1.sets

theorem decref_sets (id : RsSlotId) : (s.decref id).2.workingSets = s.workingSets := by
  unfold decref
  dsimp only
  split
  · rfl
  · split
    · unfold releaseHost
      split <;> rfl
    · exact recycle_sets

theorem decrefAll_sets (ids : List RsSlotId) : (s.decrefAll ids).workingSets = s.workingSets := by
  unfold decrefAll
  induction ids generalizing s with
  | nil => rfl
  | cons id ids ih => exact ih.trans (decref_sets id)

theorem cancelBatch_sets (writes : List RsPreparedWrite) : (s.cancelBatch writes).workingSets = s.workingSets := by
  unfold cancelBatch
  induction writes generalizing s with
  | nil => rfl
  | cons write writes ih => exact ih.trans cancelPrepared_returned.1.sets

theorem setBufferPage_stays {index : Nat} {dst : RsSlotId}
    (h : s.setBufferPage ws index dst = some s') : Stays s s' := by
  obtain ⟨entry, -, heq⟩ := map_eq_some_iff.mp h
  rw [← heq]
  exact stays_setEntry

theorem publishTarget_stays {target : RsBufferTarget}
    (h : publishTarget ws s target = some s') : Stays s s' := by
  cases target with
  | fresh index dst =>
    have hrefs : Stays s { s with refs := s.refs.insert dst 1 } := .of_eq rfl
    exact hrefs.trans (setBufferPage_stays h)
  | inPlace index dst =>
    rw [← some.inj h]
    exact .of_eq rfl
  | cow index src dst =>
    obtain ⟨mid, hmid, heq⟩ := bind_eq_some_iff.mp h
    rw [← some.inj heq]
    have hrefs : Stays s { s with refs := s.refs.insert dst 1 } := .of_eq rfl
    exact (hrefs.trans (setBufferPage_stays hmid)).trans (.of_eq (decref_sets src))

theorem publishState_stays {state : RsStateTarget} (h : s.publishState ws state = some s') : Stays s s' := by
  obtain ⟨entry, -, h⟩ := bind_eq_some_iff.mp h
  split at h
  · rw [← some.inj h]
    exact .of_eq rfl
  · dsimp only at h
    have hset : Stays s ({ s with refs := s.refs.insert state.slot 1 }.setEntry ws
        { entry with folded := some state.slot }) :=
      Stays.trans (.of_eq rfl) stays_setEntry
    split at h
    · rw [← some.inj h]
      exact hset.trans (.of_eq (decref_sets _))
    · rw [← some.inj h]
      exact hset

theorem publishSnapshot_stays {geom : RsGeometry} {frozen : Nat}
    {acc : RsStore × List RsSnapshot} {row : Nat × RsSlotId} :
    Stays acc.1 (publishSnapshot ws geom frozen acc row).1 := by
  intro ws' e he
  exact ⟨e, (GenMap.get_insert_of_ne (GenMap.ne_insert_of_get he)).trans he⟩

theorem publishPrevalidated_stays {p p' : Publishing} {write : RsPreparedWrite}
    (h : publishPrevalidated p write = some p') : Stays p.store p'.store := by
  obtain ⟨entry, -, h⟩ := bind_eq_some_iff.mp h
  have hsnapshots : ∀ (rows : List (Nat × RsSlotId)) (acc : RsStore × List RsSnapshot),
      Stays acc.1 (rows.foldl (publishSnapshot write.ws entry.geom entry.frozen) acc).1 := by
    intro rows
    induction rows with
    | nil => exact fun _ => .of_eq rfl
    | cons row rows ih => exact fun acc => publishSnapshot_stays.trans (ih _)
  have htargets : ∀ {s s' : RsStore}, write.buffers.foldlM (publishTarget write.ws) s = some s' →
      Stays s s' := fun h =>
    foldlM_keeps (fun _ _ _ hstays ht => hstays.trans (publishTarget_stays ht)) (.of_eq rfl) h
  dsimp only at h
  split at h
  · obtain ⟨mid, hmid, h⟩ := bind_eq_some_iff.mp h
    obtain ⟨last, hlast, h⟩ := bind_eq_some_iff.mp h
    rw [← some.inj h]
    exact ((hsnapshots _ _).trans (publishState_stays hmid)).trans (htargets hlast)
  · obtain ⟨mid, hmid, h⟩ := bind_eq_some_iff.mp h
    obtain ⟨last, hlast, h⟩ := bind_eq_some_iff.mp h
    rw [← some.inj h]
    rw [← some.inj hmid] at hlast
    exact (hsnapshots _ _).trans (htargets hlast)

theorem publishBatch_outcome {h₀ h : Held} (hw : WaitsFor h₀ h prepared) :
    Outcome True (publishBatch prepared h) (fun _ h' => Stays h.store h'.store)
      fun _ h' => Waits h₀ h' [] [] := by
  unfold publishBatch
  split
  · exact hw.cancelAll
  · split
    · exact trivial
    · rename_i p hp
      exact foldlM_keeps (fun _ _ _ hstays ht => Stays.trans hstays (publishPrevalidated_stays ht)) (.of_eq rfl) hp

theorem commitFolds_stays {folds : List RsPendingFold} : Stays s (s.commitFolds folds) := by
  unfold commitFolds
  induction folds generalizing s with
  | nil => exact .of_eq rfl
  | cons fold folds ih =>
    have hfold : Stays s (s.fold fold.ws fold.tokens) := by
      unfold RsStore.fold
      split
      · exact .of_eq rfl
      · exact stays_setEntry.trans (.of_eq (decrefAll_sets _))
    exact hfold.trans ih

end Publishing

/-! ## The whole call -/

section Calls

variable {h₀ h : Held} {sets : List RsWorkingSetId} {groups : List GroupPlan} {group : GroupPlan}

theorem readBuffer_errorless {s : RsStore} {verbs : List RsVerb} (hknown : ¬ Unknown s sets group) :
    Errorless (readBuffer sets s verbs group) := by
  unfold readBuffer
  split
  · exact .ok
  · cases hws : Rs.setOf sets group with
    | error e =>
      cases e with
      | error e => exact absurd hws (setOf_errorless e)
      | panic => exact .panic
    | ok ws =>
      cases hget : s.workingSets.get ws with
      | none => exact absurd ⟨ws, hws, hget⟩ hknown
      | some entry =>
        unfold bufferTranslation base frozen
        dsimp only [bind, Except.bind]
        rw [entry_of_get hget]
        refine Errorless.foldlM fun verbs lane _ => ?_
        unfold assign
        split
        · exact .ok
        · exact .panic

theorem prepareGroups_outcome : Outcome True (prepareGroups sets groups h₀) (fun _ _ => True)
      fun _ h' => Restored h₀ h' ↔ ¬ Leaks h₀ sets groups := by
  unfold prepareGroups
  refine Outcome.bind ((Outcome.foldlM (Under h₀ sets groups) (fun _ _ _ _ => prepareOne_under) ?_).mono
    fun p h hunder => ?_)
  · exact ⟨.refl, [], ⟨0, 0⟩, rfl, fun hnil => absurd rfl hnil, fun _ => rfl, rfl, rfl⟩
  · have hfits := hunder.fits
    refine Outcome.bind (onStore_outcome (((publishBatch_outcome hunder.1).mono fun r h' hstays => ?published).mono_error
      fun _ h' hw' => iff_of_true hw'.restored ?_))
    case published =>
      refine Outcome.bind (Outcome.get ?_)
      refine Outcome.bind (orElseCancel_outcome (errorless_outcome (Errorless.foldlM fun verbs group hmem => ?_)
        fun verbs _ => Outcome.bind (Outcome.modify (Outcome.pure trivial))))
      refine readBuffer_errorless fun ⟨ws, hws, hgone⟩ => ?_
      -- a group that was prepared has a working set, and publishing keeps it
      refine hfits.known hmem ((unknown_same hunder.1.sets).mp ⟨ws, hws, ?_⟩)
      by_contra hget
      obtain ⟨e, he⟩ := ne_none_iff_exists'.mp hget
      obtain ⟨e', he'⟩ := hstays ws e he
      rw [hgone] at he'
      exact nomatch he'
    · intro ⟨before, group, after, hsplit, _, _, hunknown⟩
      refine hfits.known ?_ hunknown
      rw [hsplit]
      exact mem_append_cons_self

theorem known_before {s s' : RsStore} (hsets : SameSets s s')
    (hget : s'.workingSets.get ws = some entry) : ∃ e, s.workingSets.get ws = some e := by
  refine ne_none_iff_exists'.mp fun hgone => ?_
  rw [hsets.gone ws hgone] at hget
  exact nomatch hget

theorem prepareRow_outcome {row : Nat × RsWorkingSetId × RingRow} (hw : WaitsFor h₀ h prepared) :
    Outcome True (prepareRow prepared row h)
      (fun prepared' h' => WaitsFor h₀ h' prepared' ∧ ∃ e, h₀.store.workingSets.get row.2.1 = some e)
      fun _ h' => Waits h₀ h' [] [] := by
  have hring : Outcome True (prepareRing row.2.1 row.2.2.pages h)
      (fun write h' => WaitsFor h₀ h' (prepared ++ [write]) ∧ ∃ e, h₀.store.workingSets.get row.2.1 = some e)
      fun _ h' => WaitsFor h₀ h' prepared := by
    unfold prepareRing
    refine Outcome.bind (Outcome.get (Outcome.bind (lift_outcome (fun entry hentry => ?_) (fun _ _ => hw) fun _ => trivial)))
    cases hget : h.store.workingSets.get row.2.1 with
    | none =>
      unfold RsStore.entry at hentry
      rw [hget] at hentry
      exact nomatch hentry
    | some entry =>
      refine ((prepareTargets_outcome hw hget).mono fun write h' ⟨hw', _⟩ =>
        ⟨WaitsFor.snoc hw', known_before hw.sets hget⟩).mono_error fun _ h' ⟨heq, _⟩ => ?_
      rw [heq]
      exact hw
  unfold prepareRow
  match prepareRing row.2.1 row.2.2.pages h, hring with
  | .ok _ _, hring => exact hring
  | .error (.error _) _, hring => exact Waits.cancelAll hring
  | .error .panic _, _ => exact trivial

theorem ringTranslation_errorless {s : RsStore} {indexes : List Nat}
    (hget : s.workingSets.get ws = some entry) : Errorless (orFail (s.ringTranslation ws indexes)) := by
  unfold ringTranslation
  rw [entry_of_get hget]
  dsimp only [bind, Except.bind]
  split <;> exact .ok

theorem prepareRingRows_outcome {rows : List RingRow} :
    Outcome True (prepareRingRows sets rows h₀) (fun _ _ => True) fun _ h' => Restored h₀ h' := by
  unfold prepareRingRows
  split
  · exact Waits.refl.restored
  · refine Outcome.bind ((Outcome.foldlM (fun l prepared h => WaitsFor h₀ h prepared ∧
      ∀ e ∈ (sets.zip rows).zipIdx.map fun e => (e.2, e.1), e ∈ l ∨ ∃ entry, h₀.store.workingSets.get e.2.1 = some entry)
      (fun row l prepared h ⟨hw, hknown⟩ => ?row) ⟨Waits.refl, fun e he => .inl he⟩).mono fun prepared h ⟨hw, hknown⟩ => ?rest)
    case row =>
      refine ((prepareRow_outcome hw).mono fun prepared' h' ⟨hw', hrow⟩ => ⟨hw', fun e he => ?_⟩).mono_error
        fun _ _ hw' => hw'.restored
      rcases hknown e he with hmem | hmem
      · rcases mem_cons.mp hmem with heq | hmem
        · rw [heq]
          exact .inr hrow
        · exact .inl hmem
      · exact .inr hmem
    case rest =>
      refine Outcome.bind (Outcome.get ?_)
      refine Outcome.bind (onStore_outcome (((publishBatch_outcome hw).mono fun r h' hstays => ?published).mono_error
        fun _ h' hw' => hw'.restored))
      refine Outcome.bind (Outcome.modify (Outcome.bind (Outcome.get ?_)))
      refine Outcome.bind (errorless_outcome (.mapM fun e he => ?_) fun window _ => ?_)
      · -- a row that was prepared has a working set, and publishing keeps it
        obtain ⟨i, hi⟩ := mem_iff_getElem?.mp he
        have hmem : (i, e) ∈ (sets.zip rows).zipIdx.map fun e => (e.2, e.1) :=
          mem_map.mpr ⟨(e, i), mem_zipIdx_iff_getElem?.mpr hi, rfl⟩
        obtain ⟨e₀, he₀⟩ := (hknown _ hmem).resolve_left not_mem_nil
        obtain ⟨e₁, he₁, -⟩ := hw.sets.kept _ _ he₀
        obtain ⟨e₂, he₂⟩ := (hstays.trans commitFolds_stays) _ _ he₁
        exact ringTranslation_errorless he₂
      · generalize foldlM (fun (s : RsStore) (e : RsWorkingSetId × RingRow) =>
          s.ringAdvance e.1 e.2.advance e.2.translate) _ _ = moved
        cases moved with
        | some s => exact Outcome.bind (Outcome.modify (Outcome.pure trivial))
        | none => exact trivial

/-- No group whose working set is not there follows groups for which there is enough; a window is always given
back. -/
def Clean (h₀ : Held) (sets : List RsWorkingSetId) : RsPlan → Prop
  | .ring _ => True
  | .groups groups => ¬ Leaks h₀ sets groups

/-- A store of `slots` slots and one working set. -/
def lone (slots : Nat) : RsWorkingSetId × RsStore := (RsStore.new slots 0 0 0).createWorkingSet ⟨16, 4⟩

end Calls

end Pie.Proof.Rollbacks
