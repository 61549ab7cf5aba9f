import Pie.Proof.Holdings

/-!
# Preparing one group

A group that is prepared took what `groupUnits` says of it, whatever the groups
before it took. One that is not prepared took nothing, unless there is too little
for its snapshots; then what it took is given back.
-/

namespace Pie.Proof.Rollbacks

open List Pie.Store Pie.Store.Rs Lib RsStore

variable {entry entry' e e' : RsEntry} {ws : RsWorkingSetId} {fold : Option Nat} {fresh writeState : Bool}
  {group : GroupPlan} {x : Except (Stop ε) α} {sets : List RsWorkingSetId} {sources : List (Nat × Option RsSlotId)}
  {write : RsPreparedWrite} {a more need : RsUnits}

/-! ## What a group takes, whatever is under way -/

section Demands

variable {s s' : RsStore}

theorem Keeps.pageTokens (h : Keeps e e') : pageTokens e' = pageTokens e := by
  unfold RsStore.pageTokens
  rw [h.geom]

theorem Keeps.bufferTargets (h : Keeps e e') (writes : Option (Nat × Nat)) :
    bufferTargets e' writes = bufferTargets e writes := by
  unfold RsStore.bufferTargets
  rw [h.frozen, h.base, h.pageTokens]
  simp only [h.pages]

theorem growBuffer_keeps (e : RsEntry) (stop : Nat) : Keeps e (growBuffer e stop) where
  geom := rfl
  folded := rfl
  frozen := rfl
  ring := rfl
  base := by
    unfold growBuffer baseOf
    dsimp only
    cases hbuffer : e.buffer with
    | nil =>
      rw [isEmpty_nil, if_pos rfl, ite_self]
    | cons page buffer => rfl
  pages i := by
    unfold growBuffer pageAt
    dsimp only
    rcases lt_or_ge i e.buffer.length with hlt | hge
    · rw [getElem?_append_left hlt]
    · rw [getElem?_append_right hge, getElem?_eq_none hge, getElem?_replicate]
      split <;> rfl
  longer := by
    unfold growBuffer
    rw [length_append]
    exact Nat.le_add_right _ _

/-- The entry, with its buffer long enough for what is written. -/
def grown (e : RsEntry) (writes : Option (Nat × Nat)) : RsEntry :=
  match writes.filter fun w => w.1 < w.2 with
  | some w => RsStore.growBuffer e w.2
  | none => e

theorem grown_keeps (e : RsEntry) (writes : Option (Nat × Nat)) : Keeps e (grown e writes) := by
  unfold grown
  split
  · exact growBuffer_keeps _ _
  · exact Keeps.refl e

/-- What becomes of a page that is written. -/
def Placed (source : Nat × Option RsSlotId) : RsBufferTarget → Prop
  | .fresh index _ => source = (index, none)
  | .inPlace index dst => source = (index, some dst)
  | .cow index src _ => source = (index, some src)

theorem takesSlot_same (hrefs : s'.refs = s.refs) (writeState fresh : Bool) (folded : Option RsSlotId) :
    s'.takesSlot writeState fresh folded = s.takesSlot writeState fresh folded := by
  unfold takesSlot refCount
  rw [hrefs]

theorem targetsDemand_same (hrefs : s'.refs = s.refs) (targets : List (Nat × Option RsSlotId)) :
    s'.targetsDemand targets = s.targetsDemand targets := by
  unfold targetsDemand takesPage refCount
  rw [hrefs]

/-- The demand of one group on the working set `ws`. -/
def unitsOf (s : RsStore) (ws : RsWorkingSetId) (group : GroupPlan) : Except (Stop PrepareError) RsUnits := do
  let write ← group.write s ws
  let units ← (s.groupDemand ws write.writeState write.fresh write.writes).mapError asStore
  return { units with slots := units.slots + group.snapshots.length }

theorem groupUnits_eq (sets : List RsWorkingSetId) (group : GroupPlan) :
    groupUnits s sets group = setOf sets group >>= fun ws => unitsOf s ws group := rfl

theorem groupUnits_same (hsets : SameSets s s') (hrefs : s'.refs = s.refs) (sets : List RsWorkingSetId)
    (group : GroupPlan) : groupUnits s' sets group = groupUnits s sets group := by
  rw [groupUnits_eq, groupUnits_eq]
  congr 1
  funext ws
  unfold unitsOf GroupPlan.write foldedSlot groupDemand entry
  cases he : s.workingSets.get ws with
  | none =>
    rw [hsets.gone ws he]
    rfl
  | some e =>
    obtain ⟨e', he', hkeep⟩ := hsets.kept ws e he
    rw [he']
    dsimp only [orStop, Except.mapError, orFail, bind, Except.bind, pure, Except.pure]
    rw [hkeep.folded]
    simp only [hkeep.bufferTargets, takesSlot_same hrefs, targetsDemand_same hrefs]

end Demands

/-! ## Preparing one group -/

section Groups

variable {p : Prop} {h₀ h : Held} {ids : List RsSlotId} {seqs : List Nat} {Q : α → Held → Prop} {E : ε → Held → Prop}

theorem lift_outcome (hok : ∀ a, x = .ok a → Q a h)
    (herror : ∀ e, x = .error (.error e) → E e h) (hpanic : x = .error .panic → p) :
    Outcome p (lift x h) Q E := by
  match x, hok, herror, hpanic with
  | .ok a, hok, _, _ => exact hok a rfl
  | .error (.error e), _, herror, _ => exact herror e rfl
  | .error .panic, _, _, hpanic => exact hpanic rfl

theorem lift_ok {a : α} (hx : x = .ok a) (hQ : Q a h) : Outcome p (lift x h) Q E := by
  rw [hx]
  exact hQ

theorem errorless_outcome (hcalm : Errorless x) (hok : ∀ a, x = .ok a → Q a h) :
    Outcome True (lift x h) Q E :=
  lift_outcome hok (fun e he => absurd he (hcalm e)) fun _ => trivial

theorem onStore_outcome {x : Act RsError α} {E : PrepareError → Held → Prop}
    (hx : Outcome True (x h) Q fun e h' => E (.store e) h') : Outcome True (onStore x h) Q E := by
  unfold onStore
  match x h, hx with
  | .ok _ _, hx => exact hx
  | .error (.error _) _, hx => exact hx
  | .error .panic _, _ => exact trivial

theorem orElseCancel_outcome {x : Act ε α} {cancel : RsStore → RsStore}
    (hx : Outcome True (x h) Q fun e h' => E e { h' with store := cancel h'.store }) :
    Outcome True (orElseCancel x cancel h) Q E := by
  unfold orElseCancel
  match x h, hx with
  | .ok _ _, hx => exact hx
  | .error (.error _) _, hx => exact hx
  | .error .panic _, _ => exact trivial

theorem nameLanes_outcome {x : Act PrepareError α} {lanes : List Nat} {E : PrepareError → Held → Prop}
    (hx : Outcome True (x h) Q fun e h' => E (.lanes lanes e) h') : Outcome True (nameLanes lanes x h) Q E := by
  unfold nameLanes
  match x h, hx with
  | .ok _ _, hx => exact hx
  | .error (.error _) _, hx => exact hx
  | .error .panic _, _ => exact trivial

variable {s : RsStore}

theorem stateTarget_ok {folded : Option RsSlotId}
    {slots : List RsSlotId} (hlen : slots.length = (s.takesSlot true fresh folded).toNat) :
    ∃ target, s.stateTarget fresh fold folded slots = .ok target := by
  have hsome : s.takesSlot true fresh folded = true → ∃ slot rest, slots = slot :: rest := by
    intro htakes
    rw [htakes] at hlen
    exact exists_cons_of_length_eq_add_one hlen
  unfold stateTarget
  cases folded with
  | none =>
    obtain ⟨slot, rest, hslots⟩ := hsome (by simp [takesSlot])
    rw [hslots]
    exact ⟨_, rfl⟩
  | some old =>
    dsimp only
    split
    · rename_i hcopy
      obtain ⟨slot, rest, hslots⟩ := hsome (by
        rw [Bool.or_eq_true, decide_eq_true_eq] at hcopy
        simp [takesSlot, hcopy])
      rw [hslots]
      exact ⟨_, rfl⟩
    · exact ⟨_, rfl⟩

theorem placeTargets_ok {pages : List RsSlotId} (hlen : pages.length = s.targetsDemand sources) :
    ∃ buffers, s.placeTargets sources pages = .ok buffers ∧ Forall₂ Placed sources buffers := by
  unfold targetsDemand at hlen
  induction sources generalizing pages with
  | nil => exact ⟨[], rfl, .nil⟩
  | cons source sources ih =>
    obtain ⟨index, src⟩ := source
    rw [countP_cons] at hlen
    cases src with
    | none =>
      rw [if_pos (by rfl)] at hlen
      obtain ⟨dst, rest, hpages⟩ := exists_cons_of_length_eq_add_one hlen
      rw [hpages, length_cons] at hlen
      obtain ⟨buffers, hbuffers, hplaced⟩ := ih (add_right_cancel hlen)
      refine ⟨.fresh index dst :: buffers, ?_, .cons rfl hplaced⟩
      rw [hpages]
      unfold placeTargets
      dsimp only
      rw [hbuffers]
      rfl
    | some src =>
      unfold placeTargets
      by_cases hshared : 1 < s.refCount src
      · rw [if_pos (by simp [takesPage, hshared])] at hlen
        obtain ⟨dst, rest, hpages⟩ := exists_cons_of_length_eq_add_one hlen
        rw [hpages, length_cons] at hlen
        obtain ⟨buffers, hbuffers, hplaced⟩ := ih (add_right_cancel hlen)
        refine ⟨.cow index src dst :: buffers, ?_, .cons rfl hplaced⟩
        rw [if_pos hshared, hpages]
        dsimp only
        rw [hbuffers]
        rfl
      · rw [if_neg (by simp [takesPage, hshared])] at hlen
        obtain ⟨buffers, hbuffers, hplaced⟩ := ih hlen
        refine ⟨.inPlace index src :: buffers, ?_, .cons rfl hplaced⟩
        rw [if_neg hshared, hbuffers]
        rfl

theorem entry_of_get (h : s.workingSets.get ws = some entry) : s.entry ws = .ok entry := by
  unfold RsStore.entry
  rw [h]

theorem orStop_entry (h : s.workingSets.get ws = some entry) : orStop (s.entry ws) = .ok entry := by
  rw [entry_of_get h]
  rfl

theorem prepareTargets_outcome (hw : Waits h₀ h ids seqs) (hget : h.store.workingSets.get ws = some entry) :
    let need : RsUnits := ⟨(h.store.takesSlot writeState fresh entry.folded).toNat, h.store.targetsDemand sources⟩
    Outcome p (prepareTargets ws writeState fresh fold sources h)
      (fun write h' => Waits h₀ h' (ids ++ write.allocated) (seqs ++ [write.seq]) ∧ room h = (room h').add need ∧
        write.ws = ws ∧ h'.store.workingSets = h.store.workingSets ∧ Forall₂ Placed sources write.buffers)
      fun _ h' => h' = h ∧ (room h).covers need = false := by
  intro need
  unfold prepareTargets
  refine Outcome.bind (Outcome.get (Outcome.bind (lift_ok (orStop_entry hget) ?_)))
  refine Outcome.bind ((take_outcome hw).mono fun taken h' ⟨hw', ⟨hslots, hpages⟩, hbooks, hroom⟩ => ?_)
  obtain ⟨buffers, hbuffers, hplaced⟩ := placeTargets_ok hpages
  dsimp only
  split
  · rename_i hwrite
    rw [hwrite] at hslots
    obtain ⟨target, htarget⟩ : ∃ target, h.store.stateTarget fresh fold entry.folded taken.1 = .ok target :=
      stateTarget_ok hslots
    refine Outcome.bind (Outcome.map (lift_ok htarget (Outcome.bind (lift_ok hbuffers ?_))))
    exact Outcome.bind (Outcome.get (Outcome.bind (Outcome.modify (Outcome.pure
      ⟨hw'.begin, hroom, rfl, hbooks.sets, hplaced⟩))))
  · refine Outcome.bind (Outcome.pure (Outcome.bind (lift_ok hbuffers ?_)))
    exact Outcome.bind (Outcome.get (Outcome.bind (Outcome.modify (Outcome.pure
      ⟨hw'.begin, hroom, rfl, hbooks.sets, hplaced⟩))))

theorem get_setEntry
    (hget : s.workingSets.get ws = some entry) : (s.setEntry ws entry').workingSets.get ws = some entry' :=
  GenMap.get_set_self hget

theorem sameSets_setEntry
    (hget : s.workingSets.get ws = some entry) (hkeep : Keeps entry entry') : SameSets s (s.setEntry ws entry') := by
  unfold setEntry
  refine ⟨fun ws' e he => ?_, fun ws' hgone => ?_⟩
  · rw [GenMap.get_set hget]
    split
    · rename_i heq
      subst heq
      obtain rfl : entry = e := Option.some.inj (hget.symm.trans he)
      exact ⟨entry', rfl, hkeep⟩
    · exact ⟨e, he, Keeps.refl e⟩
  · rw [GenMap.get_set hget, if_neg]
    · exact hgone
    · intro heq
      rw [heq, hget] at hgone
      exact nomatch hgone

/-- Growing pages that are not mapped is no change. -/
theorem Waits.setEntry (hw : Waits h₀ h ids seqs)
    (hget : h.store.workingSets.get ws = some entry) (hkeep : Keeps entry entry') :
    Waits h₀ { h with store := h.store.setEntry ws entry' } ids seqs :=
  { hw with sets := hw.sets.trans (sameSets_setEntry hget hkeep) }

/-- The pages that are written become targets, and what a group takes is what its demand says. -/
theorem prepareGroup_outcome
    {writes : Option (Nat × Nat)} (hw : Waits h₀ h ids seqs) (hget : h.store.workingSets.get ws = some entry)
    (hpanic : bufferTargets entry writes = .error .panic → p) :
    Outcome p (prepareGroup ws writeState fresh fold writes h)
      (fun write h' => Waits h₀ h' (ids ++ write.allocated) (seqs ++ [write.seq]) ∧
        (∃ units, h.store.groupDemand ws writeState fresh writes = .ok units ∧ room h = (room h').add units) ∧
        write.ws = ws ∧ h'.store.workingSets.get ws = some (grown entry writes) ∧
        ∃ targets, bufferTargets entry writes = .ok targets ∧ Forall₂ Placed targets write.buffers)
      fun _ h' => Waits h₀ h' ids seqs ∧
        ∀ units, h.store.groupDemand ws writeState fresh writes = .ok units → (room h).covers units = false := by
  -- what happens once the buffer is long enough
  have hrest : ∀ h' : Held, Waits h₀ h' ids seqs → h'.store.workingSets.get ws = some (grown entry writes) →
      h'.store.refs = h.store.refs → room h' = room h →
      Outcome p ((do
          let entry ← lift (orStop ((← get).store.entry ws))
          let targets ← lift (bufferTargets entry writes)
          prepareTargets ws writeState fresh fold targets : Act RsError RsPreparedWrite) h')
        (fun write h' => Waits h₀ h' (ids ++ write.allocated) (seqs ++ [write.seq]) ∧
          (∃ units, h.store.groupDemand ws writeState fresh writes = .ok units ∧ room h = (room h').add units) ∧
          write.ws = ws ∧ h'.store.workingSets.get ws = some (grown entry writes) ∧
          ∃ targets, bufferTargets entry writes = .ok targets ∧ Forall₂ Placed targets write.buffers)
        fun _ h' => Waits h₀ h' ids seqs ∧
          ∀ units, h.store.groupDemand ws writeState fresh writes = .ok units → (room h).covers units = false := by
    intro h' hw' hget' hrefs hroom
    have hkeep := grown_keeps entry writes
    have hdemand : h.store.groupDemand ws writeState fresh writes = (do
        let targets ← bufferTargets entry writes
        return ⟨(h'.store.takesSlot writeState fresh (grown entry writes).folded).toNat,
          h'.store.targetsDemand targets⟩) := by
      unfold groupDemand
      rw [entry_of_get hget, hkeep.folded, takesSlot_same hrefs]
      simp only [targetsDemand_same hrefs]
      rfl
    refine Outcome.bind (Outcome.get (Outcome.bind (lift_ok (orStop_entry hget') ?_)))
    rw [hkeep.bufferTargets]
    refine Outcome.bind (lift_outcome (fun targets htargets => ?_) (fun e he => ?_) hpanic)
    · rw [htargets] at hdemand
      rw [hdemand, ← hroom]
      refine ((prepareTargets_outcome hw' hget').mono fun write h'' ⟨hw'', hroom', hws, hsets, hplaced⟩ =>
        ⟨hw'', ⟨_, rfl, hroom'⟩, hws, by rw [hsets]; exact hget', targets, htargets, hplaced⟩).mono_error
        fun _ h'' ⟨heq, hcovers⟩ => ⟨by rw [heq]; exact hw', fun units hunits => ?_⟩
      rw [← Except.ok.inj hunits]
      exact hcovers
    · rw [he] at hdemand
      refine ⟨hw', fun units hunits => ?_⟩
      rw [hdemand] at hunits
      exact nomatch hunits
  unfold prepareGroup
  unfold grown at hrest ⊢
  cases hwrites : writes.filter fun w => w.1 < w.2 with
  | some w =>
    rw [hwrites] at hrest
    refine Outcome.bind (Outcome.get (Outcome.bind (lift_ok (orStop_entry hget) ?_)))
    exact Outcome.bind (Outcome.modify (hrest _ (hw.setEntry hget (growBuffer_keeps _ _)) (get_setEntry hget) rfl rfl))
  | none =>
    rw [hwrites] at hrest
    exact hrest h hw hget rfl rfl

/-! ## Preparing one group -/

theorem prepareSnapshots_outcome {rows : List Nat} (hw : Waits h₀ h (ids ++ write.allocated) (seqs ++ [write.seq])) :
    Outcome p (prepareSnapshots write rows h)
      (fun write' h' => Waits h₀ h' (ids ++ write'.allocated) (seqs ++ [write'.seq]) ∧
        room h = (room h').add ⟨rows.length, 0⟩ ∧ write'.ws = write.ws ∧ write'.buffers = write.buffers ∧
        h'.store.workingSets = h.store.workingSets)
      fun _ h' => h' = h ∧ (room h).covers ⟨rows.length, 0⟩ = false := by
  unfold prepareSnapshots
  cases rows with
  | nil => exact ⟨hw, rfl, rfl, rfl, rfl⟩
  | cons row rows =>
    refine Outcome.bind ((take_outcome hw).mono fun taken h' ⟨hw', ⟨_, hpages⟩, hbooks, hroom⟩ => ?_)
    refine Outcome.bind (Outcome.modify (Outcome.pure ⟨?_, hroom, rfl, rfl, hbooks.sets⟩))
    refine hw'.move ?_ id ⟨rfl, rfl, rfl, fun _ => rfl⟩ fires_modifyTouch
    rw [eq_nil_of_length_eq_zero hpages, append_nil, append_assoc]
    exact .refl _

theorem not_covers_of_add {a b need more : RsUnits} (h : a = b.add need) (hcovers : b.covers more = false) :
    a.covers (need.add more) = false := by
  rw [← Bool.not_eq_true, covers_iff] at hcovers ⊢
  subst h
  unfold RsUnits.add
  dsimp only
  omega

theorem not_covers_mono (hcovers : a.covers need = false) : a.covers (need.add more) = false := by
  rw [← Bool.not_eq_true, covers_iff] at hcovers ⊢
  unfold RsUnits.add
  dsimp only
  omega

theorem prepareWrite_outcome (hw : Waits h₀ h ids seqs) (hget : h.store.workingSets.get ws = some entry) :
    Outcome True (prepareWrite group ws h)
      (fun write h' => Waits h₀ h' (ids ++ write.allocated) (seqs ++ [write.seq]) ∧
        ∃ units, unitsOf h.store ws group = .ok units ∧ room h = (room h').add units)
      fun _ h' => Waits h₀ h' ids seqs ∧
        ∀ units, unitsOf h.store ws group = .ok units → (room h).covers units = false := by
  unfold prepareWrite
  refine Outcome.bind (Outcome.get (Outcome.bind (lift_outcome (fun plan hplan => ?_) (fun e he => ?_) fun _ => trivial)))
  · have hunits : unitsOf h.store ws group =
        ((h.store.groupDemand ws plan.writeState plan.fresh plan.writes).mapError asStore).map fun units =>
          units.add ⟨group.snapshots.length, 0⟩ := by
      unfold unitsOf
      rw [hplan]
      rfl
    refine Outcome.bind (onStore_outcome (((prepareGroup_outcome hw hget fun _ => trivial).mono
      fun write h' ⟨hw', ⟨units, hdemand, hroom⟩, _⟩ => ?taken).mono_error
        fun _ h' ⟨hw', hcovers⟩ => ⟨hw', fun units hu => ?refused⟩))
    case taken =>
      have hunits' : unitsOf h.store ws group = .ok (units.add ⟨group.snapshots.length, 0⟩) := by
        rw [hunits, hdemand]
        rfl
      refine orElseCancel_outcome (onStore_outcome (((prepareSnapshots_outcome hw').mono
        fun write' h'' ⟨hw'', hroom', _⟩ => ?landed).mono_error fun _ h'' ⟨heq, hcovers⟩ => ?short))
      case landed =>
        refine ⟨hw'', _, hunits', ?_⟩
        rw [hroom, hroom']
        unfold RsUnits.add
        dsimp only
        rw [RsUnits.mk.injEq]
        omega
      case short =>
        subst heq
        refine ⟨Waits.cancel (hw'.swap), fun units' hu => ?_⟩
        rw [hunits'] at hu
        rw [← Except.ok.inj hu]
        exact not_covers_of_add hroom hcovers
    case refused =>
      rw [hunits] at hu
      cases hdemand : h.store.groupDemand ws plan.writeState plan.fresh plan.writes with
      | error e =>
        rw [hdemand] at hu
        exact nomatch hu
      | ok need =>
        rw [hdemand] at hu
        rw [← Except.ok.inj hu]
        exact not_covers_mono (hcovers need hdemand)
  · refine ⟨hw, fun units hu => ?_⟩
    unfold unitsOf at hu
    rw [he] at hu
    exact nomatch hu

/-- The group's working set is not there. -/
def Unknown (s : RsStore) (sets : List RsWorkingSetId) (group : GroupPlan) : Prop :=
  ∃ ws, setOf sets group = .ok ws ∧ s.workingSets.get ws = none

theorem laneSlot_errorless {state : Option RsStateTarget} {held : Option RsSlotId} {out : PreparedRs} {lane : Nat × Nat} :
    Errorless (laneSlot state held out lane) := by
  have hassign : ∀ {α : Type} {list : List α} {index : Nat} {value : α}, Errorless (assign list index value) := by
    intro α list index value
    unfold assign
    split
    · exact .ok
    · exact .panic
  unfold laneSlot
  split
  · refine hassign.bind fun _ => ?_
    dsimp only
    split
    · exact hassign.bind fun _ => .ok
    · exact .ok
  · exact hassign.bind fun _ => hassign.bind fun _ => .ok
  · exact hassign.bind fun _ => .ok
  · exact .ok

theorem setOf_errorless : Errorless (Rs.setOf sets group) := by
  unfold Rs.setOf
  split
  · exact .ok
  · exact .panic

/-- What the writes of a call have under way. -/
abbrev WaitsFor (h₀ h : Held) (prepared : List RsPreparedWrite) : Prop :=
  Waits h₀ h (prepared.flatMap RsPreparedWrite.allocated) (prepared.map RsPreparedWrite.seq)

theorem WaitsFor.snoc {prepared : List RsPreparedWrite}
    (hw : Waits h₀ h (prepared.flatMap RsPreparedWrite.allocated ++ write.allocated)
      (prepared.map RsPreparedWrite.seq ++ [write.seq])) : WaitsFor h₀ h (prepared ++ [write]) := by
  unfold WaitsFor
  rw [flatMap_append, map_append, flatMap_singleton, map_singleton]
  exact hw

/-- One group more is prepared; or its working set is not there, and nothing is cancelled; or all is cancelled,
and there was too little for what the group takes. -/
theorem prepareOne_outcome {p : Preparing} (hw : WaitsFor h₀ h p.prepared) : Outcome True (prepareOne sets p group h)
      (fun p' h' => WaitsFor h₀ h' p'.prepared ∧ p'.prepared ≠ [] ∧
        ∃ units, groupUnits h.store sets group = .ok units ∧ room h = (room h').add units)
      fun _ h' => (Unknown h.store sets group ∧ WaitsFor h₀ h' p.prepared) ∨
        (¬ Unknown h.store sets group ∧ Waits h₀ h' [] [] ∧
          ∀ units, groupUnits h.store sets group = .ok units → (room h).covers units = false) := by
  unfold prepareOne
  refine Outcome.bind (errorless_outcome setOf_errorless fun ws hws => ?_)
  have hunits : groupUnits h.store sets group = unitsOf h.store ws group := by
    rw [groupUnits_eq, hws]
    rfl
  rw [hunits]
  refine Outcome.bind (Outcome.get ?_)
  cases hget : h.store.workingSets.get ws with
  | none =>
    refine Outcome.bind (lift_outcome (fun held hheld => ?_) (fun e he => .inl ⟨⟨ws, hws, hget⟩, hw⟩) fun _ => trivial)
    unfold foldedSlot entry at hheld
    rw [hget] at hheld
    exact nomatch hheld
  | some entry =>
    have hknown : ¬ Unknown h.store sets group := by
      intro ⟨ws', hws', hgone⟩
      obtain rfl : ws = ws' := Except.ok.inj (hws.symm.trans hws')
      rw [hget] at hgone
      exact nomatch hgone
    refine Outcome.bind (lift_outcome (fun held _ => ?_) (fun e he => ?_) fun _ => trivial)
    · refine Outcome.bind (nameLanes_outcome (orElseCancel_outcome (((prepareWrite_outcome hw hget).mono
        fun write h' ⟨hw', hroom⟩ => ?prepared).mono_error
        fun _ h' ⟨hw', hcovers⟩ => .inr ⟨hknown, hw'.cancelAll, hcovers⟩)))
      case prepared =>
        refine Outcome.bind (errorless_outcome (.foldlM fun _ _ _ => laneSlot_errorless) fun out _ => ?_)
        refine Outcome.bind (Outcome.get (Outcome.pure ⟨WaitsFor.snoc hw', ?_, hroom⟩))
        exact append_ne_nil_of_right_ne_nil _ (cons_ne_nil _ _)
    · unfold foldedSlot at he
      rw [entry_of_get hget] at he
      exact nomatch he

end Groups

end Pie.Proof.Rollbacks
