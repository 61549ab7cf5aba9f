import Mathlib.Data.List.TakeWhile
import Pie.Proof.Passes
import Pie.Scheduler.Parks

/-!
# A parked lane is not waited for

What a plan does to one lane follows from what retiring parks, one pass and the
gate do to it. A lane that parked after all its frames is idle, or waits for its
park behind a frame that fires; the park is served when that frame has gone.
-/

namespace Pie.Proof.Parks

open List Option Std Pie.Scheduler Pie.Scheduler.Parks Lib.Maps Lib.Systems FramePolicy Passes

/-! ## What a plan does to one lane -/

/-- Predicates of a lane: when a plan is asked for, once parks are retired, and in the end. -/
structure Rule (k : Nat) (E J R : LaneState → Prop) : Prop where
  retire : ∀ s, E s → J (retirePark s)
  done : ∀ s, J s → R s
  again : ∀ s, R s → E s
  flag : ∀ s b, J s → J { s with firedThisBoundary := b }
  flagDone : ∀ s b, R s → R { s with firedThisBoundary := b }
  drop : ∀ s front rest, J s → s.frames = front :: rest → front.isComplete = true → live k front = [] →
    J { s with frames := rest }
  place : ∀ s front rest, J s → s.frames = front :: rest → front.isComplete = true → live k front ≠ [] →
    R { s with frames := rest }
  gate : ∀ (p : FramePolicy) now id s, J s → J (p.gateLane now id s).1

/-- The lane, if it is there, is as the predicate says. -/
def Has (J : LaneState → Prop) (lane : ProcessId) (lanes : TreeMap ProcessId LaneState) : Prop :=
  ∀ s, lanes[lane]? = some s → J s

variable {k : Nat} {E J R : LaneState → Prop} {lane : ProcessId} {p : FramePolicy}

theorem Has.map {lanes : TreeMap ProcessId LaneState} (h : Has E lane lanes) {f : ProcessId → LaneState → LaneState}
    (hf : ∀ s, E s → J (f lane s)) : Has J lane (lanes.map f) := by
  intro s hs
  rw [TreeMap.getElem?_map, map_eq_some_iff] at hs
  obtain ⟨s₀, hs₀, rfl⟩ := hs
  exact hf s₀ (h s₀ hs₀)

theorem Has.retain {lanes : TreeMap ProcessId LaneState} (h : Has J lane lanes) {f : ProcessId → LaneState → Bool} :
    Has J lane (retain f lanes) := by
  intro s hs
  rw [getElem?_retain, filter_eq_some_iff] at hs
  exact h s hs.1

theorem Has.modify {lanes : TreeMap ProcessId LaneState} (h : Has J lane lanes) {other : ProcessId}
    {f : LaneState → LaneState} (hf : ∀ s, J s → J (f s)) : Has J lane (lanes.modify other f) := by
  intro s hs
  by_cases ho : other = lane
  · subst ho
    rw [TreeMap.getElem?_modify_self, map_eq_some_iff] at hs
    obtain ⟨s₀, hs₀, rfl⟩ := hs
    exact hf s₀ (h s₀ hs₀)
  · rw [getElem?_modify_ne ho] at hs
    exact h s hs

/-! ### The order of a pass -/

theorem ready_nodup (p : FramePolicy) : (p.ready.map Prod.fst).Nodup := by
  have hkeys : (p.lanes.toList.map Prod.fst).Nodup := by
    rw [TreeMap.map_fst_toList_eq_keys]
    exact TreeMap.nodup_keys
  exact hkeys.sublist (filter_sublist.map _)

theorem ranked_perm (schedule : Option (ProcessId → Int)) (lanes : List (ProcessId × LaneState)) :
    (ranked schedule lanes).Perm (lanes.map Prod.fst) := by
  unfold ranked
  cases schedule with
  | none => exact .refl _
  | some key => exact (perm_insertionSort _ _).map _

theorem sealOrder_perm (fresh continuing : List ProcessId) : (sealOrder fresh continuing).Perm (fresh ++ continuing) := by
  unfold sealOrder
  split
  · exact .refl _
  · rename_i first rest
    rw [cons_append, cons_append]
    exact (perm_append_comm).cons first

theorem order_perm (p : FramePolicy) (schedule : Option (ProcessId → Int)) (split : ProcessId × LaneState → Bool) :
    (sealOrder (ranked schedule (p.ready.filter fun e => !split e)) (ranked schedule (p.ready.filter split))).Perm
      (p.ready.map Prod.fst) := by
  refine (sealOrder_perm _ _).trans (((ranked_perm schedule _).append (ranked_perm schedule _)).trans ?_)
  rw [← map_append]
  exact (perm_append_comm.trans (filter_append_perm split p.ready)).map _

variable {s : LaneState} {executing : Bool} {now : Instant} {plan : Option FramePlan}
  {schedule : Option (ProcessId → Int)} {front : PendingFrame} {rest : List PendingFrame}

theorem mem_ready (h : lane ∈ p.ready.map Prod.fst) (hs : p.lanes[lane]? = some s) : s.frontComplete = true := by
  obtain ⟨e, he, rfl⟩ := mem_map.mp h
  obtain ⟨hmem, hready⟩ := mem_filter.mp he
  rw [TreeMap.mem_toList_iff_getElem?_eq_some.mp hmem] at hs
  rw [← some.inj hs]
  exact (Bool.and_eq_true _ _ ▸ hready).1

/-! ### Sealing -/

/-- What a pass does: a lane it placed is among its members. -/
theorem Rule.pass (hr : Rule p.k E J R) (h : Has J lane p.lanes) {order : List ProcessId}
    (horder : order.Perm (p.ready.map Prod.fst)) :
    Has R lane (p.fillWaves order).lanes ∧ ((p.fillWaves order).members = [] → Has J lane (p.fillWaves order).lanes) := by
  have hnodup : order.Nodup := horder.nodup_iff.mpr (ready_nodup p)
  obtain ⟨houtside, hpassed⟩ := @fillWaves_passed p order hnodup lane
  -- A lane that the pass changed was ready.
  have hready : ∀ {s : LaneState} {front : PendingFrame} {rest : List PendingFrame}, p.lanes[lane]? = some s →
      s.frames = front :: rest → lane ∈ order → front.isComplete = true := by
    intro s front rest hs hframes hin
    have hcomplete := mem_ready (horder.mem_iff.mp hin) hs
    unfold LaneState.frontComplete at hcomplete
    rw [hframes] at hcomplete
    exact hcomplete
  by_cases hin : lane ∈ order
  · cases hpassed with
    | kept hkept =>
      have hall : Has J lane (p.fillWaves order).lanes := fun s hs => h s (hkept ▸ hs)
      exact ⟨fun s hs => hr.done s (hall s hs), fun _ => hall⟩
    | @dropped s front rest ho hs hlive hnew =>
      have hall : Has J lane (p.fillWaves order).lanes := by
        intro s' hs'
        rw [hnew] at hs'
        rw [← some.inj hs']
        exact hr.drop s front rest (h s ho) hs (hready ho hs hin) hlive
      exact ⟨fun s hs => hr.done s (hall s hs), fun _ => hall⟩
    | @placed s front rest ho hs hlive hnew hmember =>
      refine ⟨fun s' hs' => ?_, fun hnone => absurd hnone hmember⟩
      rw [hnew] at hs'
      rw [← some.inj hs']
      exact hr.place s front rest (h s ho) hs (hready ho hs hin) hlive
  · have hall : Has J lane (p.fillWaves order).lanes := fun s hs => h s (houtside hin ▸ hs)
    exact ⟨fun s hs => hr.done s (hall s hs), fun _ => hall⟩

theorem Rule.sealFrame (hr : Rule k E J R) {fill : Fill} (h : Has R lane fill.lanes) (midBoundary : Bool) :
    Has R lane (p.sealFrame fill midBoundary).lanes := by
  have hopen : Has R lane (if midBoundary then { p with lanes := fill.lanes }
      else { p with lanes := fill.lanes }.openBoundary).lanes := by
    split
    · exact h
    · exact h.map fun s hs => hr.flagDone s false hs
  have hflags : ∀ {members : List ProcessId} {lanes : TreeMap ProcessId LaneState}, Has R lane lanes → Has R lane
      (members.foldl (fun lanes member => lanes.modify member fun lane => { lane with firedThisBoundary := true }) lanes) := by
    intro members
    induction members with
    | nil => exact fun h => h
    | cons member members ih => exact fun h => ih (h.modify fun s hs => hr.flagDone s true hs)
  exact (hflags hopen).retain

/-- A frame was sealed, or the lane is as before. -/
theorem Rule.sealLoop (hk : 0 < k) (hr : Rule k E J R) {schedule : Option (ProcessId → Int)} {midBoundary : Bool} :
    ∀ {rounds : Nat} {p p' : FramePolicy} {done : Bool}, p.k = k → Has J lane p.lanes →
      p.sealLoop schedule midBoundary rounds = some (done, p') →
      p'.k = k ∧ Has R lane p'.lanes ∧ (done = false → Has J lane p'.lanes) := by
  intro rounds
  induction rounds with
  | zero => exact fun _ _ h => (nomatch h)
  | succ rounds ih =>
    intro p p' done hpk hJ h
    unfold FramePolicy.sealLoop at h
    dsimp only at h
    split at h
    · cases h
      exact ⟨hpk, fun s hs => hr.done s (hJ s hs), fun _ => hJ⟩
    · subst hpk
      obtain ⟨hR, hnone⟩ := hr.pass hJ (order_perm p schedule fun e => midBoundary && e.2.firedThisBoundary)
      have hwaved := @fillWaves_waved p hk (sealOrder
        (ranked schedule (p.ready.filter fun e => !(midBoundary && e.2.firedThisBoundary)))
        (ranked schedule (p.ready.filter fun e => midBoundary && e.2.firedThisBoundary)))
      split at h
      · rename_i hempty
        have hmembers : ∀ {fill : Fill}, Waved p.k fill → fill.waves.all isEmpty = true → fill.members = [] := by
          intro fill hw hall
          by_contra hne
          obtain ⟨wave, hwave, hne⟩ := hw.busy hne
          exact hne (List.isEmpty_iff.mp (all_eq_true.mp hall wave hwave))
        have hJ' := hnone (hmembers hwaved hempty)
        split at h
        · refine ih ?_ ?_ h
          · rfl
          · exact hJ'
        · cases h
          exact ⟨rfl, fun s hs => hr.done s (hJ'.retain s hs), fun _ => hJ'.retain⟩
      · cases h
        refine ⟨?_, hr.sealFrame hR midBoundary, fun hf => (nomatch hf)⟩
        unfold FramePolicy.sealFrame
        dsimp only
        split <;> rfl

theorem Rule.sealOnce (hk : 0 < k) (hr : Rule k E J R) {schedule : Option (ProcessId → Int)} {rounds : Nat}
    {p' : FramePolicy} {done : Bool} (hpk : p.k = k) (hJ : Has J lane p.lanes)
    (h : p.sealOnce schedule rounds = some (done, p')) :
    p'.k = k ∧ Has R lane p'.lanes ∧ (done = false → Has J lane p'.lanes) := by
  unfold FramePolicy.sealOnce at h
  split at h
  · exact hr.sealLoop hk hpk hJ h
  · cases h
    exact ⟨hpk, fun s hs => hr.done s (hJ s hs), fun _ => hJ⟩

/-! ### A call -/

theorem dropUnqueued_lanes (p : FramePolicy) (stillQueued : List Nat) : (p.dropUnqueued stillQueued).lanes = p.lanes := rfl

theorem cohortVerdict_lanes (p : FramePolicy) (now : Instant) : (p.cohortVerdict now).2.lanes = p.lanes := rfl

theorem gate_lanes (p : FramePolicy) (now : Instant) :
    (p.gate now).2.2.lanes = p.lanes.map fun id lane => (p.gateLane now id lane).1 := rfl

theorem Rule.closed (hk : 0 < k) (hr : Rule k E J R) {rounds : Nat} {p' : FramePolicy} (hpk : p.k = k)
    (hJ : Has J lane p.lanes) (h : p.planClosed executing now schedule rounds = some (plan, p')) :
    p'.k = k ∧ Has R lane p'.lanes := by
  have hJgate : Has J lane ((p.cohortVerdict now).2.gate now).2.2.lanes := by
    rw [gate_lanes, cohortVerdict_lanes]
    exact hJ.map fun s hs => hr.gate _ now lane s hs
  have hdone : ∀ {lanes : TreeMap ProcessId LaneState}, Has J lane lanes → Has R lane lanes :=
    fun h s hs => hr.done s (h s hs)
  have hsealed : ∀ {q q' : FramePolicy} {done : Bool}, q.k = k → Has J lane q.lanes →
      q.sealOnce schedule rounds = some (done, q') → q'.k = k ∧ Has R lane q'.lanes := by
    intro q q' done hq hJ h
    obtain ⟨hk', hR, -⟩ := hr.sealOnce hk hq hJ h
    exact ⟨hk', hR⟩
  unfold planClosed at h
  dsimp only at h
  split at h
  · cases h
    exact ⟨hpk, hdone hJ⟩
  · split at h
    · cases h
      exact ⟨hpk, hdone hJ⟩
    · split at h
      · cases h
        exact ⟨hpk, hdone hJgate⟩
      · split at h
        · split at h <;>
          · cases h
            exact ⟨hpk, hdone hJgate⟩
        · split at h
          · cases h
          · rename_i hseal
            cases h
            refine hsealed ?_ ?_ hseal
            · exact hpk
            · exact hJgate
          · rename_i hseal
            cases h
            refine hsealed ?_ ?_ hseal
            · exact hpk
            · exact hJgate

/-- **What a call does to a lane**, and what the lane is at each gate of the call. -/
theorem Rule.planDispatch (hk : 0 < k) (hr : Rule k E J R) {stillQueued : List Nat} {blocked : Finset ProcessId}
    {executing : Bool} {now : Instant} {schedule : Option (ProcessId → Int)} : ∀ {rounds : Nat} {p : FramePolicy},
      p.k = k → Has E lane p.lanes →
      (∀ plan p', p.planDispatch stillQueued blocked executing now schedule rounds = some (plan, p') →
        p'.k = k ∧ Has R lane p'.lanes) ∧
      ∀ atGate ∈ gates stillQueued blocked executing now schedule rounds p, Has J lane atGate.lanes := by
  intro rounds
  induction rounds with
  | zero => exact fun _ _ => ⟨fun _ _ h => (nomatch h), fun _ h => (nomatch h)⟩
  | succ rounds ih =>
    intro p hpk hE
    have hstart : Has J lane (p.retireParks.dropUnqueued stillQueued).lanes := by
      rw [dropUnqueued_lanes]
      exact hE.map fun s hs => hr.retire s hs
    have hk₀ : (p.retireParks.dropUnqueued stillQueued).k = k := hpk
    unfold FramePolicy.planDispatch gates
    dsimp only
    generalize p.retireParks.dropUnqueued stillQueued = p₀ at hstart hk₀
    cases hsealed : p₀.sealed with
    | cons front rest =>
      refine ⟨fun plan p' h => ?_, fun _ h => (nomatch h)⟩
      dsimp only at h
      have hsame : p'.k = p₀.k ∧ p'.lanes = p₀.lanes := by
        unfold dispatchFront at h
        split at h
        · cases h
          exact ⟨rfl, rfl⟩
        · cases h
          exact ⟨rfl, rfl⟩
      rw [hsame.1, hsame.2]
      exact ⟨hk₀, fun s hs => hr.done s (hstart s hs)⟩
    | nil =>
      dsimp only
      have hseal : ∀ {done : Bool} {p₁ : FramePolicy},
          (if p₀.boundaryOpen then p₀.sealOnce schedule rounds else some (false, p₀)) = some (done, p₁) →
          p₁.k = k ∧ Has R lane p₁.lanes ∧ (done = false → Has J lane p₁.lanes) := by
        intro done p₁ h
        split at h
        · exact hr.sealOnce hk hk₀ hstart h
        · cases h
          exact ⟨hk₀, fun s hs => hr.done s (hstart s hs), fun _ => hstart⟩
      cases hs : (if p₀.boundaryOpen then p₀.sealOnce schedule rounds else some (false, p₀)) with
      | none => exact ⟨fun _ _ h => (nomatch h), fun _ h => (nomatch h)⟩
      | some r =>
        obtain ⟨done, p₁⟩ := r
        obtain ⟨hk₁, hR₁, hJ₁⟩ := hseal hs
        cases done with
        | true => exact ih hk₁ fun s hs => hr.again s (hR₁ s hs)
        | false =>
          dsimp only
          have hclosed : Has J lane (if p₀.boundaryOpen then p₁.closeBoundary else p₁).lanes := by
            split
            · exact (hJ₁ rfl).map fun s hs => hr.flag s true hs
            · exact hJ₁ rfl
          have hk₂ : (if p₀.boundaryOpen then p₁.closeBoundary else p₁).k = k := by
            split <;> exact hk₁
          generalize (if p₀.boundaryOpen then p₁.closeBoundary else p₁) = p₂ at hclosed hk₂
          have hgate : Has J lane (p₂.cohortVerdict now).2.lanes := hclosed
          cases hplan : p₂.planClosed executing now schedule rounds with
          | none =>
            refine ⟨fun _ _ h => (nomatch h), fun atGate h => ?_⟩
            split at h
            · cases h
            · rw [mem_singleton.mp h]
              exact hgate
          | some r =>
            obtain ⟨plan?, p₃⟩ := r
            obtain ⟨hk₃, hR₃⟩ := hr.closed hk hk₂ hclosed hplan
            cases plan? with
            | none =>
              obtain ⟨h₁, h₂⟩ := @ih p₃ hk₃ fun s hs => hr.again s (hR₃ s hs)
              refine ⟨h₁, fun atGate h => ?_⟩
              split at h
              · cases h
              · rcases mem_cons.mp h with rfl | h
                · exact hgate
                · exact h₂ atGate h
            | some plan =>
              refine ⟨fun _ _ h => ?_, fun atGate h => ?_⟩
              · cases h
                exact ⟨hk₃, hR₃⟩
              · split at h
                · cases h
                · rw [mem_singleton.mp h]
                  exact hgate

/-- The gate of a closed boundary is evaluated. -/
def Gated (p : FramePolicy) (now : Instant) : Prop :=
  (p.lanes.toList.all (fun e => e.2.frames.isEmpty) || (p.cohortVerdict now).1 ≠ []) ≠ true

theorem planClosed_gated {rounds : Nat} {p' : FramePolicy} (h : p.planClosed executing now schedule rounds = some (plan, p')) :
    (plan = none → Gated p now) ∧ ∀ doomed pid, plan = some (.terminate doomed) → (pid, Doom.abandoned) ∈ doomed →
      Gated p now ∧ ∃ other state, (p.cohortVerdict now).2.lanes[other]? = some state ∧
        ((p.cohortVerdict now).2.gateLane now other state).2 = .expired pid := by
  unfold Gated
  unfold planClosed at h
  dsimp only at h
  split at h
  · cases h
    exact ⟨nofun, fun _ _ h => (nomatch h)⟩
  · rename_i hframes
    split at h
    · -- A cohort that never came together is no abandoned lane.
      cases h
      refine ⟨nofun, fun doomed pid hdoomed hpid => ?_⟩
      cases hdoomed
      obtain ⟨e, -, he⟩ := mem_filterMap.mp hpid
      split at he
      · cases he
      · cases he
    · rename_i hdoomed
      have hgated : (p.lanes.toList.all (fun e => e.2.frames.isEmpty) || (p.cohortVerdict now).1 ≠ []) ≠ true := by
        rw [Bool.not_eq_true] at hframes
        rw [hframes, Bool.false_or, ne_eq, decide_eq_true_iff]
        exact hdoomed
      split at h
      · cases h
        refine ⟨nofun, fun doomed pid hdoomed hpid => ⟨hgated, ?_⟩⟩
        cases hdoomed
        obtain ⟨pid', hpid', he⟩ := mem_map.mp hpid
        obtain rfl := (Prod.mk.inj he).1
        rw [mem_dedup, mem_insertionSort] at hpid'
        obtain ⟨outcome, houtcome, hexpired⟩ := mem_filterMap.mp hpid'
        obtain ⟨e, he, rfl⟩ := mem_map.mp houtcome
        refine ⟨e.1, e.2, TreeMap.mem_toList_iff_getElem?_eq_some.mp he, ?_⟩
        split at hexpired
        · rename_i hout
          rw [hout, some.inj hexpired]
        · cases hexpired
      · split at h
        · split at h <;>
          · cases h
            exact ⟨nofun, fun _ _ h => (nomatch h)⟩
        · split at h
          · cases h
          · cases h
            exact ⟨fun _ => hgated, fun _ _ h => (nomatch h)⟩
          · cases h
            refine ⟨nofun, fun doomed pid hdoomed _ => ?_⟩
            split at hdoomed <;> cases hdoomed

/-- Who is given up as abandoned is so at a gate, for a lane whose time is over. -/
theorem terminate_gates {stillQueued : List Nat} {blocked : Finset ProcessId} {doomed : List (ProcessId × Doom)} {pid : ProcessId}
    (hpid : (pid, Doom.abandoned) ∈ doomed) : ∀ {rounds : Nat} {p p' : FramePolicy},
      p.planDispatch stillQueued blocked executing now schedule rounds = some (.terminate doomed, p') →
      ∃ atGate ∈ gates stillQueued blocked executing now schedule rounds p, ∃ other state,
        atGate.lanes[other]? = some state ∧ (atGate.gateLane now other state).2 = .expired pid := by
  intro rounds
  induction rounds with
  | zero => exact nofun
  | succ rounds ih =>
    intro p p' h
    unfold planDispatch at h
    unfold gates
    dsimp only at h ⊢
    generalize p.retireParks.dropUnqueued stillQueued = p₀ at h ⊢
    cases hsealed : p₀.sealed with
    | cons front rest =>
      rw [hsealed] at h
      dsimp only at h
      unfold dispatchFront at h
      split at h <;> cases h
    | nil =>
      rw [hsealed] at h
      dsimp only at h ⊢
      cases hs : (if p₀.boundaryOpen then p₀.sealOnce schedule rounds else some (false, p₀)) with
      | none =>
        rw [hs] at h
        cases h
      | some r =>
        obtain ⟨done, p₁⟩ := r
        rw [hs] at h
        cases done with
        | true => exact ih h
        | false =>
          dsimp only at h ⊢
          generalize (if p₀.boundaryOpen then p₁.closeBoundary else p₁) = p₂ at h ⊢
          cases hplan : p₂.planClosed executing now schedule rounds with
          | none =>
            rw [hplan] at h
            cases h
          | some r =>
            obtain ⟨plan?, p₃⟩ := r
            rw [hplan] at h
            obtain ⟨hnone, hsome⟩ := planClosed_gated hplan
            cases plan? with
            | none =>
              obtain ⟨atGate, hat, hother⟩ := ih h
              rw [if_neg (hnone rfl)]
              exact ⟨atGate, mem_cons_of_mem _ hat, hother⟩
            | some plan =>
              cases h
              obtain ⟨hgated, hother⟩ := hsome doomed pid rfl hpid
              rw [if_neg hgated]
              exact ⟨_, mem_cons_self, hother⟩

/-! ## A lane at rest -/

/-- A park ends the frames, after a frame that fires. -/
def Marked (k : Nat) (frames : List PendingFrame) : Prop :=
  ∃ front marker, frames = front ++ [marker] ∧ marker.park = true ∧ (∀ frame ∈ front, frame.park = false) ∧
    ∀ frame, front.getLast? = some frame → live k frame ≠ []

def Idle (s : LaneState) : Prop := s.frames = [] ∧ s.awaited = false ∧ s.leashed = false

/-- The lane waits for its park. It may have been let go of, while it has a frame that does not come whole. -/
def Waits (k : Nat) (s : LaneState) : Prop :=
  Marked k s.frames ∧ (s.leashed = false ∨ ∃ frame ∈ s.frames, frame.isComplete = false)

def Rests (k : Nat) (s : LaneState) : Prop := Idle s ∨ Waits k s

/-- No park is due. -/
def Settled (k : Nat) (s : LaneState) : Prop :=
  Idle s ∨ (Waits k s ∧ ∀ frame, s.frames.head? = some frame → frame.park = false)

theorem Settled.rests (h : Settled k s) : Rests k s := by
  rcases h with h | h
  · exact .inl h
  · exact .inr h.1

theorem park_isComplete {frame : PendingFrame} (h : frame.park = true) : frame.isComplete = true := by
  rw [PendingFrame.isComplete, h, Bool.true_or]

theorem retirePark_idle (h : Rests k s) (hpark : ∀ frame ∈ s.frames, frame.park = true) : Idle (retirePark s) := by
  rcases h with ⟨hframes, hawaited, hleashed⟩ | ⟨hmarked, hleashed⟩
  · have hnone : s.frames.dropWhile (·.park) = [] := by rw [hframes, dropWhile_nil]
    unfold retirePark
    rw [hnone, hframes]
    exact ⟨rfl, hawaited, hleashed⟩
  · have hnone : s.frames.dropWhile (·.park) = [] := dropWhile_eq_nil_iff.mpr hpark
    have hsome : s.frames.isEmpty = false := by
      obtain ⟨front, marker, hframes, -⟩ := hmarked
      rw [hframes, isEmpty_eq_false_iff]
      exact append_ne_nil_of_right_ne_nil _ (cons_ne_nil _ _)
    have hfree : s.leashed = false := by
      rcases hleashed with h | ⟨frame, hframe, hopen⟩
      · exact h
      · rw [park_isComplete (hpark frame hframe)] at hopen
        cases hopen
    unfold retirePark
    rw [hnone, hsome]
    exact ⟨rfl, rfl, hfree⟩

theorem retirePark_settled (h : Rests k s) : Settled k (retirePark s) := by
  by_cases hpark : ∀ frame ∈ s.frames, frame.park = true
  · exact .inl (retirePark_idle h hpark)
  rcases h with hidle | hwaits
  · rw [hidle.1] at hpark
    exact absurd (fun _ h => (nomatch h)) hpark
  · obtain ⟨front, marker, hframes, hmarker, hfront, -⟩ := hwaits.1
    -- The first frame is no park: there is one that is not, and only the last is.
    cases front with
    | nil =>
      refine absurd (fun frame hframe => ?_) hpark
      rw [hframes] at hframe
      rw [mem_singleton.mp hframe]
      exact hmarker
    | cons first front =>
      have hfirst := hfront first mem_cons_self
      have hsame : s.frames.dropWhile (·.park) = s.frames := by
        rw [hframes, cons_append, dropWhile_cons_of_neg (by rw [hfirst]; exact Bool.false_ne_true)]
      have hsome : s.frames.isEmpty = false := by
        rw [hframes]
        rfl
      have hretired : retirePark s = s := by
        unfold retirePark
        dsimp only
        rw [hsame, hsome]
        rfl
      rw [hretired]
      refine .inr ⟨hwaits, fun frame hframe => ?_⟩
      rw [hframes] at hframe
      rw [← some.inj hframe]
      exact hfirst

/-- What is left of the frames when the first goes, which is no park. -/
theorem Marked.tail (h : Marked k (front :: rest))
    (hpark : front.park = false) : Marked k rest ∧ (live k front = [] → ∀ frame, rest.head? = some frame → frame.park = false) := by
  obtain ⟨before, marker, hframes, hmarker, hbefore, hlast⟩ := h
  cases before with
  | nil =>
    cases hframes
    rw [hmarker] at hpark
    cases hpark
  | cons first before =>
    cases hframes
    refine ⟨⟨before, marker, rfl, hmarker, fun frame hf => hbefore frame (mem_cons_of_mem _ hf), fun frame hf => ?_⟩,
      fun hlive frame hf => ?_⟩
    · cases before with
      | nil => cases hf
      | cons second before => exact hlast frame (by rw [getLast?_cons_cons]; exact hf)
    · cases before with
      | nil => exact absurd hlive (hlast front rfl)
      | cons second before =>
        rw [← some.inj hf]
        exact hbefore second (mem_cons_of_mem _ mem_cons_self)

theorem frontComplete_of_blocking {owes : Bool} (h : (s.gateVerdict false owes == .blocking) = true) :
    s.frontComplete = false := by
  unfold LaneState.gateVerdict at h
  cases hf : s.frontComplete with
  | false => rfl
  | true =>
    rw [hf, Bool.or_true, if_pos rfl] at h
    exact absurd h (by decide)

theorem gateLane_keeps (p : FramePolicy) (now : Instant) (id : ProcessId) (s : LaneState) :
    (p.gateLane now id s).1.frames = s.frames ∧
      ((p.gateLane now id s).1.leashed = true → s.leashed = true ∨ s.frontComplete = false) := by
  generalize hr : p.gateLane now id s = r
  unfold gateLane at hr
  extract_lets owes debtSince owesForever blocking rest lane at hr
  have hblocking : blocking = true → s.frontComplete = false := frontComplete_of_blocking
  have hlane : lane.frames = s.frames ∧ lane.leashed = s.leashed := by
    dsimp only [lane]
    split <;> exact ⟨rfl, rfl⟩
  clear_value owesForever lane
  split at hr
  · rw [← hr]
    exact ⟨rfl, .inl⟩
  · split at hr
    · rw [← hr]
      exact ⟨rfl, .inl⟩
    · split at hr
      · split at hr
        · rw [← hr]
          exact ⟨hlane.1, nofun⟩
        · split at hr
          · rename_i hb
            rw [← hr]
            exact ⟨hlane.1, fun _ => .inr (hblocking (Bool.and_eq_true _ _ ▸ hb).1)⟩
          · rw [← hr]
            exact ⟨hlane.1, fun h => .inl (hlane.2 ▸ h)⟩
      · rw [← hr]
        exact ⟨hlane.1, fun h => .inl (hlane.2 ▸ h)⟩

theorem gateLane_idle (h : Idle s) (p : FramePolicy) (now : Instant) (id : ProcessId) :
    Idle (p.gateLane now id s).1 ∧ (p.gateLane now id s).2 = .fine := by
  obtain ⟨hframes, hawaited, hleashed⟩ := h
  have hverdict : ∀ owes, (s.gateVerdict false owes == .blocking) = false := by
    intro owes
    unfold LaneState.gateVerdict
    rw [hawaited, Bool.not_false, Bool.true_or, if_pos rfl]
    rfl
  have hgate : p.gateLane now id s = ({ s with clockFrom := none }, .fine) := by
    unfold gateLane
    dsimp only
    rw [hverdict, hleashed]
    rfl
  rw [hgate]
  exact ⟨⟨hframes, hawaited, hleashed⟩, rfl⟩

/-! ### The rules -/

theorem Waits.of_frames {s s' : LaneState} (h : Waits k s) (hframes : s'.frames = s.frames)
    (hleashed : s'.leashed = true → s.leashed = true ∨ s.frontComplete = false) : Waits k s' := by
  rw [Waits, hframes]
  refine ⟨h.1, ?_⟩
  cases hl : s'.leashed with
  | false => exact .inl rfl
  | true =>
    right
    rcases hleashed hl with hl | hopen
    · exact h.2.resolve_left fun hf => by rw [hl] at hf; cases hf
    · -- The first frame has not come whole.
      obtain ⟨front, marker, hs, -⟩ := h.1
      unfold LaneState.frontComplete at hopen
      cases front with
      | nil =>
        rw [hs] at hopen ⊢
        exact ⟨marker, mem_cons_self, hopen⟩
      | cons first front =>
        rw [hs] at hopen ⊢
        exact ⟨first, mem_cons_self, hopen⟩

theorem Settled.marked (h : Settled k s) (hs : s.frames = front :: rest) : Waits k s ∧ front.park = false := by
  rcases h with hidle | ⟨hwaits, hhead⟩
  · rw [hidle.1] at hs
    cases hs
  · exact ⟨hwaits, hhead front (by rw [hs]; rfl)⟩

theorem Settled.tail {s : LaneState} {front : PendingFrame} {rest : List PendingFrame} (h : Settled k s)
    (hs : s.frames = front :: rest) (hcomplete : front.isComplete = true) : Waits k { s with frames := rest } := by
  obtain ⟨⟨hmarked, hleashed⟩, hpark⟩ := h.marked hs
  rw [hs] at hmarked hleashed
  refine ⟨(hmarked.tail hpark).1, hleashed.imp id fun ⟨frame, hframe, hopen⟩ => ⟨frame, ?_, hopen⟩⟩
  refine (mem_cons.mp hframe).resolve_left fun he => ?_
  rw [he, hcomplete] at hopen
  cases hopen

/-- A park is not next when a frame without fires goes. -/
theorem Settled.tail_head (h : Settled k s)
    (hs : s.frames = front :: rest) (hlive : live k front = []) : ∀ frame, rest.head? = some frame → frame.park = false := by
  obtain ⟨⟨hmarked, -⟩, hpark⟩ := h.marked hs
  rw [hs] at hmarked
  exact (hmarked.tail hpark).2 hlive

theorem restsRule (k : Nat) : Rule k (Rests k) (Settled k) (Rests k) where
  retire := fun _ => retirePark_settled
  done := fun _ => Settled.rests
  again := fun _ h => h
  flag := fun _ _ h => h
  flagDone := fun _ _ h => h
  drop := fun _ _ _ h hs hcomplete hlive => .inr ⟨h.tail hs hcomplete, h.tail_head hs hlive⟩
  place := fun _ _ _ h hs hcomplete _ => .inr (h.tail hs hcomplete)
  gate := by
    intro p now id s h
    rcases h with hidle | ⟨hwaits, hhead⟩
    · exact .inl (gateLane_idle hidle p now id).1
    · obtain ⟨hframes, hleashed⟩ := gateLane_keeps p now id s
      exact .inr ⟨hwaits.of_frames hframes hleashed, by rw [hframes]; exact hhead⟩

/-- What a lane whose frames are gone keeps being. -/
theorem idleRule (k : Nat) : Rule k (fun s => Rests k s ∧ ∀ frame ∈ s.frames, frame.park = true) Idle Idle where
  retire := fun _ h => retirePark_idle h.1 h.2
  done := fun _ h => h
  again := fun s h => ⟨.inl h, fun frame hframe => by rw [h.1] at hframe; cases hframe⟩
  flag := fun _ _ h => h
  flagDone := fun _ _ h => h
  drop := fun s front rest h hs => by rw [h.1] at hs; cases hs
  place := fun s front rest h hs => by rw [h.1] at hs; cases hs
  gate := fun p now id _ h => (gateLane_idle h p now id).1

/-! ## Runs -/

section Events

variable {other : ProcessId} {stamp : FrameStamp} {owner : Option ProcessId}

theorem recordArrival_other {fire : ArrivedFire} (h : other ≠ stamp.lane) :
    (p.recordArrival stamp owner fire).lanes[other]? = p.lanes[other]? := by
  unfold recordArrival
  cases owner <;> exact getElem?_insert_ne (Ne.symm h)

theorem recordArrival_k {fire : ArrivedFire} : (p.recordArrival stamp owner fire).k = p.k := by
  cases owner <;> rfl

theorem gatherCohort_same (p : FramePolicy) (lane : ProcessId) (owner : Option ProcessId) (cohort : Option (Nat × Nat))
    (now : Instant) : (p.gatherCohort lane owner cohort now).lanes = p.lanes ∧ (p.gatherCohort lane owner cohort now).k = p.k := by
  unfold gatherCohort
  split <;> exact ⟨rfl, rfl⟩

theorem onFireEnqueued_other {fireId tokens rows : Nat} {cohort : Option (Nat × Nat)} {now : Instant} (h : other ≠ stamp.lane) :
    (p.onFireEnqueued stamp owner fireId tokens rows cohort now).lanes[other]? = p.lanes[other]? ∧
      (p.onFireEnqueued stamp owner fireId tokens rows cohort now).k = p.k := by
  obtain ⟨hlanes, hk⟩ := gatherCohort_same p stamp.lane owner cohort now
  have hrecord := @recordArrival_other (p.gatherCohort stamp.lane owner cohort now) other stamp owner
    ⟨stamp.slot, some fireId, tokens, rows⟩ h
  have hkeep := @recordArrival_k (p.gatherCohort stamp.lane owner cohort now) stamp owner
    ⟨stamp.slot, some fireId, tokens, rows⟩
  rw [hlanes] at hrecord
  unfold onFireEnqueued
  dsimp only
  split
  · refine ⟨?_, hkeep.trans hk⟩
    rw [getElem?_modify_ne (Ne.symm h)]
    exact hrecord
  · exact ⟨hrecord, hkeep.trans hk⟩

theorem onFrameRetired_lane {lanes : List ProcessId} : ∀ {p : FramePolicy}, (p.onFrameRetired lanes).k = p.k ∧
    ∀ s, (p.onFrameRetired lanes).lanes[lane]? = some s → ∃ s₀, p.lanes[lane]? = some s₀ ∧ s.frames = s₀.frames ∧
      s.awaited = s₀.awaited ∧ s.leashed = s₀.leashed := by
  induction lanes with
  | nil => exact fun {p} => ⟨rfl, fun s hs => ⟨s, hs, rfl, rfl, rfl⟩⟩
  | cons first lanes ih =>
    intro p
    obtain ⟨hk, hlane⟩ := @ih { p with
      inFlightLanes := p.inFlightLanes.erase first
      inFlightSince := p.inFlightSince.erase first
      lanes := p.lanes.modify first fun state => { state with clockFrom := none } }
    refine ⟨hk, fun s hs => ?_⟩
    obtain ⟨s₁, hs₁, hframes, hawaited, hleashed⟩ := hlane s hs
    dsimp only at hs₁
    by_cases hf : first = lane
    · subst hf
      rw [TreeMap.getElem?_modify_self, map_eq_some_iff] at hs₁
      obtain ⟨s₀, hs₀, rfl⟩ := hs₁
      exact ⟨s₀, hs₀, hframes, hawaited, hleashed⟩
    · rw [getElem?_modify_ne hf] at hs₁
      exact ⟨s₁, hs₁, hframes, hawaited, hleashed⟩

theorem live_ne_nil {frame : PendingFrame} (h : ∃ fire ∈ frame.fires, fire.fireId.isSome) : live k frame ≠ [] := by
  obtain ⟨fire, hfire, hsome⟩ := h
  obtain ⟨fireId, hid⟩ := isSome_iff_exists.mp hsome
  have hlive : ⟨min fire.slot (k - 1), fireId, max fire.rows 1, fire.tokens⟩ ∈ live k frame :=
    mem_filterMap.mpr ⟨fire, hfire, by rw [hid]; rfl⟩
  exact ne_nil_of_mem hlive

/-- A park after all frames is the last of them. -/
theorem parkFrames_marked {seq : Nat} {frames : List PendingFrame} (habove : ∀ frame ∈ frames, frame.seq < seq)
    (hone : ∀ frame ∈ frames.dropLast, frame.park = false)
    (hlast : ∀ frame, (frames.filter fun frame => !frame.park).getLast? = some frame →
      ∃ fire ∈ frame.fires, fire.fireId.isSome) : Marked k (parkFrames seq frames) := by
  unfold parkFrames
  split
  · rename_i hpark
    obtain ⟨marker, hmarker, hp⟩ := any_eq_true.mp hpark
    have hne : frames ≠ [] := ne_nil_of_mem hmarker
    have hsplit := dropLast_append_getLast hne
    -- The park that is queued is the last frame, for none before it is one.
    have hend : (frames.getLast hne).park = true := by
      rw [← hsplit] at hmarker
      rcases mem_append.mp hmarker with h | h
      · rw [hone marker h] at hp
        cases hp
      · rw [← mem_singleton.mp h]
        exact hp
    refine ⟨frames.dropLast, frames.getLast hne, hsplit.symm, hend, hone, fun frame hframe => live_ne_nil (hlast frame ?_)⟩
    have hfilter : frames.filter (fun frame => !frame.park) = frames.dropLast := by
      conv_lhs => rw [← hsplit]
      rw [filter_append, filter_eq_self.mpr fun f hf => by rw [hone f hf]; rfl,
        filter_cons_of_neg (by rw [hend]; exact Bool.false_ne_true), filter_nil, append_nil]
    rw [hfilter]
    exact hframe
  · rename_i hpark
    have hnone : ∀ frame ∈ frames, frame.park = false := by
      intro frame hframe
      cases hp : frame.park with
      | false => rfl
      | true => exact absurd (any_eq_true.mpr ⟨frame, hframe, hp⟩) hpark
    have hbelow : ∀ frame ∈ frames, decide (frame.seq ≤ seq) = true := fun frame hframe =>
      decide_eq_true (habove frame hframe).le
    rw [takeWhile_eq_self_iff.mpr hbelow, dropWhile_eq_nil_iff.mpr hbelow]
    refine ⟨frames, _, rfl, rfl, hnone, fun frame hframe => live_ne_nil (hlast frame ?_)⟩
    rw [filter_eq_self.mpr fun f hf => by rw [hnone f hf]; rfl]
    exact hframe

end Events

/-- Every lane at rest is idle, or waits for its park. -/
structure RestInv (w : Parks.World) : Prop where
  k : 0 < w.policy.k
  rests : ∀ lane ∈ w.resting, Has (Rests w.policy.k) lane w.policy.lanes

theorem restInv_init (w : Parks.World) (h : Parks.World.Start w) : RestInv w := by
  obtain ⟨k, rows, tokens, submit, silence, hk, rfl⟩ := h
  exact ⟨hk, fun lane hl => absurd hl (Finset.notMem_empty lane)⟩

/-- An event of another lane leaves a lane at rest. -/
theorem RestInv.erase {w : Parks.World} (h : RestInv w) {policy : FramePolicy} {lane : ProcessId} (hk : policy.k = w.policy.k)
    (hother : ∀ other, other ≠ lane → policy.lanes[other]? = w.policy.lanes[other]?) :
    RestInv ⟨policy, w.resting.erase lane⟩ := by
  refine ⟨hk ▸ h.k, fun other hmem s hs => ?_⟩
  obtain ⟨hne, hrest⟩ := Finset.mem_erase.mp hmem
  have hs : policy.lanes[other]? = some s := hs
  rw [hother other hne] at hs
  change Rests policy.k s
  rw [hk]
  exact h.rests other hrest s hs

/-- **Kept by every step** of a run in which lanes park when they can. -/
theorem restInv_step {w w' : Parks.World} (h : RestInv w) (hs : Parks.World.Step True w w') : RestInv w' := by
  cases hs with
  | @fire stamp owner fireId tokens rows cohort now =>
    refine h.erase ?_ fun other hne => (onFireEnqueued_other hne).1
    exact (onFireEnqueued_other (Nat.succ_ne_self stamp.lane)).2
  | @reject stamp owner =>
    exact h.erase (@recordArrival_k w.policy stamp owner ⟨stamp.slot, none, 0, 0⟩)
      fun other hne => recordArrival_other hne
  | truncate => exact h.erase rfl fun other hne => getElem?_modify_ne (Ne.symm hne)
  | park => exact h.erase rfl fun other hne => getElem?_modify_ne (Ne.symm hne)
  | @rest lane seq habove hguard =>
    refine ⟨h.k, fun other hmem s hs => ?_⟩
    have hs : (w.policy.lanes.modify lane fun state => { state with frames := parkFrames seq state.frames })[other]? =
        some s := hs
    by_cases hne : lane = other
    · subst hne
      rw [TreeMap.getElem?_modify_self, map_eq_some_iff] at hs
      obtain ⟨s₀, hs₀, rfl⟩ := hs
      obtain ⟨hone, hlast, hfree⟩ := hguard trivial s₀ hs₀
      exact .inr ⟨parkFrames_marked (habove s₀ hs₀) hone hlast, .inl hfree⟩
    · rw [getElem?_modify_ne hne] at hs
      exact h.rests other (Finset.mem_of_mem_insert_of_ne hmem (Ne.symm hne)) s hs
  | @retired lanes =>
    refine ⟨?_, fun lane hmem s hs => ?_⟩
    · exact (@onFrameRetired_lane 0 lanes w.policy).1 ▸ h.k
    · obtain ⟨hk, hlane⟩ := @onFrameRetired_lane lane lanes w.policy
      obtain ⟨s₀, hs₀, hframes, hawaited, hleashed⟩ := hlane s hs
      change Rests (w.policy.onFrameRetired lanes).k s
      rw [hk]
      rcases h.rests lane hmem s₀ hs₀ with ⟨h₁, h₂, h₃⟩ | hwaits
      · exact .inl ⟨hframes.trans h₁, hawaited.trans h₂, hleashed.trans h₃⟩
      · exact .inr (hwaits.of_frames hframes fun hl => .inl (hleashed ▸ hl))
  | plan hplan =>
    have hkept := fun lane (hmem : lane ∈ w.resting) =>
      (@Rule.planDispatch _ _ _ _ lane h.k (restsRule w.policy.k) _ _ _ _ _ _ w.policy rfl (h.rests lane hmem)).1 _ _ hplan
    refine ⟨?_, fun lane hmem s hs => ?_⟩
    · have hk := ((@Rule.planDispatch _ (fun _ => True) (fun _ => True) (fun _ => True) 0 h.k
        ⟨fun _ _ => trivial, fun _ _ => trivial, fun _ _ => trivial, fun _ _ _ => trivial, fun _ _ _ => trivial,
          fun _ _ _ _ _ _ _ => trivial, fun _ _ _ _ _ _ _ => trivial, fun _ _ _ _ _ => trivial⟩
        _ _ _ _ _ _ w.policy rfl fun _ _ => trivial).1 _ _ hplan).1
      exact hk ▸ h.k
    · obtain ⟨hk, hrests⟩ := hkept lane hmem
      exact hk ▸ hrests s hs

theorem restInv_reachable {w : Parks.World} (h : Parks.World.Runs True w) : RestInv w :=
  h.invariant restInv_init fun _ _ _ => restInv_step

/-- **A parked lane is never waited for**, in a run in which each lane that parks after all its
frames has queued no frame since a park that is still queued, has a fire that was not rejected
in the last of its frames, and was not let go of. -/
theorem parked_never_waited_for {w : Parks.World} (hw : Parks.World.Runs True w) {lane : ProcessId} (hlane : lane ∈ w.resting) :
    NeverWaitedFor w lane := by
  intro hspent stillQueued blocked executing now schedule rounds
  have hinv := restInv_reachable hw
  have hentry : Has (fun s => Rests w.policy.k s ∧ ∀ frame ∈ s.frames, frame.park = true) lane w.policy.lanes :=
    fun s hs => ⟨hinv.rests lane hlane s hs, hspent s hs⟩
  obtain ⟨hafter, hgates⟩ := @Rule.planDispatch _ _ _ _ lane hinv.k (idleRule w.policy.k) stillQueued blocked executing now
    schedule rounds w.policy rfl hentry
  have hfine : ∀ atGate ∈ gates stillQueued blocked executing now schedule rounds w.policy, ∀ state,
      atGate.lanes[lane]? = some state → (atGate.gateLane now lane state).2 = .fine :=
    fun atGate hat state hs => (gateLane_idle (hgates atGate hat state hs) atGate now lane).2
  refine ⟨fun plan policy hplan => ⟨fun state hs => ((hafter plan policy hplan).2 state hs).2, ?_⟩, hfine⟩
  rintro doomed pid rfl hpid
  obtain ⟨atGate, hat, other, state, hs, hexpired⟩ := terminate_gates hpid hplan
  refine ⟨atGate, hat, other, fun he => ?_, state, hs, hexpired⟩
  subst he
  rw [hfine atGate hat state hs] at hexpired
  cases hexpired

/-! ## One lane that fires, and one whose fire is rejected -/

/-- The fire of a lane, as it was queued, or rejected. -/
def oneFire (rejected : Bool) : FramePolicy :=
  if rejected then (FramePolicy.new 1 100 100 10 100).onFireRejectedAtAdmission ⟨1, 1, 0, 1⟩ (some 1)
  else (FramePolicy.new 1 100 100 10 100).onFireEnqueued ⟨1, 1, 0, 1⟩ (some 1) 7 1 1 none 0

def oneFireLane (rejected : Bool) : LaneState where
  owner := some 1
  awaited := true
  parked := false
  leashed := false
  clockFrom := none
  frames := [⟨1, 1, false, false, [if rejected then ⟨0, none, 0, 0⟩ else ⟨0, some 7, 1, 1⟩]⟩]
  group := none
  firedThisBoundary := true

theorem oneFire_lane : ∀ rejected : Bool, (oneFire rejected).lanes[1]? = some (oneFireLane rejected) := by
  decide +kernel

/-- The lane parks after its fire; it can if the fire was not rejected. -/
theorem oneFire_rests (guarded : Prop) (rejected : Bool) (hguard : guarded → rejected = false) :
    ∃ resting, Parks.World.Runs guarded ⟨(oneFire rejected).onLanePark 1 2, resting⟩ ∧ 1 ∈ resting := by
  have hqueued : Parks.World.Runs guarded ⟨oneFire rejected, Finset.erase ∅ 1⟩ := by
    refine .step (.init ⟨1, 100, 100, 10, 100, Nat.one_pos, rfl⟩) ?_
    cases rejected
    · exact @Parks.World.Step.fire guarded ⟨.new 1 100 100 10 100, ∅⟩ ⟨1, 1, 0, 1⟩ (some 1) 7 1 1 none 0
    · exact @Parks.World.Step.reject guarded ⟨.new 1 100 100 10 100, ∅⟩ ⟨1, 1, 0, 1⟩ (some 1)
  refine ⟨_, .step hqueued (.rest ?_ fun hg => ?_), Finset.mem_insert_self 1 _⟩
  · intro state hstate frame hframe
    cases (oneFire_lane rejected).symm.trans hstate
    rw [mem_singleton.mp hframe]
    exact Nat.one_lt_two
  · intro state hstate
    cases (oneFire_lane rejected).symm.trans hstate
    rw [hguard hg]
    exact ⟨fun frame h => absurd h not_mem_nil, by decide, rfl⟩

theorem exists_of_any {α : Type} {test : α → Bool} {o : Option α} (h : o.any test = true) : ∃ a, o = some a ∧ test a = true := by
  cases o with
  | none => cases h
  | some a => exact ⟨a, rfl, h⟩

theorem parked_after_its_fire : ∃ w : Parks.World, 1 ∈ w.resting ∧ w.Spent 1 ∧ NeverWaitedFor w 1 := by
  obtain ⟨resting, hruns, hmem⟩ := oneFire_rests True false fun _ => rfl
  have hplan : (((oneFire false).onLanePark 1 2).planDispatch [7] ∅ false 0 none 10).any (fun r =>
      r.2.lanes[1]?.all fun state => state.frames.all (·.park)) = true := by decide +kernel
  obtain ⟨⟨plan, policy⟩, hplan, hspent⟩ := exists_of_any hplan
  refine ⟨⟨policy, resting⟩, hmem, fun state hstate => ?_, parked_never_waited_for (.step hruns (.plan hplan)) hmem⟩
  rw [show policy.lanes[1]? = some state from hstate] at hspent
  exact List.all_eq_true.mp hspent

/-- The lane whose only fire was rejected stays awaited when another lane fires, and its owner is given up. -/
theorem parked_lane_is_given_up : ∃ w : Parks.World, Parks.World.Runs False w ∧ 1 ∈ w.resting ∧ w.Spent 1 ∧
    ¬ NeverWaitedFor w 1 ∧ ∃ plan policy, w.policy.planDispatch [7] ∅ false 1 none 10 = some (plan, policy) ∧
      (policy.planDispatch [7] ∅ false 200 none 10).map (·.1) = some (.terminate [(1, .abandoned)]) := by
  obtain ⟨resting, hruns, hmem⟩ := oneFire_rests False true False.elim
  have hrun : (((oneFire true).onLanePark 1 2).planDispatch [] ∅ false 0 none 10).any (fun r₁ =>
      ((r₁.2.onFireEnqueued ⟨2, 1, 0, 1⟩ (some 2) 7 1 1 none 1).lanes[1]?.all fun state => state.frames.all (·.park)) &&
        ((r₁.2.onFireEnqueued ⟨2, 1, 0, 1⟩ (some 2) 7 1 1 none 1).planDispatch [7] ∅ false 1 none 10).any fun r₂ =>
          r₂.2.lanes[1]?.any (·.awaited) &&
            decide ((r₂.2.planDispatch [7] ∅ false 200 none 10).map (·.1) = some (.terminate [(1, .abandoned)]))) =
      true := by decide +kernel
  obtain ⟨⟨plan₁, policy₁⟩, hfirst, hrun⟩ := exists_of_any hrun
  obtain ⟨hspent, hrun⟩ := Bool.and_eq_true_iff.mp hrun
  obtain ⟨⟨plan₂, policy₂⟩, hsecond, hrun⟩ := exists_of_any hrun
  obtain ⟨hawaited, hdoomed⟩ := Bool.and_eq_true_iff.mp hrun
  obtain ⟨state, hstate, hwaits⟩ := exists_of_any hawaited
  let w : Parks.World := ⟨policy₁.onFireEnqueued ⟨2, 1, 0, 1⟩ (some 2) 7 1 1 none 1, resting.erase 2⟩
  have hw : Parks.World.Runs False w := .step (.step hruns (.plan hfirst))
    (@Parks.World.Step.fire False ⟨policy₁, resting⟩ ⟨2, 1, 0, 1⟩ (some 2) 7 1 1 none 1)
  have hspent : w.Spent 1 := by
    intro state hstate
    rw [show (policy₁.onFireEnqueued ⟨2, 1, 0, 1⟩ (some 2) 7 1 1 none 1).lanes[1]? = some state from hstate] at hspent
    exact List.all_eq_true.mp hspent
  refine ⟨w, hw, Finset.mem_erase.mpr ⟨by decide, hmem⟩, hspent, fun hnever => ?_, plan₂, policy₂, hsecond,
    of_decide_eq_true hdoomed⟩
  -- The lane parked, its frame is gone, and it is awaited still.
  have hidle := ((hnever hspent [7] ∅ false 1 none 10).1 plan₂ policy₂ hsecond).1 state hstate
  rw [hidle.1] at hwaits
  cases hwaits

end Pie.Proof.Parks
