import Pie.Proof.Batching

/-!
# What a step holds

A step lays the lanes of its members end to end and says everything else of them
in the same order. Where a member's lanes start is counted as a `u32`, which the
limits keep from saturating.
-/

namespace Pie.Proof.Steps

open List Pie.Scheduler Batching

/-! ## Where the lanes of a member are -/

/-- The members, each with where its lanes start. -/
def spans : Nat → List PendingRequest → List (Nat × PendingRequest)
  | _, [] => []
  | base, req :: reqs => (base, req) :: spans (base + req.lanes.length) reqs

def lanesOf (members : List PendingRequest) : List Fire.Lane := members.flatMap PendingRequest.lanes

variable {members : List PendingRequest} {base : Nat} {e : Nat × PendingRequest}

theorem mem_spans : ∀ {members : List PendingRequest} {base : Nat}, ∀ e ∈ spans base members,
    ∃ before after, members = before ++ e.2 :: after ∧ e.1 = base + (lanesOf before).length := by
  intro members
  induction members with
  | nil => exact nofun
  | cons req reqs ih =>
    intro base e he
    rcases mem_cons.mp he with rfl | he
    · exact ⟨[], reqs, rfl, rfl⟩
    · obtain ⟨before, after, rfl, hbase⟩ := ih e he
      refine ⟨req :: before, after, rfl, ?_⟩
      rw [hbase, lanesOf, lanesOf, flatMap_cons, length_append, add_assoc]

theorem lanesOf_getElem? (he : e ∈ spans 0 members) {lane : Nat} (hlane : lane < e.2.lanes.length) :
    e.1 + lane < (lanesOf members).length ∧ (lanesOf members)[e.1 + lane]? = e.2.lanes[lane]? := by
  obtain ⟨before, after, rfl, hbase⟩ := mem_spans e he
  rw [zero_add] at hbase
  have hsplit : lanesOf (before ++ e.2 :: after) = lanesOf before ++ (e.2.lanes ++ lanesOf after) := by
    rw [lanesOf, flatMap_append, flatMap_cons]
    rfl
  rw [hsplit, hbase, getElem?_append_right (Nat.le_add_right ..), Nat.add_sub_cancel_left,
    getElem?_append_left hlane, length_append, length_append]
  exact ⟨by omega, rfl⟩

theorem map_spans {β : Type} (f : PendingRequest → β) : ∀ {members : List PendingRequest} {base : Nat},
    (spans base members).map (fun e => f e.2) = members.map f := by
  intro members
  induction members with
  | nil => exact rfl
  | cons req reqs ih => exact congrArg _ ih

/-- What the loop has added for the members, while nothing saturates. -/
theorem foldl_push : ∀ {members : List PendingRequest} {build : StepBuild},
    build.lanes.length + (lanesOf members).length < 2 ^ 32 → members.foldl StepBuild.push build =
      { lanes := build.lanes ++ lanesOf members
        media := build.media ++ (spans build.lanes.length members).flatMap fun e =>
          e.2.request.media.map fun row => { row with lane := rebased row.lane e.1 }
        voxels := build.voxels ++ (spans build.lanes.length members).flatMap fun e =>
          e.2.request.voxels.map fun row => { row with lane := rebased row.lane e.1 }
        instanceIds := build.instanceIds ++ members.map PendingRequest.instanceId
        boundaryPrograms := build.boundaryPrograms ++ members.map fun req => req.request.boundaryProgram
        memberLaneIndptr := build.memberLaneIndptr ++
          (spans build.lanes.length members).map fun e => e.1 + e.2.lanes.length
        terminalCells := build.terminalCells ++ members.map PendingRequest.terminalCell
        logicalFireIds := build.logicalFireIds ++ members.map PendingRequest.logicalFireId } := by
  intro members
  induction members with
  | nil =>
    intro build _
    simp [lanesOf, spans]
  | cons req reqs ih =>
    intro build hsmall
    have hlanes : (lanesOf (req :: reqs)).length = req.lanes.length + (lanesOf reqs).length := by
      rw [lanesOf, flatMap_cons, length_append]
      rfl
    have hbase : u32OrMax build.lanes.length = build.lanes.length := by
      unfold u32OrMax
      omega
    have hend : u32OrMax (build.lanes.length + req.lanes.length) = build.lanes.length + req.lanes.length := by
      unfold u32OrMax
      omega
    rw [foldl_cons, ih]
    · simp only [StepBuild.push, hbase, hend, lanesOf, spans, flatMap_cons, map_cons, append_assoc,
        length_append, cons_append, nil_append]
    · change (build.lanes ++ req.lanes).length + _ < _
      rw [length_append]
      omega

/-- Neighbouring entries of the indptr are where the lanes of a member start and end. -/
theorem zip_ends : ∀ {members : List PendingRequest} {base : Nat},
    (base :: (spans base members).map fun e => e.1 + e.2.lanes.length).zip
      ((spans base members).map fun e => e.1 + e.2.lanes.length) =
        (spans base members).map fun e => (e.1, e.1 + e.2.lanes.length) := by
  intro members
  induction members with
  | nil => exact rfl
  | cons req reqs ih => exact fun {base} => congrArg _ ih

theorem build_members (hsmall : (lanesOf members).length < 2 ^ 32) : (buildBatchRequest members).members =
    (spans 0 members).map fun e =>
      ((e.2.instanceId, e.2.request.boundaryProgram), (e.1, e.1 + e.2.lanes.length)) := by
  have hbuild := @foldl_push members ⟨[], [], [], [], [], [0], [], []⟩ (by rw [length_nil, zero_add]; exact hsmall)
  rw [StepBuild.members, buildBatchRequest, hbuild]
  dsimp only
  rw [nil_append, nil_append, length_nil, singleton_append, tail_cons, zip_ends,
    ← @map_spans _ PendingRequest.instanceId members 0, ← @map_spans _ (fun req => req.request.boundaryProgram) members 0,
    zip_map', zip_map']

/-! ## The step -/

/-- A row that named a lane of its request names that lane in the step. -/
def Points (lanes : List Fire.Lane) (e : Nat × PendingRequest) (lane lane' : Nat) : Prop :=
  lane < e.2.lanes.length → lane' = e.1 + lane ∧ lanes[lane']? = e.2.lanes[lane]?

/-- A step says everything of its members in their order. -/
structure InOrder (members : List PendingRequest) (step : StepFire) : Prop where
  lanes : step.lanes = lanesOf members
  instances : step.instances = members.flatMap fun req => List.replicate req.lanes.length req.instanceId
  cells : step.terminalCells = members.map PendingRequest.terminalCell
  ids : step.logicalFireIds = members.map PendingRequest.logicalFireId
  media : List.Forall₂ (fun source row => row = { source.2 with lane := row.lane } ∧
    Points step.lanes source.1 source.2.lane row.lane)
      ((spans 0 members).flatMap fun e => e.2.request.media.map fun row => (e, row)) step.media
  voxels : List.Forall₂ (fun source row => row = { source.2 with lane := row.lane } ∧
    Points step.lanes source.1 source.2.lane row.lane)
      ((spans 0 members).flatMap fun e => e.2.request.voxels.map fun row => (e, row)) step.voxels
  attachments : step.attachments = (spans 0 members).filterMap fun e =>
    (attachmentAt e.2.request.boundaryProgram e.2.loraProgram).map fun boundary => ⟨e.1, e.2.instanceId, boundary⟩
  first : ∀ e ∈ spans 0 members, step.lanes[e.1]? = e.2.lanes.head? ∧ step.instances[e.1]? = some e.2.instanceId

theorem points_rebased (hsmall : (lanesOf members).length < 2 ^ 32) (he : e ∈ spans 0 members) (lane : Nat) :
    Points (lanesOf members) e lane (rebased lane e.1) := by
  intro hlane
  obtain ⟨hlt, hget⟩ := lanesOf_getElem? he hlane
  have hrebased : rebased lane e.1 = e.1 + lane := by
    unfold rebased u32OrMax
    omega
  rw [hrebased]
  exact ⟨rfl, hget⟩

theorem instances_getElem? (hlanes : ∀ req ∈ members, req.lanes ≠ []) (he : e ∈ spans 0 members) :
    (members.flatMap fun req => replicate req.lanes.length req.instanceId)[e.1]? = some e.2.instanceId := by
  obtain ⟨before, after, rfl, hbase⟩ := mem_spans e he
  have hpos : 0 < e.2.lanes.length :=
    length_pos_iff.mpr (hlanes e.2 mem_append_cons_self)
  have hlen : (before.flatMap fun req => replicate req.lanes.length req.instanceId).length = e.1 := by
    rw [hbase, zero_add, lanesOf, length_flatMap, length_flatMap]
    refine congrArg sum (map_congr_left fun req _ => ?_)
    rw [length_replicate]
  rw [flatMap_append, flatMap_cons, getElem?_append_right (le_of_eq hlen), hlen, Nat.sub_self,
    getElem?_append_left (by rwa [length_replicate]), getElem?_replicate, if_pos hpos]

theorem forall₂_rebased {β : Type} {rows : PendingRequest → List β} {P : (Nat × PendingRequest) × β → β → Prop}
    {f : Nat → β → β} (h : ∀ e ∈ spans base members, ∀ row ∈ rows e.2, P (e, row) (f e.1 row)) :
    Forall₂ P ((spans base members).flatMap fun e => (rows e.2).map fun row => (e, row))
      ((spans base members).flatMap fun e => (rows e.2).map (f e.1)) := by
  have hmap : ((spans base members).flatMap fun e => (rows e.2).map (f e.1)) =
      ((spans base members).flatMap fun e => (rows e.2).map fun row => (e, row)).map fun source => f source.1.1 source.2 := by
    rw [map_flatMap]
    refine flatMap_congr fun e _ => ?_
    rw [map_map]
    rfl
  rw [hmap, forall₂_map_right_iff, forall₂_same]
  intro source hsource
  obtain ⟨e, he, hsource⟩ := mem_flatMap.mp hsource
  obtain ⟨row, hrow, rfl⟩ := mem_map.mp hsource
  exact h e he row hrow

theorem stepFire_inOrder (hsmall : (lanesOf members).length < 2 ^ 32) (hlanes : ∀ req ∈ members, req.lanes ≠ []) :
    InOrder members (stepFire members) := by
  have hbuild := @foldl_push members ⟨[], [], [], [], [], [0], [], []⟩ (by rw [length_nil, zero_add]; exact hsmall)
  have hmembers := build_members hsmall
  have hstep : (stepFire members).lanes = lanesOf members := by
    rw [stepFire, buildBatchRequest, hbuild]
    rfl
  have hinstances : (stepFire members).instances =
      members.flatMap fun req => replicate req.lanes.length req.instanceId := by
    rw [stepFire]
    dsimp only
    rw [hmembers, flatMap_map, flatMap_def, flatMap_def]
    refine congrArg flatten ((map_congr_left fun e _ => ?_).trans (@map_spans _ _ members 0))
    rw [Nat.add_sub_cancel_left]
  have hmedia : (stepFire members).media = (spans 0 members).flatMap fun e =>
      e.2.request.media.map fun row => { row with lane := rebased row.lane e.1 } := by
    rw [stepFire, buildBatchRequest, hbuild]
    rfl
  have hvoxels : (stepFire members).voxels = (spans 0 members).flatMap fun e =>
      e.2.request.voxels.map fun row => { row with lane := rebased row.lane e.1 } := by
    rw [stepFire, buildBatchRequest, hbuild]
    rfl
  refine ⟨hstep, hinstances, ?_, ?_, ?_, ?_, ?_, fun e he => ?_⟩
  · rw [stepFire, buildBatchRequest, hbuild]
    rfl
  · rw [stepFire, buildBatchRequest, hbuild]
    rfl
  · rw [hstep, hmedia]
    exact @forall₂_rebased members 0 _ (fun req => req.request.media) _
      (fun base row => { row with lane := rebased row.lane base })
      fun e he row _ => ⟨rfl, points_rebased hsmall he row.lane⟩
  · rw [hstep, hvoxels]
    exact @forall₂_rebased members 0 _ (fun req => req.request.voxels) _
      (fun base row => { row with lane := rebased row.lane base })
      fun e he row _ => ⟨rfl, points_rebased hsmall he row.lane⟩
  · have hself : (spans 0 members).map (fun e => e.2) = members := (map_spans id).trans (map_id members)
    -- each member of the build stands beside the request it is of
    have hzip : (buildBatchRequest members).members.zip members = (spans 0 members).map fun e =>
        (((e.2.instanceId, e.2.request.boundaryProgram), (e.1, e.1 + e.2.lanes.length)), e.2) := by
      rw [hmembers]
      refine (congrArg (zip _) hself.symm).trans ?_
      rw [zip_map']
    rw [stepFire]
    dsimp only
    rw [hzip, filterMap_map]
    rfl
  · have hpos : 0 < e.2.lanes.length := by
      obtain ⟨before, after, hsplit, -⟩ := mem_spans e he
      exact length_pos_iff.mpr (hlanes e.2 (hsplit ▸ mem_append_cons_self))
    have hget := (lanesOf_getElem? he hpos).2
    rw [add_zero] at hget
    rw [hstep, hinstances, head?_eq_getElem?]
    exact ⟨hget, instances_getElem? hlanes he⟩

/-! ## The steps of a frame -/

/-- What the frame says of the waves, with the number each request has in them. -/
structure Framed (limits : SchedulerLimits) (waves : List (List PendingRequest)) (steps : List StepFire)
    (requests : List PendingRequest) (plan : List (List (PendingRequest × Nat))) : Prop where
  once : plan.flatten.Perm (waves.flatten.zipIdx 0)
  requests : requests = plan.flatten.map Prod.fst
  apart : ∀ members ∈ plan, members.Pairwise fun a b => ¬ Shares a.1 b.1
  earlier : ∀ (i j : Nat) members later, plan[i]? = some members → plan[j]? = some later →
    ∀ a ∈ members, ∀ b ∈ later, Shares a.1 b.1 → a.2 < b.2 → i < j
  within : ∀ members ∈ plan, 1 < members.length → Within limits (members.map Prod.fst)
  steps : List.Forall₂ (fun members step => InOrder (members.map Prod.fst) step) plan steps

theorem ordered_iff {plan : List (List (PendingRequest × Nat))}
    (hapart : ∀ members ∈ plan, members.Pairwise fun a b => ¬ Shares a.1 b.1)
    (hnumbers : (plan.flatten.map Prod.snd).Nodup) : Batching.Ordered plan ↔
      ∀ (i j : Nat) members later, plan[i]? = some members → plan[j]? = some later →
        ∀ a ∈ members, ∀ b ∈ later, Shares a.1 b.1 → a.2 < b.2 → i < j := by
  rw [Batching.Ordered, pairwise_iff_getElem]
  constructor
  · intro h i j members later hi hj a ha b hb hs hlt
    obtain ⟨hilt, rfl⟩ := List.getElem?_eq_some_iff.mp hi
    obtain ⟨hjlt, rfl⟩ := List.getElem?_eq_some_iff.mp hj
    rcases lt_trichotomy i j with hij | rfl | hji
    · exact hij
    · -- the members of one step share nothing
      have hne : a ≠ b := by
        rintro rfl
        exact lt_irrefl _ hlt
      have hsymm : Std.Symm fun a b : PendingRequest × Nat => ¬ Shares a.1 b.1 := ⟨fun _ _ hab hs => hab hs.symm⟩
      exact absurd hs ((hapart _ (getElem_mem hilt)).forall ha hb hne)
    · exact absurd (h j i hjlt hilt hji b hb a ha hs) (Nat.lt_asymm hlt)
  · intro h i j hi hj hij b hb a ha hs
    rcases lt_trichotomy b.2 a.2 with hlt | heq | hlt
    · exact hlt
    · -- a number is the number of one request
      rw [map_flatten, nodup_flatten] at hnumbers
      have hdisjoint := pairwise_iff_getElem.mp hnumbers.2 i j (by rwa [length_map]) (by rwa [length_map]) hij
      rw [getElem_map, getElem_map] at hdisjoint
      exact absurd (mem_map_of_mem ha) (heq ▸ hdisjoint (mem_map_of_mem hb))
    · exact absurd (h j i _ _ (getElem?_eq_getElem hj) (getElem?_eq_getElem hi) a ha b hb hs hlt) (Nat.lt_asymm hij)

theorem lanesOf_length {limits : SchedulerLimits} (h : Within limits members) : (lanesOf members).length < 2 ^ 32 := by
  have hrows : (lanesOf members).length ≤ needs (·.forwardRequests) members := by
    rw [lanesOf, length_flatMap, needs]
    refine sum_le_sum fun req _ => ?_
    exact le_max_left _ _
  exact lt_of_le_of_lt (hrows.trans h.requests) limits.requests_lt

/-- A request of one lane, whose tokens are all that it needs. -/
def tokenRequest (logicalFireId pipelineId tokens : Nat) : PendingRequest where
  logicalFireId := logicalFireId
  request :=
    { lanes := [⟨List.replicate tokens 7, [], ⟨0, []⟩, none, none, false, false, false, false, none, [], .last, none, none,
        [], false, none⟩]
      singleTokenMode := false
      boundaryProgram := false
      voxels := []
      media := []
      cohort := none
      geometry := .host
      maxLayers := none
      hasUserMask := false }
  instanceId := logicalFireId
  terminalCell := logicalFireId
  pipelineId := some pipelineId
  hookProgram := false
  loraProgram := false

def fourTokens : SchedulerLimits := ⟨8, 4, 8, by decide, by decide, by decide⟩

end Pie.Proof.Steps
