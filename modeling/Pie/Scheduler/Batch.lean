import Pie.Pipeline.Fire
import Pie.Scheduler.Frame

/-!
# Batches

The waves of a frame become steps. Requests of one step are of different
instances and pipelines and stay within the limits of the engine; what one step
does not take is left for the next. Within a step the requests are sorted, and
their lanes laid end to end.

Names follow `scheduler/batch.rs` and `scheduler/fire_plan.rs`. What is grouped
may say more than a request does, such as its place in the waves: `view` is the
request. Traces and statistics are left out.
-/

namespace Pie.Scheduler

inductive GeometryClass
  | host
  | decodeEnvelope
  | deviceGeometry
deriving DecidableEq, Repr

/-- `class as u8`, in the order that is derived. -/
def GeometryClass.rank : GeometryClass → Nat
  | host => 0
  | decodeEnvelope => 1
  | deviceGeometry => 2

/-- The engine states its limits as `u32`. -/
structure SchedulerLimits where
  maxForwardRequests : Nat
  maxForwardTokens : Nat
  maxPageRefs : Nat
  requests_lt : maxForwardRequests < 2 ^ 32
  tokens_lt : maxForwardTokens < 2 ^ 32
  pages_lt : maxPageRefs < 2 ^ 32

/-- `engine::FireRequest`, with what the scheduler asks of it. -/
structure FireRequest extends Fire.FireRequest where
  geometry : GeometryClass
  maxLayers : Option Nat
  hasUserMask : Bool
deriving DecidableEq, Repr

/-- `completion.terminal_cell_ptr()` is a number. -/
structure PendingRequest where
  logicalFireId : Nat
  request : FireRequest
  instanceId : Nat
  terminalCell : Nat
  pipelineId : Option ProcessId
  hookProgram : Bool
  loraProgram : Bool
deriving DecidableEq, Repr

def PendingRequest.lanes (req : PendingRequest) : List Fire.Lane := req.request.lanes

def PendingRequest.wireRowCount (req : PendingRequest) : Nat := req.lanes.length

/-- A lane whose tokens the device resolves still runs. -/
def FireRequest.tokens (req : FireRequest) : Nat := (req.lanes.map fun lane => max lane.tokens.length 1).sum

def FireRequest.pages (req : FireRequest) : List Nat := req.lanes.flatMap fun lane => lane.kv.pages

structure RequestCapacityUsage where
  forwardRequests : Nat
  forwardTokens : Nat
  pageRefs : Nat
deriving DecidableEq, Repr

def requestCapacityUsage (req : PendingRequest) : RequestCapacityUsage where
  forwardRequests := max req.wireRowCount 1
  forwardTokens := req.request.tokens
  pageRefs := req.request.pages.length

/-- `single_request_limit_error`: the text of what is too much. -/
def singleRequestLimitError (limits : SchedulerLimits) (req : PendingRequest) : Option String :=
  let usage := requestCapacityUsage req
  if limits.maxForwardRequests < usage.forwardRequests then
    some s!"forward request has {usage.forwardRequests} resolved rows, exceeding engine limit {limits.maxForwardRequests}"
  else if limits.maxForwardTokens < usage.forwardTokens then
    some s!"forward request has {usage.forwardTokens} forward tokens, exceeding engine limit {limits.maxForwardTokens}"
  else if limits.maxPageRefs < usage.pageRefs then
    some s!"forward request has {usage.pageRefs} page refs, exceeding engine limit {limits.maxPageRefs}"
  else none

/-- `usize::saturating_add`. -/
def saturatingAdd (a b : Nat) : Nat := min (a + b) (2 ^ 64 - 1)

/-! ## Grouping -/

structure StepGroup where
  instances : List Nat
  pipelines : List ProcessId
  forwardRequests : Nat
  forwardTokens : Nat
  pageRefs : Nat
deriving DecidableEq, Repr

namespace StepGroup

def empty : StepGroup := ⟨[], [], 0, 0, 0⟩

/-- The group holds the instance or the pipeline of the request. -/
def holds (group : StepGroup) (req : PendingRequest) : Bool :=
  decide (req.instanceId ∈ group.instances) || req.pipelineId.any fun pid => decide (pid ∈ group.pipelines)

def accepts (group : StepGroup) (req : PendingRequest) (limits : SchedulerLimits) : Bool :=
  if group.holds req then false
  else if group.forwardRequests = 0 then true
  else
    let usage := requestCapacityUsage req
    decide (saturatingAdd group.forwardRequests usage.forwardRequests ≤ limits.maxForwardRequests)
      && decide (saturatingAdd group.forwardTokens usage.forwardTokens ≤ limits.maxForwardTokens)
      && decide (saturatingAdd group.pageRefs usage.pageRefs ≤ limits.maxPageRefs)

/-- `push`, without what it returns. -/
def push (group : StepGroup) (req : PendingRequest) : StepGroup :=
  let usage := requestCapacityUsage req
  { instances := req.instanceId :: group.instances
    pipelines := req.pipelineId.toList ++ group.pipelines
    forwardRequests := saturatingAdd group.forwardRequests usage.forwardRequests
    forwardTokens := saturatingAdd group.forwardTokens usage.forwardTokens
    pageRefs := saturatingAdd group.pageRefs usage.pageRefs }

/-- What `push` returns of the group after it: that it is full. -/
def full (group : StepGroup) (limits : SchedulerLimits) : Bool :=
  decide (limits.maxForwardRequests ≤ group.forwardRequests)
    || decide (limits.maxForwardTokens ≤ group.forwardTokens)
    || decide (limits.maxPageRefs ≤ group.pageRefs)

end StepGroup

section

variable {α : Type} (view : α → PendingRequest) (limits : SchedulerLimits)

/-- One round over what is deferred: the group, and the rest. -/
def groupRound : StepGroup → Bool → List α → List α × List α
  | _, _, [] => ([], [])
  | grouping, closed, req :: reqs =>
    if closed || !grouping.accepts (view req) limits then
      let round := groupRound grouping closed reqs
      (round.1, req :: round.2)
    else
      let grouping := grouping.push (view req)
      let round := groupRound grouping (grouping.full limits) reqs
      (req :: round.1, round.2)

/-- A round that takes nothing takes the first of the rest. -/
def nextGroup (deferred : List α) : List α × List α :=
  match groupRound view limits .empty false deferred with
  | ([], req :: rest) => ([req], rest)
  | round => round

/-- The rounds of a wave. -/
def groupWave : Nat → List α → List (List α)
  | _, [] => []
  | 0, _ => []
  | rounds + 1, deferred =>
    let round := nextGroup view limits deferred
    round.1 :: groupWave rounds round.2

def stepGroups (waves : List (List α)) : List (List α) := waves.flatMap fun wave => groupWave view limits wave.length wave

end

/-! ## The order in a step -/

structure MemberFacts where
  hookProgram : Bool
  customMask : Bool
  truncated : Bool
  maxLayers : Option Nat
  multiToken : Bool
  geometryClass : GeometryClass
  arrival : Nat
deriving DecidableEq, Repr

def memberFacts (req : PendingRequest) (arrival : Nat) : MemberFacts where
  hookProgram := req.hookProgram
  customMask := req.request.hasUserMask
  truncated := req.request.maxLayers.isSome
  maxLayers := req.request.maxLayers
  multiToken := req.lanes.any fun lane => decide (1 < lane.tokens.length)
  geometryClass := req.request.geometry
  arrival := arrival

/-- The key by which members are sorted; more layers come first. -/
def MemberFacts.key (member : MemberFacts) : List Nat :=
  [member.geometryClass.rank, member.customMask.toNat, member.truncated.toNat,
    2 ^ 32 - 1 - member.maxLayers.getD (2 ^ 32 - 1), member.hookProgram.toNat, (!member.multiToken).toNat, member.arrival]

/-- `member_order`, of what the facts are about. -/
def memberOrder {α : Type} (view : α → PendingRequest) (group : List α) : List α :=
  (group.zipIdx.insertionSort fun a b => (memberFacts (view a.1) a.2).key ≤ (memberFacts (view b.1) b.2).key).map Prod.fst

/-! ## Steps -/

inductive Boundary
  | prologue
  | epilogue
  | adapter
deriving DecidableEq, Repr

structure Attachment where
  lane : Nat
  instanceId : Nat
  boundary : Boundary
deriving DecidableEq, Repr

structure StepBuild where
  lanes : List Fire.Lane
  media : List Fire.StepMedia
  voxels : List Fire.StepVoxels
  instanceIds : List Nat
  boundaryPrograms : List Bool
  memberLaneIndptr : List Nat
  terminalCells : List Nat
  logicalFireIds : List Nat
deriving DecidableEq, Repr

/-- `u32::try_from(n).unwrap_or(u32::MAX)`. -/
def u32OrMax (n : Nat) : Nat := min n (2 ^ 32 - 1)

/-- `u32::saturating_add`. -/
def rebased (lane base : Nat) : Nat := u32OrMax (lane + base)

/-- One round of the loop over the requests of a step. -/
def StepBuild.push (build : StepBuild) (req : PendingRequest) : StepBuild :=
  let base := u32OrMax build.lanes.length
  let lanes := build.lanes ++ req.lanes
  { lanes := lanes
    media := build.media ++ req.request.media.map fun row => { row with lane := rebased row.lane base }
    voxels := build.voxels ++ req.request.voxels.map fun row => { row with lane := rebased row.lane base }
    instanceIds := build.instanceIds ++ [req.instanceId]
    boundaryPrograms := build.boundaryPrograms ++ [req.request.boundaryProgram]
    memberLaneIndptr := build.memberLaneIndptr ++ [u32OrMax lanes.length]
    terminalCells := build.terminalCells ++ [req.terminalCell]
    logicalFireIds := build.logicalFireIds ++ [req.logicalFireId] }

def buildBatchRequest (requests : List PendingRequest) : StepBuild :=
  requests.foldl StepBuild.push ⟨[], [], [], [], [], [0], [], []⟩

structure StepFire where
  lanes : List Fire.Lane
  attachments : List Attachment
  media : List Fire.StepMedia
  voxels : List Fire.StepVoxels
  terminalCells : List Nat
  instances : List Nat
  logicalFireIds : List Nat
deriving DecidableEq, Repr

/-- What a member's program is attached to. -/
def attachmentAt (boundaryProgram loraProgram : Bool) : Option Boundary :=
  if boundaryProgram then some .epilogue else if loraProgram then some .adapter else none

/-- The members: the instance, the program, and where the lanes start and end. -/
def StepBuild.members (build : StepBuild) : List ((Nat × Bool) × Nat × Nat) :=
  (build.instanceIds.zip build.boundaryPrograms).zip (build.memberLaneIndptr.zip build.memberLaneIndptr.tail)

def stepFire (group : List PendingRequest) : StepFire :=
  let build := buildBatchRequest group
  { lanes := build.lanes
    attachments := (build.members.zip group).filterMap fun e =>
      (attachmentAt e.1.1.2 e.2.loraProgram).map fun boundary => ⟨e.1.2.1, e.1.1.1, boundary⟩
    media := build.media
    voxels := build.voxels
    terminalCells := build.terminalCells
    instances := build.members.flatMap fun e => List.replicate (e.2.2 - e.2.1) e.1.1
    logicalFireIds := build.logicalFireIds }

/-- The members of the steps. -/
def framePlan {α : Type} (view : α → PendingRequest) (limits : SchedulerLimits) (waves : List (List α)) : List (List α) :=
  (stepGroups view limits waves).map (memberOrder view)

/-- The steps of the frame, and its requests in their order. -/
def buildFrameSubmission (waves : List (List PendingRequest)) (limits : SchedulerLimits) :
    List StepFire × List PendingRequest :=
  let plan := framePlan id limits waves
  (plan.map stepFire, plan.flatten)

end Pie.Scheduler
