import Mathlib.Data.List.Sort
import Pie.Scheduler.Frame

/-!
# Sealing and dispatching

A pass over the lanes that are ready measures them unit by unit: a lane alone, or
the ready lanes of one group together. A unit that fits goes into the waves
whole, and one that does not waits. Dispatching seals when every awaited lane is
ready, and waits, parks or terminates when one is not.
-/

namespace Pie.Scheduler

open Std Lib.Maps

namespace FramePolicy

/-- A group that is gathering or owed a frame does not fire. -/
def groupShort (policy : FramePolicy) (lane : LaneState) : Bool :=
  match lane.groupKey with
  | none => false
  | some key =>
    policy.cohorts.contains key
      || policy.lanes.toList.any fun e => e.2.groupKey == some key && e.2.owesItsGroup

def groupAssembling (policy : FramePolicy) : Bool :=
  !policy.cohorts.isEmpty || policy.lanes.toList.any fun e => !e.2.frames.isEmpty && policy.groupShort e.2

/-- The cohorts that have waited too long, each once. -/
def cohortVerdict (policy : FramePolicy) (now : Instant) : List (ProcessId × Doom) × FramePolicy :=
  let late (cohort : Cohort) : Bool := !cohort.condemned && decide (policy.silenceTimeout ≤ now - cohort.since)
  (policy.cohorts.toList.filterMap fun e =>
      if late e.2 then some (e.1.1, .cohortNeverComplete e.1.2 e.2.expected e.2.arrived.card) else none,
    { policy with
      cohorts := policy.cohorts.map fun _ cohort => if late cohort then { cohort with condemned := true } else cohort })

/-! ## Sealing -/

def haveSealCandidate (policy : FramePolicy) : Bool :=
  policy.lanes.toList.any fun e => e.2.frontComplete && !policy.groupShort e.2

def boundaryOpen (policy : FramePolicy) : Bool :=
  policy.lanes.toList.any fun e => e.2.awaited && !e.2.firedThisBoundary

def openBoundary (policy : FramePolicy) : FramePolicy :=
  { policy with lanes := policy.lanes.map fun _ lane => { lane with firedThisBoundary := false } }

def closeBoundary (policy : FramePolicy) : FramePolicy :=
  { policy with lanes := policy.lanes.map fun _ lane => { lane with firedThisBoundary := true } }

/-- The lanes that are ready. -/
def ready (policy : FramePolicy) : List (ProcessId × LaneState) :=
  policy.lanes.toList.filter fun e => e.2.frontComplete && !policy.groupShort e.2

/-- The order of a schedule: the lanes of a process with a greater key come first. -/
def ranked (schedule : Option (ProcessId → Int)) (lanes : List (ProcessId × LaneState)) : List ProcessId :=
  let sorted := match schedule with
    | some key =>
      let rank (e : ProcessId × LaneState) : Int := (e.2.owner.map key).getD 0
      lanes.insertionSort fun a b => rank b ≤ rank a
    | none => lanes
  sorted.map Prod.fst

/-- Within an open boundary the lanes that fired in it come after the first of the others. -/
def sealOrder (fresh continuing : List ProcessId) : List ProcessId :=
  match fresh with
  | [] => continuing
  | first :: rest => first :: continuing ++ rest

/-- A lane of a group brings the others of the group. -/
def unitsOf (lanes : TreeMap ProcessId LaneState) (order : List ProcessId) :
    List ProcessId → List ProcessId → List (List ProcessId)
  | _, [] => []
  | placed, lane :: rest =>
    if lane ∈ placed then unitsOf lanes order placed rest
    else
      match lanes[lane]?.bind LaneState.groupKey with
      | none => [lane] :: unitsOf lanes order (lane :: placed) rest
      | some key =>
        let unit := order.filter fun id => decide (lanes[id]?.bind LaneState.groupKey = some key)
        unit :: unitsOf lanes order (lane :: unit ++ placed) rest

/-- The waves so far. -/
structure Fill where
  lanes : TreeMap ProcessId LaneState
  waves : List (List Nat)
  rows : List Nat
  tokens : List Nat
  members : List ProcessId
  droppedEmpty : Bool

/-- What a unit would add. -/
structure Measure where
  lanes : TreeMap ProcessId LaneState
  rows : List Nat
  tokens : List Nat
  fires : List (ProcessId × List PlacedFire)
  droppedEmpty : Bool
  short : Bool

/-- The fires of a frame that were not rejected, each in the wave of its slot. -/
def live (k : Nat) (frame : PendingFrame) : List PlacedFire :=
  frame.fires.filterMap fun fire => fire.fireId.map fun fireId =>
    ⟨min fire.slot (k - 1), fireId, max fire.rows 1, fire.tokens⟩

def addTo (sums : List Nat) (wave amount : Nat) : List Nat := sums.modify wave (· + amount)

def fits (policy : FramePolicy) (fill : Fill) (measure : Measure) (fire : PlacedFire) : Bool :=
  decide (fill.rows.getD fire.wave 0 + measure.rows.getD fire.wave 0 + fire.rows ≤ policy.maxWaveRows)
    && decide (fill.tokens.getD fire.wave 0 + measure.tokens.getD fire.wave 0 + fire.tokens ≤ policy.maxWaveTokens)

/-- A frame in which everything was rejected is dropped. -/
def measureLane (policy : FramePolicy) (fill : Fill) (measure : Measure) (lane : ProcessId) : Measure :=
  match measure.lanes[lane]? with
  | none => { measure with short := true }
  | some state =>
    match state.frames with
    | [] => { measure with short := true }
    | front :: rest =>
      let fires := live policy.k front
      if fires = [] then
        { measure with
          lanes := measure.lanes.insert lane { state with frames := rest }, droppedEmpty := true, short := true }
      else if fires.all (policy.fits fill measure) then
        { measure with
          rows := fires.foldl (fun rows fire => addTo rows fire.wave fire.rows) measure.rows
          tokens := fires.foldl (fun tokens fire => addTo tokens fire.wave fire.tokens) measure.tokens
          fires := measure.fires ++ [(lane, fires)] }
      else { measure with short := true }

/-- The first frame of a measured lane leaves for the waves. -/
def placeLane (fill : Fill) (e : ProcessId × List PlacedFire) : Fill :=
  { fill with
    waves := e.2.foldl (fun waves fire => waves.modify fire.wave (· ++ [fire.fireId])) fill.waves
    rows := e.2.foldl (fun rows fire => addTo rows fire.wave fire.rows) fill.rows
    tokens := e.2.foldl (fun tokens fire => addTo tokens fire.wave fire.tokens) fill.tokens
    members := fill.members ++ [e.1]
    lanes := fill.lanes.modify e.1 fun state => { state with frames := state.frames.tail } }

def measureUnit (policy : FramePolicy) (fill : Fill) (unit : List ProcessId) : Measure :=
  unit.foldl (policy.measureLane fill)
    ⟨fill.lanes, List.replicate policy.k 0, List.replicate policy.k 0, [], fill.droppedEmpty, false⟩

/-- All of a unit or nothing of it. -/
def placeUnit (policy : FramePolicy) (fill : Fill) (unit : List ProcessId) : Fill :=
  let measure := policy.measureUnit fill unit
  let fill := { fill with lanes := measure.lanes, droppedEmpty := measure.droppedEmpty }
  if measure.short then fill else measure.fires.foldl placeLane fill

/-- One pass over the lanes that are ready. -/
def fillWaves (policy : FramePolicy) (order : List ProcessId) : Fill :=
  (unitsOf policy.lanes order [] order).foldl policy.placeUnit
    ⟨policy.lanes, List.replicate policy.k [], List.replicate policy.k 0, List.replicate policy.k 0, [], false⟩

/-- A lane without frames stays while it is awaited or leashed. -/
def dropIdle (policy : FramePolicy) : FramePolicy :=
  { policy with lanes := retain (fun _ lane => lane.awaited || lane.leashed || !lane.frames.isEmpty) policy.lanes }

/-- The frame that a pass has filled. -/
def sealFrame (policy : FramePolicy) (fill : Fill) (midBoundary : Bool) : FramePolicy :=
  let policy := { policy with lanes := fill.lanes }
  let policy := if midBoundary then policy else policy.openBoundary
  let lanes := fill.members.foldl
    (fun lanes member => lanes.modify member fun lane => { lane with firedThisBoundary := true }) policy.lanes
  FramePolicy.dropIdle { policy with lanes, sealed := policy.sealed ++ [⟨fill.waves, fill.members⟩] }

/-- Whether a frame was sealed. A pass that only drops empty frames is followed by another. -/
def sealLoop (schedule : Option (ProcessId → Int)) (midBoundary : Bool) : Nat → FramePolicy → Option (Bool × FramePolicy)
  | 0, _ => none
  | rounds + 1, policy =>
    let fresh := policy.ready.filter fun e => !(midBoundary && e.2.firedThisBoundary)
    let continuing := policy.ready.filter fun e => midBoundary && e.2.firedThisBoundary
    if midBoundary && fresh.isEmpty then some (false, policy)
    else
      let fill := policy.fillWaves (sealOrder (ranked schedule fresh) (ranked schedule continuing))
      if fill.waves.all List.isEmpty then
        if fill.droppedEmpty then sealLoop schedule midBoundary rounds { policy with lanes := fill.lanes }
        else some (false, { policy with lanes := fill.lanes }.dropIdle)
      else some (true, policy.sealFrame fill midBoundary)

/-- `seal`: the frame is not returned, only that there is one more. -/
def sealOnce (policy : FramePolicy) (schedule : Option (ProcessId → Int)) (rounds : Nat) : Option (Bool × FramePolicy) :=
  if policy.haveSealCandidate then policy.sealLoop schedule policy.boundaryOpen rounds else some (false, policy)

inductive Waiting
  | fine
  | missing
  | expired (pid : ProcessId)
deriving DecidableEq, Repr

/-- What a lane that is not ready has come to: it waits, is let go of for a while, or is given up. -/
def gateLane (policy : FramePolicy) (now : Instant) (id : ProcessId) (lane : LaneState) : LaneState × Waiting :=
  let owes := decide (id ∈ policy.inFlightLanes) || lane.owner.any (policy.pendingBinds.contains ·)
  let debtSince := if owes then policy.inFlightSince[id]? else none
  let owesForever := debtSince.any fun since => decide (policy.silenceTimeout * 2 ≤ now - since)
  let blocking := lane.gateVerdict false owes == .blocking
  let rest (lane : LaneState) : LaneState × Waiting := (lane, if blocking then .missing else .fine)
  if !blocking && !lane.leashed then ({ lane with clockFrom := none }, .fine)
  else if owes && !owesForever then rest { lane with clockFrom := none }
  else
    let lane := if owesForever then { lane with clockFrom := debtSince } else lane
    match lane.clockFrom with
    | some since =>
      if policy.silenceTimeout ≤ now - since then
        ({ lane with awaited := false, leashed := false, clockFrom := none }, .expired (lane.owner.getD id))
      else if blocking && decide (policy.submitDeadline ≤ now - since) then
        ({ lane with awaited := false, parked := true, leashed := true }, .fine)
      else rest lane
    | none => rest { lane with clockFrom := some now }

/-- The owners that were given up, and the number of lanes that are waited for. -/
def gate (policy : FramePolicy) (now : Instant) : List ProcessId × Nat × FramePolicy :=
  let outcomes := policy.lanes.toList.map fun e => (policy.gateLane now e.1 e.2).2
  (outcomes.filterMap (fun | .expired pid => some pid | _ => none), outcomes.count .missing,
    { policy with lanes := policy.lanes.map fun id lane => (policy.gateLane now id lane).1 })

/-! ## Dispatching -/

/-- Fires that left the queue leave the sealed frames, and frames without fires go. -/
def dropUnqueued (policy : FramePolicy) (stillQueued : List Nat) : FramePolicy :=
  { policy with
    sealed := (policy.sealed.map fun frame =>
        { frame with waves := frame.waves.map (·.filter (stillQueued.contains ·)) }).dropWhile
      fun frame => frame.waves.all List.isEmpty }

/-- The first sealed frame leaves, unless one of its lanes is blocked. -/
def dispatchFront (policy : FramePolicy) (front : SealedFrame) (rest : List SealedFrame) (blockedLanes : Finset ProcessId)
    (now : Instant) : FramePlan × FramePolicy :=
  if front.members.any (fun member => decide (member ∈ blockedLanes)) then (.hold 500, policy)
  else
    (.dispatch front.waves, { policy with
      sealed := rest
      inFlightLanes := policy.inFlightLanes ∪ front.members.toFinset
      inFlightSince := front.members.foldl
        (fun since member => if since.contains member then since else since.insert member now) policy.inFlightSince })

/-- What follows when nothing is sealed and the boundary is closed: a plan, or a frame to dispatch. -/
def planClosed (policy : FramePolicy) (executing : Bool) (now : Instant) (schedule : Option (ProcessId → Int))
    (rounds : Nat) : Option (Option FramePlan × FramePolicy) :=
  if policy.lanes.toList.all fun e => e.2.frames.isEmpty then
    some (some .park, { policy with strictWatchdogDeadline := none })
  else
    let (doomed, policy) := policy.cohortVerdict now
    if doomed ≠ [] then some (some (.terminate doomed), policy)
    else
      let (expired, missing, policy) := policy.gate now
      if expired ≠ [] then
        some (some (.terminate ((expired.insertionSort (· ≤ ·)).dedup.map fun pid => (pid, .abandoned))), policy)
      else if 0 < missing then
        if executing then some (some .park, policy)
        else
          let deadline := policy.strictWatchdogDeadline.getD (now + STRICT_WATCHDOG_US)
          let deadline := if deadline ≤ now then now + STRICT_WATCHDOG_US else deadline
          some (some (.hold (min (deadline - now) GATHER_POLL_US)), { policy with strictWatchdogDeadline := some deadline })
      else
        match { policy with strictWatchdogDeadline := none }.sealOnce schedule rounds with
        | none => none
        | some (true, policy) => some (none, policy)
        | some (false, policy) => some (some (if policy.groupAssembling then .hold GATHER_POLL_US else .park), policy)

def planDispatch (stillQueued : List Nat) (blockedLanes : Finset ProcessId) (executing : Bool) (now : Instant)
    (schedule : Option (ProcessId → Int)) : Nat → FramePolicy → Option (FramePlan × FramePolicy)
  | 0, _ => none
  | rounds + 1, policy =>
    let policy := policy.retireParks.dropUnqueued stillQueued
    match policy.sealed with
    | front :: rest => some (policy.dispatchFront front rest blockedLanes now)
    | [] =>
      match if policy.boundaryOpen then policy.sealOnce schedule rounds else some (false, policy) with
      | none => none
      | some (true, policy) => planDispatch stillQueued blockedLanes executing now schedule rounds policy
      | some (false, sealedNone) =>
        let policy := if policy.boundaryOpen then sealedNone.closeBoundary else sealedNone
        match policy.planClosed executing now schedule rounds with
        | none => none
        | some (some plan, policy) => some (plan, policy)
        | some (none, policy) => planDispatch stillQueued blockedLanes executing now schedule rounds policy

end FramePolicy

end Pie.Scheduler
