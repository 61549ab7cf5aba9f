import Mathlib.Data.Finset.Card
import Pie.Lib.Maps

/-!
# Frames

What the scheduler fires next. Each lane submits frames of fires; the fires of
the lanes whose first frame has come whole are sealed into one frame, in waves,
and a sealed frame is dispatched. Lanes of one owner that name one group fire in
the same frame.

Names follow `scheduler/frame.rs`. Times are in microseconds. The counters and
traces that the source keeps for its statistics are left out. A loop is given
the number of rounds it may take, and gives nothing if they do not suffice.
-/

namespace Pie.Scheduler

open Std Lib.Maps

abbrev ProcessId := Nat
abbrev Instant := Nat
abbrev Duration := Nat

instance ordCohort : Ord (Nat × Nat) := lexOrd

structure FrameStamp where
  lane : ProcessId
  seq : Nat
  slot : Nat
  fires : Nat
deriving DecidableEq, Repr

def STRICT_WATCHDOG_US : Duration := 1000000

def GATHER_POLL_US : Duration := 500

/-- A fire that was rejected at admission has no identifier. -/
structure ArrivedFire where
  slot : Nat
  fireId : Option Nat
  tokens : Nat
  rows : Nat
deriving DecidableEq, Repr

structure PlacedFire where
  wave : Nat
  fireId : Nat
  rows : Nat
  tokens : Nat
deriving DecidableEq, Repr

structure PendingFrame where
  seq : Nat
  expected : Nat
  truncated : Bool
  park : Bool
  fires : List ArrivedFire
deriving DecidableEq, Repr

def PendingFrame.isComplete (frame : PendingFrame) : Bool := frame.park || decide (frame.expected ≤ frame.fires.length)

structure LaneState where
  owner : Option ProcessId
  awaited : Bool
  parked : Bool
  leashed : Bool
  clockFrom : Option Instant
  frames : List PendingFrame
  group : Option Nat
  firedThisBoundary : Bool
deriving DecidableEq, Repr

/-- The lanes of one owner that have come for a group. -/
structure Cohort where
  expected : Nat
  arrived : Finset ProcessId
  since : Instant
  condemned : Bool
deriving DecidableEq

def Cohort.complete (cohort : Cohort) : Bool := decide (cohort.expected ≤ cohort.arrived.card)

inductive Doom
  | abandoned
  | cohortNeverComplete (group expected arrived : Nat)
deriving DecidableEq, Repr

inductive GateVerdict
  | satisfied
  | blocking
  | skippedOwed
deriving DecidableEq, Repr

namespace LaneState

def groupKey (lane : LaneState) : Option (ProcessId × Nat) :=
  match lane.owner, lane.group with
  | some owner, some group => some (owner, group)
  | _, _ => none

/-- The first frame has come whole. -/
def frontComplete (lane : LaneState) : Bool := lane.frames.head?.any PendingFrame.isComplete

def owesItsGroup (lane : LaneState) : Bool := (lane.awaited || lane.leashed) && !lane.frontComplete

def gateVerdict (lane : LaneState) (relax owes : Bool) : GateVerdict :=
  if !lane.awaited || lane.frontComplete then .satisfied
  else if relax && owes && lane.frames.isEmpty then .skippedOwed
  else .blocking

end LaneState

structure SealedFrame where
  waves : List (List Nat)
  members : List ProcessId
deriving DecidableEq, Repr

inductive FramePlan
  | dispatch (waves : List (List Nat))
  | hold (wait : Duration)
  | park
  | terminate (doomed : List (ProcessId × Doom))
deriving DecidableEq

structure FramePolicy where
  k : Nat
  maxWaveTokens : Nat
  maxWaveRows : Nat
  lanes : TreeMap ProcessId LaneState
  sealed : List SealedFrame
  pendingBinds : TreeMap ProcessId Nat
  cohorts : TreeMap (ProcessId × Nat) Cohort
  staged : Finset ProcessId
  pendingSlots : Nat
  joinsInFlight : Finset ProcessId
  admissionQueue : List ProcessId
  slotted : Finset ProcessId
  departing : Finset ProcessId
  suspended : Finset ProcessId
  truncatedSeqs : TreeMap ProcessId Nat
  strictWatchdogDeadline : Option Instant
  inFlightLanes : Finset ProcessId
  inFlightSince : TreeMap ProcessId Instant
  submitDeadline : Duration
  silenceTimeout : Duration

namespace FramePolicy

def new (k maxWaveRows maxWaveTokens : Nat) (submitDeadline silenceTimeout : Duration) : FramePolicy where
  k := k
  maxWaveTokens := maxWaveTokens
  maxWaveRows := maxWaveRows
  lanes := ∅
  sealed := []
  pendingBinds := ∅
  cohorts := ∅
  staged := ∅
  pendingSlots := 0
  joinsInFlight := ∅
  admissionQueue := []
  slotted := ∅
  departing := ∅
  suspended := ∅
  truncatedSeqs := ∅
  strictWatchdogDeadline := none
  inFlightLanes := ∅
  inFlightSince := ∅
  submitDeadline := submitDeadline
  silenceTimeout := silenceTimeout

/-! ## Arrivals -/

/-- A cohort that is complete is forgotten. -/
def gatherCohort (policy : FramePolicy) (lane : ProcessId) (owner : Option ProcessId) (cohort : Option (Nat × Nat))
    (now : Instant) : FramePolicy :=
  match owner, cohort with
  | some owner, some (group, expected) =>
    let entry := policy.cohorts[(owner, group)]?.getD ⟨expected, ∅, now, false⟩
    let entry := { entry with expected := max entry.expected expected, arrived := insert lane entry.arrived }
    { policy with
      cohorts :=
        if entry.complete then policy.cohorts.erase (owner, group) else policy.cohorts.insert (owner, group) entry }
  | _, _ => policy

/-- The frame of the stamp, new at the end if the lane has none with its number. -/
def openFrame (frames : List PendingFrame) (stamp : FrameStamp) : List PendingFrame :=
  if frames.any (·.seq == stamp.seq) then frames else frames ++ [⟨stamp.seq, stamp.fires, false, false, []⟩]

/-- A fire joins its frame; a truncated frame waits for no more than it has. -/
def PendingFrame.join (frame : PendingFrame) (stamp : FrameStamp) (fire : ArrivedFire) (cut : Bool) : PendingFrame :=
  let truncated := frame.truncated || cut
  let fires := frame.fires ++ [fire]
  { frame with truncated, fires, expected := if truncated then fires.length else max frame.expected stamp.fires }

/-- The first frame with the number is changed. -/
def updateFrame (seq : Nat) (f : PendingFrame → PendingFrame) : List PendingFrame → List PendingFrame
  | [] => []
  | frame :: rest => if frame.seq = seq then f frame :: rest else frame :: updateFrame seq f rest

def isSuspended (policy : FramePolicy) (lane : ProcessId) (owner : Option ProcessId) : Bool :=
  match owner.or (policy.lanes[lane]?.bind LaneState.owner) with
  | some owner => decide (owner ∈ policy.suspended)
  | none => false

/-- The lane as the fire finds it: a parked one is awaited again, unless its owner is suspended. -/
def arrivingLane (policy : FramePolicy) (lane : ProcessId) (owner : Option ProcessId) (suspended : Bool) : LaneState :=
  let state := policy.lanes[lane]?.getD ⟨owner, !suspended, suspended, false, none, [], none, true⟩
  let state := if state.owner = none then { state with owner } else state
  let state := if state.parked && !suspended then { state with parked := false, awaited := true } else state
  { state with leashed := false, clockFrom := none }

def recordArrival (policy : FramePolicy) (stamp : FrameStamp) (owner : Option ProcessId) (fire : ArrivedFire) :
    FramePolicy :=
  let policy := match owner with
    | some owner =>
      { policy with staged := policy.staged.erase owner, joinsInFlight := policy.joinsInFlight.erase owner }
    | none => policy
  let suspended := policy.isSuspended stamp.lane owner
  let late := policy.truncatedSeqs[stamp.lane]? == some stamp.seq
  let truncatedSeqs := match policy.truncatedSeqs[stamp.lane]? with
    | some seq => if seq < stamp.seq then policy.truncatedSeqs.erase stamp.lane else policy.truncatedSeqs
    | none => policy.truncatedSeqs
  let state := policy.arrivingLane stamp.lane owner suspended
  let frames := updateFrame stamp.seq (PendingFrame.join · stamp fire (late || suspended)) (openFrame state.frames stamp)
  let cut := frames.find? (·.seq == stamp.seq) |>.any fun frame => frame.truncated && decide (frame.expected < stamp.fires)
  { policy with
    lanes := policy.lanes.insert stamp.lane { state with frames }
    truncatedSeqs := if cut then truncatedSeqs.insert stamp.lane stamp.seq else truncatedSeqs }

def onFireEnqueued (policy : FramePolicy) (stamp : FrameStamp) (owner : Option ProcessId) (fireId tokens rows : Nat)
    (cohort : Option (Nat × Nat)) (now : Instant) : FramePolicy :=
  let policy := policy.gatherCohort stamp.lane owner cohort now
  let policy := policy.recordArrival stamp owner ⟨stamp.slot, some fireId, tokens, rows⟩
  match cohort with
  | some (group, _) =>
    { policy with lanes := policy.lanes.modify stamp.lane fun lane => { lane with group := some group } }
  | none => policy

def onFireRejectedAtAdmission (policy : FramePolicy) (stamp : FrameStamp) (owner : Option ProcessId) : FramePolicy :=
  policy.recordArrival stamp owner ⟨stamp.slot, none, 0, 0⟩

def onFrameTruncated (policy : FramePolicy) (lane : ProcessId) (seq submitted : Nat) : FramePolicy :=
  { policy with
    lanes := policy.lanes.modify lane fun state => { state with
      frames := updateFrame seq (fun frame => { frame with expected := submitted, truncated := true }) state.frames } }

/-! ## Parking -/

/-- A park goes before the first frame with a later number; a lane has one at a time. -/
def parkFrames (seq : Nat) (frames : List PendingFrame) : List PendingFrame :=
  if frames.any (·.park) then frames
  else frames.takeWhile (fun frame => decide (frame.seq ≤ seq)) ++ ⟨seq, 0, true, true, []⟩
    :: frames.dropWhile fun frame => decide (frame.seq ≤ seq)

def onLanePark (policy : FramePolicy) (lane : ProcessId) (seq : Nat) : FramePolicy :=
  { policy with lanes := policy.lanes.modify lane fun state => { state with frames := parkFrames seq state.frames } }

/-- Parks at the front are served; a lane without another frame is not awaited. -/
def retirePark (state : LaneState) : LaneState :=
  let frames := state.frames.dropWhile (·.park)
  if frames.isEmpty && !state.frames.isEmpty then
    { state with frames, awaited := false, parked := true, clockFrom := none }
  else { state with frames }

def retireParks (policy : FramePolicy) : FramePolicy :=
  { policy with lanes := policy.lanes.map fun _ state => retirePark state }

def onFrameRetired (policy : FramePolicy) (lanes : List ProcessId) : FramePolicy :=
  lanes.foldl (fun policy lane => { policy with
    inFlightLanes := policy.inFlightLanes.erase lane
    inFlightSince := policy.inFlightSince.erase lane
    lanes := policy.lanes.modify lane fun state => { state with clockFrom := none } }) policy

end FramePolicy

end Pie.Scheduler
