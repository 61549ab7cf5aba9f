import Pie.Lib.Systems
import Pie.Scheduler.Seal

/-!
# Parking in a run

Fires come and are rejected, frames are cut short, lanes park, frames retire and
plans are made, in any order and at any time. What a lane did last is written
down: a lane rests when that was to park, after all its frames.
-/

namespace Pie.Scheduler.Parks

open Std Lib.Systems

structure World where
  policy : FramePolicy
  /-- the lanes whose guest parked last, with a number above those of the frames that were queued -/
  resting : Finset ProcessId

namespace World

/-- The number of the park is above those of the lane's frames. -/
def Above (w : World) (lane : ProcessId) (seq : Nat) : Prop :=
  ∀ state, w.policy.lanes[lane]? = some state → ∀ frame ∈ state.frames, frame.seq < seq

/-- No frame was queued since a park that is still queued, the last frame has a fire that was not
rejected, and the lane was not let go of. -/
def CanPark (w : World) (lane : ProcessId) : Prop :=
  ∀ state, w.policy.lanes[lane]? = some state →
    (∀ frame ∈ state.frames.dropLast, frame.park = false)
      ∧ (∀ frame, (state.frames.filter fun frame => !frame.park).getLast? = some frame →
        ∃ fire ∈ frame.fires, fire.fireId.isSome)
      ∧ state.leashed = false

/-- One thing that happens. `guarded`: a lane that parks after all its frames can. -/
inductive Step (guarded : Prop) : World → World → Prop
  | fire {w : World} {stamp : FrameStamp} {owner : Option ProcessId} {fireId tokens rows : Nat}
      {cohort : Option (Nat × Nat)} {now : Instant} :
      Step guarded w ⟨w.policy.onFireEnqueued stamp owner fireId tokens rows cohort now, w.resting.erase stamp.lane⟩
  | reject {w : World} {stamp : FrameStamp} {owner : Option ProcessId} :
      Step guarded w ⟨w.policy.onFireRejectedAtAdmission stamp owner, w.resting.erase stamp.lane⟩
  | truncate {w : World} {lane : ProcessId} {seq submitted : Nat} :
      Step guarded w ⟨w.policy.onFrameTruncated lane seq submitted, w.resting.erase lane⟩
  | rest {w : World} {lane : ProcessId} {seq : Nat} (habove : w.Above lane seq) (hguard : guarded → w.CanPark lane) :
      Step guarded w ⟨w.policy.onLanePark lane seq, insert lane w.resting⟩
  | park {w : World} {lane : ProcessId} {seq : Nat} (hbelow : ¬ w.Above lane seq) :
      Step guarded w ⟨w.policy.onLanePark lane seq, w.resting.erase lane⟩
  | retired {w : World} {lanes : List ProcessId} : Step guarded w { w with policy := w.policy.onFrameRetired lanes }
  | plan {w : World} {stillQueued : List Nat} {blocked : Finset ProcessId} {executing : Bool} {now : Instant}
      {schedule : Option (ProcessId → Int)} {rounds : Nat} {plan : FramePlan} {policy : FramePolicy}
      (hplan : w.policy.planDispatch stillQueued blocked executing now schedule rounds = some (plan, policy)) :
      Step guarded w { w with policy }

/-- A new policy; a frame has at least one slot. -/
def Start (w : World) : Prop :=
  ∃ k rows tokens submit silence, 0 < k ∧ w = ⟨.new k rows tokens submit silence, ∅⟩

abbrev Runs (guarded : Prop) : World → Prop := Reachable Start (Step guarded)

/-- Every frame that the lane submitted has left its queue. -/
def Spent (w : World) (lane : ProcessId) : Prop :=
  ∀ state, w.policy.lanes[lane]? = some state → ∀ frame ∈ state.frames, frame.park = true

end World

/-- The states in which a call evaluates its gate, in their order. It takes the steps of `planDispatch`. -/
def gates (stillQueued : List Nat) (blockedLanes : Finset ProcessId) (executing : Bool) (now : Instant)
    (schedule : Option (ProcessId → Int)) : Nat → FramePolicy → List FramePolicy
  | 0, _ => []
  | rounds + 1, policy =>
    let policy := policy.retireParks.dropUnqueued stillQueued
    match policy.sealed with
    | _ :: _ => []
    | [] =>
      match if policy.boundaryOpen then policy.sealOnce schedule rounds else some (false, policy) with
      | none => []
      | some (true, policy) => gates stillQueued blockedLanes executing now schedule rounds policy
      | some (false, sealedNone) =>
        let policy := if policy.boundaryOpen then sealedNone.closeBoundary else sealedNone
        let atGate := (policy.cohortVerdict now).2
        if policy.lanes.toList.all (fun e => e.2.frames.isEmpty) || (policy.cohortVerdict now).1 ≠ [] then []
        else
          match policy.planClosed executing now schedule rounds with
          | some (none, policy) => atGate :: gates stillQueued blockedLanes executing now schedule rounds policy
          | _ => [atGate]

/-- Once its frames are gone, a call leaves the lane neither awaited nor leashed; no gate waits for
it or gives it up, and who is given up is so for another lane. -/
def NeverWaitedFor (w : World) (lane : ProcessId) : Prop :=
  w.Spent lane → ∀ stillQueued blocked executing now schedule rounds,
    (∀ plan policy, w.policy.planDispatch stillQueued blocked executing now schedule rounds = some (plan, policy) →
      (∀ state, policy.lanes[lane]? = some state → state.awaited = false ∧ state.leashed = false)
        ∧ ∀ doomed pid, plan = .terminate doomed → (pid, .abandoned) ∈ doomed →
          ∃ atGate ∈ gates stillQueued blocked executing now schedule rounds w.policy, ∃ other ≠ lane, ∃ state,
            atGate.lanes[other]? = some state ∧ (atGate.gateLane now other state).2 = .expired pid)
    ∧ ∀ atGate ∈ gates stillQueued blocked executing now schedule rounds w.policy, ∀ state,
      atGate.lanes[lane]? = some state → (atGate.gateLane now lane state).2 = .fine

end Pie.Scheduler.Parks
