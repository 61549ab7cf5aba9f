import Pie.Poem.Stream
import Mathlib.Data.List.Dedup

/-!
# Forked groups

Neighbouring regions of different classes, none of which follows another, form a
group. All but the first of a group go to side streams, each in turn, and the
region after the group waits for them. Names follow `stream.rs`.

A member stays where it is when the fork costs more than it saves. Costs are
`f32` in the source and are only held against that floor, so a test of two
regions stands for them.
-/

namespace Pie.Poem

open Lib

/-! ## Groups -/

/-- `candidates`: neither comes after the other, and no class runs both. -/
def candidates (regions : List Region) (after : List Nat) (a b : Nat) : Bool :=
  !path after a b && !path after b a &&
    match regions[a]?, regions[b]? with
    | some ra, some rb => ra.mask.disjoint rb.mask
    | _, _ => false

/-- The loop of `group_at`: where the group that starts at `start` and has come to `stop` ends. -/
def groupEnd (regions : List Region) (after : List Nat) (start : Nat) : Nat → Nat → Nat
  | 0, stop => stop
  | fuel + 1, stop =>
    if regions[stop]?.any forkable
        && (List.range' start (stop - start)).all (fun held => candidates regions after held stop) then
      groupEnd regions after start fuel (stop + 1)
    else stop

/-- `group_at`: the end of the group that starts at a region. -/
def groupAt (regions : List Region) (after : List Nat) (start : Nat) : Option Nat :=
  if regions[start]?.any forkable then
    let stop := groupEnd regions after start regions.length (start + 1)
    if 2 ≤ stop - start then some stop else none
  else none

/-- The members of a group after its first. -/
def membersOf (start stop : Nat) : List Nat := List.range' (start + 1) (stop - (start + 1))

/-! ## Seats -/

/-- The members that leave the main stream, each with the stream it goes to. -/
def seatsOf (cheap : Nat → Nat → Bool) (sideStreams : UInt32) (start stop : Nat) : List (Nat × UInt32) :=
  ((membersOf start stop).filter (fun member => !cheap start member)).mapIdx
    (fun next member => (member, 1 + UInt32.ofNat next % sideStreams))

structure Forks where
  regions : List Region
  pairs : List (UInt32 × UInt32)
  events : UInt32
  streams : UInt32

/-- One member takes its seat: after the event `enter`, and closed by an event of its own. -/
def seatMember (enter : EventId) (st : Forks × List EventId) (seat : Nat × UInt32) : Forks × List EventId :=
  let exit := st.1.events
  ({ regions := st.1.regions.modify seat.1
       (fun region => { region with stream := seat.2, wait := region.wait ++ [enter], close := some exit })
     pairs := st.1.pairs
     events := exit + 1
     streams := max st.1.streams (seat.2 + 1) }, st.2 ++ [exit])

/-- Each of a list with each that follows it on another stream. -/
def pairsOf : List (Nat × UInt32) → List (UInt32 × UInt32)
  | [] => []
  | a :: l => (l.filter (fun b => a.2 != b.2)).map (fun b => (UInt32.ofNat a.1, UInt32.ofNat b.1)) ++ pairsOf l

/-- `seat`: the group `start..stop` forked, unless none of its members leaves the main stream. -/
def seat (cheap : Nat → Nat → Bool) (sideStreams : UInt32) (start stop : Nat) (forks : Forks) : Forks :=
  let seated := seatsOf cheap sideStreams start stop
  if seated = [] then forks
  else
    let enter := forks.events
    let opened := { forks with
      regions := forks.regions.modify start (fun region => { region with opens := some enter })
      events := enter + 1 }
    let seats := seated.foldl (seatMember enter) (opened, [])
    { seats.1 with
      regions := seats.2.foldl (fun regions exit =>
        regions.modify stop (fun region => { region with wait := region.wait ++ [exit] })) seats.1.regions
      pairs := seats.1.pairs ++ pairsOf ((start, 0) :: seated) }

/-! ## The plan -/

/-- The loop of `fork_with` over the groups. -/
def forkGroups (cheap : Nat → Nat → Bool) (sideStreams : UInt32) (after : List Nat) : Nat → Nat → Forks → Forks
  | 0, _, forks => forks
  | fuel + 1, start, forks =>
    if start < forks.regions.length then
      match groupAt forks.regions after start with
      | none => forkGroups cheap sideStreams after fuel (start + 1) forks
      | some stop =>
        forkGroups cheap sideStreams after fuel stop
          (if stop < forks.regions.length then seat cheap sideStreams start stop forks else forks)
    else forks

/-- Pairs in the order of their numbers, each once. -/
def sortPairs (pairs : List (UInt32 × UInt32)) : List (UInt32 × UInt32) :=
  (pairs.insertionSort (fun p q => p.1 < q.1 ∨ p.1 = q.1 ∧ p.2 ≤ q.2)).dedup

/-- A test of two regions, of their places in a list. -/
def testAt (cheap : Region → Region → Bool) (regions : List Region) (a b : Nat) : Bool :=
  match regions[a]?, regions[b]? with
  | some ra, some rb => cheap ra rb
  | _, _ => false

/-- `fork_with`: the regions forked, and the plan. `cheap` holds of two regions when the lesser of their costs
is under the floor. -/
def forkWith (cheap : Region → Region → Bool) (trace : Trace) (regions : List Region) (profile : DeviceProfile) :
    List Region × StreamPlan :=
  if profile.sideStreams = 0 ∨ regions.length < 3 then (regions, ⟨[], 0, 1, 0⟩)
  else
    let after := closure (edgeAt trace regions profile) regions.length
    let forks := forkGroups (testAt cheap regions) profile.sideStreams after regions.length 0 ⟨regions, [], 0, 1⟩
    (forks.regions, ⟨sortPairs forks.pairs, forks.events, forks.streams, 0⟩)

end Pie.Poem
