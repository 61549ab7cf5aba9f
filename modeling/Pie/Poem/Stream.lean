import Pie.Poem.Region

/-!
# Streams

The dependency schedule: each region gets a lane, and waits on the events of the
regions of other lanes that it follows. Names follow `stream.rs`. A vector of
fixed length is a table here, a function of the index.

Times are `f32` in the source. They only choose between lanes, so a clock stands
for them: any numbers with a sum, a maximum and an order.
-/

namespace Pie.Poem

open Lib

structure DeviceProfile where
  sideStreams : UInt32
  dagStreamsUntil : Nat
  exclusive : List String

structure StreamPlan where
  pairs : List (UInt32 × UInt32)
  events : UInt32
  streams : UInt32
  forkedUntil : Nat
deriving DecidableEq, Repr

/-! ## What a region touches -/

/-- The values a value may stand for: itself, or what the arms of the merge may stand for. -/
abbrev Through := List (Option (List ValueId))

/-- `arms`: what was found for a value. -/
def arms (through : Through) (value : ValueId) : List ValueId :=
  match through[value]? with
  | some (some reached) => reached
  | _ => []

/-- The arms of a merge in turn, and all that was found for them. -/
def resolveArms (find : Through → ValueId → Through) (armList : List (ValueId × Guard)) (through : Through) :
    Through × List ValueId :=
  armList.foldl (fun st arm =>
    let through := find st.1 arm.1
    (through, st.2 ++ arms through arm.1)) (through, [])

/-- A value without an entry gets one. -/
def enter (trace : Trace) (find : Through → ValueId → Through) (through : Through) (value : ValueId) : Through :=
  match trace.defn value with
  | none => through
  | some (.merge armList) =>
    let found := resolveArms find armList (through.set value (some [value]))
    let all := Ordered.normal found.2
    if all = [] then found.1 else found.1.set value (some all)
  | some _ => through.set value (some [value])

/-- `resolve`, for as many levels as there are values. -/
def resolve (trace : Trace) : Nat → Through → ValueId → Through
  | 0, through, _ => through
  | fuel + 1, through, value =>
    match through[value]? with
    | some (some _) => through
    | _ => enter trace (resolve trace fuel) through value

def throughOf (trace : Trace) : Through :=
  (List.range trace.values.length).foldl (resolve trace trace.values.length)
    (List.replicate trace.values.length none)

/-- The cache a value names: the space of keys and values, or a number of its own from the top. -/
def spaceOf (trace : Trace) (value : ValueId) : Option Nat :=
  match trace.defn value with
  | some (.cache row) =>
    match trace.caches[row]? with
    | some (.kv space) => some space
    | _ => some (2 ^ 32 - 1 - row)
  | _ => none

structure Touches where
  reads : List ValueId
  writes : List ValueId
  spaces : List Nat
  barrier : Bool
  exclusive : Bool

def nodesOf (trace : Trace) (region : Region) : List Node := region.nodes.filterMap (trace.nodes[·]?)

/-- `Touches::of` for one region. -/
def touchesOf (trace : Trace) (profile : DeviceProfile) (through : Through) (region : Region) : Touches :=
  let nodes := nodesOf trace region
  let ins := nodes.flatMap (fun node => node.op.inputs.flatMap (arms through))
  let outs := nodes.flatMap (fun node => node.op.outputs)
  { reads := Ordered.normal (ins.filter (fun v => (spaceOf trace v).isNone))
    writes := Ordered.normal (outs.filter (fun v => (spaceOf trace v).isNone))
    spaces := Ordered.normal ((ins ++ outs).filterMap (spaceOf trace))
    barrier := nodes.any (fun node => decide (node.op.family = .collective))
    exclusive := nodes.any (fun node => profile.exclusive.any (· == node.op.name)) }

/-- `edge`: the second must come after the first. -/
def edge (a b : Touches) (aMask bMask : ClassSet) : Bool :=
  if a.barrier || b.barrier then true
  else if a.exclusive && b.exclusive then true
  else if Ordered.meets a.writes b.reads || Ordered.meets a.writes b.writes || Ordered.meets a.reads b.writes then true
  else Ordered.meets a.spaces b.spaces && !aMask.disjoint bMask

/-- The edges of a list of regions, by their places in it. -/
def edgeAt (trace : Trace) (regions : List Region) (profile : DeviceProfile) (a b : Nat) : Bool :=
  let touch := touchesOf trace profile (throughOf trace)
  match regions[a]?, regions[b]? with
  | some ra, some rb => edge (touch ra) (touch rb) ra.mask rb.mask
  | _, _ => false

/-- `closure`: what comes after each region. -/
def closure (edge : Nat → Nat → Bool) (n : Nat) : List Nat :=
  (List.range n).reverse.foldl (fun after a =>
    (List.range' (a + 1) (n - (a + 1))).foldl (fun after b =>
      if edge a b then after.set a (Bits.add (after.getD a 0) b ||| after.getD b 0) else after) after)
    (List.replicate n 0)

/-- `path`. -/
def path (after : List Nat) (a b : Nat) : Bool := decide (a < b) && Bits.has (after.getD a 0) b

/-! ## The schedule -/

structure Clock (τ : Type) where
  zero : τ
  add : τ → τ → τ
  max : τ → τ → τ
  cmp : τ → τ → Ordering

def forkable (region : Region) : Bool :=
  region.launches && decide (region.lowering = .alwaysLaunch) && decide (region.stream = 0)
    && region.wait.isEmpty && region.opens.isNone && region.close.isNone

structure Sched (τ : Type) where
  finish : Nat → τ
  free : Nat → τ
  laneOf : Nat → Nat
  last : Nat → Option Nat
  /-- The latest region of a lane that another lane has waited past. -/
  synced : Nat → Nat → Option Nat
  sources : Nat → List Nat
  close : Nat → Option EventId
  wait : Nat → List EventId
  stream : Nat → UInt32
  events : UInt32
  streams : UInt32

section

variable {τ : Type} (clock : Clock τ)

/-- The later of a region held and another. -/
def later (held : Option Nat) (a : Nat) : Option Nat :=
  match held with
  | none => some a
  | some b => some (Nat.max b a)

/-- The last region on each lane that `r` comes after, and when all of them are done. -/
def needs (before : Nat → Bool) (s : Sched τ) (r : Nat) : τ × (Nat → Option Nat) :=
  (List.range r).foldl (fun st a =>
    if before a then (clock.max st.1 (s.finish a), Function.update st.2 (s.laneOf a) (later (st.2 (s.laneOf a)) a))
    else st) (clock.zero, fun _ => none)

/-- `min_by`: the first lane that can start soonest. -/
def earliest (start : Nat → τ) (lanes : Nat) : Nat :=
  match List.range lanes with
  | [] => 0
  | l :: ls => ls.foldl (fun x y =>
    match (clock.cmp (start x) (start y)).then (compare x y) with
    | .gt => y
    | _ => x) l

def chooseLane (s : Sched τ) (lanes : Nat) (fixed : Option (List Nat)) (start : Nat) (barrier : Bool) (ready : τ) : Nat :=
  if barrier then 0
  else
    match fixed with
    | some lane => (lane[start]?.map (fun l => Nat.min l (lanes - 1))).getD 0
    | none => earliest clock (fun l => clock.max ready (s.free l)) lanes

/-- A barrier follows the last region of every lane. -/
def needAll (s : Sched τ) (need : Nat → Option Nat) : Nat → Option Nat := fun t =>
  match s.last t with
  | some a => later (need t) a
  | none => need t

/-- A side lane's first region follows the main lane's last at least. -/
def joinMain (s : Sched τ) (lanes lane : Nat) (need : Nat → Option Nat) : Nat → Option Nat :=
  if lane ≠ 0 ∧ s.last lane = none ∧ (List.range lanes).all (fun t => t == lane || (need t).isNone) then
    match s.last 0 with
    | some a => Function.update need 0 (some a)
    | none => need
  else need

/-- `r` waits on `a`, of lane `t`. -/
def waitOn (r lane t a : Nat) (s : Sched τ) : Sched τ :=
  let event := (s.close a).getD s.events
  { s with
    events := if (s.close a).isSome then s.events else s.events + 1
    close := Function.update s.close a (some event)
    wait := Function.update s.wait r (s.wait r ++ [event])
    sources := Function.update s.sources r (s.sources r ++ [a])
    synced := Function.update s.synced lane (Function.update (s.synced lane) t (some a)) }

/-- The waits of `r`: the lanes it has not waited past. -/
def waits (r lane lanes : Nat) (need : Nat → Option Nat) (s : Sched τ) : Sched τ :=
  (List.range lanes).foldl (fun s t =>
    if t = lane then s
    else
      match need t with
      | none => s
      | some a => if (s.synced lane t).any (fun held => decide (a ≤ held)) then s else waitOn r lane t a s) s

/-- `r` takes its place on the lane. -/
def place (r lane : Nat) (ready cost : τ) (s : Sched τ) : Sched τ :=
  let done := clock.add (clock.max ready (s.free lane)) cost
  let wide := UInt32.ofNat lane + 1
  { s with
    finish := Function.update s.finish r done
    free := Function.update s.free lane done
    laneOf := Function.update s.laneOf r lane
    stream := Function.update s.stream r (UInt32.ofNat lane)
    last := Function.update s.last lane (some r)
    streams := if s.streams ≤ wide then wide else s.streams }

/-- One region scheduled. -/
def schedule (path : Nat → Nat → Bool) (eligible : Nat → Bool) (cost : Nat → τ) (start : Nat → Nat)
    (fixed : Option (List Nat)) (lanes n : Nat) (s : Sched τ) (r : Nat) : Sched τ :=
  let rn := needs clock (fun a => path a r) s r
  let barrier := !eligible r || r + 1 == n
  let lane := chooseLane clock s lanes fixed (start r) barrier rn.1
  let need := joinMain s lanes lane (if barrier then needAll s rn.2 else rn.2)
  place clock r lane rn.1 (cost r) (waits r lane lanes need s)

end

/-! ## Side by side -/

structure Sides where
  before : Nat → Nat
  prev : Nat → Option Nat
  pairs : List (UInt32 × UInt32)

/-- Region `a` and all before it. -/
def upTo (before : Nat → Nat) (set a : Nat) : Nat := Bits.add set a ||| before a

/-- The regions before `r` that neither its lane nor its waits put there. -/
def sides (laneOf : Nat → Nat) (sources : Nat → List Nat) (s : Sides) (r : Nat) : Sides :=
  let onLane :=
    match s.prev (laneOf r) with
    | some p => upTo s.before 0 p
    | none => 0
  let set := (sources r).foldl (upTo s.before) onLane
  { before := Function.update s.before r set
    prev := Function.update s.prev (laneOf r) (some r)
    pairs := s.pairs ++ ((List.range r).filter (fun a => laneOf a != laneOf r && !Bits.has set a)).map
      (fun a => (UInt32.ofNat a, UInt32.ofNat r)) }

section

variable {τ : Type} (clock : Clock τ)

/-- Before any region is scheduled. -/
def Sched.new (regions : List Region) : Sched τ where
  finish _ := clock.zero
  free _ := clock.zero
  laneOf _ := 0
  last _ := none
  synced _ _ := none
  sources _ := []
  close r := regions[r]?.bind (·.close)
  wait r := (regions[r]?.map (·.wait)).getD []
  stream r := (regions[r]?.map (·.stream)).getD 0
  events := 0
  streams := 1

/-- Every region scheduled in turn. -/
def scheduleAll (cost : Region → τ) (trace : Trace) (regions : List Region) (profile : DeviceProfile)
    (fixed : Option (List Nat)) : Sched τ :=
  let n := regions.length
  let after := closure (edgeAt trace regions profile) n
  let touch := touchesOf trace profile (throughOf trace)
  let eligible := fun r => regions[r]?.any (fun region => forkable region && !(touch region).barrier)
  (List.range n).foldl
    (schedule clock (path after) eligible (fun r => (regions[r]?.map cost).getD clock.zero)
      (fun r => (regions[r]?.map (·.start)).getD 0) fixed (1 + profile.sideStreams.toNat) n) (Sched.new clock regions)

/-- `fork_dag`: the regions scheduled, and the plan. -/
def forkDag (cost : Region → τ) (trace : Trace) (regions : List Region) (profile : DeviceProfile)
    (fixed : Option (List Nat)) : List Region × StreamPlan :=
  if profile.sideStreams = 0 ∨ regions.length < 3 then (regions, ⟨[], 0, 1, 0⟩)
  else
    let s := scheduleAll clock cost trace regions profile fixed
    let side := (List.range regions.length).foldl (sides s.laneOf s.sources) ⟨fun _ => 0, fun _ => none, []⟩
    (regions.mapIdx (fun r region => { region with stream := s.stream r, wait := s.wait r, close := s.close r }),
      ⟨side.pairs, s.events, s.streams, profile.dagStreamsUntil⟩)

end

end Pie.Poem
