import Pie.Poem.Layout

/-!
# Composed fires

The lanes of a fire put in the order of their classes, with a window for each
class on each axis. Names follow `compose.rs`; a count that fits 32 bits in the
code is a `UInt32` here, and the number of a class is a number. The classes that
were looked up are kept in the code, and looked up again here.
-/

namespace Pie.Exec

open Poem Poem.Layout

inductive RowAxis
  | tokens | patches | voxels
deriving DecidableEq, Repr

structure PerAxis (α : Type) where
  tokens : α
  patches : α
  voxels : α
deriving DecidableEq, Repr

def PerAxis.get {α : Type} (p : PerAxis α) : RowAxis → α
  | .tokens => p.tokens
  | .patches => p.patches
  | .voxels => p.voxels

structure Lane where
  word : UInt64
  rows : UInt32
  images : UInt32
  patches : UInt32
  clips : UInt32
  voxels : UInt32
deriving DecidableEq, Repr

/-- The rows and the items of a lane on an axis. -/
def Lane.on (lane : Lane) : RowAxis → UInt32 × UInt32
  | .tokens => (lane.rows, 1)
  | .patches => (lane.patches, lane.images)
  | .voxels => (lane.voxels, lane.clips)

/-- The rows and the lanes of one class. -/
structure ClassWindow where
  rowOffset : UInt32
  rows : UInt32
  laneOffset : UInt32
  lanes : UInt32
deriving DecidableEq, Repr

instance : Inhabited ClassWindow := ⟨⟨0, 0, 0, 0⟩⟩

/-- The windows of all classes, and the classes that have rows in the order of their windows. -/
structure WindowTable where
  classes : List ClassWindow
  order : List Nat
deriving DecidableEq, Repr

namespace WindowTable

/-- The class `c`. -/
def cls (classes : List ClassWindow) (c : Nat) : ClassWindow := classes.getD c default

def new (classes : List ClassWindow) : WindowTable :=
  ⟨classes, ((List.range classes.length).filter fun c => decide (0 < (cls classes c).rows)).insertionSort fun a b =>
    (cls classes a).rowOffset ≤ (cls classes b).rowOffset⟩

end WindowTable

/-- A lane in its place on each axis. -/
structure LaneRow where
  source : UInt32
  word : UInt64
  cls : UInt32
  rowOffset : UInt32
  rows : UInt32
  patchOffset : UInt32
  patches : UInt32
  imageOffset : UInt32
  images : UInt32
  voxelOffset : UInt32
  voxels : UInt32
  clipOffset : UInt32
  clips : UInt32
deriving DecidableEq, Repr

instance : Inhabited LaneRow := ⟨⟨0, 0, 0, 0, 0, 0, 0, 0, 0, 0, 0, 0, 0⟩⟩

structure AxisComposition where
  classes : WindowTable
  rows : UInt32
  lanes : UInt32
  bucket : UInt32
deriving DecidableEq, Repr

structure Composition where
  lanes : List LaneRow
  axes : PerAxis AxisComposition
deriving DecidableEq, Repr

/-! ## What a fire is composed for -/

structure Ladder where
  maxRows : UInt32
  maxLanes : UInt32
  buckets : List UInt32
deriving DecidableEq, Repr

structure Budget where
  maxLanes : UInt32
  maxTokens : UInt32
  buckets : List UInt32
deriving DecidableEq, Repr

structure Budgets where
  tokens : Budget
  patches : Option Ladder
  voxels : Option Ladder
deriving DecidableEq, Repr

/-- An order of the classes below `count`. -/
def Orders (count : Nat) : ClassOrder → Prop
  | .identity => True
  | .seriated tree => tree.frontier.Perm (List.range count)

/-- A compiled model, as far as fires are composed for it. `order` and the plans are made by `seriate`. -/
structure CompiledModel where
  classes : ClassTable
  order : ClassOrder
  patches : Option ClassOrder
  voxels : Option ClassOrder
  count_le : classes.classes.length ≤ 256
  order_orders : Orders classes.classes.length order
  patches_orders : ∀ order ∈ patches, Orders classes.classes.length order
  voxels_orders : ∀ order ∈ voxels, Orders classes.classes.length order

def CompiledModel.orderFor (compiled : CompiledModel) : RowAxis → Option ClassOrder
  | .tokens => some compiled.order
  | .patches => compiled.patches
  | .voxels => compiled.voxels

inductive Fault
  | tooManyLanes (lanes : Nat) (max : UInt32)
  | emptyLane (lane : Nat)
  | patchGeometry (lane : Nat) (images patches : UInt32)
  | towerless (lane : Nat)
  | noPatchLadder (lane : Nat)
  | clipGeometry (lane : Nat) (clips voxels : UInt32)
  | vaeless (lane : Nat)
  | noVoxelLadder (lane : Nat)
  | unknownWord (lane : Nat) (word : UInt64)
  | tooManyRows (rows : Nat) (max : UInt32)
  | tooManyPatches (patches : Nat) (max : UInt32)
  | tooManyImages (images : Nat) (max : UInt32)
  | tooManyVoxels (voxels : Nat) (max : UInt32)
  | tooManyClips (clips : Nat) (max : UInt32)
  | noBucket (rows top : UInt32)
  | noPatchBucket (patches top : UInt32)
  | noVoxelBucket (voxels top : UInt32)
  | descriptorShort (bytes : Nat)
  | descriptorMagic (saw : UInt32)
  | descriptorAbi (saw speaks : UInt32)
  | descriptorLength (bytes want : Nat)
  | descriptorRows (counted : Nat) (header : UInt32)
  | descriptorPatchRows (counted : Nat) (header : UInt32)
  | descriptorVoxelRows (counted : Nat) (header : UInt32)
deriving DecidableEq, Repr

/-! ## Buckets -/

def rungOf (buckets : List UInt32) (rows : UInt32) : UInt32 := (buckets.find? (rows ≤ ·)).getD rows

/-- A bucket for the rows, or what is wrong when they are more than the last one takes. -/
def bucketIn (buckets : List UInt32) (rows : UInt32) (fault : UInt32 → UInt32 → Fault) : Except Fault UInt32 :=
  match buckets.getLast? with
  | some top => if top < rows then .error (fault rows top) else .ok (rungOf buckets rows)
  | none => .ok (rungOf buckets rows)

def bucketOf (budget : Budget) (rows : UInt32) : Except Fault UInt32 := bucketIn budget.buckets rows .noBucket

/-- No bucket is needed without a ladder or without rows. -/
def bucketOn (ladder : Option Ladder) (rows : UInt32) (fault : UInt32 → UInt32 → Fault) : Except Fault UInt32 :=
  match ladder with
  | none => .ok 0
  | some ladder => if rows = 0 then .ok 0 else bucketIn ladder.buckets rows fault

def patchBucketOf (ladder : Option Ladder) (patches : UInt32) : Except Fault UInt32 := bucketOn ladder patches .noPatchBucket

def voxelBucketOf (ladder : Option Ladder) (voxels : UInt32) : Except Fault UInt32 := bucketOn ladder voxels .noVoxelBucket

/-! ## Lanes -/

/-- `ClassTable::class_of` -/
def classOf (classes : ClassTable) (word : Nat) : Option Nat := classes.classes.findIdx? (·.words.contains word)

/-- The class of lane `i`, when there is nothing wrong with the lane. -/
def laneClass (compiled : CompiledModel) (ladder voxelLadder : Option Ladder) (i : Nat) (lane : Lane) : Except Fault Nat :=
  if lane.rows = 0 then .error (.emptyLane i)
  else if decide (lane.images = 0) ≠ decide (lane.patches = 0) then .error (.patchGeometry i lane.images lane.patches)
  else if 0 < lane.images ∧ (compiled.orderFor .patches).isNone then .error (.towerless i)
  else if 0 < lane.images ∧ ladder.isNone then .error (.noPatchLadder i)
  else if decide (lane.clips = 0) ≠ decide (lane.voxels = 0) then .error (.clipGeometry i lane.clips lane.voxels)
  else if 0 < lane.clips ∧ (compiled.orderFor .voxels).isNone then .error (.vaeless i)
  else if 0 < lane.clips ∧ voxelLadder.isNone then .error (.noVoxelLadder i)
  else
    match classOf compiled.classes (lane.word.toNat &&& compiled.classes.mask) with
    | some c => .ok c
    | none => .error (.unknownWord i lane.word)

/-- Each lane with its class. -/
abbrev Classed := Lane × Nat

/-- The rows and items of each class on an axis. -/
def tallied (axis : RowAxis) (count : Nat) (lanes : List Classed) : List (Nat × Nat) :=
  lanes.foldl (fun tally l =>
    tally.modify l.2 fun t => (t.1 + (l.1.on axis).1.toNat, t.2 + (l.1.on axis).2.toNat)) (List.replicate count (0, 0))

def totalled (axis : RowAxis) (lanes : List Lane) : Nat × Nat :=
  lanes.foldl (fun t lane => (t.1 + (lane.on axis).1.toNat, t.2 + (lane.on axis).2.toNat)) (0, 0)

/-! ## Windows -/

structure Placing where
  rowAt : UInt32
  laneAt : UInt32
  classes : List ClassWindow
  placed : List (UInt32 × UInt32)

/-- The lanes of a class that have something on the axis, one after the other. -/
def placeLanes (axis : RowAxis) (c : Nat) (lanes : List Classed) (rowAt laneAt : UInt32)
    (placed : List (UInt32 × UInt32)) : List (UInt32 × UInt32) :=
  (lanes.zipIdx.foldl (fun st l =>
    if l.1.2 ≠ c ∨ (l.1.1.on axis).2 = 0 then st
    else (st.1 + (l.1.1.on axis).1, st.2.1 + (l.1.1.on axis).2, st.2.2.set l.2 (st.1, st.2.1)))
    (rowAt, laneAt, placed)).2.2

def placeClass (axis : RowAxis) (tally : List (Nat × Nat)) (lanes : List Classed) (st : Placing) (c : Nat) : Placing :=
  let (rows, items) := tally.getD c (0, 0)
  let window : ClassWindow := ⟨st.rowAt, .ofNat rows, st.laneAt, .ofNat items⟩
  { rowAt := st.rowAt + .ofNat rows
    laneAt := st.laneAt + .ofNat items
    classes := st.classes.set c window
    placed := placeLanes axis c lanes st.rowAt st.laneAt st.placed }

/-- The windows of an axis, and where each lane is on it. -/
def seriateAxis (plan : Option ClassOrder) (axis : RowAxis) (tally : List (Nat × Nat)) (lanes : List Classed)
    (totals : UInt32 × UInt32) (bucket : UInt32) : AxisComposition × List (UInt32 × UInt32) :=
  let classes := List.replicate tally.length (default : ClassWindow)
  let placed := List.replicate lanes.length (0, 0)
  match plan with
  | none => (⟨⟨classes, []⟩, totals.1, totals.2, bucket⟩, placed)
  | some plan =>
    let present := ClassSet.of ((List.range tally.length).filter fun c => decide (0 < (tally.getD c (0, 0)).2))
    let order := plan.classOrder present
    let st := order.foldl (placeClass axis tally lanes) ⟨0, 0, classes, placed⟩
    (⟨⟨st.classes, order⟩, totals.1, totals.2, bucket⟩, st.placed)

/-- Where lane `i` is on each axis. -/
def laneRow (placed : PerAxis (List (UInt32 × UInt32))) (i : Nat) (l : Classed) : LaneRow :=
  let token := placed.tokens.getD i (0, 0)
  let patch := placed.patches.getD i (0, 0)
  let voxel := placed.voxels.getD i (0, 0)
  { source := .ofNat i, word := l.1.word, cls := .ofNat l.2, rowOffset := token.1, rows := l.1.rows
    patchOffset := patch.1, patches := l.1.patches, imageOffset := patch.2, images := l.1.images
    voxelOffset := voxel.1, voxels := l.1.voxels, clipOffset := voxel.2, clips := l.1.clips }

/-- The most rows and items a ladder takes. -/
def Ladder.most (ladder : Option Ladder) : UInt32 × UInt32 := (ladder.map fun l => (l.maxRows, l.maxLanes)).getD (0, 0)

def seriate (compiled : CompiledModel) (budget : Budget) (ladder voxelLadder : Option Ladder) (lanes : List Lane) :
    Except Fault Composition := do
  if budget.maxLanes.toNat < lanes.length then .error (.tooManyLanes lanes.length budget.maxLanes)
  let ofLane ← lanes.zipIdx.mapM fun l => laneClass compiled ladder voxelLadder l.2 l.1
  let count := compiled.classes.classes.length
  let tokens := totalled .tokens lanes
  if budget.maxTokens.toNat < tokens.1 then .error (.tooManyRows tokens.1 budget.maxTokens)
  let patches := totalled .patches lanes
  if (Ladder.most ladder).1.toNat < patches.1 then .error (.tooManyPatches patches.1 (Ladder.most ladder).1)
  if (Ladder.most ladder).2.toNat < patches.2 then .error (.tooManyImages patches.2 (Ladder.most ladder).2)
  let voxels := totalled .voxels lanes
  if (Ladder.most voxelLadder).1.toNat < voxels.1 then .error (.tooManyVoxels voxels.1 (Ladder.most voxelLadder).1)
  if (Ladder.most voxelLadder).2.toNat < voxels.2 then .error (.tooManyClips voxels.2 (Ladder.most voxelLadder).2)
  let tokenBucket ← bucketOf budget (.ofNat tokens.1)
  let patchBucket ← patchBucketOf ladder (.ofNat patches.1)
  let voxelBucket ← voxelBucketOf voxelLadder (.ofNat voxels.1)
  let classed := lanes.zip ofLane
  let on := fun axis (totals : Nat × Nat) bucket => seriateAxis (compiled.orderFor axis) axis (tallied axis count classed)
    classed (.ofNat totals.1, .ofNat totals.2) bucket
  let token := on .tokens tokens tokenBucket
  let patch := on .patches patches patchBucket
  let voxel := on .voxels voxels voxelBucket
  .ok {
    lanes := token.1.classes.order.flatMap fun c =>
      (classed.zipIdx.filter fun l => decide (l.1.2 = c)).map fun l => laneRow ⟨token.2, patch.2, voxel.2⟩ l.2 l.1
    axes := ⟨token.1, patch.1, voxel.1⟩ }

def composeAxes (compiled : CompiledModel) (budgets : Budgets) (lanes : List Lane) : Except Fault Composition :=
  seriate compiled budgets.tokens budgets.patches budgets.voxels lanes

end Pie.Exec
