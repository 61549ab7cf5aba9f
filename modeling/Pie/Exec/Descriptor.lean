import Pie.Exec.Compose
import Pie.Lib.LittleEndian

/-!
# Fire descriptors

A composed fire as bytes: a header, the windows and the lanes, and one trailer
each for the patches and the voxels when there are any. Names follow
`descriptor.rs`. What is read goes through a `Reader`, so that it can be told
where bytes are read; the one of the code gives zero past the end.
-/

namespace Pie.Exec

open Lib

def MAGIC : UInt32 := 0x46495245

def ABI_VERSION : UInt32 := 3

def HEADER_BYTES : Nat := 40

def CLASS_BYTES : Nat := 16

def LANE_BYTES : Nat := 24

def PATCH_LANE_BYTES : Nat := 16

def VOXEL_LANE_BYTES : Nat := 16

structure FireDescriptor where
  rows : UInt32
  bucket : UInt32
  classes : WindowTable
  lanes : List LaneRow
  patchRows : UInt32
  images : UInt32
  runCaps : List UInt32
  runPasses : List UInt32
  patchBucket : UInt32
  patchClasses : WindowTable
  voxelRows : UInt32
  clips : UInt32
  voxelBucket : UInt32
  voxelClasses : WindowTable
deriving DecidableEq, Repr

namespace FireDescriptor

def ofComposition (composition : Composition) : FireDescriptor where
  rows := composition.axes.tokens.rows
  bucket := composition.axes.tokens.bucket
  classes := composition.axes.tokens.classes
  lanes := composition.lanes
  patchRows := composition.axes.patches.rows
  images := composition.axes.patches.lanes
  runCaps := []
  runPasses := []
  patchBucket := composition.axes.patches.bucket
  patchClasses := composition.axes.patches.classes
  voxelRows := composition.axes.voxels.rows
  clips := composition.axes.voxels.lanes
  voxelBucket := composition.axes.voxels.bucket
  voxelClasses := composition.axes.voxels.classes

def bytes (d : FireDescriptor) : Nat :=
  HEADER_BYTES + CLASS_BYTES * d.classes.classes.length + LANE_BYTES * d.lanes.length
    + (if 0 < d.patchRows then CLASS_BYTES * d.patchClasses.classes.length + PATCH_LANE_BYTES * d.lanes.length else 0)
    + (if 0 < d.voxelRows then CLASS_BYTES * d.voxelClasses.classes.length + VOXEL_LANE_BYTES * d.lanes.length else 0)

end FireDescriptor

/-! ## Writing -/

def put32 (value : UInt32) : List UInt8 := toLe 4 value.toNat

def put64 (value : UInt64) : List UInt8 := toLe 8 value.toNat

def packWindow (window : ClassWindow) : List UInt8 :=
  put32 window.rowOffset ++ put32 window.rows ++ put32 window.laneOffset ++ put32 window.lanes

def packLane (lane : LaneRow) : List UInt8 :=
  put64 lane.word ++ put32 lane.source ++ put32 lane.cls ++ put32 lane.rowOffset ++ put32 lane.rows

def packPatchLane (lane : LaneRow) : List UInt8 :=
  put32 lane.patchOffset ++ put32 lane.patches ++ put32 lane.imageOffset ++ put32 lane.images

def packVoxelLane (lane : LaneRow) : List UInt8 :=
  put32 lane.voxelOffset ++ put32 lane.voxels ++ put32 lane.clipOffset ++ put32 lane.clips

/-- The windows of an axis and where each lane is on it, if the axis has rows. -/
def packTrailer (rows : UInt32) (table : WindowTable) (lanes : List LaneRow) (packLane : LaneRow → List UInt8) : List UInt8 :=
  if 0 < rows then table.classes.flatMap packWindow ++ lanes.flatMap packLane else []

def FireDescriptor.pack (d : FireDescriptor) : List UInt8 :=
  put32 MAGIC ++ put32 ABI_VERSION ++ put32 d.rows ++ put32 (.ofNat d.lanes.length) ++ put32 d.bucket
    ++ put32 (.ofNat d.classes.classes.length) ++ put32 d.patchRows ++ put32 d.patchBucket ++ put32 d.voxelRows
    ++ put32 d.voxelBucket
    ++ d.classes.classes.flatMap packWindow ++ d.lanes.flatMap packLane
    ++ packTrailer d.patchRows d.patchClasses d.lanes packPatchLane
    ++ packTrailer d.voxelRows d.voxelClasses d.lanes packVoxelLane

/-! ## Reading -/

/-- What gives the number of four, or eight, bytes from a place on. -/
structure Reader (m : Type → Type) where
  take32 : Nat → m UInt32
  take64 : Nat → m UInt64

/-- The bytes from a place on, if they are all there. -/
def bytesAt (bytes : List UInt8) (here n : Nat) : Option (List UInt8) :=
  if here + n ≤ bytes.length then some ((bytes.drop here).take n) else none

def take32 (bytes : List UInt8) (here : Nat) : UInt32 := ((bytesAt bytes here 4).map fun b => .ofNat (ofLe b)).getD 0

def take64 (bytes : List UInt8) (here : Nat) : UInt64 := ((bytesAt bytes here 8).map fun b => .ofNat (ofLe b)).getD 0

/-- The reader of the code. -/
def Reader.lenient (bytes : List UInt8) : Reader Id where
  take32 := Exec.take32 bytes
  take64 := Exec.take64 bytes

/-- A reader that gives nothing once it is asked for bytes that are not there. -/
def Reader.strict (bytes : List UInt8) : Reader Option where
  take32 here := (bytesAt bytes here 4).map fun b => .ofNat (ofLe b)
  take64 here := (bytesAt bytes here 8).map fun b => .ofNat (ofLe b)

/-- The numbers of a header, behind its magic and its version. -/
structure Header where
  rows : UInt32
  lanes : UInt32
  bucket : UInt32
  classes : UInt32
  patchRows : UInt32
  patchBucket : UInt32
  voxelRows : UInt32
  voxelBucket : UInt32

namespace Header

variable (h : Header)

/-- Where the lanes begin. -/
def base : Nat := HEADER_BYTES + CLASS_BYTES * h.classes.toNat

def trailer : Nat := if 0 < h.patchRows then CLASS_BYTES * h.classes.toNat + PATCH_LANE_BYTES * h.lanes.toNat else 0

def voxelTrailer : Nat := if 0 < h.voxelRows then CLASS_BYTES * h.classes.toNat + VOXEL_LANE_BYTES * h.lanes.toNat else 0

def want : Nat := h.base + LANE_BYTES * h.lanes.toNat + h.trailer + h.voxelTrailer

end Header

section Unpacking

variable {m : Type → Type} [Monad m]

def unpackWindow (r : Reader m) (here : Nat) : m ClassWindow := do
  let rowOffset ← r.take32 here
  let rows ← r.take32 (here + 4)
  let laneOffset ← r.take32 (here + 8)
  let lanes ← r.take32 (here + 12)
  pure ⟨rowOffset, rows, laneOffset, lanes⟩

def unpackTable (r : Reader m) (here classes : Nat) : m (List ClassWindow) :=
  (List.range classes).mapM fun c => unpackWindow r (here + CLASS_BYTES * c)

def unpackLane (r : Reader m) (here : Nat) : m LaneRow := do
  let word ← r.take64 here
  let source ← r.take32 (here + 8)
  let cls ← r.take32 (here + 12)
  let rowOffset ← r.take32 (here + 16)
  let rows ← r.take32 (here + 20)
  pure { (default : LaneRow) with word, source, cls, rowOffset, rows }

def unpackLanes (r : Reader m) (here lanes : Nat) : m (List LaneRow) :=
  (List.range lanes).mapM fun l => unpackLane r (here + LANE_BYTES * l)

def unpackPatchLane (r : Reader m) (here : Nat) (lane : LaneRow) : m LaneRow := do
  let patchOffset ← r.take32 here
  let patches ← r.take32 (here + 4)
  let imageOffset ← r.take32 (here + 8)
  let images ← r.take32 (here + 12)
  pure { lane with patchOffset, patches, imageOffset, images }

def unpackVoxelLane (r : Reader m) (here : Nat) (lane : LaneRow) : m LaneRow := do
  let voxelOffset ← r.take32 here
  let voxels ← r.take32 (here + 4)
  let clipOffset ← r.take32 (here + 8)
  let clips ← r.take32 (here + 12)
  pure { lane with voxelOffset, voxels, clipOffset, clips }

def countedRows (table : List ClassWindow) : Nat := (table.map fun w => w.rows.toNat).sum

/-- A trailer: its windows, and what it says of each lane. Without rows there is none. -/
def unpackTrailer (r : Reader m) (rows : UInt32) (here classes width : Nat) (placed : List LaneRow)
    (unpackLane : Reader m → Nat → LaneRow → m LaneRow) (fault : Nat → UInt32 → Fault) :
    m (Except Fault (List ClassWindow × List LaneRow)) :=
  if 0 < rows then do
    let table ← unpackTable r here classes
    if countedRows table ≠ rows.toNat then pure (.error (fault (countedRows table) rows))
    else do
      let placed ← placed.zipIdx.mapM fun l => unpackLane r (here + CLASS_BYTES * classes + width * l.2) l.1
      pure (.ok (table, placed))
  else pure (.ok (List.replicate classes default, placed))

/-- What is read behind the header. The sums of images and of clips wrap in a release build. -/
def unpackBody (r : Reader m) (h : Header) : m (Except Fault FireDescriptor) := do
  let table ← unpackTable r HEADER_BYTES h.classes.toNat
  if countedRows table ≠ h.rows.toNat then pure (.error (.descriptorRows (countedRows table) h.rows))
  else do
    let placed ← unpackLanes r h.base h.lanes.toNat
    let patched ← unpackTrailer r h.patchRows (h.base + LANE_BYTES * h.lanes.toNat) h.classes.toNat PATCH_LANE_BYTES placed
      unpackPatchLane .descriptorPatchRows
    match patched with
    | .error fault => pure (.error fault)
    | .ok (patchTable, placed) => do
      let images := UInt32.ofNat ((placed.map fun lane => lane.images.toNat).sum)
      let voxeled ← unpackTrailer r h.voxelRows (h.base + LANE_BYTES * h.lanes.toNat + h.trailer) h.classes.toNat
        VOXEL_LANE_BYTES placed unpackVoxelLane .descriptorVoxelRows
      match voxeled with
      | .error fault => pure (.error fault)
      | .ok (voxelTable, placed) =>
        let clips := UInt32.ofNat ((placed.map fun lane => lane.clips.toNat).sum)
        pure (.ok {
          rows := h.rows
          bucket := h.bucket
          classes := .new table
          lanes := placed
          patchRows := h.patchRows
          images
          runCaps := []
          runPasses := []
          patchBucket := h.patchBucket
          patchClasses := .new patchTable
          voxelRows := h.voxelRows
          clips
          voxelBucket := h.voxelBucket
          voxelClasses := .new voxelTable })

def unpackHeader (r : Reader m) : m Header := do
  let rows ← r.take32 8
  let lanes ← r.take32 12
  let bucket ← r.take32 16
  let classes ← r.take32 20
  let patchRows ← r.take32 24
  let patchBucket ← r.take32 28
  let voxelRows ← r.take32 32
  let voxelBucket ← r.take32 36
  pure { rows, lanes, bucket, classes, patchRows, patchBucket, voxelRows, voxelBucket }

/-- The descriptor that `len` bytes hold. -/
def unpackWith (r : Reader m) (len : Nat) : m (Except Fault FireDescriptor) :=
  if len < HEADER_BYTES then pure (.error (.descriptorShort len))
  else do
    let magic ← r.take32 0
    if magic ≠ MAGIC then pure (.error (.descriptorMagic magic))
    else do
      let saw ← r.take32 4
      if saw ≠ ABI_VERSION then pure (.error (.descriptorAbi saw ABI_VERSION))
      else do
        let h ← unpackHeader r
        if len ≠ h.want then pure (.error (.descriptorLength len h.want))
        else unpackBody r h

end Unpacking

def FireDescriptor.unpack (bytes : List UInt8) : Except Fault FireDescriptor :=
  unpackWith (Reader.lenient bytes) bytes.length

end Pie.Exec
