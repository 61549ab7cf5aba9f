import Pie.Lib.Spans
import Pie.Exec.Compose

/-!
# Packing a selection

The rows of the lanes that a selection picks, put together by the group that the
lanes belong to, and inside a group by stream. Names follow `packing.rs`. Places
in a vector are numbers; what the code casts to `i32` goes through `asI32`.
-/

namespace Pie.Exec

structure LaneFacts where
  stream : UInt8
  group : Option UInt32
deriving DecidableEq, Repr

structure Selection where
  mask : UInt32
  value : UInt32
deriving DecidableEq, Repr

/-- `Selection::ALL` -/
def Selection.all : Selection := ⟨0, 0⟩

def Selection.holds (select : Selection) (word : UInt64) : Bool := word.toUInt32 &&& select.mask == select.value

/-- `Stream::Reference.code()`, the last of the six. -/
def REFERENCE : UInt8 := 5

/-- What a number is when it is cast to an `i32`. -/
def asI32 (n : Nat) : Int := (n : Int).bmod (2 ^ 32)

/-! ## Groups -/

/-- The group a lane states. -/
def statedGroup (facts : List LaneFacts) (row : LaneRow) : Option UInt32 :=
  facts[row.source.toNat]?.bind (·.group)

/-- The groups from a lane on: a new number for a group not yet stated, and for each lane that states none. -/
def groupsFrom : List (UInt32 × Nat) → Nat → List (Option UInt32) → List Nat
  | _, _, [] => []
  | stated, next, none :: groups => next :: groupsFrom stated (next + 1) groups
  | stated, next, some id :: groups =>
    match stated.find? (·.1 == id) with
    | some (_, dense) => dense :: groupsFrom stated next groups
    | none => next :: groupsFrom (stated ++ [(id, next)]) (next + 1) groups

def groupOfLane (lanes : List LaneRow) (facts : List LaneFacts) : List Nat :=
  groupsFrom [] 0 (lanes.map (statedGroup facts))

def groupsOf (groupOfLane : List Nat) : Nat := (groupOfLane.map (· + 1)).foldl max 0

/-! ## Selected lanes -/

/-- A selected lane, with what it is sorted by; `index` is its place in the fire. -/
structure Chosen where
  group : Nat
  stream : UInt8
  index : Nat
  row : LaneRow
deriving DecidableEq, Repr

namespace Chosen

def rows (c : Chosen) : Nat := c.row.rows.toNat

def offset (c : Chosen) : Nat := c.row.rowOffset.toNat

/-- The order of the triples. -/
def le (a b : Chosen) : Prop :=
  a.group < b.group ∨ a.group = b.group ∧ (a.stream < b.stream ∨ a.stream = b.stream ∧ a.index ≤ b.index)

instance : DecidableRel le := fun _ _ => inferInstanceAs (Decidable (_ ∨ _))

end Chosen

def chosen (select : Selection) (lanes : List LaneRow) (facts : List LaneFacts) (groupOfLane : List Nat) : List Chosen :=
  (lanes.zipIdx.filter fun l => select.holds l.1.word).map fun l =>
    { group := groupOfLane.getD l.2 0
      stream := (facts[l.1.source.toNat]?.map (·.stream)).getD 0
      index := l.2
      row := l.1 }

/-- Where rows are expected, and what is there instead. -/
structure ScatteredSelection where
  mask : UInt32
  value : UInt32
  found : Nat
  expected : Nat
deriving DecidableEq, Repr

/-- The end of ranges that follow each other, or the first that does not. -/
def runEnd : Nat → List (Nat × Nat) → Except (Nat × Nat) Nat
  | stop, [] => .ok stop
  | stop, (offset, rows) :: rest => if offset ≠ stop then .error (offset, stop) else runEnd (stop + rows) rest

/-! ## Writing -/

structure Writing where
  packed : Nat
  cursorGroup : Option Nat
  groupFirst : List Nat
  seenReference : List Bool
  references : List Nat
  referenceStart : List Int
  laneIndptr : List Int
  permutation : List Int
  referenceTag : List Int
  attnClass : List Int

/-- `f 0`, `f 1` and so on are written from a place on. -/
def writeRows (v : List Int) (here : Nat) (f : Nat → Int) (n : Nat) : List Int :=
  (List.range n).foldl (fun v j => v.set (here + j) (f j)) v

/-- The class that a lane states for its row `j`. -/
def classAt (classes : List (Option (List Int))) (row : LaneRow) (j : Nat) : Int :=
  ((classes[row.source.toNat]?.join.bind (·[j]?))).getD (-1)

/-- What the tag of a lane's rows is. -/
def Chosen.tag (c : Chosen) : Int := if c.stream = REFERENCE then asI32 c.index else -1

/-- A group begins with the first of its lanes. -/
def enter (w : Writing) (c : Chosen) : Writing :=
  if w.cursorGroup ≠ some c.group then
    { w with cursorGroup := some c.group, groupFirst := w.groupFirst.set c.group w.packed }
  else w

/-- The first reference of a group is where its references start. -/
def refer (w : Writing) (c : Chosen) : Writing :=
  if c.stream = REFERENCE then
    let w := { w with references := w.references.modify c.group (· + 1) }
    if w.seenReference.getD c.group false then w
    else
      { w with
        seenReference := w.seenReference.set c.group true
        referenceStart := w.referenceStart.set c.group (asI32 (w.packed - w.groupFirst.getD c.group 0)) }
  else w

def copy (classes : List (Option (List Int))) (w : Writing) (c : Chosen) : Writing :=
  { w with
    permutation := writeRows w.permutation w.packed (fun j => asI32 (c.offset + j)) c.rows
    referenceTag := writeRows w.referenceTag w.packed (fun _ => c.tag) c.rows
    attnClass := writeRows w.attnClass w.packed (classAt classes c.row) c.rows
    packed := w.packed + c.rows
    laneIndptr := w.laneIndptr ++ [asI32 (w.packed + c.rows)] }

def place (classes : List (Option (List Int))) (w : Writing) (c : Chosen) : Writing :=
  copy classes (refer (enter w c) c) c

def Writing.start (origin groups fireRows : Nat) : Writing where
  packed := origin
  cursorGroup := none
  groupFirst := List.replicate groups origin
  seenReference := List.replicate groups false
  references := List.replicate groups 0
  referenceStart := List.replicate groups 0
  laneIndptr := [asI32 origin]
  permutation := List.replicate fireRows (-1)
  referenceTag := List.replicate fireRows (-1)
  attnClass := List.replicate fireRows (-1)

/-! ## Bounds of the groups -/

structure Bounding where
  bound : Nat
  rest : List Chosen
  groupIndptr : List Int
  referenceStart : List Int

/-- A group without references has its rows before them all. -/
def boundGroup (seenReference : List Bool) (b : Bounding) (g : Nat) : Bounding :=
  let count := ((b.rest.takeWhile (·.group = g)).map Chosen.rows).sum
  { bound := b.bound + count
    rest := b.rest.dropWhile (·.group = g)
    groupIndptr := b.groupIndptr ++ [asI32 b.bound]
    referenceStart :=
      if seenReference.getD g false then b.referenceStart else b.referenceStart.set g (asI32 count) }

structure Packed where
  select : Selection
  origin : Nat
  rows : Nat
  lanes : Nat
  groupIndptr : List Int
  laneIndptr : List Int
  referenceTag : List Int
  permutation : List Int
  referenceStart : List Int
  references : List Nat
  attnClass : List Int
deriving DecidableEq, Repr

def packWithClasses (select : Selection) (lanes : List LaneRow) (facts : List LaneFacts) (groupOfLane : List Nat)
    (fireRows : UInt32) (classes : List (Option (List Int))) : Except ScatteredSelection Packed :=
  let groups := groupsOf groupOfLane
  let chosen := (chosen select lanes facts groupOfLane).insertionSort Chosen.le
  let byRow := (chosen.map fun c => (c.offset, c.rows)).insertionSort Lib.Spans.le
  let origin := (byRow.head?.map Prod.fst).getD 0
  match runEnd origin byRow with
  | .error (found, expected) => .error ⟨select.mask, select.value, found, expected⟩
  | .ok stop =>
    let w := chosen.foldl (place classes) (.start origin groups fireRows.toNat)
    let b := (List.range groups).foldl (boundGroup w.seenReference) ⟨origin, chosen, [], w.referenceStart⟩
    .ok {
      select
      origin
      rows := stop - origin
      lanes := chosen.length
      groupIndptr := b.groupIndptr ++ [asI32 b.bound]
      laneIndptr := w.laneIndptr
      referenceTag := w.referenceTag
      permutation := w.permutation
      referenceStart := b.referenceStart
      references := w.references
      attnClass := w.attnClass }

def pack (select : Selection) (lanes : List LaneRow) (facts : List LaneFacts) (groupOfLane : List Nat)
    (fireRows : UInt32) : Except ScatteredSelection Packed :=
  packWithClasses select lanes facts groupOfLane fireRows []

end Pie.Exec
