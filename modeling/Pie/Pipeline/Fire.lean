import Pie.Lib.Tilings

/-!
# Fires of a pass

A pass whose rows are more than one fire should carry is cut into pieces, and
each piece becomes a request of its own. Names follow `pipeline/fire.rs`, and
`engine/fire.rs` for what a request says of its lanes. A number past 32 bits, a
difference below zero and a slice past the end give nothing: the source panics.
-/

namespace Pie.Fire

open Lib

def ATTN_SCORE_OBSERVE : Nat := 32

structure Mask where
  runs : List (BitVec 32)
  total : BitVec 64
deriving DecidableEq, Repr

inductive Masking
  | extent (mask : Mask)
  | rows (masks : List Mask)
deriving DecidableEq, Repr

structure KvDelta where
  held : Nat
  pages : List Nat
deriving DecidableEq, Repr

inductive Readout
  | last
  | rows (read : List Nat)
  | none
deriving DecidableEq, Repr

structure AttnClasses where
  classes : List Int
  table : List UInt8
  count : Nat
deriving DecidableEq, Repr

structure SelfCondInput where
  taps : Nat
  rows : List Nat
  weightBits : List Nat
  channels : Option (Nat × Nat)
deriving DecidableEq, Repr

inductive PortKind
  | latents
  | laneVector
  | context
  | axisPositions
  | voxels
deriving DecidableEq, Repr

structure PortFeed where
  kind : PortKind
  port : UInt8
  channel : Nat
deriving DecidableEq, Repr

structure Ticket where
  channel : Nat
  expectedHead : Nat
  expectedTail : Nat
deriving DecidableEq, Repr

structure Lane where
  tokens : List (BitVec 32)
  positions : List (BitVec 32)
  kv : KvDelta
  mask : Option Masking
  adapter : Option Nat
  drafts : Bool
  capturesScores : Bool
  blockDraft : Bool
  bidirectional : Bool
  selfCond : Option SelfCondInput
  channels : List Ticket
  readout : Readout
  group : Option Nat
  peer : Option Nat
  ports : List PortFeed
  kvLess : Bool
  attnClasses : Option AttnClasses
deriving DecidableEq, Repr

structure StepMedia where
  lane : Nat
  routes : List Int
  tokenPositions : List Int
deriving DecidableEq, Repr

structure StepVoxels where
  lane : Nat
  clips : List (Nat × Nat × Nat)
deriving DecidableEq, Repr

structure FireRequest where
  lanes : List Lane
  singleTokenMode : Bool
  boundaryProgram : Bool
  voxels : List StepVoxels
  media : List StepMedia
  cohort : Option Nat
deriving DecidableEq, Repr

def FireRequest.one (lane : Lane) : FireRequest := ⟨[lane], false, false, [], [], none⟩

/-! ## Numbers of 32 bits -/

def add32 (a b : Nat) : Option Nat := if a + b < 2 ^ 32 then some (a + b) else none

def sub32 (a b : Nat) : Option Nat := if b ≤ a then some (a - b) else none

def subI32 (a b : Int) : Option Int := if -2 ^ 31 ≤ a - b ∧ a - b < 2 ^ 31 then some (a - b) else none

/-- `as i32`. -/
def asI32 (n : Nat) : Int := (n : Int).bmod (2 ^ 32)

def slice {α : Type} (l : List α) (start stop : Nat) : Option (List α) :=
  if start ≤ stop ∧ stop ≤ l.length then some (stretch l (start, stop)) else none

def divCeil (a b : Nat) : Nat := (a + b - 1) / b

/-- `u32::try_from(tokens.len()).unwrap_or(u32::MAX)`. -/
def Lane.rows (lane : Lane) : Nat := min lane.tokens.length (2 ^ 32 - 1)

/-! ## Where a lane is cut -/

def plainLane (lane : Lane) : Bool :=
  lane.attnClasses.isNone && lane.adapter.isNone && !lane.drafts && !lane.blockDraft && !lane.bidirectional
    && lane.selfCond.isNone && lane.ports.isEmpty && !lane.kvLess

def separableRows (req : FireRequest) : Bool :=
  (match req.lanes with
    | [lane] => plainLane lane
    | _ => false) && req.voxels.isEmpty

/-- `u32::try_from` of a route. -/
def routeRow (row : Int) : Option Nat := if 0 ≤ row then some row.toNat else none

def firstMediaRow (req : FireRequest) : Option Nat :=
  (((req.media.filter fun media => media.lane = 0).flatMap (·.routes)).filterMap routeRow).min?

/-- The first row the last piece must hold. -/
def tailRow (lane : Lane) (rows : Nat) : Nat :=
  let read := match lane.readout with
    | .last => rows - 1
    | .rows read => read.min?.getD rows
    | .none => rows
  if lane.capturesScores then min read (rows - ATTN_SCORE_OBSERVE) else read

/-- Where a piece of `share` rows from `start` on ends: on a page where it can. -/
def pageEnd (held start share page : Nat) : Option Nat := do
  let reach ← add32 (← add32 held start) share
  let stop := reach / page * page - held
  some (if stop ≤ start then start + share else stop)

theorem lt_pageEnd {held start share page stop : Nat} (hs : 0 < share) (h : pageEnd held start share page = some stop) :
    start < stop := by
  obtain ⟨reach, -, h⟩ := Option.bind_eq_some_iff.mp h
  obtain ⟨reach, -, h⟩ := Option.bind_eq_some_iff.mp h
  cases h
  split <;> omega

/-- The loop of `host_cuts` from a row on; it does not run where there is no share. -/
def shareEnds (held rows share page start : Nat) : Option (List Nat) :=
  if _h : 0 < share ∧ share < rows - start then
    match _hstop : pageEnd held start share page with
    | none => none
    | some stop => (shareEnds held rows share page stop).map (stop :: ·)
  else some []
termination_by rows - start
decreasing_by
  have := lt_pageEnd _h.1 _hstop
  omega

def hostCuts (req : FireRequest) (cuttable : Bool) (share page : Nat) (forced : List Nat) : Option (List (Nat × Nat)) :=
  match req.lanes with
  | [lane] =>
    let rows := lane.rows
    if !cuttable || !separableRows req then some [(0, rows)]
    else do
      let held := lane.kv.held
      let page := max page 1
      let tail := min (tailRow lane rows) ((firstMediaRow req).getD rows)
      let ends := forced.filter fun stop => 0 < stop ∧ stop < rows
      let ends := ends ++ (← shareEnds held rows share page 0)
      let ends := ends.filter (· ≤ tail) ++ [rows]
      some (cutsFrom 0 (ascending ends))
  | lanes => some [(0, (lanes.head?.map Lane.rows).getD 0)]

/-! ## Pieces of a pass -/

/-- The rows of each lane in one piece, where it has any. -/
abbrev Piece := List (Option (Nat × Nat))

def separableLanes (req : FireRequest) : Bool :=
  req.cohort.isNone && req.media.isEmpty && req.voxels.isEmpty
    && req.lanes.all fun lane => lane.group.isNone && lane.peer.isNone && separableRows (.one lane)

/-- The share of one of several lanes. -/
def laneShare (share lanes page : Nat) : Nat := max (share / min lanes (2 ^ 32 - 1) / page * page) page

def passPieces (req : FireRequest) (cuttable lanesCuttable : Bool) (share page : Nat) (forced : List Nat) :
    Option (List Piece) :=
  let whole := [req.lanes.map fun lane => some (0, lane.rows)]
  if req.lanes.length ≤ 1 then do
    let cuts ← hostCuts req cuttable share page forced
    some (cuts.map fun cut => [some cut])
  else if !cuttable || !lanesCuttable || !separableLanes req then some whole
  else do
    let page := max page 1
    let share := laneShare share req.lanes.length page
    let perLane ← req.lanes.mapM fun lane => hostCuts (.one lane) true share page []
    let count := (perLane.map List.length).max?.getD 1
    some ((List.range count).map fun k => perLane.map fun cuts =>
      if count ≤ k + cuts.length then cuts[k + cuts.length - count]? else none)

/-! ## Requests of the pieces -/

/-- What is empty stays so. -/
def sliceIfAny {α : Type} [DecidableEq α] (l : List α) (start stop : Nat) : Option (List α) :=
  if l = [] then some [] else slice l start stop

/-- A row's mask names absolute keys: it is the same in any piece. -/
def rowsOfMask (mask : Option Masking) (start stop : Nat) : Option (Option Masking) :=
  match mask with
  | some (.rows masks) => (slice masks start stop).map fun masks => some (.rows masks)
  | mask => some mask

def rowsOfReadout (readout : Readout) (start : Nat) : Option Readout :=
  match readout with
  | .rows read => (read.mapM fun row => sub32 row start).map .rows
  | readout => some readout

/-- One lane of `rows_of_lanes`. -/
def rowsOfLane (lane : Lane) (cut : Nat × Nat) (last : Bool) (page : Nat) : Option Lane := do
  let tokens ← slice lane.tokens cut.1 cut.2
  let positions ← sliceIfAny lane.positions cut.1 cut.2
  let mask ← rowsOfMask lane.mask cut.1 cut.2
  let held ← add32 lane.kv.held cut.1
  let rows ← sub32 cut.2 cut.1
  let len ← add32 held rows
  let pages := lane.kv.pages.take (divCeil len (max page 1))
  let piece := { lane with tokens := tokens, positions := positions, mask := mask, kv := ⟨held, pages⟩ }
  if last then (rowsOfReadout lane.readout cut.1).map fun readout => { piece with readout := readout }
  else some { piece with readout := .none, capturesScores := false, channels := [] }

def rowsOfRoute (row : Int) (start : Nat) : Option Int := if 0 ≤ row then subI32 row (asI32 start) else some row

/-- One media row of `rows_of_lanes`. -/
def rowsOfMedia (media : StepMedia) (cut : Nat × Nat) : Option StepMedia := do
  let routes ← media.routes.mapM fun row => rowsOfRoute row cut.1
  let positions ← sliceIfAny media.tokenPositions (3 * cut.1) (3 * cut.2)
  some { media with routes := routes, tokenPositions := positions }

/-- The media of the last piece: its first lane says where it starts. -/
def mediaOf (media : List StepMedia) (piece : Piece) (last : Bool) : Option (List StepMedia) :=
  if last then media.mapM fun media => rowsOfMedia media ((piece.head?.bind id).getD (0, 0)) else some []

def rowsOfLanes (full : FireRequest) (piece : Piece) (last : Bool) (page : Nat) : Option FireRequest := do
  let lanes ← ((full.lanes.zip piece).filterMap fun e => e.2.map fun cut => (e.1, cut)).mapM fun e =>
    rowsOfLane e.1 e.2 last page
  let media ← mediaOf full.media piece last
  some { full with
    lanes := lanes
    boundaryProgram := full.boundaryProgram && last
    media := media
    singleTokenMode := lanes.all fun lane => lane.tokens.length = 1 }

/-- The requests of all the pieces, in their order. -/
def requests (full : FireRequest) (pieces : List Piece) (page : Nat) : Option (List FireRequest) :=
  pieces.zipIdx.mapM fun e => rowsOfLanes full e.1 (e.2 + 1 = pieces.length) page

end Pie.Fire
