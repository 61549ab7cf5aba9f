import Pie.Eta.Pareval
import Pie.Pipeline.Fire

/-!
# The geometry of a pass

What the ports of a trace evaluate to says which tokens each lane has, where its
rows land and which of them it reads out; the lanes of a request are cut from it.

Names follow `pipeline/fire/geometry.rs`. Numbers are `u32` and wrap, as in a
build without overflow checks. An error that quotes a blocker of the evaluation
holds the blocker. What every lane has in common is left out.
-/

namespace Pie.Fire

open Lib Eta

/-! ## What the ports state -/

inductive Fold
  | none
  | host (counts : List (BitVec 32))
  | device
deriving DecidableEq, Repr

structure ReqGeometry where
  tokenIds : List (BitVec 32)
  qoIndptr : List (BitVec 32)
  positions : Option (List (BitVec 32))
  slots : Option (List (BitVec 32))
  kvLen : Option (List (BitVec 32))
  fold : Fold
  samplingIndices : List (BitVec 32)
  samplingIndptr : List (BitVec 32)
deriving DecidableEq, Repr

/-- A set of ports, a bit for each. -/
structure PortMask where
  bits : BitVec 32
deriving DecidableEq, Repr

namespace PortMask

def NONE : PortMask := ⟨0⟩

def contains (mask : PortMask) (port : Port) : Bool := mask.bits.getLsbD port.toU8

end PortMask

/-- The reason of a bad value. -/
inductive Reason
  | blocker (blocker : EvalBlocker)
  | notBound
  | spans (spanned supplied : Nat)
  | lengths (lanes supplied : Nat)
  | notPartitioned
deriving DecidableEq

def Reason.text : Reason → Option String
  | .blocker _ => none
  | .notBound => some "port is not bound"
  | .spans spanned supplied => some s!"the token CSR spans {spanned} rows but {supplied} were supplied"
  | .lengths lanes supplied => some s!"expected one length for each of {lanes} lanes, got {supplied}"
  | .notPartitioned => some "read-out rows do not partition into the lane CSR"

inductive EvaluatedGeometryError
  | notDerivable (port : Port) (blocker : EvalBlocker)
  | badValue (port : Port) (reason : Reason)
deriving DecidableEq

abbrev PortEvaluations := List (Port × Slot)

abbrev Geometry (α : Type) := Except (Stop EvaluatedGeometryError) α

def Geometry.fail {α : Type} (e : EvaluatedGeometryError) : Geometry α := .error (.error e)

def valueAsU32 (F : F32Ops) : Value → List (BitVec 32)
  | .u32 v => v
  | .i32 v => v
  | .f32 v => v.map F.toU32
  | .bool v => v.map fun b => if b then 1 else 0

/-- The value of a port, if it is bound. -/
def portValue (ports : PortEvaluations) (port : Port) : Option Slot :=
  (ports.find? fun e => e.1 = port).map Prod.snd

variable (F : F32Ops)

def optionalU32 (ports : PortEvaluations) (port : Port) : Geometry (Option (List (BitVec 32))) :=
  match portValue ports port with
  | some (.ok value) => .ok (some (valueAsU32 F value))
  | some (.error blocker) => .fail (.notDerivable port blocker)
  | none => .ok none

def requiredU32 (ports : PortEvaluations) (port : Port) : Geometry (List (BitVec 32)) := do
  match ← optionalU32 F ports port with
  | some values => .ok values
  | none => .fail (.badValue port .notBound)

/-- Where the device resolves the port, something stands in for what the host cannot derive. -/
def orDevice {α : Type} (device : PortMask) (port : Port) (standIn : α) : Geometry α → Geometry α
  | .error (.error (.notDerivable p blocker)) =>
    if device.contains port then .ok standIn else .fail (.notDerivable p blocker)
  | value => value

/-- The tokens of the lanes: from one entry to the next. -/
def windows : List (BitVec 32) → List (Nat × Nat)
  | [] => []
  | first :: ends => cutsFrom first.toNat (ends.map BitVec.toNat)

/-- One row for each token. -/
def spanRows (spanned : Nat) (port : Port) (rows : List (BitVec 32)) : Geometry (List (BitVec 32)) :=
  if spanned = 0 then .ok []
  else if rows.length = spanned then .ok rows
  else .fail (.badValue port (.spans spanned rows.length))

def spanRowsIf (spanned : Nat) (port : Port) : Option (List (BitVec 32)) → Geometry (Option (List (BitVec 32)))
  | none => .ok none
  | some rows => do
    let rows ← spanRows spanned port rows
    .ok (some rows)

/-- The last row of each lane that has one. -/
def lastRows (indptr : List (BitVec 32)) : List (BitVec 32) :=
  ((windows indptr).filter fun lane => lane.1 < lane.2).map fun lane => BitVec.ofNat 32 (lane.2 - 1)

/-- The read-out rows of one lane, counted from where it starts. -/
def laneReadout (readout : List (BitVec 32)) (lane : Nat × Nat) : List (BitVec 32) :=
  (readout.filter fun index => lane.1 ≤ index.toNat ∧ index.toNat < lane.2).map fun index => index - BitVec.ofNat 32 lane.1

/-- One round of the loop over the lanes. -/
def bucket (readout : List (BitVec 32)) (sampling : List (BitVec 32) × List (BitVec 32)) (lane : Nat × Nat) :
    List (BitVec 32) × List (BitVec 32) :=
  let indices := sampling.1 ++ laneReadout readout lane
  (indices, sampling.2 ++ [BitVec.ofNat 32 indices.length])

/-- What fails the evaluation of the ports is said of the tokens. -/
def evaluatePorts (known : ChannelIndex → Option Value) (bound : BoundTrace) : Geometry PortEvaluations :=
  match evalDescriptorPorts known F bound with
  | .ok ports => .ok ports
  | .error (.error blocker) => .fail (.badValue .embedTokens (.blocker blocker))
  | .error .panic => .error .panic

/-- One length for each lane. -/
def checkLengths (lanes : Nat) : Option (List (BitVec 32)) → Geometry Unit
  | some lens => if lens.length ≠ lanes then .fail (.badValue .kvLen (.lengths lanes lens.length)) else .ok ()
  | none => .ok ()

def foldCounts (ports : PortEvaluations) : Geometry Fold := do
  match ← optionalU32 F ports .fold with
  | some counts => .ok (.host counts)
  | none => .ok .none

def mapGeometryEvaluatedWith (known : ChannelIndex → Option Value) (bound : BoundTrace) (device : PortMask) :
    Geometry (ReqGeometry × PortEvaluations) := do
  let ports ← evaluatePorts F known bound
  let qoIndptr ← requiredU32 F ports .embedIndptr
  let spanned := (qoIndptr.getLast?.getD 0).toNat
  let lanes := qoIndptr.length - 1
  let tokenIds ← orDevice device .embedTokens (List.replicate spanned 0) (requiredU32 F ports .embedTokens)
  let positions ← orDevice device .positions none (optionalU32 F ports .positions)
  let fold ← orDevice device .fold .device (foldCounts F ports)
  let slots ← optionalU32 F ports .slots
  let kvLen ← optionalU32 F ports .kvLen
  let tokenIds ← spanRows spanned .embedTokens tokenIds
  let positions ← spanRowsIf spanned .positions positions
  let slots ← spanRowsIf spanned .slots slots
  checkLengths lanes kvLen
  let readout := (← optionalU32 F ports .readout).getD (lastRows qoIndptr)
  let sampling := (windows qoIndptr).foldl (bucket readout) ([], [0])
  if sampling.1.length ≠ readout.length then .fail (.badValue .readout .notPartitioned)
  else .ok (⟨tokenIds, qoIndptr, positions, slots, kvLen, fold, sampling.1, sampling.2⟩, ports)

/-! ## Lanes -/

/-- What a lane is bound to. -/
structure Place where
  folded : BitVec 32
  foldedExact : Bool
  tail : Option (BitVec 32)
  shared : Bool
deriving DecidableEq, Repr

structure Landing where
  start : BitVec 32
  rows : BitVec 32
deriving DecidableEq, Repr

inductive LanesError
  | workingSets (places count : Nat)
  | noSlot (lane : Nat)
  | notConsecutive (lane : Nat) (slots : List (BitVec 32))
  | shared (lane : Nat)
  | deviceTail (lane : Nat)
  | frozen (lane : Nat) (start folded : BitVec 32)
  | fewLengths (lengths count : Nat)
  | reads (lane : Nat) (len last : BitVec 32)
deriving DecidableEq

def LanesError.text : LanesError → String
  | .workingSets places count => s!"the pass binds {places} working set(s) for its {count} lane(s); give one per lane"
  | .noSlot lane => s!"lane {lane} states no slot for its rows"
  | .notConsecutive lane slots =>
    s!"lane {lane} writes slots {slots.map BitVec.toNat}; a lane's rows write consecutive slots"
  | .shared lane => s!"lane {lane} shares its working set with another lane and states no slots; " ++
      "lanes that share a working set state where their rows land"
  | .deviceTail lane => s!"lane {lane} appends, but where its working set's last write ended was computed on the " ++
      "device; state its slots"
  | .frozen lane start folded => s!"lane {lane} writes slot {start.toNat}, inside the frozen prefix " ++
      s!"(0..{folded.toNat}); write at or after it"
  | .fewLengths lengths count => s!"kv-len states {lengths} length(s) for {count} lane(s)"
  | .reads lane len last => s!"lane {lane} reads {len.toNat} slot(s) but its last row is slot {last.toNat}; " ++
      "a lane the host places reads up to its last row"

/-- What the lane has of the values. A range that is none gives nothing. -/
def cutBy (values indptr : List (BitVec 32)) (lane : Nat) : List (BitVec 32) :=
  match indptr[lane]?, indptr[lane + 1]? with
  | some start, some stop => (slice values start.toNat stop.toNat).getD []
  | _, _ => []

/-- The values are those from `start` on. -/
def consecutive (start : BitVec 32) (values : List (BitVec 32)) : Bool :=
  values.zipIdx.all fun e => e.1 == start + BitVec.ofNat 32 e.2

namespace ReqGeometry

variable (g : ReqGeometry)

def cut (values : List (BitVec 32)) (lane : Nat) : List (BitVec 32) := cutBy values g.qoIndptr lane

def count : Nat := g.qoIndptr.length - 1

/-- Where the rows of a lane land. -/
def startOf (lane : Nat) (place : Place) : Except LanesError (BitVec 32) :=
  match g.slots with
  | some slots =>
    match g.cut slots lane with
    | [] => .error (.noSlot lane)
    | first :: rest =>
      if consecutive first (first :: rest) then .ok first else .error (.notConsecutive lane (first :: rest))
  | none =>
    if place.shared then .error (.shared lane)
    else
      match place.tail with
      | some tail => .ok tail
      | none => .error (.deviceTail lane)

/-- How many slots the lane reads. -/
def kvLenOf (lane : Nat) (stop : BitVec 32) : Except LanesError (BitVec 32) :=
  match g.kvLen with
  | some lens =>
    match lens[lane]? with
    | none => .error (.fewLengths lens.length g.count)
    | some len => if len ≠ stop then .error (.reads lane len (BitVec.ofNat 32 (stop.toNat - 1))) else .ok len
  | none => .ok stop

/-- Positions that follow from where the rows land are dropped. -/
def positionsOf (lane : Nat) (start : BitVec 32) : List (BitVec 32) :=
  match g.positions with
  | some positions => if consecutive start (g.cut positions lane) then [] else g.cut positions lane
  | none => []

def readoutOf (lane : Nat) (rows : BitVec 32) : Readout :=
  match cutBy g.samplingIndices g.samplingIndptr lane with
  | [] => .none
  | [only] => if only + 1 = rows then .last else .rows [only.toNat]
  | read => .rows (read.map BitVec.toNat)

/-- One round of the loop over the places. -/
def laneOf (page : Nat) (e : Place × Nat) : Except LanesError (Lane × Landing) := do
  let tokens := g.cut g.tokenIds e.2
  let rows := BitVec.ofNat 32 (min tokens.length (2 ^ 32 - 1))
  let start ← g.startOf e.2 e.1
  if e.1.foldedExact && decide (start.toNat < e.1.folded.toNat) then .error (.frozen e.2 start e.1.folded)
  else do
    let kvLen ← g.kvLenOf e.2 (start + rows)
    .ok ({
        tokens := tokens
        positions := g.positionsOf e.2 start
        kv := ⟨start.toNat, List.range (divCeil kvLen.toNat page)⟩
        mask := none
        adapter := none
        drafts := false
        capturesScores := false
        blockDraft := false
        bidirectional := false
        selfCond := none
        channels := []
        readout := g.readoutOf e.2 rows
        group := none
        peer := none
        ports := []
        kvLess := false
        attnClasses := none }, ⟨start, rows⟩)

def lanes (places : List Place) (page : Nat) : Except LanesError (List Lane × List Landing) :=
  if places.length ≠ g.count then .error (.workingSets places.length g.count)
  else do
    let cut ← places.zipIdx.mapM (g.laneOf (max page 1))
    .ok (cut.map Prod.fst, cut.map Prod.snd)

end ReqGeometry

end Pie.Fire
