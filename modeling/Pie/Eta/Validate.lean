import Pie.Eta.Container
import Pie.Eta.Infer

/-!
# Binding a trace

`bind` checks a container against the profile of a model and gives what a run
of it needs: the types of the channels and of the values of each stage, and the
order in which channels are looked at before a step.

Names follow `validate.rs` and `registry.rs`. The classes of the channels, which
no run reads, are left out.
-/

namespace Pie.Eta

open Lib

inductive Phase where
  | prologue
  | descriptor
  | onAttnProj
  | onAttn
  | epilogue
deriving DecidableEq, Repr

namespace Phase

def ORDER : List Phase := [prologue, descriptor, onAttnProj, onAttn, epilogue]

/-- The stage of a phase; the descriptor has none. -/
def stage : Phase → Option Stage
  | prologue => some .prologue
  | descriptor => none
  | onAttnProj => some .onAttnProj
  | onAttn => some .onAttn
  | epilogue => some .epilogue

end Phase

inductive Direction where
  | needsFull
  | needsEmpty
deriving DecidableEq, Repr

structure ReadinessEntry where
  chan : ChannelIndex
  phase : Phase
  dir : Direction
deriving DecidableEq, Repr

inductive ChannelUse where
  | take
  | read
  | put
deriving DecidableEq, Repr

def Op.channelUse : Op → Option (ChannelUse × ChannelIndex)
  | .chanTake chan => some (.take, chan)
  | .chanRead chan => some (.read, chan)
  | .chanPut chan _ => some (.put, chan)
  | _ => none

/-! ## The profile -/

inductive SinkScope where
  | passWide
  | attention
deriving DecidableEq, Repr

structure KernelInfo where
  name : Str
  sinkScope : Option SinkScope
  replayable : Bool

structure ModelProfile where
  vocab : BitVec 32
  numLayers : BitVec 32
  hasMtpLogits : Bool
  mtpDepth : BitVec 32
  hasValueHead : Bool
  hasAttnScore : Bool
  hasAttnPageMask : Bool
  hasVelocity : Bool
  velocityWidth : BitVec 32
  hasPixels : Bool
  pixelsWidth : BitVec 32
  hasLora : Bool
  kernels : List KernelInfo

def ModelProfile.kernel (profile : ModelProfile) (name : Str) : Option KernelInfo :=
  profile.kernels.find? (fun k => k.name = name)

def ATTN_SCORE_KV_MAX : BitVec 32 := 2048

/-- A name of the registry. -/
def isNamed (n : Str) (name : String) : Bool := n.bytes == name.toUTF8.toList

def KNOWN_SINKS : List (String × SinkScope) :=
  [("attn_page_mask", .attention), ("lora", .passWide), ("minference_sparse", .passWide)]

def intrinsicStages : IntrinsicId → List Stage
  | .logits | .mtpLogits | .hidden | .velocity | .peerVelocity | .pixels | .valueHead | .mtpDrafts
  | .attnScore => [.epilogue]
  | .query | .layer => [.onAttnProj, .onAttn]

def intrinsicAvailable (intr : IntrinsicId) (profile : ModelProfile) : Bool :=
  match intr with
  | .mtpLogits => profile.hasMtpLogits
  | .mtpDrafts => decide (0 < profile.mtpDepth.toNat)
  | .valueHead => profile.hasValueHead
  | .attnScore => profile.hasAttnScore
  | .velocity | .peerVelocity => profile.hasVelocity
  | .pixels => profile.hasPixels
  | .logits | .hidden | .query | .layer => true

/-- A matrix of `f32` with a row. -/
def rowsOfFloats (shape : Shape) (dtype : Dtype) (width : BitVec 32 → Bool) : Bool :=
  match shape.dims with
  | [rows, cols] => dtype == .f32 && decide (1 ≤ rows.toNat) && width cols
  | _ => false

def intrinsicTypeOk (intr : IntrinsicId) (shape : Shape) (dtype : Dtype) (profile : ModelProfile) : Bool :=
  match intr with
  | .logits | .mtpLogits => rowsOfFloats shape dtype (· == profile.vocab)
  | .hidden => rowsOfFloats shape dtype (fun _ => true)
  | .velocity | .peerVelocity => rowsOfFloats shape dtype (· == profile.velocityWidth)
  | .pixels => rowsOfFloats shape dtype (fun w => profile.pixelsWidth == 0 || w == profile.pixelsWidth)
  | .valueHead => dtype == .f32 && shape.rank == 1
  | .query => dtype == .f32 && decide (1 ≤ shape.rank)
  | .layer => dtype == .u32 && shape.isScalar
  | .mtpDrafts => dtype == .i32 && shape.rank == 1 && decide (1 ≤ (shape.dims[0]?.getD 0).toNat)
  | .attnScore => rowsOfFloats shape dtype (· == ATTN_SCORE_KV_MAX)

/-! ## Errors -/

inductive ValidateError where
  | body (stage : Stage) (err : BodyError)
  | duplicateStage (stage : Stage)
  | stagesUnsorted
  | namesUnsortedOrDuplicate
  | duplicatePort (port : Port)
  | portsUnsorted
  | portChannelOutOfRange (port : Port) (chan : ChannelIndex)
  | portConstPayload (port : Port)
  | zeroCapacity (chan : Nat)
  | secondProducer (chan : ChannelIndex) (stage : Stage)
  | secondConsumer (chan : ChannelIndex) (stage : Stage)
  | sinkMisplaced (nameIndex : NameIndex) (name : Str) (stage : Stage)
  | sinkKernelKindMismatch (nameIndex : NameIndex) (name : Str)
  | kernelUnavailable (nameIndex : NameIndex) (name : Str)
  | notReplayable (nameIndex : NameIndex) (name : Str)
  | intrinsicWrongStage (intr : IntrinsicId) (stage : Stage)
  | intrinsicUnavailable (intr : IntrinsicId)
  | intrinsicTypeRule (intr : IntrinsicId) (stage : Stage)
  | externsUnsortedOrDup
  | externDeclConflict (chan : ChannelIndex)
  | externNameOutOfRange (chan : ChannelIndex)
  | externDirViolation (chan : ChannelIndex) (stage : Stage)
deriving DecidableEq

abbrev Validate (α : Type) := Except (Stop ValidateError) α

namespace Validate

def fail {α : Type} (e : ValidateError) : Validate α := .error (.error e)

def guard (p : Prop) [Decidable p] (e : ValidateError) : Validate Unit := if p then .ok () else fail e

/-- `windows(2)`: each element with the next. -/
def windows {α : Type} (xs : List α) : List (α × α) := xs.zip xs.tail

/-! ## Checks -/

def stageWindow (w : StageProgram × StageProgram) : Validate Unit :=
  if w.1.stage = w.2.stage then fail (.duplicateStage w.1.stage)
  else guard (w.1.stage.toU8 ≤ w.2.stage.toU8) .stagesUnsorted

def portWindow (w : PortBinding × PortBinding) : Validate Unit :=
  if w.1.port = w.2.port then fail (.duplicatePort w.1.port)
  else guard (w.1.port.toU8 ≤ w.2.port.toU8) .portsUnsorted

def channelOk (ch : ChannelDecl × Nat) : Validate Unit :=
  guard (ch.1.capacity ≠ 0) (.zeroCapacity (u32OrMax ch.2))

def portOk (channels : Nat) (p : PortBinding) : Validate Unit :=
  match p.source with
  | .channel c => guard (c.toNat < channels) (.portChannelOutOfRange p.port c)
  | .const dtype shape data =>
    guard (shape.numel * dtype.bytesCeil < 2 ^ 64 ∧ shape.numel * dtype.bytesCeil = data.length)
      (.portConstPayload p.port)

/-- `check_structure`. -/
def checkStructure (c : TraceContainer) : Validate Unit := do
  guard ((windows c.names).all (fun w => decide (w.1.bytes < w.2.bytes)) = true) .namesUnsortedOrDuplicate
  (windows c.stages).forM stageWindow
  (windows c.ports).forM portWindow
  c.channels.zipIdx.forM channelOk
  c.ports.forM (portOk c.channels.length)

def externOk (c : TraceContainer) (e : ExternDecl) : Validate Unit :=
  match c.channels[e.chan.toNat]? with
  | none => fail (.externDeclConflict e.chan)
  | some decl => do
    guard (decl.hostRole = .none ∧ decl.seeded = false) (.externDeclConflict e.chan)
    guard (e.name.toNat < c.names.length) (.externNameOutOfRange e.chan)

/-- `check_externs`. -/
def checkExterns (c : TraceContainer) : Validate Unit := do
  guard ((windows c.externs).all (fun w => decide (w.1.chan.toNat < w.2.chan.toNat)) = true) .externsUnsortedOrDup
  c.externs.forM (externOk c)

def channelValueType (decl : ChannelDecl) : ValueType := ⟨decl.shape, decl.dtype.programDtype⟩

def inStage {α : Type} (stage : Stage) : Except (Stop BodyError) α → Validate α
  | .ok a => .ok a
  | .error (.error err) => .error (.error (.body stage err))
  | .error .panic => .error .panic

/-- `check_bodies`. -/
def checkBodies (c : TraceContainer) (channelTypes : List ValueType) : Validate (List (List ValueType)) :=
  c.stages.mapM (fun sp => inStage sp.stage (bodyTypes ⟨channelTypes, u32OrMax c.names.length⟩ sp.ops))

def intrinsicOk (profile : ModelProfile) (stage : Stage) (op : Op) : Validate Unit :=
  match op with
  | .intrinsicVal intr shape dtype => do
    guard (stage ∈ intrinsicStages intr) (.intrinsicWrongStage intr stage)
    guard (intrinsicAvailable intr profile = true) (.intrinsicUnavailable intr)
    guard (intrinsicTypeOk intr shape dtype profile = true) (.intrinsicTypeRule intr stage)
  | _ => .ok ()

/-- `check_intrinsics`. -/
def checkIntrinsics (c : TraceContainer) (profile : ModelProfile) : Validate Unit :=
  c.stages.forM (fun sp => sp.ops.forM (intrinsicOk profile sp.stage))

def resolveName (c : TraceContainer) (idx : NameIndex) : Str := (c.names[idx.toNat]?).getD Str.empty

/-- The scope of a sink: the registry's, or what the profile declares. -/
def sinkScope (profile : ModelProfile) (idx : NameIndex) (n : Str) : Validate SinkScope :=
  match (KNOWN_SINKS.find? (fun k => isNamed n k.1)).map Prod.snd with
  | some scope => .ok scope
  | none =>
    match profile.kernel n with
    | none => fail (.kernelUnavailable idx n)
    | some info =>
      match info.sinkScope with
      | some scope => .ok scope
      | none => fail (.sinkKernelKindMismatch idx n)

def sinkPlaced (scope : SinkScope) (stage : Stage) : Bool :=
  match scope with
  | .passWide => stage == .prologue
  | .attention => stage == .prologue || stage == .onAttnProj

def kernelOk (c : TraceContainer) (profile : ModelProfile) (idx : NameIndex) : Validate Unit :=
  let n := resolveName c idx
  match profile.kernel n with
  | none => fail (.kernelUnavailable idx n)
  | some info => do
    guard (info.sinkScope = none) (.sinkKernelKindMismatch idx n)
    guard (info.replayable = true) (.notReplayable idx n)

def sinkOk (c : TraceContainer) (profile : ModelProfile) (stage : Stage) (idx : NameIndex) : Validate Unit := do
  let n := resolveName c idx
  guard (¬ (isNamed n "attn_page_mask" = true ∧ profile.hasAttnPageMask = false)) (.kernelUnavailable idx n)
  guard (¬ (isNamed n "lora" = true ∧ profile.hasLora = false)) (.kernelUnavailable idx n)
  let scope ← sinkScope profile idx n
  guard (sinkPlaced scope stage = true) (.sinkMisplaced idx n stage)

def secondPartyOk (c : TraceContainer) (profile : ModelProfile) (stage : Stage) (op : Op) : Validate Unit :=
  match op with
  | .kernelCall name _ _ _ => kernelOk c profile name
  | .sinkCall name _ => sinkOk c profile stage name
  | _ => .ok ()

/-- `check_second_party_names`. -/
def checkSecondPartyNames (c : TraceContainer) (profile : ModelProfile) : Validate Unit :=
  c.stages.forM (fun sp => sp.ops.forM (secondPartyOk c profile sp.stage))

def channelDecl (c : TraceContainer) (chan : ChannelIndex) (stage : Stage) (opIndex : Nat) :
    Validate ChannelDecl :=
  match c.channels[chan.toNat]? with
  | some decl => .ok decl
  | none => fail (.body stage ⟨opIndex, .channelOutOfRange chan⟩)

def externDir (c : TraceContainer) (chan : ChannelIndex) : Option ExternDir :=
  (c.externs.find? (fun e => e.chan = chan)).map ExternDecl.dir

/-- Who else may use the channel so: the host of one role, the peer of one direction. -/
def otherParty : ChannelUse → HostRole × ExternDir
  | .put => (.writer, .import_)
  | .take | .read => (.reader, .export_)

def secondParty (use : ChannelUse) (chan : ChannelIndex) (stage : Stage) : ValidateError :=
  if use = .put then .secondProducer chan stage else .secondConsumer chan stage

def spscOp (c : TraceContainer) (stage : Stage) (op : Op × Nat) : Validate Unit :=
  match op.1.channelUse with
  | none => .ok ()
  | some (use, chan) => do
    let decl ← channelDecl c chan stage (u32OrMax op.2)
    guard (decl.hostRole ≠ (otherParty use).1) (secondParty use chan stage)
    guard (externDir c chan ≠ some (otherParty use).2) (.externDirViolation chan stage)

def spscPortDir (c : TraceContainer) (p : PortBinding) : Validate Unit :=
  match p.source with
  | .channel chan => guard (externDir c chan ≠ some .export_) (.externDirViolation chan .prologue)
  | .const .. => .ok ()

def spscPortRole (c : TraceContainer) (p : PortBinding) : Validate Unit :=
  match p.source with
  | .channel chan => do
    let decl ← channelDecl c chan .prologue 0
    guard (decl.hostRole ≠ .reader) (.secondConsumer chan .prologue)
  | .const .. => .ok ()

/-- `check_spsc_endpoints`. -/
def checkSpscEndpoints (c : TraceContainer) : Validate Unit := do
  c.stages.forM (fun sp => sp.ops.zipIdx.forM (spscOp c sp.stage))
  c.ports.forM (spscPortDir c)
  c.ports.forM (spscPortRole c)

end Validate

/-! ## Readiness -/

/-- A channel is looked at where it is first used. -/
def visit (channels : Nat) (phase : Phase) (out : List ReadinessEntry) (use : Direction × ChannelIndex) :
    List ReadinessEntry :=
  if use.2.toNat < channels ∧ ∀ e ∈ out, e.chan ≠ use.2 then out ++ [⟨use.2, phase, use.1⟩] else out

/-- What a port needs of its channel. -/
def portNeeds (p : PortBinding) : Option (Direction × ChannelIndex) :=
  match p.source with
  | .channel chan => some (.needsFull, chan)
  | .const .. => none

/-- What an operation needs of its channel. -/
def opNeeds (op : Op) : Option (Direction × ChannelIndex) :=
  match op.channelUse with
  | some (.put, chan) => some (.needsEmpty, chan)
  | some (_, chan) => some (.needsFull, chan)
  | none => none

/-- What a phase needs, in order. -/
def phaseNeeds (c : TraceContainer) (phase : Phase) : List (Direction × ChannelIndex) :=
  match phase.stage with
  | none => c.ports.filterMap portNeeds
  | some stage =>
    match c.stages.find? (fun p => p.stage = stage) with
    | some sp => sp.ops.filterMap opNeeds
    | none => []

/-- `readiness_table`. -/
def readinessTable (c : TraceContainer) : List ReadinessEntry :=
  Phase.ORDER.foldl (fun out phase => (phaseNeeds c phase).foldl (visit c.channels.length phase) out) []

/-! ## Bound traces -/

structure BoundTrace where
  container : TraceContainer
  profile : ModelProfile
  hash : BitVec 64
  channelTypes : List ValueType
  stageTypes : List (List ValueType)
  readiness : List ReadinessEntry

/-- `container_hash`: FNV-1a. -/
def containerHash (bytes : List UInt8) : BitVec 64 :=
  bytes.foldl (fun hash byte => (hash ^^^ byte.toBitVec.setWidth 64) * 0x00000100000001B3#64)
    0xCBF29CE484222325#64

/-- `hash`: a container that cannot be written is a panic. -/
def TraceContainer.hash (c : TraceContainer) : Validate (BitVec 64) :=
  match encode c with
  | some bytes => .ok (containerHash bytes)
  | none => .error .panic

def bind (container : TraceContainer) (profile : ModelProfile) : Validate BoundTrace := do
  Validate.checkStructure container
  Validate.checkExterns container
  let channelTypes := container.channels.map Validate.channelValueType
  let stageTypes ← Validate.checkBodies container channelTypes
  Validate.checkIntrinsics container profile
  Validate.checkSecondPartyNames container profile
  Validate.checkSpscEndpoints container
  let hash ← container.hash
  .ok { container, profile, hash, channelTypes, stageTypes, readiness := readinessTable container }

end Pie.Eta
