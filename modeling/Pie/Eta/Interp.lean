import Pie.Eta.EvalOp
import Pie.Eta.Validate

/-!
# The interpreter

An instance holds the queues of the channels of a bound trace. A step runs the
stages over an overlay of what they take and put, and commits the overlay when
every channel was ready.

Names follow `interp.rs`. A channel that is shared with a peer is a channel the
peer changes between calls. A pass keeps two records that the source does not:
the values its operations made, with the types inferred for them, and its puts.
-/

namespace Pie.Eta

open Lib

structure ChannelState where
  queue : List Value
  capacity : Nat
  last : Value

/-- The values of a channel are of its type, and no more than it has room for. -/
structure ChannelState.Holds (st : ChannelState) (ty : ValueType) (size : Nat) : Prop where
  capacity : st.capacity = size
  room : st.queue.length ≤ size
  queue : ∀ v ∈ st.queue, valueMatches v ty = true
  last : valueMatches st.last ty = true

/-- A channel shared with a peer, as the instances that share it leave it. -/
structure ExternChannel where
  inner : ChannelState
  ty : ValueType
  capacity : Nat
  ok : inner.Holds ty capacity

structure Instance where
  channels : List ChannelState
  poisoned : Bool

inductive HostError where
  | poisoned
  | wouldBlock
  | notHostChannel
  | externUnpaired
  | badIndex
  | typeMismatch
deriving DecidableEq, Repr

/-- `KernelHost`: what a call gives, and the host after it. -/
structure KernelHost (K : Type) where
  kernel : K → Str → List Value → ValueType → Except String Value × K

/-- `zeros`. -/
def zeros (ty : ValueType) : Eval Value :=
  let n := Nat.max ty.shape.numel 1
  match ty.dtype with
  | .f32 => .ok (.f32 (List.replicate n F32.zero))
  | .i32 => .ok (.i32 (List.replicate n 0))
  | .u32 => .ok (.u32 (List.replicate n 0))
  | .bool => .ok (.bool (List.replicate n false))
  | _ => .error .panic

/-- `as_chunks::<4>()`: whole words; what is left over is none. -/
def words : List UInt8 → List (BitVec 32)
  | a :: b :: c :: d :: rest => BitVec.ofNat 32 (ofLe [a, b, c, d]) :: words rest
  | _ => []

/-- `const_value`. -/
def constValue (dtype : Dtype) (shape : Shape) (data : List UInt8) : Eval Value :=
  match dtype with
  | .bool => .ok (.bool ((data.take shape.numel).map (fun b => b != 0)))
  | .f32 => .ok (.f32 ((words data).take shape.numel))
  | .i32 => .ok (.i32 ((words data).take shape.numel))
  | .u32 => .ok (.u32 ((words data).take shape.numel))
  | _ => .error .panic

/-! ## The host's side -/

namespace Instance

/-- A call of the host stops with its error, or in a panic. -/
abbrev Host (α : Type) := Except (Stop HostError) α

def hostFail {α : Type} (e : HostError) : Host α := .error (.error e)

def seedOf (seeds : List (ChannelIndex × Value)) (i : Nat) : Option Value :=
  (seeds.find? (fun s => s.1.toNat = i)).map Prod.snd

/-- `zeros` of a channel's element. -/
def lastOf (ty : ValueType) : Host Value :=
  match zeros ty with
  | .ok v => .ok v
  | .error _ => .error .panic

/-- What a channel holds at first. -/
def firstQueue (decl : ChannelDecl) (ty : ValueType) (seed : Option Value) : Host (List Value) :=
  if decl.seeded = true then
    match seed with
    | none => hostFail .badIndex
    | some v => if valueMatches v ty then .ok [v] else hostFail .typeMismatch
  else .ok []

/-- A channel of the trace: the peer's when it is extern, else a queue of its own. -/
def newChannel (bound : BoundTrace) (seeds : List (ChannelIndex × Value))
    (externs : List (ChannelIndex × ExternChannel)) (decl : ChannelDecl × Nat) : Host ChannelState :=
  match bound.channelTypes[decl.2]? with
  | none => .error .panic
  | some ty =>
    if bound.container.externs.any (fun e => e.chan.toNat = decl.2) then
      match externs.find? (fun e => e.1.toNat = decl.2) with
      | none => hostFail .externUnpaired
      | some (_, ch) =>
        if ch.ty ≠ ty ∨ ch.capacity ≠ decl.1.capacity.toNat then hostFail .typeMismatch else .ok ch.inner
    else do
      let last ← lastOf ty
      let queue ← firstQueue decl.1 ty (seedOf seeds decl.2)
      .ok ⟨queue, decl.1.capacity.toNat, last⟩

/-- `new_with_externs`. -/
def new (bound : BoundTrace) (seeds : List (ChannelIndex × Value))
    (externs : List (ChannelIndex × ExternChannel)) : Host Instance := do
  let channels ← bound.container.channels.zipIdx.mapM (newChannel bound seeds externs)
  .ok ⟨channels, false⟩

def hostPut (inst : Instance) (bound : BoundTrace) (chan : ChannelIndex) (v : Value) : Host Instance :=
  if inst.poisoned then hostFail .poisoned
  else
    match bound.container.channels[chan.toNat]? with
    | none => hostFail .badIndex
    | some decl =>
      if decl.hostRole ≠ .writer then hostFail .notHostChannel
      else
        match bound.channelTypes[chan.toNat]?, inst.channels[chan.toNat]? with
        | some ty, some st =>
          if !valueMatches v ty then hostFail .typeMismatch
          else if st.queue.length ≥ st.capacity then hostFail .wouldBlock
          else .ok { inst with
            channels := inst.channels.set chan.toNat { st with queue := st.queue ++ [v] } }
        | _, _ => .error .panic

/-- The channel the host reads. -/
def readerChannel (inst : Instance) (bound : BoundTrace) (chan : ChannelIndex) : Host ChannelState :=
  if inst.poisoned then hostFail .poisoned
  else
    match bound.container.channels[chan.toNat]? with
    | none => hostFail .badIndex
    | some decl =>
      if decl.hostRole ≠ .reader then hostFail .notHostChannel
      else
        match inst.channels[chan.toNat]? with
        | some st => .ok st
        | none => .error .panic

def hostTake (inst : Instance) (bound : BoundTrace) (chan : ChannelIndex) : Host (Value × Instance) := do
  let st ← readerChannel inst bound chan
  match st.queue with
  | [] => hostFail .wouldBlock
  | v :: queue =>
    .ok (v, { inst with channels := inst.channels.set chan.toNat { st with queue, last := v } })

def hostRead (inst : Instance) (bound : BoundTrace) (chan : ChannelIndex) : Host Value := do
  let st ← readerChannel inst bound chan
  match st.queue with
  | [] => hostFail .wouldBlock
  | v :: _ => .ok v

end Instance

/-! ## A pass -/

structure Overlay where
  pending : ChannelIndex → Option Value
  taken : List Bool
  put : List Bool

/-- `Overlay::resolve`: what was put in this pass, or what the channel has. -/
def Overlay.resolve (overlay : Overlay) (inst : Instance) (chan : ChannelIndex) : Eval Value :=
  match overlay.pending chan with
  | some v => .ok v
  | none => do
    let st ← Eval.index inst.channels chan.toNat
    .ok (st.queue.headD st.last)

structure SinkRecord where
  name : Str
  stage : Stage
  layer : BitVec 32
  args : List Value

/-- `PassEffects`, the host of the kernels and the two records. -/
structure Pass (K : Type) where
  overlay : Overlay
  sinks : List SinkRecord
  host : K
  made : List (Value × Option ValueType)
  puts : List (ChannelIndex × Value)

/-- A body that stops leaves the pass as it is there. -/
structure Stopped (K : Type) where
  why : Stop StepError
  pass : Pass K

abbrev Run (K α : Type) := Except (Stopped K) α

/-- What is evaluated in a pass. -/
def Run.of {K α : Type} (pass : Pass K) : Eval α → Run K α
  | .ok a => .ok a
  | .error why => .error ⟨why, pass⟩

namespace Pass

variable {K : Type}

def take (pass : Pass K) (inst : Instance) (chan : ChannelIndex) : Eval (Value × Pass K) := do
  let v ← pass.overlay.resolve inst chan
  let taken ← Eval.store pass.overlay.taken chan.toNat true
  .ok (v, { pass with overlay := { pass.overlay with taken } })

def read (pass : Pass K) (inst : Instance) (chan : ChannelIndex) : Eval (Value × Pass K) := do
  let v ← pass.overlay.resolve inst chan
  .ok (v, pass)

def put (pass : Pass K) (chan : ChannelIndex) (v : Value) : Eval (Pass K) := do
  let put ← Eval.store pass.overlay.put chan.toNat true
  .ok { pass with
    overlay := { pass.overlay with pending := Function.update pass.overlay.pending chan (some v), put }
    puts := pass.puts ++ [(chan, v)] }

/-- The value of an operation goes on the record. -/
def make (pass : Pass K) (v : Value) (ty : Option ValueType) : Pass K :=
  { pass with made := pass.made ++ [(v, ty)] }

end Pass

/-- Where in a pass a body runs. -/
structure BodyAt where
  names : List Str
  types : List ValueType
  stage : Stage
  layer : BitVec 32

section

variable {K : Type} (F : F32Ops) (host : KernelHost K) (inst : Instance) (ctx : BodyAt) (inputs : PassInputs)

/-- `vals.push(v)`. -/
def pushValue (st : List Value × Pass K) (v : Value) : List Value × Pass K :=
  (st.1 ++ [v], st.2.make v ctx.types[st.1.length]?)

/-- A kernel gives a value of its declared type, or faults. -/
def callKernel (st : List Value × Pass K) (name : NameIndex) (args : List ValueId) (result : ValueType) :
    Run K (List Value × Pass K) := do
  let vs ← Run.of st.2 (args.mapM (valueAt st.1))
  let n ← Run.of st.2 (Eval.index ctx.names name.toNat)
  match host.kernel st.2.host n vs result with
  | (.ok v, k) =>
    if valueMatches v result then .ok (pushValue ctx (st.1, { st.2 with host := k }) v)
    else .error ⟨.error (.kernelFault n.bytes "kernel result violates its declared type"), { st.2 with host := k }⟩
  | (.error message, k) => .error ⟨.error (.kernelFault n.bytes message), { st.2 with host := k }⟩

/-- What a body does with what an operation evaluates to. -/
def perform (st : List Value × Pass K) : Evaled → Run K (List Value × Pass K)
  | .one v => .ok (pushValue ctx st v)
  | .two a b => .ok (pushValue ctx (pushValue ctx st a) b)
  | .chan (.take c) => do
    let r ← Run.of st.2 (st.2.take inst c)
    .ok (pushValue ctx (st.1, r.2) r.1)
  | .chan (.read c) => do
    let r ← Run.of st.2 (st.2.read inst c)
    .ok (pushValue ctx (st.1, r.2) r.1)
  | .chan (.put c id) => do
    let v ← Run.of st.2 (valueAt st.1 id)
    let pass ← Run.of st.2 (st.2.put c v)
    .ok (st.1, pass)
  | .sink name args => do
    let vs ← Run.of st.2 (args.mapM (valueAt st.1))
    let n ← Run.of st.2 (Eval.index ctx.names name.toNat)
    .ok (st.1, { st.2 with sinks := st.2.sinks ++ [⟨n, ctx.stage, ctx.layer, vs⟩] })
  | .kernel name args result => callKernel host ctx st name args result

/-- One operation of a body. -/
def execOp (st : List Value × Pass K) (op : Op) : Run K (List Value × Pass K) := do
  let evaled ← Run.of st.2 (evalOp F st.1 ctx.types inputs ctx.layer op)
  perform host inst ctx st evaled

/-- The operations of a body, over the values made so far. -/
def execOps (st : List Value × Pass K) (ops : List Op) : Run K (List Value × Pass K) :=
  ops.foldlM (execOp F host inst ctx inputs) st

end

section

variable {K : Type} (F : F32Ops) (host : KernelHost K) (inst : Instance) (bound : BoundTrace) (inputs : PassInputs)

/-- `exec_body`: a stage without a program does nothing. -/
def execBody (pass : Pass K) (stage : Stage) (layer : BitVec 32) : Run K (Pass K) :=
  match bound.container.stages.findIdx? (fun s => s.stage = stage) with
  | none => .ok pass
  | some si => do
    let program ← Run.of pass (Eval.index bound.container.stages si)
    let types ← Run.of pass (Eval.index bound.stageTypes si)
    let st ← execOps F host inst ⟨bound.container.names, types, stage, layer⟩ inputs ([], pass) program.ops
    .ok st.2

/-- The value a port is bound to. -/
def bindPort (pass : Pass K) (p : PortBinding) : Eval (Value × Pass K) :=
  match p.source with
  | .channel c => if p.port.consumes then pass.take inst c else pass.read inst c
  | .const dtype shape data => do
    let v ← constValue dtype shape data
    .ok (v, pass)

/-- The descriptor so far, and one port more. -/
def bindPorts (st : List (Port × Value) × Pass K) (p : PortBinding) : Run K (List (Port × Value) × Pass K) := do
  let r ← Run.of st.2 (bindPort inst st.2 p)
  .ok (st.1 ++ [(p.port, r.1)], r.2)

/-- `taps`. -/
def taps : List Stage := Stage.ALL.filter Stage.perLayer

/-- The stages of one layer. -/
def execLayer (pass : Pass K) (layer : Nat) : Run K (Pass K) :=
  taps.foldlM (fun pass stage => execBody F host inst bound inputs pass stage (BitVec.ofNat 32 layer)) pass

def execLayers (pass : Pass K) : Run K (Pass K) :=
  if bound.container.stages.any (fun s => decide (s.stage ∈ taps)) then
    (List.range bound.profile.numLayers.toNat).foldlM (execLayer F host inst bound inputs) pass
  else .ok pass

/-- The pass before any stage ran. -/
def Pass.new (k : K) : Pass K :=
  { overlay := ⟨fun _ => none, List.replicate inst.channels.length false, List.replicate inst.channels.length false⟩
    sinks := []
    host := k
    made := []
    puts := [] }

/-- The stages and the ports of a pass: the descriptor, and the pass at its end. -/
def execPass (k : K) : Run K (List (Port × Value) × Pass K) := do
  let pass ← execBody F host inst bound inputs (Pass.new inst k) .prologue 0
  let st ← bound.container.ports.foldlM (bindPorts inst) ([], pass)
  let pass ← execLayers F host inst bound inputs st.2
  let pass ← execBody F host inst bound inputs pass .epilogue 0
  .ok (st.1, pass)

/-- Whether a channel is ready for what a pass needs of it. -/
def isReady (e : ReadinessEntry) : Eval Bool := do
  let st ← Eval.index inst.channels e.chan.toNat
  .ok (match e.dir with
    | .needsFull => !st.queue.isEmpty
    | .needsEmpty => decide (st.queue.length < st.capacity))

/-- The first channel that is not ready. -/
def missedEntry : List ReadinessEntry → Eval (Option ReadinessEntry)
  | [] => .ok none
  | e :: rest => do
    let ok ← isReady inst e
    if ok then missedEntry rest else .ok (some e)

end

/-! ## Committing -/

/-- A channel after what the pass took and put; `none` when the put does not fit. -/
def commitChannel (st : ChannelState) (taken : Bool) (put : Option Value) : ChannelState × Bool :=
  let st := if taken then
      match st.queue with
      | v :: queue => { st with queue, last := v }
      | [] => st
    else st
  match put with
  | none => (st, true)
  | some v => if st.queue.length ≥ st.capacity then (st, false) else ({ st with queue := st.queue ++ [v] }, true)

/-- What is put in a channel; one that was marked has a value. -/
def pendingPut (overlay : Overlay) (ci : Nat) : Eval (Option Value) := do
  let put ← Eval.index overlay.put ci
  if put then
    match overlay.pending (BitVec.ofNat 32 ci) with
    | some v => .ok (some v)
    | none => Eval.panic
  else .ok none

/-- The loop over the channels. The channels before one that overflows stay committed. -/
def commitFrom (overlay : Overlay) : Nat → List ChannelState → List ChannelState × Option (Stop StepError)
  | _, [] => ([], none)
  | ci, st :: rest =>
    match Eval.index overlay.taken ci, pendingPut overlay ci with
    | .ok taken, .ok put =>
      let r := commitChannel st taken put
      if r.2 then
        let r' := commitFrom overlay (ci + 1) rest
        (r.1 :: r'.1, r'.2)
      else (r.1 :: rest, some (.error (.fault (.overflow ci r.1.capacity))))
    | _, _ => (st :: rest, some .panic)

structure StepReport where
  committed : Bool
  missed : Option (ChannelIndex × Phase)
  descriptor : List (Port × Value)
  sinks : List SinkRecord

/-- What a step gives, the instance after it, and the record of the values it made. -/
structure Stepped where
  result : Eval StepReport
  inst : Instance
  made : List (Value × Option ValueType)

/-- A kernel fault poisons the instance. -/
def poisons : Stop StepError → Bool
  | .error (.kernelFault _ _) => true
  | _ => false

namespace Instance

variable {K : Type} (F : F32Ops) (host : KernelHost K)

/-- The end of a pass: its overlay is committed when no channel was missed. -/
def finish (inst : Instance) (missed : Option ReadinessEntry) (descriptor : List (Port × Value)) (pass : Pass K) :
    Stepped :=
  let report : StepReport :=
    ⟨missed.isNone, missed.map (fun e => (e.chan, e.phase)), descriptor, pass.sinks⟩
  match missed with
  | some _ => ⟨.ok report, inst, pass.made⟩
  | none =>
    match commitFrom pass.overlay 0 inst.channels with
    | (channels, none) => ⟨.ok report, { inst with channels }, pass.made⟩
    | (channels, some why) => ⟨.error why, ⟨channels, true⟩, pass.made⟩

def step (inst : Instance) (bound : BoundTrace) (inputs : PassInputs) (k : K) : Stepped :=
  if inst.poisoned then ⟨.error (.error .poisoned), inst, []⟩
  else
    match missedEntry inst bound.readiness with
    | .error why => ⟨.error why, inst, []⟩
    | .ok missed =>
      match execPass F host inst bound inputs k with
      | .error stopped =>
        ⟨.error stopped.why, { inst with poisoned := poisons stopped.why }, stopped.pass.made⟩
      | .ok (descriptor, pass) => inst.finish missed descriptor pass

end Instance

end Pie.Eta
