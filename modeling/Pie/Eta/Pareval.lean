import Pie.Eta.Interp

/-!
# Evaluation on the host

`foldStage` evaluates what of a stage follows from the channels whose values the
host knows, and `evalDescriptorPorts` what the ports then have.

Names follow `pareval.rs`. The host's knowledge is a function here, so that the
answers need no cache. A map is a function from its keys.
-/

namespace Pie.Eta

open Lib

inductive ValueSource where
  | operands
  | device
  | channel
deriving DecidableEq, Repr

def Op.valueSource : Op → ValueSource
  | .kernelCall .. | .intrinsicVal .. | .sinkCall .. | .rng .. => .device
  | .chanTake _ | .chanRead _ | .chanPut .. => .channel
  | _ => .operands

inductive EvalBlocker where
  | unknownChannel (chan : ChannelIndex)
  | kernel (name : Str)
  | intrinsic (name : String)
  | ambientSeed
  | fault (error : StepError)
deriving DecidableEq

abbrev Slot := Except EvalBlocker Value

/-- `StageFold`. -/
abbrev Puts := ChannelIndex → Option Slot

abbrev Fold (α : Type) := Except (Stop EvalBlocker) α

/-- `xs[i]`, or a panic. -/
def Fold.index {α : Type} (xs : List α) (i : Nat) : Fold α :=
  match xs[i]? with
  | some x => .ok x
  | none => .error .panic

/-- `any(|&i| xs[i])`: the first that holds ends it. -/
def Fold.any (xs : List Bool) : List Nat → Fold Bool
  | [] => .ok false
  | i :: rest => do
    let b ← Fold.index xs i
    if b then .ok true else Fold.any xs rest

/-- An evaluation in the fold: its error is a fault of the fold. -/
def Fold.of {α : Type} : Eval α → Fold α
  | .ok a => .ok a
  | .error (.error e) => .error (.error (.fault e))
  | .error .panic => .error .panic

def placeholder (ty : ValueType) : Fold Value :=
  match ty.dtype with
  | .f32 => .ok (.f32 [])
  | .i32 => .ok (.i32 [])
  | .u32 => .ok (.u32 [])
  | .bool => .ok (.bool [])
  | _ => .error .panic

/-! ## Demand -/

/-- Which values are blocked, and which pending puts are. -/
structure Blocking where
  blocked : List Bool
  pending : ChannelIndex → Option Bool

/-- What an operation's results wait for, given that an operand is blocked. -/
def resultBlocked (op : Op) (any : Bool) : Bool :=
  match op with
  | .kernelCall .. | .intrinsicVal .. | .rng .. => true
  | _ => any

variable (known : ChannelIndex → Option Value)

def blockOp (st : Blocking) (op : Op) : Fold Blocking := do
  let any ← Fold.any st.blocked (op.operands.map BitVec.toNat)
  match op with
  | .chanTake chan | .chanRead chan =>
    .ok { st with blocked := st.blocked ++ [(st.pending chan).getD (known chan).isNone] }
  | .chanPut chan value => do
    let b ← Fold.index st.blocked value.toNat
    .ok { st with pending := Function.update st.pending chan (some b) }
  | .sinkCall .. => .ok st
  | op => .ok { st with blocked := st.blocked ++ List.replicate op.resultCount (resultBlocked op any) }

/-- The forward pass: the blocking at the end, and at what id each operation starts. -/
def blockOps : List Op → Blocking → Fold (Blocking × List (Op × Nat))
  | [], st => .ok (st, [])
  | op :: ops, st => do
    let st' ← blockOp known st op
    let r ← blockOps ops st'
    .ok (r.1, (op, st.blocked.length) :: r.2)

/-- A result of the operation is demanded. -/
def anyDemanded (demand : List Bool) (first count : Nat) : Fold Bool := Fold.any demand (List.range' first count)

def wanted (blocked demand : List Bool) (op : Op) (first : Nat) : Fold Bool :=
  match op with
  | .chanPut _ value => do
    let b ← Fold.index blocked value.toNat
    .ok (!b)
  | .sinkCall .. => .ok false
  | .chanTake _ | .chanRead _ => Fold.index demand first
  | op => anyDemanded demand first op.resultCount

/-- `demand[arg] = true`. -/
def demandArg (demand : List Bool) (arg : ValueId) : Fold (List Bool) :=
  if arg.toNat < demand.length then .ok (demand.set arg.toNat true) else .error .panic

def demandOp (blocked : List Bool) (op : Op × Nat) (demand : List Bool) : Fold (List Bool) := do
  let w ← wanted blocked demand op.1 op.2
  if w then op.1.operands.foldlM demandArg demand else .ok demand

/-- The backward pass: the last operation first. -/
def demandOps (blocked : List Bool) : List (Op × Nat) → Fold (List Bool)
  | [] => .ok (List.replicate blocked.length false)
  | op :: ops => do
    let demand ← demandOps blocked ops
    demandOp blocked op demand

/-- `demand_set`. -/
def demandSet (ops : List Op) : Fold (List Bool) := do
  let r ← blockOps known ops ⟨[], fun _ => none⟩
  demandOps r.1.blocked r.2

/-! ## Folding -/

/-- `blocked_at`, `dense` and the puts. -/
structure Folding where
  blockedAt : List (Option EvalBlocker)
  dense : List Value
  puts : Puts

namespace Folding

variable (types : List ValueType)

/-- `push`. -/
def push (st : Folding) (slot : Slot) : Fold Folding :=
  match slot with
  | .ok value => .ok { st with dense := st.dense ++ [value], blockedAt := st.blockedAt ++ [none] }
  | .error blocker => do
    let ty ← Fold.index types st.blockedAt.length
    let value ← placeholder ty
    .ok { st with dense := st.dense ++ [value], blockedAt := st.blockedAt ++ [some blocker] }

/-- The results of an operation that is blocked. -/
def pushBlocked (blocker : EvalBlocker) : Nat → Folding → Fold Folding
  | 0, st => .ok st
  | n + 1, st => do
    let st ← st.push types (.error blocker)
    pushBlocked blocker n st

/-- The results of an operation that nothing demands: empty, and not blocked. -/
def pushEmpty : Nat → Folding → Fold Folding
  | 0, st => .ok st
  | n + 1, st => do
    let ty ← Fold.index types st.blockedAt.length
    let value ← placeholder ty
    pushEmpty n { st with dense := st.dense ++ [value], blockedAt := st.blockedAt ++ [none] }

/-- What a read of a channel gives. -/
def readSlot (st : Folding) (chan : ChannelIndex) : Slot :=
  match st.puts chan with
  | some pending => pending
  | none =>
    match known chan with
    | some v => .ok v
    | none => .error (.unknownChannel chan)

/-- The results of an operation that was evaluated. -/
def pushEvaled (st : Folding) : Evaled → Fold Folding
  | .one value => st.push types (.ok value)
  | .two a b => do
    let st ← st.push types (.ok a)
    st.push types (.ok b)
  | _ => .error .panic

def slotAt (st : Folding) (id : ValueId) : Fold Slot := do
  let b ← Fold.index st.blockedAt id.toNat
  match b with
  | some blocker => .ok (.error blocker)
  | none => do
    let v ← Fold.index st.dense id.toNat
    .ok (.ok v)

end Folding

variable (F : F32Ops) (names : List Str) (types : List ValueType) (demand : List Bool)

/-- `find_map` over the operands: the first that is blocked. -/
def firstBlocked (blockedAt : List (Option EvalBlocker)) : List ValueId → Fold (Option EvalBlocker)
  | [] => .ok none
  | arg :: args => do
    let b ← Fold.index blockedAt arg.toNat
    match b with
    | some blocker => .ok (some blocker)
    | none => firstBlocked blockedAt args

/-- The general arm: an operation that is a function of its operands. -/
def foldPure (st : Folding) (blocked : Option EvalBlocker) (op : Op) : Fold Folding :=
  match blocked with
  | some blocker => Folding.pushBlocked types blocker op.resultCount st
  | none => do
    let w ← anyDemanded demand st.blockedAt.length op.resultCount
    if w then do
      let evaled ← Fold.of (evalOp F st.dense types {} 0 op)
      st.pushEvaled types evaled
    else Folding.pushEmpty types op.resultCount st

def foldOp (st : Folding) (op : Op) : Fold Folding := do
  let blocked ← firstBlocked st.blockedAt op.operands
  match op with
  | .chanTake chan | .chanRead chan => st.push types (st.readSlot known chan)
  | .chanPut chan value => do
    let slot ← st.slotAt value
    .ok { st with puts := Function.update st.puts chan (some slot) }
  | .kernelCall name _ _ _ => do
    let n ← Fold.index names name.toNat
    st.push types (.error (blocked.getD (.kernel n)))
  | .intrinsicVal intr _ _ => st.push types (.error (blocked.getD (.intrinsic intr.name)))
  | .rng .. => st.push types (.error (blocked.getD .ambientSeed))
  | .sinkCall .. => .ok st
  | op => foldPure F types demand st blocked op

/-- `fold_stage`: a stage without a program puts nothing. -/
def foldStage (bound : BoundTrace) (stage : Stage) : Fold Puts :=
  match bound.container.stages.findIdx? (fun s => s.stage = stage) with
  | none => .ok (fun _ => none)
  | some index => do
    let program ← Fold.index bound.container.stages index
    let types ← Fold.index bound.stageTypes index
    let demand ← demandSet known program.ops
    let st ← program.ops.foldlM (foldOp known F bound.container.names types demand) ⟨[], [], fun _ => none⟩
    .ok st.puts

/-- What a port is bound to, as far as the host knows. -/
def portSlot (puts : Puts) (p : PortBinding) : Fold Slot :=
  match p.source with
  | .const dtype shape data => do
    let v ← Fold.of (constValue dtype shape data)
    .ok (.ok v)
  | .channel chan => .ok (Folding.readSlot known ⟨[], [], puts⟩ chan)

/-- `eval_descriptor_ports`. -/
def evalDescriptorPorts (bound : BoundTrace) : Fold (List (Port × Slot)) := do
  let puts ← foldStage known F bound .prologue
  bound.container.ports.mapM (fun p => do
    let slot ← portSlot known puts p
    .ok (p.port, slot))

end Pie.Eta
