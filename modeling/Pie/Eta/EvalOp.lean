import Pie.Eta.Op
import Pie.Eta.Value

/-!
# Evaluating an operation

`evalOp` gives the results of an operation on the values before it; a channel, a
kernel or a sink is left to who runs the stage. Values and types are looked up
by their ids, and an id that is out of range is a panic.

Names follow `eval_op.rs`.
-/

namespace Pie.Eta

open Lib

/-- What the device gives a pass. The seed of the plain draws, which the interpreter sets to 0, is one of it. -/
structure PassInputs where
  logits : Option Value := none
  mtpLogits : Option Value := none
  mtpDrafts : Option Value := none
  hidden : Option Value := none
  velocity : Option Value := none
  peerVelocity : Option Value := none
  pixels : Option Value := none
  valueHead : Option Value := none
  query : List Value := []
  attnScore : Option Value := none
  ambient : BitVec 32 := 0

inductive ChanEffect where
  | take (chan : ChannelIndex)
  | read (chan : ChannelIndex)
  | put (chan : ChannelIndex) (value : ValueId)

inductive Evaled where
  | one (v : Value)
  | two (a b : Value)
  | chan (effect : ChanEffect)
  | sink (name : NameIndex) (args : List ValueId)
  | kernel (name : NameIndex) (args : List ValueId) (result : ValueType)

def IntrinsicId.name : IntrinsicId → String
  | logits => "logits"
  | mtpLogits => "mtp_logits"
  | hidden => "hidden"
  | query => "query"
  | valueHead => "value_head"
  | layer => "layer"
  | mtpDrafts => "mtp_drafts"
  | attnScore => "attn_score"
  | velocity => "velocity"
  | pixels => "pixels"
  | peerVelocity => "peer_velocity"

namespace Eval

variable (F : F32Ops)

def neg (v : Value) : Eval Value :=
  match v with
  | .f32 x => .ok (.f32 (x.map F.neg))
  | .i32 x => .ok (.i32 (x.map (fun a => -a)))
  | .u32 x => .ok (.u32 (x.map (fun a => -a)))
  | .bool _ => fault "neg on bool"

def abs (v : Value) : Value :=
  match v with
  | .f32 x => .f32 (x.map F.abs)
  | .i32 x => .i32 (x.map (fun a => if BitVec.slt a 0 then -a else a))
  | .u32 x => .u32 x
  | .bool x => .bool x

def signF32 (a : F32) : F32 :=
  if F.lt F32.zero a then F32.one else if F.lt a F32.zero then F32.negOne else F32.zero

/-- `signum`. -/
def signI32 (a : BitVec 32) : BitVec 32 :=
  if BitVec.slt 0 a then 1 else if BitVec.slt a 0 then -1 else 0

def sign (v : Value) : Eval Value :=
  match v with
  | .f32 x => .ok (.f32 (x.map (signF32 F)))
  | .i32 x => .ok (.i32 (x.map signI32))
  | .u32 x => .ok (.u32 (x.map (fun a => if a ≠ 0 then 1 else 0)))
  | .bool _ => fault "sign on bool"

def cast (v : Value) (dtype : Dtype) : Eval Value :=
  match dtype with
  | .f32 => .ok (.f32 (lanesF32 F v))
  | .i32 =>
    if v.dtype = .f32 then .ok (.i32 ((lanesF32 F v).map F.toI32))
    else fromI64 F .i32 (lanesI64 F v)
  | .u32 =>
    if v.dtype = .f32 then .ok (.u32 ((lanesF32 F v).map F.toU32))
    else fromI64 F .u32 (lanesI64 F v)
  | .bool => .ok (.bool ((lanesF32 F v).map (fun x => !F.eq x F32.zero)))
  | _ => panic

def divI64 (x y : BitVec 64) : BitVec 64 := if y = 0 then 0 else BitVec.sdiv x y

def remI64 (x y : BitVec 64) : BitVec 64 := if y = 0 then 0 else BitVec.srem x y

/-- `and`, `or`. -/
def logic (f : Bool → Bool → Bool) (a b : Value) : Eval Value :=
  match a, b with
  | .bool x, .bool y => do
    let out ← zipLanes f x y
    .ok (.bool out)
  | _, _ => fault "and/or on non-bool"

def not (v : Value) : Eval Value :=
  match v with
  | .bool x => .ok (.bool (x.map (fun b => !b)))
  | _ => fault "not on non-bool"

/-- The lanes of one arm or the other. -/
def selectLanes {α : Type} (c : List Bool) (n : Nat) (x y : List α) : Eval (List α) :=
  (List.range n).mapM (fun i => do
    let sel ← index c (pick c.length i)
    if sel then index x (pick x.length i) else index y (pick y.length i))

def select (cond a b : Value) (dtype : Dtype) : Eval Value :=
  match cond with
  | .bool c =>
    let n := Nat.max (Nat.max c.length a.len) b.len
    match dtype with
    | .f32 => do
      let out ← selectLanes c n (lanesF32 F a) (lanesF32 F b)
      .ok (.f32 out)
    | .bool =>
      match a, b with
      | .bool x, .bool y => do
        let out ← selectLanes c n x y
        .ok (.bool out)
      | _, _ => fault "select bool arms"
    | d => do
      let out ← selectLanes c n (lanesI64 F a) (lanesI64 F b)
      fromI64 F d out
  | _ => fault "select cond"

def argmax (v : Value) (rows : Nat) : Eval Value :=
  match v with
  | .f32 x => .ok (.i32 ((rowSlices x rows).map (argmaxRow F)))
  | .i32 x => .ok (.i32 ((rowSlices x rows).map (argmaxOrdered BitVec.slt)))
  | .u32 x => .ok (.i32 ((rowSlices x rows).map (argmaxOrdered BitVec.ult)))
  | .bool _ => fault "argmax on bool"

/-- `gather_flat`. -/
def gatherFlat (v : Value) (idx : List Nat) : Eval Value :=
  match v with
  | .f32 x => .f32 <$> idx.mapM (index x)
  | .i32 x => .i32 <$> idx.mapM (index x)
  | .u32 x => .u32 <$> idx.mapM (index x)
  | .bool x => .bool <$> idx.mapM (index x)

/-- An element, or what stands for one that is out of range. -/
def indexOr {α : Type} (zero : α) (x : List α) : Option Nat → Eval α
  | some i => index x i
  | none => .ok zero

/-- `gather_flat_fill0`, where `usize::MAX` is no index. -/
def gatherFlatFill0 (v : Value) (idx : List (Option Nat)) : Eval Value :=
  match v with
  | .f32 x => .f32 <$> idx.mapM (indexOr F32.zero x)
  | .i32 x => .i32 <$> idx.mapM (indexOr 0 x)
  | .u32 x => .u32 <$> idx.mapM (indexOr 0 x)
  | .bool x => .bool <$> idx.mapM (indexOr false x)

/-- A dimension of the source, one where it has none. -/
def sdim (sd : List (BitVec 32)) (i : Nat) : Nat := (sd[i]?.map BitVec.toNat).getD 1

/-- The stride of a dimension of the source: what the later ones below the last span. -/
def sstride (sd : List (BitVec 32)) (r i : Nat) : Nat :=
  ((List.range' (i + 1) (r - 1 - i)).map (sdim sd)).prod

/-- Where the element at a place of the target comes from. -/
def sourceIndex (sd td : List (BitVec 32)) (lin : Nat) : Nat :=
  ((List.range td.length).foldl (fun st i =>
    let stride := Nat.max (numelOf (td.drop (i + 1))) 1
    let coord := st.1 / stride
    (st.1 % stride, if sdim sd i ≠ 1 then st.2 + coord * sstride sd td.length i else st.2)) (lin, 0)).2

def broadcast (v : Value) (src target : Shape) : Eval Value :=
  gatherFlat v ((List.range target.numel).map (sourceIndex src.dims target.dims))

def transpose (v : Value) (shape : Shape) : Eval Value :=
  match shape.dims with
  | [m, n] => gatherFlat v ((List.range (m.toNat * n.toNat)).map
      (fun o => (o % m.toNat) * n.toNat + o / m.toNat))
  | _ => fault "transpose rank"

def cumSum (v : Value) (rows : Nat) : Value :=
  match v with
  | .i32 x => .i32 (scanRows x rows 0 (· + ·))
  | .u32 x => .u32 (scanRows x rows 0 (· + ·))
  | other => .f32 (scanRows (lanesF32 F other) rows F32.zero F.add)

def cumProd (v : Value) (rows : Nat) : Value :=
  match v with
  | .i32 x => .i32 (scanRows x rows 1 (· * ·))
  | .u32 x => .u32 (scanRows x rows 1 (· * ·))
  | other => .f32 (scanRows (lanesF32 F other) rows F32.one F.mul)

def sortDesc (v : Value) : Eval Evaled := do
  let x := lanesF32 F v
  let order := sortDescOrder F x
  let sorted ← order.mapM (index x)
  .ok (.two (.f32 sorted) (.u32 (order.map (BitVec.ofNat 32))))

/-- The first of the order of each row. -/
def topRows (k : Nat) (row : List F32) : List Nat := (sortDescOrder F row).take k

def topK (v : Value) (rows k : Nat) : Eval Evaled := do
  let slices := rowSlices (lanesF32 F v) rows
  let vs ← slices.mapM (fun row => (topRows F k row).mapM (index row))
  .ok (.two (.f32 vs.flatten) (.u32 (slices.flatMap (fun row => (topRows F k row).map (BitVec.ofNat 32)))))

/-- `out[at] += xv * y[at']`. -/
def mulAdd (y : List F32) (xv : F32) (out : List F32) (at_ aty : Nat) : Eval (List F32) := do
  let d ← index out at_
  let yv ← index y aty
  store out at_ (F.add d (F.mul xv yv))

/-- One factor of a row: a zero is skipped. -/
def mulRow (x y : List F32) (kk n i : Nat) (out : List F32) (l : Nat) : Eval (List F32) := do
  let xv ← index x (i * kk + l)
  if F.eq xv F32.zero then .ok out
  else (List.range n).foldlM (fun out j => mulAdd F y xv out (i * n + j) (l * n + j)) out

def matMul (a b : Value) (sa sb : Shape) : Eval Value :=
  match sa.dims with
  | [m, kk] =>
    match sb.dims with
    | [_, n] => do
      let x := lanesF32 F a
      let y := lanesF32 F b
      let out ← (List.range m.toNat).foldlM (fun out i =>
        (List.range kk.toNat).foldlM (mulRow F x y kk.toNat n.toNat i) out)
        (List.replicate (m.toNat * n.toNat) F32.zero)
      .ok (.f32 out)
    | _ => fault "matmul b"
  | _ => fault "matmul a"

/-- `clamp(0, len)` of a signed word. -/
def clampLen (k : BitVec 64) (len : Nat) : Nat := if k.msb then 0 else Nat.min k.toNat len

/-- Fewer than `k` are greater. -/
def rankLe (row : List F32) (k : Nat) : List Bool :=
  row.map (fun xi => !F32.isNan xi
    && decide ((row.filter (fun y => !F32.isNan y && F.lt xi y)).length < k))

/-- What is before an element in the order sums to less than `p`. -/
def cummassLe (row : List F32) (p : F32) : List Bool :=
  ((sortDescOrder F row).foldl
    (fun st i => (st.1.set i (F.lt st.2 p), F.add st.2 (row.getD i 0)))
    (List.replicate row.length false, F32.zero)).1

/-- The predicate on a row, whose threshold is the one of the row or the only one. -/
def keepRow (predicate : Predicate) (threshold : Value) (row : List F32 × Nat) : Eval (List Bool) :=
  match predicate with
  | .rankLe _ => do
    let kv := lanesI64 F threshold
    let k ← index kv (pick kv.length row.2)
    .ok (rankLe F row.1 (clampLen k row.1.length))
  | .cummassLe _ => do
    let pv := lanesF32 F threshold
    let p ← index pv (pick pv.length row.2)
    .ok (cummassLe F row.1 p)
  | .probGe _ => do
    let tv := lanesF32 F threshold
    let thr ← index tv (pick tv.length row.2)
    .ok (row.1.map (fun xi => F.le thr xi))

def pivotThreshold (v threshold : Value) (predicate : Predicate) (rows : Nat) : Eval Value := do
  let x := lanesF32 F v
  let slices := rowSlices x rows
  let keep ← slices.zipIdx.mapM (keepRow F predicate threshold)
  .ok (.bool (keep.flatten ++ List.replicate (x.length - rows * (x.length / rows)) false))

/-- A signed word that is an index below `n`. -/
def indexBelow (i : BitVec 64) (n : Nat) : Option Nat :=
  if i.msb = false ∧ i.toNat < n then some i.toNat else none

/-- The elements of a row of the first axis. -/
def rowIndices (rest n0 : Nat) (i : BitVec 64) : List (Option Nat) :=
  match indexBelow i n0 with
  | some i => (List.range rest).map (fun r => some (i * rest + r))
  | none => List.replicate rest none

def gather (src idx : Value) (shape : Shape) : Eval Value :=
  match shape.dims with
  | [] => panic
  | n0 :: rest =>
    gatherFlatFill0 src ((lanesI64 F idx).flatMap (rowIndices (Nat.max (numelOf rest) 1) n0.toNat))

def gatherRow (src idx : Value) (shape : Shape) : Eval Value :=
  match shape.dims with
  | [m, n] => do
    let ix := lanesI64 F idx
    let flat ← (List.range m.toNat).mapM (fun i => do
      let c ← index ix i
      .ok ((indexBelow c n.toNat).map (fun c => i * n.toNat + c)))
    gatherFlatFill0 src flat
  | _ => fault "gather_row"

/-- One element of a scattered row: `dst` of it and of what is there. -/
def scatterOne {α : Type} (write : α → α → α) (scalar : Bool) (vals : List α) (rest k i : Nat)
    (out : List α) (r : Nat) : Eval (List α) := do
  let src ← index vals (if scalar then 0 else k * rest + r)
  let dst ← index out (i * rest + r)
  store out (i * rest + r) (write dst src)

/-- One row, if its index is in range. -/
def scatterRow {α : Type} (write : α → α → α) (scalar : Bool) (vals : List α) (rest n0 : Nat)
    (out : List α) (ix : BitVec 64 × Nat) : Eval (List α) :=
  match indexBelow ix.1 n0 with
  | some i => (List.range rest).foldlM (scatterOne write scalar vals rest ix.2 i) out
  | none => .ok out

def scatter (isAdd : Bool) (base idx vals : Value) (ty : ValueType) : Eval Value :=
  match ty.shape.dims with
  | [] => panic
  | n0 :: dims =>
    let rest := Nat.max (numelOf dims) 1
    let ix := lanesI64 F idx
    let scalar := decide (vals.len = 1 ∧ ix.length * rest ≠ 1)
    if ty.dtype = .f32 ∨ (isAdd = true ∧ ty.dtype ≠ .i32 ∧ ty.dtype ≠ .u32) then do
      let out ← ix.zipIdx.foldlM (scatterRow (fun d s => if isAdd then F.add d s else s) scalar
        (lanesF32 F vals) rest n0.toNat) (lanesF32 F base)
      .ok (.f32 out)
    else do
      let out ← ix.zipIdx.foldlM (scatterRow (fun d s => if isAdd then d + s else s) scalar
        (lanesI64 F vals) rest n0.toNat) (lanesI64 F base)
      fromI64 F ty.dtype out

/-- The bit of a packed mask; beyond it there is none. -/
def maskBit (words : List (BitVec 32)) (c : Nat) : Bool := ((words[c / 32]?).map (fun w => w.getLsbD (c % 32))).getD false

def maskApply (logits mask : Value) (shape : Shape) : Eval Value :=
  match mask with
  | .u32 words =>
    let n := (shape.lastLen.map BitVec.toNat).getD 1
    .ok (.f32 ((lanesF32 F logits).zipIdx.map
      (fun p => if maskBit words (p.2 % n) then p.1 else F32.negInfinity)))
  | _ => fault "mask_apply mask"

/-- `saturating_add`. -/
def saturatingAdd (a b : Nat) : Nat := Nat.min (a + b) (2 ^ 32 - 1)

/-- A row of keys for each position. -/
def maskRows (name : String) (keep : Nat → Nat → Bool) (positions : Value) (len : Nat) : Eval Value :=
  match positions with
  | .u32 positions =>
    .ok (.bool (positions.flatMap (fun p => (List.range len).map (keep p.toNat))))
  | _ => fault name

def causalKeep (position key : Nat) : Bool := decide (key ≤ position)

def slidingKeep (window position key : Nat) : Bool :=
  decide (key ≤ position) && decide (position < saturatingAdd key window)

def sinkKeep (sink window position key : Nat) : Bool :=
  decide (key ≤ position) && (decide (key < sink) || decide (position < saturatingAdd key window))

def rngKeyed (state : Value) (shape : Shape) (kind : RngKind) : Eval Value := do
  let st := lanesI64 F state
  let key ← index st 0
  let counter ← index st 1
  .ok (.f32 (draws F kind (keyedSeed (key.setWidth 32) (counter.setWidth 32)) shape.numel))

/-- The input an intrinsic reads. -/
def intrinsicInput (inputs : PassInputs) (layer : BitVec 32) : IntrinsicId → Option Value
  | .logits => inputs.logits
  | .mtpLogits => inputs.mtpLogits
  | .hidden => inputs.hidden
  | .velocity => inputs.velocity
  | .peerVelocity => inputs.peerVelocity
  | .pixels => inputs.pixels
  | .valueHead => inputs.valueHead
  | .query => inputs.query[layer.toNat]?
  | .layer => some (.u32 [layer])
  | .mtpDrafts => inputs.mtpDrafts
  | .attnScore => inputs.attnScore

def intrinsic (inputs : PassInputs) (layer : BitVec 32) (intr : IntrinsicId) (want : ValueType) : Eval Value :=
  match intrinsicInput inputs layer intr with
  | some v => if valueMatches v want then .ok v else .error (.error (.fault (.intrinsicType intr.name)))
  | none => .error (.error (.missingIntrinsic intr.name))

end Eval

/-- What a literal is. -/
def Literal.value : Literal → Value
  | .f32 bits => .f32 [bits]
  | .i32 v => .i32 [v]
  | .u32 v => .u32 [v]
  | .bool v => .bool [v]

section

variable (F : F32Ops) (vals : List Value) (types : List ValueType) (inputs : PassInputs) (layer : BitVec 32)

/-- `vals[id]`. -/
def valueAt (id : ValueId) : Eval Value := Eval.index vals id.toNat

/-- `ty_of(id)`. -/
def typeAt (id : ValueId) : Eval ValueType := Eval.index types id.toNat

/-- An operation on one value. -/
def unary (f : Value → Eval Value) (a : ValueId) : Eval Evaled := do
  let x ← valueAt vals a
  let out ← f x
  .ok (.one out)

/-- An operation on one value and its type. -/
def unaryTyped (f : Value → ValueType → Eval Evaled) (a : ValueId) : Eval Evaled := do
  let x ← valueAt vals a
  let t ← typeAt types a
  f x t

/-- An operation on two values and the type of the first. -/
def binary (f : Value → Value → ValueType → Eval Value) (a b : ValueId) : Eval Evaled := do
  let x ← valueAt vals a
  let y ← valueAt vals b
  let t ← typeAt types a
  let out ← f x y t
  .ok (.one out)

def mapOp (f : F32 → F32) (a : ValueId) : Eval Evaled := unary vals (fun x => .ok (mapF32 F x f)) a

def arithOp (ff : F32 → F32 → F32) (fi : BitVec 64 → BitVec 64 → BitVec 64) (a b : ValueId) : Eval Evaled :=
  binary vals types (fun x y t => binArith F x y t.dtype ff fi) a b

def compareOp (ff : F32 → F32 → Bool) (fi : BitVec 64 → BitVec 64 → Bool) (a b : ValueId) : Eval Evaled :=
  binary vals types (fun x y t => cmpOp F x y t.dtype ff fi) a b

def evalOp (op : Op) : Eval Evaled :=
  match op with
  | .const lit => .ok (.one lit.value)
  | .exp a => mapOp F vals F.exp a
  | .log a => mapOp F vals F.ln a
  | .recip a => mapOp F vals (fun x => F.div F32.one x) a
  | .sin a => mapOp F vals F.sin a
  | .cos a => mapOp F vals F.cos a
  | .sqrt a => mapOp F vals F.sqrt a
  | .rsqrt a => mapOp F vals (fun x => F.div F32.one (F.sqrt x)) a
  | .neg a => unary vals (Eval.neg F) a
  | .abs a => unary vals (fun x => .ok (Eval.abs F x)) a
  | .sign a => unary vals (Eval.sign F) a
  | .cast value dtype => unary vals (fun x => Eval.cast F x dtype) value
  | .add a b => arithOp F vals types F.add (· + ·) a b
  | .sub a b => arithOp F vals types F.sub (· - ·) a b
  | .mul a b => arithOp F vals types F.mul (· * ·) a b
  | .div a b => arithOp F vals types F.div Eval.divI64 a b
  | .maxElem a b => arithOp F vals types (elementMax F) maxI64 a b
  | .minElem a b => arithOp F vals types (elementMin F) minI64 a b
  | .rem a b => arithOp F vals types F.rem Eval.remI64 a b
  | .gt a b => compareOp F vals types (fun x y => F.lt y x) (fun x y => BitVec.slt y x) a b
  | .ge a b => compareOp F vals types (fun x y => F.le y x) (fun x y => BitVec.sle y x) a b
  | .eq a b => compareOp F vals types F.eq (fun x y => x == y) a b
  | .ne a b => compareOp F vals types (fun x y => !F.eq x y) (fun x y => x != y) a b
  | .lt a b => compareOp F vals types F.lt BitVec.slt a b
  | .le a b => compareOp F vals types F.le BitVec.sle a b
  | .and a b => binary vals types (fun x y _ => Eval.logic (· && ·) x y) a b
  | .or a b => binary vals types (fun x y _ => Eval.logic (· || ·) x y) a b
  | .not a => unary vals Eval.not a
  | .select cond a b => do
    let c ← valueAt vals cond
    binary vals types (fun x y t => Eval.select F c x y t.dtype) a b
  | .reduceSum a => unaryTyped vals types (fun x t => .one <$> reduceRows F .sum t x) a
  | .reduceMax a => unaryTyped vals types (fun x t => .one <$> reduceRows F .max t x) a
  | .reduceMin a => unaryTyped vals types (fun x t => .one <$> reduceRows F .min t x) a
  | .reduceArgmax a => unaryTyped vals types (fun x t => .one <$> Eval.argmax F x (rowsOf t.shape)) a
  | .broadcast value shape =>
    unaryTyped vals types (fun x t => .one <$> Eval.broadcast x t.shape shape) value
  | .reshape value _ => unary vals .ok value
  | .transpose a => unaryTyped vals types (fun x t => .one <$> Eval.transpose x t.shape) a
  | .cumSum a => unaryTyped vals types (fun x t => .ok (.one (Eval.cumSum F x (rowsOf t.shape)))) a
  | .cumProd a => unaryTyped vals types (fun x t => .ok (.one (Eval.cumProd F x (rowsOf t.shape)))) a
  | .sortDesc a => do
    let x ← valueAt vals a
    Eval.sortDesc F x
  | .topK input k => unaryTyped vals types (fun x t => Eval.topK F x (rowsOf t.shape) k.toNat) input
  | .matMul a b => do
    let ta ← typeAt types a
    let tb ← typeAt types b
    let x ← valueAt vals a
    let y ← valueAt vals b
    .one <$> Eval.matMul F x y ta.shape tb.shape
  | .pivotThreshold input predicate => do
    let t ← typeAt types input
    let x ← valueAt vals input
    let threshold ← valueAt vals predicate.value
    .one <$> Eval.pivotThreshold F x threshold predicate (rowsOf t.shape)
  | .gather src idx => binary vals types (fun x y t => Eval.gather F x y t.shape) src idx
  | .gatherRow src idx => binary vals types (fun x y t => Eval.gatherRow F x y t.shape) src idx
  | .scatterAdd base idx vs => do
    let v ← valueAt vals vs
    binary vals types (fun x y t => Eval.scatter F true x y v t) base idx
  | .scatterSet base idx vs => do
    let v ← valueAt vals vs
    binary vals types (fun x y t => Eval.scatter F false x y v t) base idx
  | .iota len => .ok (.one (.u32 ((List.range len.toNat).map (BitVec.ofNat 32))))
  | .maskApply logits mask => binary vals types (fun x y t => Eval.maskApply F x y t.shape) logits mask
  | .causalMask positions len =>
    unary vals (fun x => Eval.maskRows "causal_mask positions" Eval.causalKeep x len.toNat) positions
  | .slidingWindowMask positions len window =>
    unary vals (fun x => Eval.maskRows "sliding_window_mask positions" (Eval.slidingKeep window.toNat) x len.toNat)
      positions
  | .sinkWindowMask positions len sink window =>
    unary vals (fun x => Eval.maskRows "sink_window_mask positions" (Eval.sinkKeep sink.toNat window.toNat) x
      len.toNat) positions
  | .rng stream shape kind => .ok (.one (.f32 (rngAmbient F inputs.ambient stream kind shape.numel)))
  | .rngKeyed state shape kind => unary vals (fun x => Eval.rngKeyed F x shape kind) state
  | .chanTake chan => .ok (.chan (.take chan))
  | .chanRead chan => .ok (.chan (.read chan))
  | .chanPut chan value => .ok (.chan (.put chan value))
  | .intrinsicVal intr shape dtype => .one <$> Eval.intrinsic inputs layer intr ⟨shape, dtype⟩
  | .kernelCall name args shape dtype => .ok (.kernel name args ⟨shape, dtype⟩)
  | .sinkCall name args => .ok (.sink name args)

end

end Pie.Eta
