import Pie.Eta.Op
import Pie.Lib.Reading

/-!
# Inferring types

The types of the values of a stage, operation by operation. An operation that
does not fit what is before it is an error that says where it stands and what
is wrong with it.

Names follow `infer.rs`; the operations that share an arm there share a
definition here.
-/

namespace Pie.Eta

open Lib

inductive BodyErrorKind where
  | valueIdOutOfRange (id : ValueId)
  | shapeMismatch
  | shapeMismatchBin (a b : Shape)
  | dtypeMismatch
  | unsupportedDtype (dtype : Dtype)
  | channelOutOfRange (chan : ChannelIndex)
  | nameOutOfRange (name : NameIndex)
deriving DecidableEq

structure BodyError where
  opIndex : Nat
  kind : BodyErrorKind
deriving DecidableEq

structure BodyCtx where
  channelTypes : List ValueType
  nNames : Nat

namespace Shape

def vector (n : BitVec 32) : Option Shape := new [n]

def matrix (m n : BitVec 32) : Option Shape := new [m, n]

def dropLast (s : Shape) : Option Shape := if s.rank = 0 then none else new s.dims.dropLast

end Shape

def ValueType.scalar (dtype : Dtype) : ValueType := ⟨Shape.scalar, dtype⟩

/-! ## Shapes of results -/

def broadcast2 (a b : Shape) : Option Shape :=
  if a = b then some a else if a.isScalar then some b else if b.isScalar then some a else none

/-- Leading axes: one that the source lacks counts as one. -/
def canBroadcastTo (src target : Shape) : Bool :=
  decide (src.rank ≤ target.rank) && (List.range target.rank).all (fun i =>
    let s := src.dims[i]?.getD 1
    s == target.dims[i]?.getD 0 || s == 1)

def axis0Result (idx src : Shape) : Option Shape :=
  if idx.rank + src.rank - 1 > MAX_RANK then none else Shape.new (idx.dims ++ src.dims.tail)

def appendDim (shape : Shape) (dim : BitVec 32) : Option Shape :=
  if shape.rank ≥ MAX_RANK ∨ dim = 0 then none else Shape.new (shape.dims ++ [dim])

inductive Results where
  | none
  | one (t : ValueType)
  | two (a b : ValueType)

def Results.toList : Results → List ValueType
  | none => []
  | one t => [t]
  | two a b => [a, b]

/-! ## One operation -/

abbrev Infer (α : Type) := Except (Stop BodyErrorKind) α

namespace Infer

def fail {α : Type} (kind : BodyErrorKind) : Infer α := .error (.error kind)

/-- The value, or the error. -/
def expect {α : Type} (kind : BodyErrorKind) : Option α → Infer α
  | some a => .ok a
  | none => fail kind

/-- The value, or a panic. -/
def unwrap {α : Type} : Option α → Infer α
  | some a => .ok a
  | none => .error .panic

def guard (p : Prop) [Decidable p] (kind : BodyErrorKind) : Infer Unit := if p then .ok () else fail kind

section

variable (types : List ValueType) (ctx : BodyCtx)

/-- `g`: the type of an operand. -/
def operand (id : ValueId) : Infer ValueType := expect (.valueIdOutOfRange id) types[id.toNat]?

/-- `chan`. -/
def channel (c : ChannelIndex) : Infer ValueType := expect (.channelOutOfRange c) ctx.channelTypes[c.toNat]?

/-- `name_ok`. -/
def nameOk (n : NameIndex) : Infer Unit := guard (n.toNat < ctx.nNames) (.nameOutOfRange n)

def joined (ta tb : ValueType) : Infer Shape :=
  expect (.shapeMismatchBin ta.shape tb.shape) (broadcast2 ta.shape tb.shape)

/-- `Exp` and the other operations of `f32` alone. -/
def onFloat (a : ValueId) : Infer Results := do
  let t ← operand types a
  guard (t.dtype = .f32) .dtypeMismatch
  .ok (.one t)

/-- `Neg`, `Abs`, `Sign`. -/
def onNumeric (a : ValueId) : Infer Results := do
  let t ← operand types a
  guard (t.dtype.isNumeric = true) .dtypeMismatch
  .ok (.one t)

/-- `Add` and the other operations on two numbers; `out` is the element type of the result. -/
def onNumbers (out : Dtype → Dtype) (a b : ValueId) : Infer Results := do
  let ta ← operand types a
  let tb ← operand types b
  guard (ta.dtype.isNumeric = true ∧ ta.dtype = tb.dtype) .dtypeMismatch
  let shape ← joined ta tb
  .ok (.one ⟨shape, out ta.dtype⟩)

/-- `And`, `Or`. -/
def onBools (a b : ValueId) : Infer Results := do
  let ta ← operand types a
  let tb ← operand types b
  guard (ta.dtype = .bool ∧ tb.dtype = .bool) .dtypeMismatch
  let shape ← joined ta tb
  .ok (.one ⟨shape, .bool⟩)

def select (cond a b : ValueId) : Infer Results := do
  let tc ← operand types cond
  let ta ← operand types a
  let tb ← operand types b
  guard (tc.dtype = .bool ∧ ta.dtype = tb.dtype) .dtypeMismatch
  let ab ← joined ta tb
  let shape ← expect .shapeMismatch (broadcast2 ab tc.shape)
  .ok (.one ⟨shape, ta.dtype⟩)

/-- `ReduceSum` and the other reductions; `out` is the element type of the result. -/
def reduce (out : Dtype → Dtype) (v : ValueId) : Infer Results := do
  let t ← operand types v
  guard (t.dtype.isNumeric = true) .dtypeMismatch
  let shape ← expect .shapeMismatch t.shape.dropLast
  .ok (.one ⟨shape, out t.dtype⟩)

/-- `CumSum`, `CumProd`. -/
def scan (v : ValueId) : Infer Results := do
  let t ← operand types v
  guard (t.dtype.isNumeric = true) .dtypeMismatch
  guard (t.shape.rank ≠ 0) .shapeMismatch
  .ok (.one t)

def transpose (v : ValueId) : Infer Results := do
  let t ← operand types v
  match t.shape.dims with
  | [m, n] => do
    let shape ← unwrap (Shape.matrix n m)
    .ok (.one ⟨shape, t.dtype⟩)
  | _ => fail .shapeMismatch

def sortDesc (v : ValueId) : Infer Results := do
  let t ← operand types v
  guard (t.dtype = .f32) .dtypeMismatch
  match t.shape.dims with
  | [n] => do
    let shape ← unwrap (Shape.vector n)
    .ok (.two ⟨shape, .f32⟩ ⟨shape, .u32⟩)
  | _ => fail .shapeMismatch

/-- The shape of the first `k` of each row. -/
def topShape (k : BitVec 32) (dims : List (BitVec 32)) : Infer Shape :=
  match dims with
  | [n] => if 1 ≤ k.toNat ∧ k.toNat ≤ n.toNat then unwrap (Shape.vector k) else fail .shapeMismatch
  | [m, n] => if 1 ≤ k.toNat ∧ k.toNat ≤ n.toNat then unwrap (Shape.matrix m k) else fail .shapeMismatch
  | _ => fail .shapeMismatch

def topK (input : ValueId) (k : BitVec 32) : Infer Results := do
  let t ← operand types input
  guard (t.dtype = .f32) .dtypeMismatch
  let shape ← topShape k t.shape.dims
  .ok (.two ⟨shape, .f32⟩ ⟨shape, .u32⟩)

/-- The shape of a product of matrices. -/
def productShape (a b : List (BitVec 32)) : Infer Shape :=
  match a, b with
  | [m, ka], [kb, n] => if ka = kb then unwrap (Shape.matrix m n) else fail .shapeMismatch
  | _, _ => fail .shapeMismatch

def matMul (a b : ValueId) : Infer Results := do
  let ta ← operand types a
  let tb ← operand types b
  guard (ta.dtype = .f32 ∧ tb.dtype = .f32) .dtypeMismatch
  let shape ← productShape ta.shape.dims tb.shape.dims
  .ok (.one ⟨shape, .f32⟩)

/-- One threshold, or one for each row of a matrix. -/
def PerRow (t threshold : ValueType) : Prop :=
  threshold.shape.isScalar = true ∨ (t.shape.rank = 2 ∧ threshold.shape.dims = t.shape.dims.take 1)

instance (t threshold : ValueType) : Decidable (PerRow t threshold) := inferInstanceAs (Decidable (_ ∨ _))

def thresholdOk (t : ValueType) (predicate : Predicate) : Infer Unit :=
  match predicate with
  | .rankLe k => do
    let kt ← operand types k
    guard (kt.dtype.isInt = true) .dtypeMismatch
    guard (PerRow t kt) .shapeMismatch
  | .cummassLe thr | .probGe thr => do
    let tt ← operand types thr
    guard (tt.dtype = .f32) .dtypeMismatch
    guard (PerRow t tt) .shapeMismatch

def pivotThreshold (input : ValueId) (predicate : Predicate) : Infer Results := do
  let t ← operand types input
  guard (t.dtype = .f32) .dtypeMismatch
  guard (t.shape.rank = 1 ∨ t.shape.rank = 2) .shapeMismatch
  let _ ← thresholdOk types t predicate
  .ok (.one ⟨t.shape, .bool⟩)

def gather (src idx : ValueId) : Infer Results := do
  let ts ← operand types src
  let ti ← operand types idx
  guard (ts.shape.rank ≠ 0) .shapeMismatch
  guard (ti.dtype.isInt = true) .dtypeMismatch
  let shape ← expect .shapeMismatch (axis0Result ti.shape ts.shape)
  .ok (.one ⟨shape, ts.dtype⟩)

def gatherRow (src idx : ValueId) : Infer Results := do
  let ts ← operand types src
  let ti ← operand types idx
  match ts.shape.dims with
  | [m, _] => do
    guard (ti.dtype.isInt = true) .dtypeMismatch
    guard (ti.shape.dims = [m]) .shapeMismatch
    let shape ← unwrap (Shape.vector m)
    .ok (.one ⟨shape, ts.dtype⟩)
  | _ => fail .shapeMismatch

/-- `ScatterAdd`, `ScatterSet`. -/
def scatter (isAdd : Bool) (base idx vals : ValueId) : Infer Results := do
  let tb ← operand types base
  let ti ← operand types idx
  let tv ← operand types vals
  guard (tb.shape.rank ≠ 0) .shapeMismatch
  guard (isAdd = true → tb.dtype.isNumeric = true) .dtypeMismatch
  guard (ti.dtype.isInt = true) .dtypeMismatch
  guard (tv.dtype = tb.dtype) .dtypeMismatch
  let want ← expect .shapeMismatch (axis0Result ti.shape tb.shape)
  guard (tv.shape = want ∨ tv.shape.isScalar = true) .shapeMismatch
  .ok (.one tb)

def maskApply (logits mask : ValueId) : Infer Results := do
  let tl ← operand types logits
  let tm ← operand types mask
  let n ← expect .shapeMismatch tl.shape.lastLen
  guard (tl.dtype = .f32 ∧ tm.dtype = .u32) .dtypeMismatch
  guard (tm.shape.dims.map BitVec.toNat = [(n.toNat + 31) / 32]) .shapeMismatch
  .ok (.one tl)

/-- `CausalMask`, `SlidingWindowMask`, `SinkWindowMask`. -/
def mask (positions : ValueId) (len : BitVec 32) : Infer Results := do
  let t ← operand types positions
  guard (t.dtype = .u32) .dtypeMismatch
  let shape ← expect .shapeMismatch (appendDim t.shape len)
  .ok (.one ⟨shape, .bool⟩)

def chanPut (c : ChannelIndex) (value : ValueId) : Infer Results := do
  let ct ← channel ctx c
  let vt ← operand types value
  guard (vt.dtype = ct.dtype) .dtypeMismatch
  guard (vt.shape = ct.shape) .shapeMismatch
  .ok .none

/-- `for &a in args { g(a)?; }`. -/
def args : List ValueId → Infer Unit
  | [] => .ok ()
  | a :: rest => do
    let _ ← operand types a
    args rest

end

end Infer

/-- `infer`. -/
def infer (types : List ValueType) (ctx : BodyCtx) (op : Op) : Infer Results :=
  match op with
  | .const lit => .ok (.one (.scalar lit.dtype))
  | .exp a | .log a | .recip a | .sin a | .cos a | .sqrt a | .rsqrt a => Infer.onFloat types a
  | .neg a | .abs a | .sign a => Infer.onNumeric types a
  | .cast value dtype => do
    let t ← Infer.operand types value
    .ok (.one ⟨t.shape, dtype⟩)
  | .add a b | .sub a b | .mul a b | .maxElem a b | .minElem a b | .rem a b | .div a b =>
    Infer.onNumbers types id a b
  | .gt a b | .ge a b | .eq a b | .ne a b | .lt a b | .le a b =>
    Infer.onNumbers types (fun _ => .bool) a b
  | .and a b | .or a b => Infer.onBools types a b
  | .not a => do
    let t ← Infer.operand types a
    Infer.guard (t.dtype = .bool) .dtypeMismatch
    .ok (.one t)
  | .select cond a b => Infer.select types cond a b
  | .reduceSum v | .reduceMax v | .reduceMin v => Infer.reduce types id v
  | .reduceArgmax v => Infer.reduce types (fun _ => .i32) v
  | .broadcast value shape => do
    let t ← Infer.operand types value
    Infer.guard (canBroadcastTo t.shape shape = true) .shapeMismatch
    .ok (.one ⟨shape, t.dtype⟩)
  | .reshape value shape => do
    let t ← Infer.operand types value
    Infer.guard (t.shape.numel = shape.numel) .shapeMismatch
    .ok (.one ⟨shape, t.dtype⟩)
  | .transpose v => Infer.transpose types v
  | .cumSum v | .cumProd v => Infer.scan types v
  | .sortDesc v => Infer.sortDesc types v
  | .topK input k => Infer.topK types input k
  | .matMul a b => Infer.matMul types a b
  | .pivotThreshold input predicate => Infer.pivotThreshold types input predicate
  | .gather src idx => Infer.gather types src idx
  | .gatherRow src idx => Infer.gatherRow types src idx
  | .scatterAdd base idx vals => Infer.scatter types true base idx vals
  | .scatterSet base idx vals => Infer.scatter types false base idx vals
  | .iota len => do
    Infer.guard (len ≠ 0) .shapeMismatch
    let shape ← Infer.unwrap (Shape.vector len)
    .ok (.one ⟨shape, .u32⟩)
  | .maskApply logits mask => Infer.maskApply types logits mask
  | .causalMask positions len | .slidingWindowMask positions len _ | .sinkWindowMask positions len _ _ =>
    Infer.mask types positions len
  | .rng _ shape _ => do
    Infer.guard (shape.rank ≠ 0) .shapeMismatch
    .ok (.one ⟨shape, .f32⟩)
  | .rngKeyed state shape _ => do
    let ts ← Infer.operand types state
    Infer.guard (ts.dtype = .u32) .dtypeMismatch
    Infer.guard (ts.shape.dims = [2] ∧ shape.rank ≠ 0) .shapeMismatch
    .ok (.one ⟨shape, .f32⟩)
  | .chanTake c | .chanRead c => do
    let t ← Infer.channel ctx c
    .ok (.one t)
  | .chanPut c value => Infer.chanPut types ctx c value
  | .intrinsicVal _ shape dtype => .ok (.one ⟨shape, dtype⟩)
  | .kernelCall name args shape dtype => do
    let _ ← Infer.nameOk ctx name
    let _ ← Infer.args types args
    .ok (.one ⟨shape, dtype⟩)
  | .sinkCall name args => do
    let _ ← Infer.nameOk ctx name
    let _ ← Infer.args types args
    .ok .none

/-! ## A stage -/

/-- `u32::try_from(i).unwrap_or(u32::MAX)`. -/
def u32OrMax (i : Nat) : Nat := if i < 2 ^ 32 then i else 2 ^ 32 - 1

/-- An error of the operation with an index. -/
def Infer.atOp {α : Type} (index : Nat) : Infer α → Except (Stop BodyError) α
  | .ok a => .ok a
  | .error (.error kind) => .error (.error ⟨u32OrMax index, kind⟩)
  | .error .panic => .error .panic

/-- ETA computes in the element types of the results. -/
def supported : List ValueType → Infer Unit
  | [] => .ok ()
  | t :: rest => do
    Infer.guard (t.dtype.supports = true) (.unsupportedDtype t.dtype)
    supported rest

/-- The types after one operation. -/
def opTypes (ctx : BodyCtx) (types : List ValueType) (op : Op) : Infer (List ValueType) := do
  let results ← infer types ctx op
  let _ ← supported results.toList
  .ok (types ++ results.toList)

/-- The loop of `body_types`. -/
def bodyTypesFrom (ctx : BodyCtx) : Nat → List Op → List ValueType → Except (Stop BodyError) (List ValueType)
  | _, [], types => .ok types
  | i, op :: ops, types => do
    let types ← Infer.atOp i (opTypes ctx types op)
    bodyTypesFrom ctx (i + 1) ops types

/-- `body_types`. -/
def bodyTypes (ctx : BodyCtx) (ops : List Op) : Except (Stop BodyError) (List ValueType) :=
  bodyTypesFrom ctx 0 ops []

end Pie.Eta
