import Pie.Eta.Types

/-!
# Operations

The operations of an ETA stage and the table of their tags, their results and
their fields on the wire. Names follow `op.rs`; what a macro of the source
declares once for several functions is written out in each.
-/

namespace Pie.Eta

abbrev ChannelIndex := BitVec 32

abbrev NameIndex := BitVec 16

inductive IntrinsicId where
  | logits
  | mtpLogits
  | hidden
  | query
  | valueHead
  | layer
  | mtpDrafts
  | attnScore
  | velocity
  | pixels
  | peerVelocity
deriving DecidableEq, Repr

/-- `intr as u16`. -/
def IntrinsicId.toU16 : IntrinsicId → Nat
  | logits => 0
  | mtpLogits => 1
  | hidden => 2
  | query => 3
  | valueHead => 4
  | layer => 5
  | mtpDrafts => 6
  | attnScore => 7
  | velocity => 8
  | pixels => 9
  | peerVelocity => 10

def IntrinsicId.fromU16 : Nat → Option IntrinsicId
  | 0 => some logits
  | 1 => some mtpLogits
  | 2 => some hidden
  | 3 => some query
  | 4 => some valueHead
  | 5 => some layer
  | 6 => some mtpDrafts
  | 7 => some attnScore
  | 8 => some velocity
  | 9 => some pixels
  | 10 => some peerVelocity
  | _ => none

inductive Op where
  | const (literal : Literal)
  | exp (a : ValueId)
  | log (a : ValueId)
  | neg (a : ValueId)
  | recip (a : ValueId)
  | sin (a : ValueId)
  | cos (a : ValueId)
  | sqrt (a : ValueId)
  | rsqrt (a : ValueId)
  | abs (a : ValueId)
  | sign (a : ValueId)
  | cast (value : ValueId) (dtype : Dtype)
  | add (a b : ValueId)
  | sub (a b : ValueId)
  | mul (a b : ValueId)
  | div (a b : ValueId)
  | maxElem (a b : ValueId)
  | minElem (a b : ValueId)
  | rem (a b : ValueId)
  | gt (a b : ValueId)
  | ge (a b : ValueId)
  | eq (a b : ValueId)
  | ne (a b : ValueId)
  | lt (a b : ValueId)
  | le (a b : ValueId)
  | and (a b : ValueId)
  | or (a b : ValueId)
  | not (a : ValueId)
  | select (cond a b : ValueId)
  | reduceSum (a : ValueId)
  | reduceMax (a : ValueId)
  | reduceMin (a : ValueId)
  | reduceArgmax (a : ValueId)
  | broadcast (value : ValueId) (shape : Shape)
  | reshape (value : ValueId) (shape : Shape)
  | transpose (a : ValueId)
  | cumSum (a : ValueId)
  | cumProd (a : ValueId)
  | sortDesc (a : ValueId)
  | topK (input : ValueId) (k : BitVec 32)
  | pivotThreshold (input : ValueId) (predicate : Predicate)
  | matMul (a b : ValueId)
  | gather (src idx : ValueId)
  | gatherRow (src idx : ValueId)
  | scatterAdd (base idx vals : ValueId)
  | scatterSet (base idx vals : ValueId)
  | iota (len : BitVec 32)
  | maskApply (logits mask : ValueId)
  | causalMask (positions : ValueId) (len : BitVec 32)
  | slidingWindowMask (positions : ValueId) (len window : BitVec 32)
  | sinkWindowMask (positions : ValueId) (len sink window : BitVec 32)
  | rng (stream : BitVec 32) (shape : Shape) (kind : RngKind)
  | rngKeyed (state : ValueId) (shape : Shape) (kind : RngKind)
  | chanTake (chan : ChannelIndex)
  | chanRead (chan : ChannelIndex)
  | chanPut (chan : ChannelIndex) (value : ValueId)
  | intrinsicVal (intr : IntrinsicId) (shape : Shape) (dtype : Dtype)
  | kernelCall (name : NameIndex) (args : List ValueId) (shape : Shape) (dtype : Dtype)
  | sinkCall (name : NameIndex) (args : List ValueId)
deriving DecidableEq

/-! ## The table -/

inductive WireField where
  | value
  | chan
  | imm
  | dtype
  | shape
  | rngKind
  | predicate
  | literal
  | name
  | intrinsic
  | args
deriving DecidableEq, Repr

structure OpSpec where
  tag : Nat
  name : String
  results : Nat
  wire : List WireField

def OP_TABLE : List OpSpec := [
  ⟨0x01, "exp", 1, [.value]⟩,
  ⟨0x02, "log", 1, [.value]⟩,
  ⟨0x03, "neg", 1, [.value]⟩,
  ⟨0x04, "recip", 1, [.value]⟩,
  ⟨0x05, "abs", 1, [.value]⟩,
  ⟨0x06, "sign", 1, [.value]⟩,
  ⟨0x07, "cast", 1, [.value, .dtype]⟩,
  ⟨0x08, "sin", 1, [.value]⟩,
  ⟨0x09, "cos", 1, [.value]⟩,
  ⟨0x0A, "sqrt", 1, [.value]⟩,
  ⟨0x0B, "rsqrt", 1, [.value]⟩,
  ⟨0x10, "add", 1, [.value, .value]⟩,
  ⟨0x11, "sub", 1, [.value, .value]⟩,
  ⟨0x12, "mul", 1, [.value, .value]⟩,
  ⟨0x13, "div", 1, [.value, .value]⟩,
  ⟨0x14, "max_elem", 1, [.value, .value]⟩,
  ⟨0x15, "min_elem", 1, [.value, .value]⟩,
  ⟨0x16, "gt", 1, [.value, .value]⟩,
  ⟨0x17, "ge", 1, [.value, .value]⟩,
  ⟨0x18, "eq", 1, [.value, .value]⟩,
  ⟨0x19, "ne", 1, [.value, .value]⟩,
  ⟨0x1A, "lt", 1, [.value, .value]⟩,
  ⟨0x1B, "le", 1, [.value, .value]⟩,
  ⟨0x1C, "and", 1, [.value, .value]⟩,
  ⟨0x1D, "or", 1, [.value, .value]⟩,
  ⟨0x1E, "not", 1, [.value]⟩,
  ⟨0x1F, "rem", 1, [.value, .value]⟩,
  ⟨0x20, "select", 1, [.value, .value, .value]⟩,
  ⟨0x30, "reduce_sum", 1, [.value]⟩,
  ⟨0x31, "reduce_max", 1, [.value]⟩,
  ⟨0x32, "reduce_min", 1, [.value]⟩,
  ⟨0x33, "reduce_argmax", 1, [.value]⟩,
  ⟨0x38, "broadcast", 1, [.value, .shape]⟩,
  ⟨0x39, "reshape", 1, [.value, .shape]⟩,
  ⟨0x3A, "transpose", 1, [.value]⟩,
  ⟨0x40, "cumsum", 1, [.value]⟩,
  ⟨0x41, "cumprod", 1, [.value]⟩,
  ⟨0x50, "sort_desc", 2, [.value]⟩,
  ⟨0x51, "top_k", 2, [.value, .imm]⟩,
  ⟨0x55, "matmul", 1, [.value, .value]⟩,
  ⟨0x58, "pivot_threshold", 1, [.value, .predicate]⟩,
  ⟨0x60, "gather", 1, [.value, .value]⟩,
  ⟨0x61, "gather_row", 1, [.value, .value]⟩,
  ⟨0x62, "scatter_add", 1, [.value, .value, .value]⟩,
  ⟨0x63, "scatter_set", 1, [.value, .value, .value]⟩,
  ⟨0x64, "iota", 1, [.imm]⟩,
  ⟨0x65, "mask_apply_packed", 1, [.value, .value]⟩,
  ⟨0x66, "causal_mask", 1, [.value, .imm]⟩,
  ⟨0x67, "sliding_window_mask", 1, [.value, .imm, .imm]⟩,
  ⟨0x68, "sink_window_mask", 1, [.value, .imm, .imm, .imm]⟩,
  ⟨0x70, "rng", 1, [.imm, .shape, .rngKind]⟩,
  ⟨0x71, "rng_keyed", 1, [.value, .shape, .rngKind]⟩,
  ⟨0x81, "const", 1, [.literal]⟩,
  ⟨0x90, "chan_take", 1, [.chan]⟩,
  ⟨0x91, "chan_read", 1, [.chan]⟩,
  ⟨0x92, "chan_put", 0, [.chan, .value]⟩,
  ⟨0xA0, "intrinsic_val", 1, [.intrinsic, .dtype, .shape]⟩,
  ⟨0xA1, "kernel_call", 1, [.name, .dtype, .shape, .args]⟩,
  ⟨0xA2, "sink_call", 0, [.name, .args]⟩]

/-- The loop of `spec`: a binary search between `lo` and `hi`, halved each turn. -/
def specLoop (tag : Nat) : Nat → Nat → Nat → Option OpSpec
  | 0, _, _ => none
  | fuel + 1, lo, hi =>
    if lo < hi then
      let mid := lo + (hi - lo) / 2
      match OP_TABLE[mid]? with
      | none => none
      | some row =>
        if row.tag = tag then some row
        else if row.tag < tag then specLoop tag fuel (mid + 1) hi
        else specLoop tag fuel lo mid
    else none

def spec (tag : Nat) : Option OpSpec := specLoop tag (OP_TABLE.length + 1) 0 OP_TABLE.length

namespace Op

def tag : Op → Nat
  | exp _ => 0x01
  | log _ => 0x02
  | neg _ => 0x03
  | recip _ => 0x04
  | abs _ => 0x05
  | sign _ => 0x06
  | cast .. => 0x07
  | sin _ => 0x08
  | cos _ => 0x09
  | sqrt _ => 0x0A
  | rsqrt _ => 0x0B
  | add .. => 0x10
  | sub .. => 0x11
  | mul .. => 0x12
  | div .. => 0x13
  | maxElem .. => 0x14
  | minElem .. => 0x15
  | gt .. => 0x16
  | ge .. => 0x17
  | eq .. => 0x18
  | ne .. => 0x19
  | lt .. => 0x1A
  | le .. => 0x1B
  | and .. => 0x1C
  | or .. => 0x1D
  | not _ => 0x1E
  | rem .. => 0x1F
  | select .. => 0x20
  | reduceSum _ => 0x30
  | reduceMax _ => 0x31
  | reduceMin _ => 0x32
  | reduceArgmax _ => 0x33
  | broadcast .. => 0x38
  | reshape .. => 0x39
  | transpose _ => 0x3A
  | cumSum _ => 0x40
  | cumProd _ => 0x41
  | sortDesc _ => 0x50
  | topK .. => 0x51
  | matMul .. => 0x55
  | pivotThreshold .. => 0x58
  | gather .. => 0x60
  | gatherRow .. => 0x61
  | scatterAdd .. => 0x62
  | scatterSet .. => 0x63
  | iota _ => 0x64
  | maskApply .. => 0x65
  | causalMask .. => 0x66
  | slidingWindowMask .. => 0x67
  | sinkWindowMask .. => 0x68
  | rng .. => 0x70
  | rngKeyed .. => 0x71
  | const _ => 0x81
  | chanTake _ => 0x90
  | chanRead _ => 0x91
  | chanPut .. => 0x92
  | intrinsicVal .. => 0xA0
  | kernelCall .. => 0xA1
  | sinkCall .. => 0xA2

/-- `result_count`: every operation has its row. -/
def resultCount (op : Op) : Nat := ((spec op.tag).map OpSpec.results).getD 0

def operands : Op → List ValueId
  | const _ | iota _ | rng .. | chanTake _ | chanRead _ | intrinsicVal .. => []
  | exp a | log a | neg a | recip a | sin a | cos a | sqrt a | rsqrt a | abs a | sign a
  | cast a _ | not a | reduceSum a | reduceMax a | reduceMin a | reduceArgmax a
  | broadcast a _ | reshape a _ | transpose a | cumSum a | cumProd a | sortDesc a | topK a _
  | causalMask a _ | slidingWindowMask a _ _ | sinkWindowMask a _ _ _ | rngKeyed a _ _
  | chanPut _ a => [a]
  | add a b | sub a b | mul a b | div a b | maxElem a b | minElem a b | rem a b
  | gt a b | ge a b | eq a b | ne a b | lt a b | le a b | and a b | or a b
  | matMul a b | gather a b | gatherRow a b | maskApply a b => [a, b]
  | select a b c | scatterAdd a b c | scatterSet a b c => [a, b, c]
  | pivotThreshold input predicate => [input, predicate.value]
  | kernelCall _ args _ _ | sinkCall _ args => args

end Op

end Pie.Eta
