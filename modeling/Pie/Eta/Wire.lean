import Pie.Eta.Op

/-!
# Operations as records

An operation as the record of its fields, and back. `of` panics on an element
type that has no tag; `toOp` gives nothing for a record no operation has.

Names follow `wire.rs`. A byte of the record is a number.
-/

namespace Pie.Eta

structure OpWire where
  tag : Nat := 0
  chan : Int := 0
  nameIdx : NameIndex := 0
  args : List ValueId := []
  results : Nat := 0
  intr : Nat := 0
  imm : BitVec 32 := 0
  imm2 : BitVec 32 := 0
  imm3 : BitVec 32 := 0
  predTag : Nat := 0
  predPayload : BitVec 32 := 0
  litDtype : Nat := 0
  litBits : BitVec 32 := 0
  dtype : Nat := 0
  shape : List (BitVec 32) := []
  kind : Nat := 0
deriving DecidableEq

def Predicate.tag : Predicate → Nat
  | rankLe _ => 0
  | cummassLe _ => 1
  | probGe _ => 2

/-- The bits of a literal. -/
def Literal.bits : Literal → BitVec 32
  | f32 bits => bits
  | i32 value => value
  | u32 value => value
  | bool value => if value then 1 else 0

namespace OpWire

/-- `wire_dtype`: a type with no tag is a panic. -/
def wireDtype (d : Dtype) : Option Nat := d.toWire

def of (op : Op) : Option OpWire :=
  let wire : OpWire := { tag := op.tag, chan := -1, results := op.resultCount }
  match op with
  | .pivotThreshold input predicate =>
    some { wire with args := [input], predTag := predicate.tag, predPayload := predicate.value }
  | .topK input k => some { wire with args := [input], imm := k }
  | .iota len => some { wire with imm := len }
  | .rng stream shape kind => some { wire with imm := stream, shape := shape.dims, kind := kind.toU8 }
  | .rngKeyed state shape kind =>
    some { wire with args := [state], shape := shape.dims, kind := kind.toU8 }
  | .const literal => do
    let dtype ← wireDtype literal.dtype
    some { wire with litDtype := dtype, litBits := literal.bits }
  | .cast value dtype => do
    let dtype ← wireDtype dtype
    some { wire with args := [value], dtype }
  | .broadcast value shape | .reshape value shape =>
    some { wire with args := [value], shape := shape.dims }
  | .causalMask positions len => some { wire with args := [positions], imm := len }
  | .slidingWindowMask positions len window =>
    some { wire with args := [positions], imm := len, imm2 := window }
  | .sinkWindowMask positions len sink window =>
    some { wire with args := [positions], imm := len, imm2 := sink, imm3 := window }
  | .chanTake chan | .chanRead chan => some { wire with chan := chan.toNat }
  | .chanPut chan value => some { wire with chan := chan.toNat, args := [value] }
  | .intrinsicVal intr shape dtype => do
    let dtype ← wireDtype dtype
    some { wire with intr := intr.toU16, shape := shape.dims, dtype }
  | .kernelCall name args shape dtype => do
    let dtype ← wireDtype dtype
    some { wire with nameIdx := name, args, shape := shape.dims, dtype }
  | .sinkCall name args => some { wire with nameIdx := name, args }
  | op => some { wire with args := op.operands }

/-- `u32::try_from(chan).ok()`. -/
def channel (w : OpWire) : Option ChannelIndex :=
  if 0 ≤ w.chan ∧ w.chan < 2 ^ 32 then some (BitVec.ofNat 32 w.chan.toNat) else none

def literal (w : OpWire) : Option Literal := do
  match ← Dtype.fromWire w.litDtype with
  | .f32 => some (.f32 w.litBits)
  | .i32 => some (.i32 w.litBits)
  | .u32 => some (.u32 w.litBits)
  | .bool => some (.bool (w.litBits != 0))
  | _ => none

def predicate (w : OpWire) : Option Predicate :=
  match w.predTag with
  | 0 => some (.rankLe w.predPayload)
  | 1 => some (.cummassLe w.predPayload)
  | 2 => some (.probGe w.predPayload)
  | _ => none

def toOp (w : OpWire) : Option Op :=
  let a0 := w.args[0]?
  let a1 := w.args[1]?
  let a2 := w.args[2]?
  let shape := Shape.new w.shape
  let dtype := Dtype.fromWire w.dtype
  let rngKind := RngKind.fromU8 w.kind
  match w.tag with
  | 0x01 => return .exp (← a0)
  | 0x02 => return .log (← a0)
  | 0x03 => return .neg (← a0)
  | 0x04 => return .recip (← a0)
  | 0x08 => return .sin (← a0)
  | 0x09 => return .cos (← a0)
  | 0x0A => return .sqrt (← a0)
  | 0x0B => return .rsqrt (← a0)
  | 0x05 => return .abs (← a0)
  | 0x06 => return .sign (← a0)
  | 0x07 => return .cast (← a0) (← dtype)
  | 0x10 => return .add (← a0) (← a1)
  | 0x11 => return .sub (← a0) (← a1)
  | 0x12 => return .mul (← a0) (← a1)
  | 0x13 => return .div (← a0) (← a1)
  | 0x14 => return .maxElem (← a0) (← a1)
  | 0x15 => return .minElem (← a0) (← a1)
  | 0x16 => return .gt (← a0) (← a1)
  | 0x17 => return .ge (← a0) (← a1)
  | 0x18 => return .eq (← a0) (← a1)
  | 0x19 => return .ne (← a0) (← a1)
  | 0x1A => return .lt (← a0) (← a1)
  | 0x1B => return .le (← a0) (← a1)
  | 0x1C => return .and (← a0) (← a1)
  | 0x1D => return .or (← a0) (← a1)
  | 0x1E => return .not (← a0)
  | 0x1F => return .rem (← a0) (← a1)
  | 0x20 => return .select (← a0) (← a1) (← a2)
  | 0x30 => return .reduceSum (← a0)
  | 0x31 => return .reduceMax (← a0)
  | 0x32 => return .reduceMin (← a0)
  | 0x33 => return .reduceArgmax (← a0)
  | 0x38 => return .broadcast (← a0) (← shape)
  | 0x39 => return .reshape (← a0) (← shape)
  | 0x3A => return .transpose (← a0)
  | 0x40 => return .cumSum (← a0)
  | 0x41 => return .cumProd (← a0)
  | 0x50 => return .sortDesc (← a0)
  | 0x51 => return .topK (← a0) w.imm
  | 0x55 => return .matMul (← a0) (← a1)
  | 0x58 => return .pivotThreshold (← a0) (← w.predicate)
  | 0x60 => return .gather (← a0) (← a1)
  | 0x61 => return .gatherRow (← a0) (← a1)
  | 0x62 => return .scatterAdd (← a0) (← a1) (← a2)
  | 0x63 => return .scatterSet (← a0) (← a1) (← a2)
  | 0x64 => return .iota w.imm
  | 0x65 => return .maskApply (← a0) (← a1)
  | 0x66 => return .causalMask (← a0) w.imm
  | 0x67 => return .slidingWindowMask (← a0) w.imm w.imm2
  | 0x68 => return .sinkWindowMask (← a0) w.imm w.imm2 w.imm3
  | 0x70 => return .rng w.imm (← shape) (← rngKind)
  | 0x71 => return .rngKeyed (← a0) (← shape) (← rngKind)
  | 0x81 => return .const (← w.literal)
  | 0x90 => return .chanTake (← w.channel)
  | 0x91 => return .chanRead (← w.channel)
  | 0x92 => return .chanPut (← w.channel) (← a0)
  | 0xA0 => return .intrinsicVal (← IntrinsicId.fromU16 w.intr) (← shape) (← dtype)
  | 0xA1 => return .kernelCall w.nameIdx w.args (← shape) (← dtype)
  | 0xA2 => return .sinkCall w.nameIdx w.args
  | _ => none

end OpWire

end Pie.Eta
