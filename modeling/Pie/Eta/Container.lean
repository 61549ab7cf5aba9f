import Pie.Eta.Wire
import Pie.Eta.Registry
import Pie.Lib.Reading
import Pie.Lib.Text

/-!
# Containers

A trace as it is written and read. `encode` gives nothing where the code
panics: a table longer than its length field, or an element type that has no
tag. `decode` reads the tables one after the other, and takes nothing that it
would have written otherwise.

Names follow `container.rs`. A byte is a number until it is written.
-/

namespace Pie.Eta

open Lib Lib.Utf8

inductive ChanDType where
  | concrete (dtype : Dtype)
  | act
deriving DecidableEq, Repr

def DT_ACT : Nat := 4

namespace ChanDType

def tag : ChanDType → Option Nat
  | concrete d => d.toWire
  | act => some DT_ACT

def fromTag (t : Nat) : Option ChanDType :=
  if t = DT_ACT then some act else (Dtype.fromWire t).map concrete

def programDtype : ChanDType → Dtype
  | concrete d => d
  | act => .f32

end ChanDType

inductive HostRole where
  | none
  | writer
  | reader
deriving DecidableEq, Repr

def HostRole.toU8 : HostRole → Nat
  | none => 0
  | writer => 1
  | reader => 2

def HostRole.fromU8 : Nat → Option HostRole
  | 0 => some none
  | 1 => some writer
  | 2 => some reader
  | _ => .none

structure ChannelDecl where
  shape : Shape
  dtype : ChanDType
  capacity : BitVec 32
  hostRole : HostRole
  seeded : Bool
deriving DecidableEq

inductive PortSource where
  | channel (chan : ChannelIndex)
  | const (dtype : Dtype) (shape : Shape) (data : List UInt8)
deriving DecidableEq

structure PortBinding where
  port : Port
  source : PortSource
deriving DecidableEq

inductive ExternDir where
  | import_
  | export_
deriving DecidableEq, Repr

def ExternDir.toU8 : ExternDir → Nat
  | import_ => 0
  | export_ => 1

def ExternDir.fromU8 : Nat → Option ExternDir
  | 0 => some import_
  | 1 => some export_
  | _ => none

structure ExternDecl where
  name : NameIndex
  dir : ExternDir
  chan : ChannelIndex
deriving DecidableEq

structure StageProgram where
  stage : Stage
  ops : List Op
deriving DecidableEq

structure TraceContainer where
  names : List Str
  channels : List ChannelDecl
  ports : List PortBinding
  stages : List StageProgram
  externs : List ExternDecl
deriving DecidableEq

/-- `ETA_MAGIC`. -/
def ETA_MAGIC : List UInt8 := [0x45, 0x54, 0x41, 0]

def ETA_VERSION : Nat := 1

def ETA_VERSION_EXTERN : Nat := 2

/-! ## Writing -/

def putU8 (w : List UInt8) (v : Nat) : List UInt8 := w ++ toLe 1 v

def putU16 (w : List UInt8) (v : Nat) : List UInt8 := w ++ toLe 2 v

def putU32 (w : List UInt8) (v : BitVec 32) : List UInt8 := w ++ toLe 4 v.toNat

/-- A length as it fits its field of some bytes; another is a panic. -/
def wireLen (bytes len : Nat) : Option Nat := if len < 256 ^ bytes then some len else none

/-- A length as a field of the header. -/
def putLen (w : List UInt8) (len : Nat) : Option (List UInt8) := do
  let len ← wireLen 4 len
  some (w ++ toLe 4 len)

def encodeShape (w : List UInt8) (shape : Shape) : Option (List UInt8) := do
  let rank ← wireLen 1 shape.rank
  some (shape.dims.foldl putU32 (putU8 w rank))

/-- What is written of an operation, and how many of its values and immediates. -/
structure Writing where
  bytes : List UInt8
  value : Nat
  imm : Nat

def encodeField (wire : OpWire) (st : Writing) : WireField → Option Writing
  | .value => do
    let arg ← wire.args[st.value]?
    some { st with bytes := putU32 st.bytes arg, value := st.value + 1 }
  | .chan => do
    let chan ← wire.channel
    some { st with bytes := putU32 st.bytes chan }
  | .imm => do
    let imm ← [wire.imm, wire.imm2, wire.imm3][st.imm]?
    some { st with bytes := putU32 st.bytes imm, imm := st.imm + 1 }
  | .dtype => some { st with bytes := putU8 st.bytes wire.dtype }
  | .shape => do
    let rank ← wireLen 1 wire.shape.length
    some { st with bytes := wire.shape.foldl putU32 (putU8 st.bytes rank) }
  | .rngKind => some { st with bytes := putU8 st.bytes wire.kind }
  | .predicate => some { st with bytes := putU32 (putU8 st.bytes wire.predTag) wire.predPayload }
  | .literal => some { st with bytes := putU32 (putU8 st.bytes wire.litDtype) wire.litBits }
  | .name => some { st with bytes := putU16 st.bytes wire.nameIdx.toNat }
  | .intrinsic => some { st with bytes := putU16 st.bytes wire.intr }
  | .args => do
    if wire.args.length < st.value then none
    let rest := wire.args.drop st.value
    let count ← wireLen 1 rest.length
    some { st with bytes := rest.foldl putU32 (putU8 st.bytes count) }

def encodeOp (w : List UInt8) (op : Op) : Option (List UInt8) := do
  let wire ← OpWire.of op
  let row ← spec wire.tag
  let st ← row.wire.foldlM (encodeField wire) ⟨putU8 w wire.tag, 0, 0⟩
  some st.bytes

def encodeName (w : List UInt8) (n : Str) : Option (List UInt8) := do
  let len ← wireLen 2 n.bytes.length
  some (putU16 w len ++ n.bytes)

def encodeChannel (w : List UInt8) (ch : ChannelDecl) : Option (List UInt8) := do
  let tag ← match ch.dtype.tag with
    | some tag => some tag
    | none => OpWire.wireDtype ch.dtype.programDtype
  let w ← encodeShape (putU8 w tag) ch.shape
  some (putU8 (putU8 (putU32 w ch.capacity) ch.hostRole.toU8) ch.seeded.toNat)

def encodePort (w : List UInt8) (p : PortBinding) : Option (List UInt8) :=
  let w := putU8 w p.port.toU8
  match p.source with
  | .channel chan => some (putU32 (putU8 w 0) chan)
  | .const dtype shape data => do
    let tag ← OpWire.wireDtype dtype
    let w ← encodeShape (putU8 (putU8 w 1) tag) shape
    some (w ++ data)

def encodeStage (w : List UInt8) (s : StageProgram) : Option (List UInt8) := do
  let w ← putLen (putU8 w s.stage.toU8) s.ops.length
  s.ops.foldlM encodeOp w

def encodeExtern (w : List UInt8) (e : ExternDecl) : List UInt8 :=
  putU32 (putU8 (putU16 w e.name.toNat) e.dir.toU8) e.chan

def encodeHeader (c : TraceContainer) : Option (List UInt8) := do
  let v2 := !c.externs.isEmpty
  let w := putU16 (putU16 ETA_MAGIC (if v2 then ETA_VERSION_EXTERN else ETA_VERSION)) 0
  let w ← putLen w c.names.length
  let w ← putLen w c.channels.length
  let w ← putLen w c.ports.length
  let w ← putLen w c.stages.length
  if v2 then putLen w c.externs.length else some w

def encode (c : TraceContainer) : Option (List UInt8) := do
  let w ← encodeHeader c
  let w ← c.names.foldlM encodeName w
  let w ← c.channels.foldlM encodeChannel w
  let w ← c.ports.foldlM encodePort w
  let w ← c.stages.foldlM encodeStage w
  some (c.externs.foldl encodeExtern w)

/-! ## Reading -/

inductive ContainerDecodeError where
  | badMagic
  | unsupportedVersion (version : Nat)
  | unexpectedEof
  | unknownOpcode (tag : Nat)
  | unknownTag (what : String) (tag : Nat)
  | rankTooLarge (rank : Nat)
  | zeroDimension
  | badUtf8
  | trailingBytes
  | nonCanonical
  | countTooLarge (table : String)
deriving DecidableEq, Repr

abbrev Decode := Read ContainerDecodeError

def MAX_STAGES : Nat := Stage.ALL.length

def MAX_OPS : Nat := 2 ^ 16

def MAX_CHANNELS : Nat := 2 ^ 12

def MAX_NAMES : Nat := 2 ^ 12

def MAX_PORTS : Nat := 2 ^ 8

def MAX_EXTERNS : Nat := MAX_CHANNELS

namespace Decode

def u8 : Decode Nat := Read.number .unexpectedEof 1

def u16 : Decode Nat := Read.number .unexpectedEof 2

def u32 : Decode (BitVec 32) := BitVec.ofNat 32 <$> Read.number .unexpectedEof 4

/-- The records of a table, once the string is known to be long enough for them. -/
def table {α : Type} (name : String) (minimum maximum count : Nat) (item : Decode α) : Decode (List α) := do
  Read.boundedCount (.countTooLarge name) count minimum maximum
  Read.replicate item count

def dtype (t : Nat) : Decode Dtype := Read.expect (.unknownTag "dtype" t) (Dtype.fromWire t)

def rngKind (t : Nat) : Decode RngKind := Read.expect (.unknownTag "rng kind" t) (RngKind.fromU8 t)

def shape : Decode Shape := do
  let rank ← u8
  if MAX_RANK < rank then Read.fail (.rankTooLarge rank)
  else
    let dims ← Read.replicate u32 rank
    Read.expect .zeroDimension (Shape.new dims)

/-- The immediate at its place in the record. -/
def setImm (wire : OpWire) (imm : Nat) (value : BitVec 32) : OpWire :=
  match imm with
  | 0 => { wire with imm := value }
  | 1 => { wire with imm2 := value }
  | _ => { wire with imm3 := value }

def field (st : OpWire × Nat) : WireField → Decode (OpWire × Nat)
  | .value => do
    let value ← u32
    pure ({ st.1 with args := st.1.args ++ [value] }, st.2)
  | .chan => do
    let chan ← u32
    pure ({ st.1 with chan := chan.toNat }, st.2)
  | .imm => do
    let value ← u32
    pure (setImm st.1 st.2 value, st.2 + 1)
  | .dtype => do
    let byte ← u8
    let _ ← dtype byte
    pure ({ st.1 with dtype := byte }, st.2)
  | .shape => do
    let s ← shape
    pure ({ st.1 with shape := s.dims }, st.2)
  | .rngKind => do
    let byte ← u8
    let kind ← rngKind byte
    pure ({ st.1 with kind := kind.toU8 }, st.2)
  | .predicate => do
    let pred ← u8
    if 2 < pred then Read.fail (.unknownTag "predicate" pred)
    else
      let payload ← u32
      pure ({ st.1 with predTag := pred, predPayload := payload }, st.2)
  | .literal => do
    let dtype ← u8
    let bits ← u32
    let _ ← Read.expect (.unknownTag "literal dtype" dtype) (Dtype.fromWire dtype)
    pure ({ st.1 with litBits := bits, litDtype := dtype }, st.2)
  | .name => do
    let name ← u16
    pure ({ st.1 with nameIdx := BitVec.ofNat 16 name }, st.2)
  | .intrinsic => do
    let intr ← u16
    let _ ← Read.expect (.unknownTag "intrinsic (low byte)" (intr % 256)) (IntrinsicId.fromU16 intr)
    pure ({ st.1 with intr }, st.2)
  | .args => do
    let count ← u8
    let args ← Read.replicate u32 count
    pure ({ st.1 with args := st.1.args ++ args }, st.2)

def op : Decode Op := do
  let tag ← u8
  let row ← Read.expect (.unknownOpcode tag) (spec tag)
  let st ← row.wire.foldlM field ({ tag, chan := -1 }, 0)
  Read.expect (.unknownOpcode tag) st.1.toOp

/-- `String::from_utf8`. -/
def text (bytes : List UInt8) : Decode Str :=
  if h : Valid bytes then pure ⟨bytes, h⟩ else Read.fail .badUtf8

def name : Decode Str := do
  let len ← u16
  let bytes ← Read.take .unexpectedEof len
  text bytes

def channel : Decode ChannelDecl := do
  let dt ← u8
  let dtype ← Read.expect (.unknownTag "channel dtype" dt) (ChanDType.fromTag dt)
  let shape ← shape
  let capacity ← u32
  let hr ← u8
  let hostRole ← Read.expect (.unknownTag "host role" hr) (HostRole.fromU8 hr)
  let seeded ← u8
  pure { shape, dtype, capacity, hostRole, seeded := seeded != 0 }

/-- The bytes of a constant, whose number fits a word. -/
def constant (dtype : Dtype) (shape : Shape) : Decode PortSource :=
  if shape.numel * dtype.bytesCeil < 2 ^ 64 then do
    let data ← Read.take .unexpectedEof (shape.numel * dtype.bytesCeil)
    pure (.const dtype shape data)
  else Read.fail (.countTooLarge "port constant payload")

def source (tag : Nat) : Decode PortSource :=
  match tag with
  | 0 => .channel <$> u32
  | 1 => do
    let dt ← u8
    let dtype ← dtype dt
    let shape ← shape
    constant dtype shape
  | t => Read.fail (.unknownTag "port source" t)

def port : Decode PortBinding := do
  let pt ← u8
  let port ← Read.expect (.unknownTag "port" pt) (Port.fromU8 pt)
  let src ← u8
  let source ← source src
  pure { port, source }

def stage : Decode StageProgram := do
  let st ← u8
  let stage ← Read.expect (.unknownTag "stage" st) (Stage.fromU8 st)
  let n ← u32
  let ops ← table "operation table" 1 MAX_OPS n.toNat op
  pure { stage, ops }

def extern_ : Decode ExternDecl := do
  let name ← u16
  let d ← u8
  let dir ← Read.expect (.unknownTag "extern dir" d) (ExternDir.fromU8 d)
  let chan ← u32
  pure { name := BitVec.ofNat 16 name, dir, chan }

/-- The version, and the flags after it, which are not looked at. -/
def version : Decode Nat := do
  let magic ← Read.take .unexpectedEof 4
  if magic ≠ ETA_MAGIC then Read.fail .badMagic
  else
    let version ← u16
    if version ≠ ETA_VERSION ∧ version ≠ ETA_VERSION_EXTERN then
      Read.fail (.unsupportedVersion version)
    else
      let _ ← u16
      pure version

/-- The number of externs, which only the later version states. -/
def externCount (version : Nat) : Decode (BitVec 32) :=
  if version = ETA_VERSION_EXTERN then u32 else pure 0

/-- The tables, without what is checked once they are read. -/
def container : Decode TraceContainer := do
  let version ← version
  let names ← u32
  let channels ← u32
  let ports ← u32
  let stages ← u32
  let externs ← externCount version
  let names ← table "name table" 2 MAX_NAMES names.toNat name
  let channels ← table "channel table" 8 MAX_CHANNELS channels.toNat channel
  let ports ← table "port table" 4 MAX_PORTS ports.toNat port
  let stages ← table "stage table" 5 MAX_STAGES stages.toNat stage
  let externs ← table "extern table" 7 MAX_EXTERNS externs.toNat extern_
  pure { names, channels, ports, stages, externs }

end Decode

/-- The whole string has to be read, and has to be what `encode` makes of the result. -/
def finish (bytes : List UInt8) (read : TraceContainer × Reader) :
    Except (Stop ContainerDecodeError) TraceContainer :=
  if read.2.offset ≠ bytes.length then .error (.error .trailingBytes)
  else
    match encode read.1 with
    | none => .error .panic
    | some back => if back ≠ bytes then .error (.error .nonCanonical) else .ok read.1

def decode (bytes : List UInt8) : Except (Stop ContainerDecodeError) TraceContainer :=
  Decode.container (Reader.new bytes) >>= finish bytes

end Pie.Eta
