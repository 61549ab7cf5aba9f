import Pie.Lib.Binary
import Pie.Lib.Reading
import Pie.Lib.Text

/-!
# CBOR

The one spelling of a value, and the reader that takes no other. Names follow
`cbor.rs`. Nesting is counted down: `left` is what remains of the limit, one
more than the depth may still grow.
-/

namespace Pie.Ztensor

open Lib Lib.Utf8 Lib.Binary

namespace Cbor

def MAX_DEPTH : Nat := 32

inductive Value where
  | uint (n : BitVec 64)
  | nint (n : BitVec 64)
  | bytes (b : List UInt8)
  | text (s : Str)
  | array (items : List Value)
  | map (entries : List (Value × Value))
  | bool (b : Bool)
  | null
  | float (x : B64)

inductive Rule where
  | cborSyntax
  | cborDeterminism
  | cborDepth
  | cborDuplicateKey
deriving DecidableEq, Repr

inductive Error where
  | invalidInput (message : String)
  | reject (rule : Rule) (message : String)
deriving DecidableEq, Repr

def f32ToF16Bits (x : B32) : BitVec 16 :=
  let sign : BitVec 16 := ((x >>> 16) &&& 0x8000#32).setWidth 16
  let exp : Nat := ((x >>> 23) &&& 0xFF#32).toNat
  let man : BitVec 32 := x &&& 0x007FFFFF#32
  if exp = 0xFF then sign ||| 0x7C00#16 ||| (if man ≠ 0 then 0x0200#16 else 0)
  else
    let e : Int := exp - 127 + 15
    if 0x1F ≤ e then sign ||| 0x7C00#16
    else if e ≤ 0 then
      if e < -10 then sign
      else sign ||| ((man ||| 0x00800000#32) >>> (14 - e).toNat).setWidth 16
    else sign ||| (BitVec.ofInt 16 e <<< 10) ||| (man >>> 13).setWidth 16

/-- The loop that finds the leading bit of a subnormal: ten places at most. -/
def leadingBit : Nat → Int → BitVec 32 → Int × BitVec 32
  | 0, e, m => (e, m)
  | fuel + 1, e, m => if m &&& 0x400#32 = 0 then leadingBit fuel (e - 1) (m <<< 1) else (e, m)

def f16BitsToF32 (h : BitVec 16) : B32 :=
  let sign : BitVec 32 := (h &&& 0x8000#16).setWidth 32 <<< 16
  let exp : Nat := ((h >>> 10) &&& 0x1F#16).toNat
  let man : BitVec 32 := (h &&& 0x03FF#16).setWidth 32
  if exp = 0 then
    if man = 0 then sign
    else
      let st := leadingBit 10 (127 - 15 + 1) man
      sign ||| (BitVec.ofInt 32 st.1 <<< 23) ||| ((st.2 &&& 0x3FF#32) <<< 13)
  else if exp = 0x1F then sign ||| 0x7F800000#32 ||| (man <<< 13)
  else sign ||| (BitVec.ofNat 32 (exp + 127 - 15) <<< 23) ||| (man <<< 13)

/-! ## Writing -/

/-- The bytes of a number, the high one first. -/
def toBe (n x : Nat) : List UInt8 := (toLe n x).reverse

def ofBe (bs : List UInt8) : Nat := ofLe bs.reverse

/-- The first byte: the major type and five bits more. -/
def first (major ai : Nat) : UInt8 := UInt8.ofNat (major * 32 + ai)

/-- `head`: the shortest spelling of an argument. -/
def head (major arg : Nat) : List UInt8 :=
  if arg < 24 then [first major arg]
  else if arg ≤ 0xFF then first major 24 :: toBe 1 arg
  else if arg ≤ 0xFFFF then first major 25 :: toBe 2 arg
  else if arg ≤ 0xFFFFFFFF then first major 26 :: toBe 4 arg
  else first major 27 :: toBe 8 arg

def encodeFloat (x : B64) : List UInt8 :=
  if B64.isNan x then 0xF9 :: toBe 2 0x7E00
  else
    let as32 := narrow x
    if B64.feq (widen as32) x then
      let h := f32ToF16Bits as32
      if B32.feq (f16BitsToF32 h) as32 then 0xF9 :: toBe 2 h.toNat
      else 0xFA :: toBe 4 as32.toNat
    else 0xFB :: toBe 8 x.toNat

abbrev Encode (α : Type) := Except (Stop Error) α

/-- The keys of a map in the order of their bytes, the values beside them. -/
def sortKeys (enc : List (List UInt8 × List UInt8)) : List (List UInt8 × List UInt8) :=
  enc.mergeSort (fun a b => decide (a.1 ≤ b.1))

/-- `windows(2)`: no key is the next one. -/
def noDuplicate : List (List UInt8 × List UInt8) → Encode Unit
  | a :: b :: rest =>
    if a.1 = b.1 then .error (.error (.invalidInput "duplicate map key")) else noDuplicate (b :: rest)
  | _ => .ok ()

/-- `encode_into`. -/
def encodeInto : Nat → Value → Encode (List UInt8)
  | 0, _ => .error (.error (.invalidInput "CBOR nesting exceeds 32"))
  | left + 1, v =>
    match v with
    | .uint n => .ok (head 0 n.toNat)
    | .nint n => .ok (head 1 n.toNat)
    | .bytes b => .ok (head 2 b.length ++ b)
    | .text s => .ok (head 3 s.bytes.length ++ s.bytes)
    | .array items => do
      let enc ← items.mapM (encodeInto left)
      .ok (head 4 items.length ++ enc.flatten)
    | .map entries => do
      let enc ← entries.mapM (fun e => do
        let k ← encodeInto left e.1
        let v ← encodeInto left e.2
        .ok (k, v))
      let sorted := sortKeys enc
      noDuplicate sorted
      .ok (head 5 sorted.length ++ sorted.flatMap (fun e => e.1 ++ e.2))
    | .bool b => .ok [if b then 0xF5 else 0xF4]
    | .null => .ok [0xF6]
    | .float x => .ok (encodeFloat x)

/-- `isize::MAX`: a `Vec` grows no longer. -/
def ISIZE_MAX : Nat := 2 ^ 63 - 1

def encode (v : Value) : Encode (List UInt8) := do
  let out ← encodeInto (MAX_DEPTH + 1) v
  if out.length ≤ ISIZE_MAX then .ok out else .error .panic

/-! ## Reading -/

abbrev Decode := Read Error

namespace Decode

def reject {α : Type} (rule : Rule) (message : String) : Decode α := Read.fail (.reject rule message)

def eof : Error := .reject .cborSyntax "unexpected end of input"

def byte : Decode UInt8 := do
  let bs ← Read.take eof 1
  match bs with
  | [b] => pure b
  | _ => Read.panic

/-- `from_be_bytes` of the next bytes. -/
def number (size : Nat) : Decode Nat := do
  let bs ← Read.take eof size
  if bs.length = size then pure (ofBe bs) else Read.panic

/-- An argument that a shorter head could not hold. -/
def longHead (size least : Nat) : Decode Nat := do
  let v ← number size
  if v < least then reject .cborDeterminism "non-shortest head" else pure v

def headArg (ai : Nat) : Decode Nat :=
  if ai ≤ 23 then pure ai
  else if ai = 24 then longHead 1 24
  else if ai = 25 then longHead 2 0x100
  else if ai = 26 then longHead 4 0x10000
  else if ai = 27 then longHead 8 0x100000000
  else reject .cborSyntax "indefinite length or reserved head"

def half (h : BitVec 16) : Decode Value :=
  let x := f16BitsToF32 h
  if B32.isNan x ∧ h ≠ 0x7E00#16 then reject .cborDeterminism "non-canonical NaN" else pure (.float (widen x))

def single (x : B32) : Decode Value :=
  if B32.isNan x then reject .cborDeterminism "non-canonical NaN"
  else if B32.feq (f16BitsToF32 (f32ToF16Bits x)) x then reject .cborDeterminism "float not shortest"
  else pure (.float (widen x))

def double (x : B64) : Decode Value :=
  if B64.isNan x then reject .cborDeterminism "non-canonical NaN"
  else if B64.feq (widen (narrow x)) x then reject .cborDeterminism "float not shortest"
  else pure (.float x)

/-- Major type 7. -/
def simple (ai : Nat) : Decode Value :=
  if ai = 20 then pure (.bool false)
  else if ai = 21 then pure (.bool true)
  else if ai = 22 then pure .null
  else if ai = 25 then do
    let h ← number 2
    half (BitVec.ofNat 16 h)
  else if ai = 26 then do
    let b ← number 4
    single (BitVec.ofNat 32 b)
  else if ai = 27 then do
    let b ← number 8
    double (BitVec.ofNat 64 b)
  else reject .cborSyntax "unsupported simple value"

/-- `checked_len`: no more than the rest of the input can hold. -/
def checkedLen (arg minBytes : Nat) : Decode Nat := fun r =>
  if r.remaining / minBytes < arg then .error (.error (.reject .cborSyntax "declared length exceeds input"))
  else .ok (arg, r)

/-- `self.pos`. -/
def pos : Decode Nat := fun r => .ok (r.offset, r)

/-- `&self.input[s..e]`. -/
def slice (s e : Nat) : Decode (List UInt8) := fun r =>
  if s ≤ e ∧ e ≤ r.bytes.length then .ok ((r.bytes.drop s).take (e - s), r) else .error .panic

/-- The key comes after the one before it. -/
def keyOrder (prev : Option (Nat × Nat)) (ks ke : Nat) : Decode Unit :=
  match prev with
  | none => pure ()
  | some (ps, pe) => do
    let a ← slice ps pe
    let b ← slice ks ke
    if a < b then pure ()
    else if a = b then reject .cborDuplicateKey "duplicate map key"
    else reject .cborDeterminism "map keys not in canonical order"

/-- The loop over the entries of a map. -/
def entries (item : Decode Value) : Nat → Option (Nat × Nat) → Decode (List (Value × Value))
  | 0, _ => pure []
  | n + 1, prev => do
    let ks ← pos
    let key ← item
    let ke ← pos
    keyOrder prev ks ke
    let val ← item
    let rest ← entries item n (some (ks, ke))
    pure ((key, val) :: rest)

/-- The values with an argument, by their major type. -/
def argued (item : Decode Value) (major arg : Nat) : Decode Value :=
  match major with
  | 0 => pure (.uint (BitVec.ofNat 64 arg))
  | 1 => pure (.nint (BitVec.ofNat 64 arg))
  | 2 => do
    let n ← checkedLen arg 1
    let b ← Read.take eof n
    pure (.bytes b)
  | 3 => do
    let n ← checkedLen arg 1
    let b ← Read.take eof n
    if h : Valid b then pure (.text ⟨b, h⟩) else reject .cborSyntax "invalid UTF-8 in text"
  | 4 => do
    let n ← checkedLen arg 1
    let items ← Read.replicate item n
    pure (.array items)
  | 5 => do
    let n ← checkedLen arg 2
    let es ← entries item n none
    pure (.map es)
  | _ => Read.panic

/-- `Decoder::value`. -/
def value : Nat → Decode Value
  | 0 => reject .cborDepth "nesting too deep"
  | left + 1 => do
    let b ← byte
    let major := b.toNat / 32
    let ai := b.toNat % 32
    if major = 7 then simple ai
    else if major = 6 then reject .cborSyntax "tags are not permitted"
    else do
      let arg ← headArg ai
      argued (value left) major arg

end Decode

def finish (v : Value) : Decode Value := fun r =>
  if r.offset ≠ r.bytes.length then .error (.error (.reject .cborSyntax "trailing bytes")) else .ok (v, r)

def decode (input : List UInt8) : Except (Stop Error) Value :=
  match (Decode.value (MAX_DEPTH + 1) >>= finish) (Reader.new input) with
  | .ok (v, _) => .ok v
  | .error stop => .error stop

end Cbor

end Pie.Ztensor
