import Pie.Eta.Types
import Pie.Lib.Reading

/-!
# Values and arithmetic

What an operation is evaluated on: lanes of one element type. Where the code
indexes a slice out of bounds, unwraps nothing or has no arm, the evaluation
panics.

Names follow `interp.rs`, `numeric.rs` and `rng.rs`. The operations of `f32`
are a parameter; only what the code reads off the bits is said here.
-/

namespace Pie.Eta

open Lib

/-- The bits of an `f32`. -/
abbrev F32 := BitVec 32

/-- The operations of `f32`, its conversions among them. -/
structure F32Ops where
  exp : F32 → F32
  ln : F32 → F32
  sin : F32 → F32
  cos : F32 → F32
  sqrt : F32 → F32
  abs : F32 → F32
  neg : F32 → F32
  add : F32 → F32 → F32
  sub : F32 → F32 → F32
  mul : F32 → F32 → F32
  div : F32 → F32 → F32
  rem : F32 → F32 → F32
  max : F32 → F32 → F32
  min : F32 → F32 → F32
  lt : F32 → F32 → Bool
  le : F32 → F32 → Bool
  eq : F32 → F32 → Bool
  ofInt : Int → F32
  toI32 : F32 → BitVec 32
  toU32 : F32 → BitVec 32
  toI64 : F32 → BitVec 64

namespace F32

def zero : F32 := 0

def one : F32 := 0x3F800000#32

def negOne : F32 := 0xBF800000#32

def negZero : F32 := 0x80000000#32

def infinity : F32 := 0x7F800000#32

def negInfinity : F32 := 0xFF800000#32

def isNan (x : F32) : Bool := decide (0x7F800000 < (x &&& 0x7FFFFFFF#32).toNat)

def isSignNegative (x : F32) : Bool := x.msb

end F32

/-! ## Values -/

inductive Value where
  | f32 (lanes : List F32)
  | i32 (lanes : List (BitVec 32))
  | u32 (lanes : List (BitVec 32))
  | bool (lanes : List Bool)
deriving DecidableEq

namespace Value

def len : Value → Nat
  | f32 x => x.length
  | i32 x => x.length
  | u32 x => x.length
  | bool x => x.length

def dtype : Value → Dtype
  | f32 _ => .f32
  | i32 _ => .i32
  | u32 _ => .u32
  | bool _ => .bool

end Value

/-- `value_matches`: a scalar has one lane. -/
def valueMatches (v : Value) (ty : ValueType) : Bool :=
  v.dtype == ty.dtype && v.len == Nat.max ty.shape.numel 1

/-! ## Errors -/

/-- What a fault says: a fixed text, or one that names an intrinsic or a channel. -/
inductive Fault where
  | text (message : String)
  | intrinsicType (name : String)
  | overflow (chan capacity : Nat)
deriving DecidableEq, Repr

inductive StepError where
  | poisoned
  | kernelFault (name : List UInt8) (message : String)
  | missingIntrinsic (name : String)
  | fault (message : Fault)
deriving DecidableEq, Repr

abbrev Eval (α : Type) := Except (Stop StepError) α

namespace Eval

def panic {α : Type} : Eval α := .error .panic

def fault {α : Type} (message : String) : Eval α := .error (.error (.fault (.text message)))

/-- `xs[i]`. -/
def index {α : Type} (xs : List α) (i : Nat) : Eval α :=
  match xs[i]? with
  | some x => .ok x
  | none => panic

/-- `xs[i] = x`. -/
def store {α : Type} (xs : List α) (i : Nat) (x : α) : Eval (List α) :=
  if i < xs.length then .ok (xs.set i x) else panic

end Eval

/-! ## Lanes -/

variable (F : F32Ops)

def lanesF32 : Value → List F32
  | .f32 x => x
  | .i32 x => x.map (fun a => F.ofInt a.toInt)
  | .u32 x => x.map (fun a => F.ofInt a.toNat)
  | .bool x => x.map (fun b => if b then F32.one else F32.zero)

def lanesI64 : Value → List (BitVec 64)
  | .f32 x => x.map F.toI64
  | .i32 x => x.map (BitVec.signExtend 64)
  | .u32 x => x.map (BitVec.setWidth 64)
  | .bool x => x.map (fun b => if b then 1 else 0)

/-- `from_i64`: the interpreter has lanes of four types. -/
def fromI64 (dtype : Dtype) (x : List (BitVec 64)) : Eval Value :=
  match dtype with
  | .i32 => .ok (.i32 (x.map (BitVec.setWidth 32)))
  | .u32 => .ok (.u32 (x.map (BitVec.setWidth 32)))
  | .f32 => .ok (.f32 (x.map (fun a => F.ofInt a.toInt)))
  | .bool => .ok (.bool (x.map (fun a => a != 0)))
  | _ => .error .panic

def pick (len i : Nat) : Nat := if len = 1 then 0 else i

/-- Lanes paired over the longer list, one lane repeated. -/
def zipLanes {α β γ : Type} (f : α → β → γ) (x : List α) (y : List β) : Eval (List γ) :=
  (List.range (Nat.max x.length y.length)).mapM (fun i => do
    let a ← Eval.index x (pick x.length i)
    let b ← Eval.index y (pick y.length i)
    .ok (f a b))

def binArith (a b : Value) (dtype : Dtype) (ff : F32 → F32 → F32)
    (fi : BitVec 64 → BitVec 64 → BitVec 64) : Eval Value :=
  if dtype = .f32 then do
    let out ← zipLanes ff (lanesF32 F a) (lanesF32 F b)
    .ok (.f32 out)
  else do
    let out ← zipLanes fi (lanesI64 F a) (lanesI64 F b)
    fromI64 F dtype out

def cmpOp (a b : Value) (dtype : Dtype) (ff : F32 → F32 → Bool)
    (fi : BitVec 64 → BitVec 64 → Bool) : Eval Value :=
  if dtype = .f32 then do
    let out ← zipLanes ff (lanesF32 F a) (lanesF32 F b)
    .ok (.bool out)
  else do
    let out ← zipLanes fi (lanesI64 F a) (lanesI64 F b)
    .ok (.bool out)

def mapF32 (v : Value) (f : F32 → F32) : Value := .f32 ((lanesF32 F v).map f)

/-! ## Rows -/

/-- The rows of some lanes, as many as there are. -/
def rowSlices {α : Type} (x : List α) (rows : Nat) : List (List α) :=
  (List.range rows).map (fun r => (x.drop (r * (x.length / rows))).take (x.length / rows))

/-- One step of the tree: the first lanes take in those that are `offset` away. -/
def foldLanes {α : Type} (combine : α → α → α) (lanes : List α) (offset : Nat) : List α :=
  List.zipWith combine (lanes.take offset) (lanes.drop offset) ++ lanes.drop offset

def reduceChunk {α : Type} (identity : α) (combine : α → α → α) (chunk : List α) : α :=
  ([16, 8, 4, 2, 1].foldl (foldLanes combine)
    (chunk ++ List.replicate (32 - chunk.length) identity)).headD identity

/-- `chunks(32)`. -/
def chunks32 {α : Type} : Nat → List α → List (List α)
  | 0, _ => []
  | _, [] => []
  | fuel + 1, x :: xs => (x :: xs).take 32 :: chunks32 fuel ((x :: xs).drop 32)

def reduceLevels {α : Type} (identity : α) (combine : α → α → α) : Nat → List α → α
  | 0, level => level.headD identity
  | fuel + 1, level =>
    if 1 < level.length then
      reduceLevels identity combine fuel
        ((chunks32 level.length level).map (reduceChunk identity combine))
    else level.headD identity

/-- `canonical_reduce`: chunks of 32 lanes, until one is left. -/
def canonicalReduce {α : Type} (row : List α) (identity : α) (combine : α → α → α) : α :=
  reduceLevels identity combine row.length row

structure ArgmaxCandidate where
  value : F32
  index : Nat
  have_ : Bool

def combineArgmax (left right : ArgmaxCandidate) : ArgmaxCandidate :=
  match left.have_, right.have_ with
  | false, false => left
  | true, false => left
  | false, true => right
  | true, true =>
    if F.lt left.value right.value || (F.eq right.value left.value && decide (right.index < left.index)) then
      right
    else left

def argmaxRow (row : List F32) : BitVec 32 :=
  BitVec.ofNat 32 (canonicalReduce (row.zipIdx.map (fun p => ⟨p.1, p.2 % 2 ^ 32, !F32.isNan p.1⟩))
    ⟨F32.negInfinity, 0, false⟩ (combineArgmax F)).index

/-- The first of the largest. -/
def argmaxOrdered {α : Type} (lt : α → α → Bool) (row : List α) : BitVec 32 :=
  match row with
  | [] => 0
  | first :: rest =>
    BitVec.ofNat 32 ((rest.zipIdx 1).foldl
      (fun best p => if lt best.1 p.1 then p else best) (first, 0)).2

/-- `scan_rows`. -/
def scanRow {α : Type} (combine : α → α → α) (identity : α) (row : List α) : List α :=
  (row.foldl (fun st lane => (combine st.1 lane, st.2 ++ [combine st.1 lane])) (identity, [])).2

def scanRows {α : Type} (lanes : List α) (rows : Nat) (identity : α) (combine : α → α → α) : List α :=
  (rowSlices lanes rows).flatMap (scanRow combine identity)

inductive Extremum where
  | max
  | min
deriving DecidableEq, Repr

inductive NanPair where
  | identity
  | left
deriving DecidableEq, Repr

def extremum (left right : F32) (side : Extremum) (pair : NanPair) : F32 :=
  match F32.isNan left, F32.isNan right with
  | true, true =>
    match pair with
    | .identity =>
      match side with
      | .max => F32.negInfinity
      | .min => F32.infinity
    | .left => left
  | true, false => right
  | false, true => left
  | false, false =>
    if F.eq left F32.zero && F.eq right F32.zero then
      let negative := match side with
        | .max => F32.isSignNegative left && F32.isSignNegative right
        | .min => F32.isSignNegative left || F32.isSignNegative right
      if negative then F32.negZero else F32.zero
    else
      match side with
      | .max => F.max left right
      | .min => F.min left right

def canonicalMax (left right : F32) : F32 := extremum F left right .max .identity

def canonicalMin (left right : F32) : F32 := extremum F left right .min .identity

def elementMax (left right : F32) : F32 := extremum F left right .max .left

def elementMin (left right : F32) : F32 := extremum F left right .min .left

def maxI64 (a b : BitVec 64) : BitVec 64 := if BitVec.slt a b then b else a

def minI64 (a b : BitVec 64) : BitVec 64 := if BitVec.slt b a then b else a

/-- The order of two places: the larger first, a NaN last, and a tie by place. Numbers are ordered. -/
def sortDescLe (row : List F32) (a b : Nat) : Bool :=
  let x := row.getD a 0
  let y := row.getD b 0
  match F32.isNan x, F32.isNan y with
  | true, true => decide (a ≤ b)
  | true, false => false
  | false, true => true
  | false, false => if F.lt y x then true else if F.lt x y then false else decide (a ≤ b)

/-- `sort_desc_order`: the sort is stable. -/
def sortDescOrder (row : List F32) : List Nat :=
  (List.range (row.length % 2 ^ 32)).mergeSort (sortDescLe F row)

def rowsOf (shape : Shape) : Nat := shape.rows

inductive ReduceKind where
  | sum
  | max
  | min
deriving DecidableEq, Repr

def reduceF32 (kind : ReduceKind) (row : List F32) : F32 :=
  match kind with
  | .sum => canonicalReduce row F32.zero F.add
  | .max => canonicalReduce row F32.negInfinity (canonicalMax F)
  | .min => canonicalReduce row F32.infinity (canonicalMin F)

def reduceI64 (kind : ReduceKind) (row : List (BitVec 64)) : BitVec 64 :=
  match kind with
  | .sum => canonicalReduce row 0 (· + ·)
  | .max => canonicalReduce row (BitVec.intMin 64) maxI64
  | .min => canonicalReduce row (BitVec.intMax 64) minI64

def reduceRows (kind : ReduceKind) (ty : ValueType) (data : Value) : Eval Value :=
  if ty.dtype = .f32 then
    .ok (.f32 ((rowSlices (lanesF32 F data) (rowsOf ty.shape)).map (reduceF32 F kind)))
  else
    fromI64 F ty.dtype ((rowSlices (lanesI64 F data) (rowsOf ty.shape)).map (reduceI64 kind))

/-! ## Random numbers -/

def splitmix64 (value : BitVec 64) : BitVec 64 :=
  let value := value ^^^ (value >>> 27)
  let value := value * 0x3C79AC492BA7B653#64
  let value := value ^^^ (value >>> 33)
  let value := value * 0x1C69B3F74AC4AE35#64
  value ^^^ (value >>> 27)

def laneStride : BitVec 64 := 0x9E3779B97F4A7C15#64

def seedEffStream (seed stream : BitVec 32) : BitVec 64 :=
  (seed.setWidth 64 ^^^ 0xA5A5A5A5#64) ^^^ splitmix64 (stream.setWidth 64 * laneStride)

def keyedSeed (key counter : BitVec 32) : BitVec 64 :=
  splitmix64 ((key.setWidth 64 <<< 32) ||| counter.setWidth 64)

/-- `UNIFORM_MAX`: the number before one. -/
def uniformMax : F32 := 0x3F7FFFFF#32

def hashUniform (seedEff : BitVec 64) (index : BitVec 32) : F32 :=
  let x := seedEff + laneStride * (index.setWidth 64 + 1)
  let bits := (splitmix64 x >>> 40).setWidth 32
  let raw := F.mul (F.add (F.ofInt bits.toNat) 0x3F000000#32) (F.div F32.one (F.ofInt (2 ^ 24)))
  if F.lt raw uniformMax then raw else uniformMax

def hashNormal (seedEff : BitVec 64) (index : BitVec 32) : F32 :=
  let lane := index * 2
  let radius := F.sqrt (F.mul 0xC0000000#32 (F.ln (hashUniform F seedEff lane)))
  F.mul radius (F.cos (F.mul 0x40C90FDB#32 (hashUniform F seedEff (lane + 1))))

def draw (kind : RngKind) (seedEff : BitVec 64) (index : BitVec 32) : F32 :=
  match kind with
  | .uniform => hashUniform F seedEff index
  | .gumbel => F.neg (F.ln (F.neg (F.ln (hashUniform F seedEff index))))
  | .normal => hashNormal F seedEff index

/-- `(0..len as u32)` draws. -/
def draws (kind : RngKind) (seedEff : BitVec 64) (len : Nat) : List F32 :=
  (List.range (len % 2 ^ 32)).map (fun j => draw F kind seedEff (BitVec.ofNat 32 j))

def rngAmbient (seed stream : BitVec 32) (kind : RngKind) (len : Nat) : List F32 :=
  draws F kind (seedEffStream seed stream) len

end Pie.Eta
