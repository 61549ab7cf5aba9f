import Mathlib.Tactic

/-!
# Types of ETA programs

Element types, shapes, and what a literal is. Names follow `types.rs` and the
`dtype` crate. An `f32` is its bits.
-/

namespace Pie.Eta

/-- `ValueId`: an index into the values of a stage. -/
abbrev ValueId := BitVec 32

def MAX_RANK : Nat := 4

/-! ## Element types -/

inductive Dtype where
  | f32 | f16 | bf16 | e4m3 | e5m2 | e2m1 | e8m0
  | i64 | i32 | i16 | i8 | u64 | u32 | u16 | u8 | bool
  | mxfp4 | nvfp4 | u4g64 | u8g64 | u4g32 | u2g32 | u2g64 | u2g128 | u4g64tiled
  | u2g16k | i3g16k | u4g32k | u5g32k | i6g16k
  | e4m3row | e4m3tile128 | e4m3tensor | fp8b128 | fp8b32 | mxfp8 | ptq1_0 | kvU4 | e4m3g128
deriving DecidableEq, Repr

namespace Dtype

inductive Class where
  | float
  | int
  | logical
deriving DecidableEq, Repr

/-- `class_of`: the types ETA computes in have one. -/
def classOf : Dtype → Option Class
  | f32 => some .float
  | i32 | u32 => some .int
  | bool => some .logical
  | _ => none

def supports (d : Dtype) : Bool := d.classOf.isSome

def isFloat (d : Dtype) : Bool := d.classOf == some .float

def isInt (d : Dtype) : Bool := d.classOf == some .int

def isNumeric (d : Dtype) : Bool := d.classOf == some .float || d.classOf == some .int

def toWire : Dtype → Option Nat
  | f32 => some 0
  | i32 => some 1
  | u32 => some 2
  | bool => some 3
  | _ => none

def fromWire : Nat → Option Dtype
  | 0 => some f32
  | 1 => some i32
  | 2 => some u32
  | 3 => some bool
  | _ => none

/-- `bytes_ceil` of the code of one element. -/
def bytesCeil : Dtype → Nat
  | i64 | u64 => 8
  | f32 | i32 | u32 => 4
  | f16 | bf16 | i16 | u16 => 2
  | _ => 1

theorem fromWire_eq_some {t : Nat} {d : Dtype} : fromWire t = some d ↔ d.toWire = some t := by
  constructor
  · intro h
    unfold fromWire at h
    split at h <;> cases h <;> rfl
  · intro h
    cases d <;> simp_all [toWire, fromWire]
    all_goals
      subst h
      rfl

theorem toWire_isSome {d : Dtype} : d.toWire.isSome = d.supports := by cases d <;> rfl

theorem toWire_lt {d : Dtype} {t : Nat} (h : d.toWire = some t) : t < 4 := by
  cases d <;> simp_all [toWire]
  all_goals omega

end Dtype

/-! ## Shapes -/

/-- The number of elements some dimensions span. -/
def numelOf (dims : List (BitVec 32)) : Nat := (dims.map BitVec.toNat).prod

/-- `Shape::new` lets no other through: the product of the dimensions fits in 64 bits. -/
def ShapeOk (dims : List (BitVec 32)) : Prop :=
  dims.length ≤ MAX_RANK ∧ 0 ∉ dims ∧ numelOf dims < 2 ^ 64

instance (dims : List (BitVec 32)) : Decidable (ShapeOk dims) := inferInstanceAs (Decidable (_ ∧ _ ∧ _))

structure Shape where
  dims : List (BitVec 32)
  ok : ShapeOk dims
deriving DecidableEq

namespace Shape

/-- `Shape::SCALAR`. -/
def scalar : Shape := ⟨[], by decide⟩

def new (dims : List (BitVec 32)) : Option Shape := if h : ShapeOk dims then some ⟨dims, h⟩ else none

def rank (s : Shape) : Nat := s.dims.length

def isScalar (s : Shape) : Bool := s.rank == 0

def numel (s : Shape) : Nat := numelOf s.dims

def lastLen (s : Shape) : Option (BitVec 32) := s.dims.getLast?

/-- The number of rows: a scalar and a vector have one. -/
def rows (s : Shape) : Nat := numelOf s.dims.dropLast

@[simp] theorem new_dims (s : Shape) : new s.dims = some s := dif_pos s.ok

theorem rank_le (s : Shape) : s.rank ≤ MAX_RANK := s.ok.1

end Shape

/-- `ValueType`. -/
structure ValueType where
  shape : Shape
  dtype : Dtype
deriving DecidableEq

/-! ## Parts of operations -/

inductive Predicate where
  | rankLe (value : ValueId)
  | cummassLe (value : ValueId)
  | probGe (value : ValueId)
deriving DecidableEq, Repr

def Predicate.value : Predicate → ValueId
  | rankLe v | cummassLe v | probGe v => v

inductive RngKind where
  | uniform
  | gumbel
  | normal
deriving DecidableEq, Repr

/-- `kind as u8`. -/
def RngKind.toU8 : RngKind → Nat
  | uniform => 0
  | gumbel => 1
  | normal => 2

def RngKind.fromU8 : Nat → Option RngKind
  | 0 => some uniform
  | 1 => some gumbel
  | 2 => some normal
  | _ => none

inductive Literal where
  | f32 (bits : BitVec 32)
  | i32 (value : BitVec 32)
  | u32 (value : BitVec 32)
  | bool (value : Bool)
deriving DecidableEq, Repr

def Literal.dtype : Literal → Dtype
  | f32 _ => .f32
  | i32 _ => .i32
  | u32 _ => .u32
  | bool _ => .bool

end Pie.Eta
