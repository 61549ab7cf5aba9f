import Pie.Lib.Sets

/-!
# Traces

A model as the compiler sees it: values, each with what defines it, and nodes in
the order they run. Names follow `poem-ir`. An operation is what its `Operands`
implementation shows of it: its family, its name, what it reads, what it writes,
and which outputs overwrite which inputs.
-/

namespace Pie.Poem

open Lib

abbrev ValueId := Nat

inductive Guard where
  | always
  | fact (bit : Nat)
  | not (a : Guard)
  | and (a b : Guard)
  | or (a b : Guard)
deriving DecidableEq, Repr

inductive Dim where
  | const (n : Nat)
  | tokens
  | tokensTimes (k : Nat)
  | lanes
  | lanesPlus (k : Nat)
  | readouts
  | patches
  | images
  | imagesPlus (k : Nat)
  | voxels
  | voxelsTimes (k : Nat)
  | clips
  | clipsPlus (k : Nat)
deriving DecidableEq, Repr

inductive StructKind where
  | attnDecodePlan
  | attnPrefillPlan
  | mlaPlan
deriving DecidableEq, Repr

structure Selection where
  mask : Nat
  value : Nat
deriving DecidableEq, Repr

inductive GeomKind where
  | indptr
  | indices
  | seqLens
  | lastPageLen
  | kvLen
  | rowValid
  | requestOfToken
  | writePage
  | writeOffset
  | groupOfLane
  | groupIndptr (select : Selection)
  | laneIndptr (select : Selection)
  | referenceTag (select : Selection)
deriving DecidableEq, Repr

inductive RuntimeInput where
  | tokens
  | positions
  | mropePositions
  | mask (space : Nat)
  | geometry (space : Nat) (kind : GeomKind)
  | readoutRows
  | adapterRoutes
  | patches
  | patchSegments
  | patchRoutes
  | patchPositions
  | imageGrids
  | selfCondRows
  | selfCondWeights
  | rowPermutation (select : Selection)
  | latents (port width : Nat)
  | laneVector (port width : Nat)
  | context (port width : Nat)
  | axisPositions (port axes : Nat)
  | grid
  | voxels (port channels : Nat)
  | tokenGrid (p : Nat × Nat × Nat)
deriving DecidableEq, Repr

inductive Dtype where
  | f32 | f16 | bf16 | e4m3 | e5m2 | e2m1 | e8m0
  | i64 | i32 | i16 | i8 | u64 | u32 | u16 | u8 | bool
  | mxfp4 | nvfp4 | u4g64 | u8g64 | u4g32 | u2g32 | u2g64 | u2g128 | u4g64tiled
  | u2g16k | i3g16k | u4g32k | u5g32k | i6g16k | e4m3row | e4m3tile128 | e4m3tensor
  | fp8b128 | fp8b32 | mxfp8 | ptq1_0 | kvU4 | e4m3g128
deriving DecidableEq, Repr

inductive Ty where
  | tensor (shape : List Dim) (dtype : Dtype)
  | struct (kind : StructKind)
deriving DecidableEq, Repr

inductive Def where
  | input (which : RuntimeInput)
  | weight (row : Nat)
  | cache (row : Nat)
  | op (node : Nat)
  | merge (arms : List (ValueId × Guard))
deriving DecidableEq, Repr

structure ValueDecl where
  defn : Def
  ty : Ty
deriving DecidableEq, Repr

/-- A cache: keys and values of a space, or a state of its own. -/
inductive CacheRow where
  | kv (space : Nat)
  | state
deriving DecidableEq, Repr

inductive Family where
  | attention
  | linear
  | elementwise
  | layout
  | collective
  | fused
  | spatial
deriving DecidableEq, Repr

structure Operation where
  family : Family
  name : String
  inputs : List ValueId
  outputs : List ValueId
  aliases : List (ValueId × ValueId)
deriving DecidableEq, Repr

structure Node where
  op : Operation
  guard : Guard
deriving DecidableEq, Repr

structure Seam where
  seam : String
  values : List ValueId
deriving DecidableEq, Repr

structure Trace where
  caches : List CacheRow
  values : List ValueDecl
  nodes : List Node
  seams : List Seam
deriving DecidableEq, Repr

/-- What defines a value. -/
def Trace.defn (trace : Trace) (value : ValueId) : Option Def := trace.values[value]?.map (·.defn)

/-! ## Sets of classes -/

/-- The words of the set side by side. -/
structure ClassSet where
  bits : Nat
deriving DecidableEq, Repr

namespace ClassSet

def empty : ClassSet := ⟨0⟩

def insert (set : ClassSet) (c : Nat) : ClassSet := ⟨Bits.add set.bits c⟩

def of (classes : List Nat) : ClassSet := classes.foldl insert empty

def contains (set : ClassSet) (c : Nat) : Bool := Bits.has set.bits c

def disjoint (set other : ClassSet) : Bool := decide (set.bits &&& other.bits = 0)

def isEmpty (set : ClassSet) : Bool := decide (set.bits = 0)

/-- `widen`: every class of the other set goes in. -/
def union (set other : ClassSet) : ClassSet := ⟨set.bits ||| other.bits⟩

theorem disjoint_iff {set other : ClassSet} :
    set.disjoint other = true ↔ ∀ c, ¬(set.contains c = true ∧ other.contains c = true) := by
  unfold disjoint contains
  rw [decide_eq_true_eq]
  exact Bits.and_eq_zero

theorem disjoint_eq_false {set other : ClassSet} :
    set.disjoint other = false ↔ ∃ c, set.contains c = true ∧ other.contains c = true := by
  rw [← Bool.not_eq_true, disjoint_iff]
  push_neg
  exact Iff.rfl

@[simp] theorem contains_union (set other : ClassSet) (c : Nat) :
    (set.union other).contains c = (set.contains c || other.contains c) := Bits.has_or _ _ _

end ClassSet

end Pie.Poem
