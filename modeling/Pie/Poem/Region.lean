import Pie.Poem.Trace

/-!
# Regions

The stretches of nodes that are launched as one, as `compiled.rs` declares them.
-/

namespace Pie.Poem

abbrev EventId := UInt32

inductive Phase where
  | prepare
  | capture
deriving DecidableEq, Repr

inductive Lowering where
  | alwaysLaunch
  | switch (merge : ValueId) (arm arms : Nat)
  | cond
deriving DecidableEq, Repr

/-- A region runs the nodes `start..stop`. -/
structure Region where
  start : Nat
  stop : Nat
  mask : ClassSet
  phase : Phase
  lowering : Lowering
  stream : UInt32
  wait : List EventId
  opens : Option EventId
  close : Option EventId
  collective : Bool
deriving DecidableEq, Repr

namespace Region

def nodes (region : Region) : List Nat := List.range' region.start (region.stop - region.start)

def launches (region : Region) : Bool :=
  decide (region.phase = .capture) && !region.collective && !region.mask.isEmpty

end Region

end Pie.Poem
