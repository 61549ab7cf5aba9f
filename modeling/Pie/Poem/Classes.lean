import Pie.Poem.Trace

/-!
# Classes

The classes that a trace's guards tell apart, and the nodes each of them runs.
-/

namespace Pie.Poem

structure Class where
  words : List Nat
  live : List Nat
deriving DecidableEq, Repr

structure ClassTable where
  classes : List Class
  nodeMask : List ClassSet
  merges : List ValueId
  mergeArm : List (List (Option Nat))
  mask : Nat
  dead : List Nat
  /-- A mask names classes of the table. -/
  mask_lt : ∀ set ∈ nodeMask, ∀ c, set.contains c = true → c < classes.length

/-- A set of every class of the table. -/
def ClassTable.everywhere (classes : ClassTable) : ClassSet := ClassSet.of (List.range classes.classes.length)

end Pie.Poem
