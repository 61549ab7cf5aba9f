import Pie.Poem.Classes
import Pie.Poem.Pq
import Pie.Poem.Region
import Mathlib.Data.List.Dedup
import Mathlib.Data.List.Lex
import Mathlib.Algebra.Order.Ring.Rat

/-!
# Seriation

The order of the classes, and what is done for the regions whose classes do not
stand side by side in it. Names follow `layout.rs`. Costs are `f32` in the source
and exact numbers here.
-/

namespace Pie.Poem.Layout

open Lib Pq

/-- The classes of a set in order. -/
def classesOf (set : ClassSet) : List Nat := (List.range set.bits.size).filter set.contains

inductive Fallback where
  | view
  | split (r : Nat)
  | grouped
  | copy
deriving DecidableEq, Repr

/-- What is done at the node for the buckets `buckets.1..buckets.2`. -/
structure FallbackRow where
  node : Nat
  buckets : Nat × Nat
  fallback : Fallback
deriving DecidableEq, Repr

inductive ClassOrder where
  | identity
  | seriated (tree : PqTree)

/-- `class_order` -/
def ClassOrder.classOrder (order : ClassOrder) (present : ClassSet) : List Leaf :=
  match order with
  | .identity => (classesOf present).map (· % 256)
  | .seriated tree => tree.frontier.filter present.contains

/-- What seriation reads of a device: its size, what each operation costs, and the operations that may be grouped. -/
structure Prices where
  sms : Nat
  familyUs : Operation → Rat
  grouped : List String

def MAX_SEARCH_MASKS : Nat := 12

def GROUPED_DISCOUNT : Rat := 1 / 20

/-- The rows from which on a split is better than a copy. -/
def Prices.crossover (profile : Prices) : Rat := 512 * profile.sms / 82

/-! ## Masks -/

/-- `constrains` -/
def constrains (region : Region) (classes : Nat) : Bool :=
  decide (region.phase = .capture) && !region.mask.isEmpty && decide ((classesOf region.mask).length < classes)

/-- The classes of a region as leaves. -/
def maskOf (region : Region) : List Leaf := (classesOf region.mask).map (· % 256)

/-- The keys of `matrix`: the masks of the regions that constrain the order. -/
def masksOf (regions : List Region) (count : Nat) : List (List Leaf) :=
  (((regions.filter (constrains · count)).map maskOf).insertionSort (· ≤ ·)).dedup

/-- What `matrix` holds for a mask: the regions that have it. -/
def statedBy (regions : List Region) (count : Nat) (mask : List Leaf) : List Region :=
  regions.filter (fun region => constrains region count && decide (maskOf region = mask))

/-- `composed_of`: all nodes of the regions have one of the names. -/
def composedOf (trace : Trace) (regions : List Region) (names : List String) : Bool :=
  !names.isEmpty && regions.all (fun region =>
    region.nodes.all (fun node => (trace.nodes[node]?).any (fun node => names.any (· == node.op.name))))

/-- `withdrawal_cost` -/
def withdrawalCost (trace : Trace) (regions : List Region) (groupable : Bool) (profile : Prices) : Rat :=
  (if groupable then GROUPED_DISCOUNT else 1)
    * (((regions.flatMap Region.nodes).filterMap (trace.nodes[·]?)).map (fun node => profile.familyUs node.op)).sum

/-! ## Which masks are withdrawn -/

/-- What a set of masks costs, by their places. -/
def costOf (costs : List Rat) (drop : Nat) : Rat :=
  (((List.range costs.length).filter (Bits.has drop)).map (costs.getD · 0)).sum

/-- The masks of a set, by their places. -/
def chosen (masks : List (List Leaf)) (p : Nat → Bool) : List (List Leaf) :=
  ((List.range masks.length).filter p).filterMap (masks[·]?)

/-- The tree reduced by one mask after another, until one is refused. -/
def reduceAll (tree : PqTree) : List (List Leaf) → Option PqTree
  | [] => some tree
  | mask :: masks =>
    match reduce tree mask with
    | (true, tree) => reduceAll tree masks
    | (false, _) => none

/-- One set of masks tried against the best so far. -/
def tryDrop (masks : List (List Leaf)) (costs : List Rat) (start : PqTree) (best : Option (Rat × Nat × PqTree))
    (drop : Nat) : Option (Rat × Nat × PqTree) :=
  let cost := costOf costs drop
  if best.any (fun held => decide (held.1 ≤ cost)) then best
  else
    match reduceAll start (chosen masks (fun i => !Bits.has drop i)) with
    | some tree => some (cost, drop, tree)
    | none => best

/-- `concede`: the masks from the dearest on, each withdrawn when the tree refuses it. -/
def concede (masks : List (List Leaf)) (costs : List Rat) (start : PqTree) : PqTree × List (List Leaf) :=
  ((masks.zip costs).insertionSort (fun a b => b.2 < a.2 ∨ a.2 = b.2 ∧ a.1 ≤ b.1)).foldl (fun st entry =>
    match reduce st.1 entry.1 with
    | (true, tree) => (tree, st.2)
    | (false, tree) => (tree, st.2 ++ [entry.1])) (start, [])

/-- `choose`: the tree, and the masks that are withdrawn. -/
def choose (masks : List (List Leaf)) (costs : List Rat) (count : Nat) : Option (PqTree × List (List Leaf)) := do
  let start ← universeOf count
  if MAX_SEARCH_MASKS < masks.length then some (concede masks costs start)
  else
    let best ← (List.range (2 ^ masks.length)).foldl (tryDrop masks costs start) none
    some (best.2.2, chosen masks (Bits.has best.2.1))

/-! ## What is done for a mask withdrawn -/

/-- `menu` -/
def menu (runs : Nat) (groupable : Bool) (lattice : List Nat) (ceiling : Nat) (profile : Prices) :
    List ((Nat × Nat) × Fallback) :=
  let lattice := if lattice.isEmpty then [ceiling] else lattice
  if groupable then [((0, lattice.length), .grouped)]
  else
    let cut := lattice.findIdx (fun (rows : Nat) => decide (profile.crossover ≤ (rows : Rat)))
    let stop := lattice.length
    (if 0 < cut then [((0, cut), Fallback.copy)] else []) ++ if cut < stop then [((cut, stop), Fallback.split runs)] else []

/-- The rows of one mask. -/
def rowsOf (trace : Trace) (regions : List Region) (count : Nat) (lattice : List Nat) (ceiling : Nat) (profile : Prices)
    (tree : PqTree) (mask : List Leaf) : List FallbackRow :=
  let stated := statedBy regions count mask
  let answer := menu (runs tree.frontier mask) (composedOf trace stated profile.grouped) lattice ceiling profile
  stated.flatMap (fun region => region.nodes.flatMap (fun node =>
    answer.map (fun entry => { node := node, buckets := entry.1, fallback := entry.2 })))

/-- The cost of each mask withdrawn. -/
def costsOf (trace : Trace) (regions : List Region) (count : Nat) (profile : Prices) : List Rat :=
  (masksOf regions count).map (fun mask =>
    withdrawalCost trace (statedBy regions count mask) (composedOf trace (statedBy regions count mask) profile.grouped) profile)

/-- `seriate`; more classes than a byte names are a panic. -/
def seriate (trace : Trace) (regions : List Region) (classes : ClassTable) (lattice : List Nat) (ceiling : Nat)
    (profile : Prices) : Option (ClassOrder × List FallbackRow) := do
  let count := classes.classes.length
  if count = 0 then some (.identity, [])
  else
    let (tree, withdrawn) ← choose (masksOf regions count) (costsOf trace regions count profile) count
    let rows := withdrawn.flatMap (rowsOf trace regions count lattice ceiling profile tree)
    some (.seriated tree,
      rows.insertionSort (fun a b => a.node < b.node ∨ a.node = b.node ∧ a.buckets.1 ≤ b.buckets.1))

end Pie.Poem.Layout
