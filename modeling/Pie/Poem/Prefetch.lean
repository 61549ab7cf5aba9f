import Pie.Poem.Trace
import Pie.Lib.Maps
import Mathlib.Data.Prod.Lex

/-!
# Prefetching weights

When each parameter of a trace is read, and the slots that parameters share which do
not stay. Names follow `prefetch.rs`. A result is missing where a 32-bit word would
overflow, or a weight has a row that no parameter has.
-/

namespace Pie.Poem.Prefetch

open Std

/-- `u32::MAX` -/
def wordMax : Nat := 2 ^ 32 - 1

/-- A parameter, the nodes `start..stop` between which it is read, and how often it is. -/
structure Reads where
  param : Nat
  start : Nat
  stop : Nat
  reads : Nat
deriving DecidableEq, Repr

namespace Reads

def unread (row : Reads) : Bool := decide (row.reads = 0)

/-- Rows are in the order of their first read; what is never read comes last. -/
def key (row : Reads) : Bool ×ₗ (Nat ×ₗ Nat) := toLex (row.unread, toLex (row.start, row.param))

end Reads

/-- `sort_by_key` -/
def sortRows (rows : List Reads) : List Reads := rows.insertionSort fun a b => a.key ≤ b.key

structure Schedule where
  reads : List Reads
  of : TreeMap Nat Nat
  nodes : Nat

structure Slotting where
  of : TreeMap Nat Nat
  slots : Nat
  order : List Nat

structure Overlap where
  slots : Nat
  want : Nat
  evicted : Nat
  evictor : Nat
  live : Nat × Nat
  arrives : Nat
deriving DecidableEq, Repr

def weightOf (trace : Trace) (id : ValueId) : Option Nat :=
  match trace.defn id with
  | some (.weight row) => some row
  | _ => none

/-- The spans and the counts of the parameters, so far. -/
structure Tally where
  span : List (Option (Nat × Nat))
  reads : List Nat
deriving DecidableEq, Repr

/-- One operand of the node `place`. -/
def readOperand (trace : Trace) (place : Nat) (tally : Tally) (id : ValueId) : Option Tally :=
  match weightOf trace id with
  | none => some tally
  | some param => do
    let place := min place wordMax
    let count ← tally.reads[param]?
    let had ← tally.span[param]?
    if count = wordMax ∨ place = wordMax then none
    else
      let span := match had with
        | none => (place, place + 1)
        | some (start, stop) => (min start place, max stop (place + 1))
      some ⟨tally.span.set param (some span), tally.reads.set param (count + 1)⟩

def readNode (trace : Trace) (tally : Tally) (node : Node × Nat) : Option Tally :=
  node.1.op.inputs.foldlM (readOperand trace node.2) tally

namespace Schedule

/-- `Schedule::of` -/
def build (params : Nat) (trace : Trace) : Option Schedule := do
  let tally ← trace.nodes.zipIdx.foldlM (readNode trace) ⟨List.replicate params none, List.replicate params 0⟩
  let rows := (List.range params).map fun param =>
    let span := (tally.span.getD param none).getD (0, 0)
    Reads.mk param span.1 span.2 (tally.reads.getD param 0)
  let rows := sortRows rows
  some ⟨rows, rows.zipIdx.foldl (fun places row => places.insert row.1.param row.2) ∅, min trace.nodes.length wordMax⟩

def readOf (schedule : Schedule) (param : Nat) : Option Reads :=
  schedule.of[param]?.bind fun place => schedule.reads[place]?

/-- The rows of the spilled parameters. -/
def queue (schedule : Schedule) (spilled : List Nat) : List Reads := sortRows (spilled.filterMap schedule.readOf)

/-- The first of the parameters, a round apart, of which the earlier is still read when the later comes. -/
def conflict (slots : Nat) (queue : List Reads) : Option (Reads × Reads) :=
  (queue.zip (queue.drop slots)).find? fun pair => !pair.1.unread && decide (pair.2.start < pair.1.stop)

/-- How many are read before the last read of the row. -/
def crowd (queue : List Reads) (row : Reads) : Nat :=
  (queue.filter fun other => !other.unread && decide (other.start < row.stop)).length

def slotting (schedule : Schedule) (spilled : List Nat) (slots : Nat) : Except Overlap Slotting :=
  if slots = 0 then .error ⟨slots, 1, 0, 0, (0, 0), 0⟩
  else
    let queue := schedule.queue spilled
    let places := queue.zipIdx.foldl (fun places row => places.insert row.1.param (row.2 % 2 ^ 32 % slots)) ∅
    match conflict slots queue with
    | some (evicted, evictor) =>
      .error ⟨slots, min (crowd queue evicted) wordMax, evicted.param, evictor.param, (evicted.start, evicted.stop), evictor.start⟩
    | none => .ok ⟨places, slots, queue.map (·.param)⟩

end Schedule

def Slotting.slotOf (slotting : Slotting) (param : Nat) : Option Nat := slotting.of[param]?

end Pie.Poem.Prefetch
