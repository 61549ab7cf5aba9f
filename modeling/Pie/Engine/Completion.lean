import Pie.Lib.Maps

/-!
# Settling frames

The book of the frames a lane has submitted and the steps of which land one by
one. A step may land before its frame is booked; it is then counted apart. Names
follow `completion.rs`. A section under the lock of the book is one function; what
is published after it is what the function returns.
-/

namespace Pie.Engine

open Std Lib.Maps

abbrev FrameId := Nat

/-- The cell a request waits on, if the pointer is not null. -/
abbrev CellPtr := Option Nat

/-- `WaitId`: a slot of the waker table. -/
abbrev WaitId := Nat

inductive TerminalOutcomeCode
  | success | failed
deriving DecidableEq, Repr

/-- What landed of a step, as far as its frame is concerned. -/
inductive StepOutcome
  | committed
  | wrote
  | faulted (why : String)
deriving DecidableEq, Repr

def StepOutcome.isFaulted : StepOutcome → Bool
  | faulted _ => true
  | _ => false

/-- A completion that is ready or made of others has no cell. -/
structure SubmissionCompletion where
  terminalCellPtr : Option CellPtr
  waitId : WaitId
  targetEpoch : Nat
deriving DecidableEq, Repr

structure PendingFrame where
  remaining : Nat
  cells : List CellPtr
  frameCell : CellPtr
  waitId : WaitId
  epoch : Nat
  wakes : List WaitId
deriving DecidableEq, Repr

/-- What others see of a frame that is published. -/
inductive Effect
  | store (cell : Nat) (outcome : TerminalOutcomeCode)
  | notify (waitId : WaitId) (epoch : Nat)
  | wake (waitId : WaitId)
deriving DecidableEq, Repr

def settle (cells : List CellPtr) (outcome : TerminalOutcomeCode) : List Effect :=
  cells.filterMap (·.map (.store · outcome))

def publish (pending : PendingFrame) (failed : Bool) : List Effect :=
  let code := if failed then TerminalOutcomeCode.failed else .success
  settle pending.cells code ++ settle [pending.frameCell] code
    ++ .notify pending.waitId pending.epoch :: pending.wakes.map .wake

/-- `FrameSettlements`, behind its lock. -/
structure Book where
  frames : TreeMap FrameId PendingFrame
  early : TreeMap FrameId (Nat × Bool)

namespace Book

def new : Book := ⟨∅, ∅⟩

/-- The frame is booked, unless what landed before it settles it at once. -/
def expect (book : Book) (frame : FrameId) (steps : Nat) (cells : List CellPtr) (wakes : List WaitId)
    (completion : SubmissionCompletion) : Book × Option (PendingFrame × Bool) :=
  match completion.terminalCellPtr with
  | none => (book, none)
  | some frameCell =>
    let (seen, failed) := book.early[frame]?.getD (0, false)
    let pending : PendingFrame :=
      ⟨max steps 1 - seen, cells, frameCell, completion.waitId, completion.targetEpoch, wakes⟩
    let early := book.early.erase frame
    if 0 < pending.remaining && !failed then (⟨book.frames.insert frame pending, early⟩, none)
    else (⟨book.frames, early⟩, some (pending, failed))

def forget (book : Book) (frame : FrameId) : Book := ⟨book.frames.erase frame, book.early.erase frame⟩

/-- The frame is over with its last step, or with the first that faults. -/
def settled (book : Book) (frame : FrameId) (outcome : StepOutcome) : Book × Option (PendingFrame × Bool) :=
  let failed := outcome.isFaulted
  match book.frames[frame]? with
  | none =>
    let (seen, before) := book.early[frame]?.getD (0, false)
    (⟨book.frames, book.early.insert frame (seen + 1, before || failed)⟩, none)
  | some pending =>
    let pending := { pending with remaining := pending.remaining - 1 }
    if !failed && 0 < pending.remaining then (⟨book.frames.insert frame pending, book.early⟩, none)
    else (⟨book.frames.erase frame, book.early⟩, some (pending, failed))

/-- Every frame that is still open fails. -/
def closeAll (book : Book) : Book × List (FrameId × PendingFrame) := (new, book.frames.toList)

end Book

/-! ## Runs -/

inductive Call
  | expect (frame : FrameId) (steps : Nat) (cells : List CellPtr) (wakes : List WaitId)
      (completion : SubmissionCompletion)
  | settled (frame : FrameId) (outcome : StepOutcome)
deriving DecidableEq, Repr

def Call.frame : Call → FrameId
  | expect frame .. => frame
  | settled frame _ => frame

structure Publication where
  frame : FrameId
  pending : PendingFrame
  failed : Bool
deriving DecidableEq, Repr

/-- The book, and what was published since it was new. -/
structure Ledger where
  book : Book
  published : List Publication

namespace Ledger

def new : Ledger := ⟨.new, []⟩

def took (ledger : Ledger) (frame : FrameId) (result : Book × Option (PendingFrame × Bool)) : Ledger :=
  ⟨result.1, ledger.published ++ (result.2.map fun p => ⟨frame, p.1, p.2⟩).toList⟩

def call (ledger : Ledger) : Call → Ledger
  | .expect frame steps cells wakes completion =>
    ledger.took frame (ledger.book.expect frame steps cells wakes completion)
  | .settled frame outcome => ledger.took frame (ledger.book.settled frame outcome)

/-- The calls in the order in which they took the lock. -/
def run (calls : List Call) : Ledger := calls.foldl call new

/-- The lane goes down. -/
def closeAll (ledger : Ledger) : Ledger :=
  ⟨ledger.book.closeAll.1, ledger.published ++ ledger.book.closeAll.2.map fun e => ⟨e.1, e.2, true⟩⟩

end Ledger

end Pie.Engine
