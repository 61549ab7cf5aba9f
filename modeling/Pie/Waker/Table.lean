import Mathlib.Data.Nat.Bitwise

/-!
# The waker table

Slots that hold the waker of who waits, handed out under identifiers with a
generation. Names follow `table.rs`. A section under a lock is one function
here; what a call does after it, to wake a waker or to give an index back, is
left to the thread. The counters of `WakerMetrics` are not kept.
-/

namespace Pie.Waker

/-- A `u64`: the generation above the index. -/
abbrev WakerSlotId := Nat

/-- The task that a waker wakes. -/
abbrev Waker := Nat

def firstCompletionEpoch : Nat := 1

/-- `u64::MAX`: no epoch. -/
def epochNone : Nat := 2 ^ 64 - 1

/-- `u32::MAX` -/
def lastGeneration : Nat := 2 ^ 32 - 1

def slotId (generation index : Nat) : WakerSlotId := generation <<< 32 ||| index

def splitId (id : WakerSlotId) : Nat × Nat := (id >>> 32, id % 2 ^ 32)

structure SlotState where
  generation : Nat
  waiterEpoch : Option Nat
  publishedEpoch : Nat
  waker : Option Waker
  retired : Bool
deriving DecidableEq, Repr

def SlotState.new : SlotState := ⟨1, none, 0, none, false⟩

inductive WakeOutcome
  | woken | empty | filtered | stale | invalidEpoch
deriving DecidableEq, Repr

/-- `free`: the indices to use again, the last one pushed first. -/
structure WakerTable where
  slots : List SlotState
  free : List Nat
deriving DecidableEq, Repr

def WakerTable.new : WakerTable := ⟨[], []⟩

def isLive (state : SlotState) (generation : Nat) : Bool :=
  generation != 0 && !state.retired && state.generation != 0 && state.generation == generation

/-! ## Under a slot's lock -/

/-- What `alloc` finds in a slot whose index it popped: nothing if it has to try again. -/
def SlotState.reuse (state : SlotState) (index : Nat) : Option WakerSlotId :=
  if state.retired || state.generation == 0 then none else some (slotId state.generation index)

/-- The state after `free`, the waker that was there, and whether the index comes back. -/
def SlotState.release (state : SlotState) : SlotState × Option Waker × Bool :=
  let cleared := { state with waker := none, waiterEpoch := none, publishedEpoch := 0 }
  if state.generation = lastGeneration then ({ cleared with generation := 0, retired := true }, state.waker, false)
  else ({ cleared with generation := state.generation + 1 }, state.waker, true)

def SlotState.register (state : SlotState) (waker : Waker) (observed : Nat) : SlotState :=
  { state with waiterEpoch := some observed, waker := some waker }

def SlotState.deregister (state : SlotState) : SlotState :=
  { state with waiterEpoch := none, waker := none }

/-- The waker is taken, unless the waiter has seen `ring`. -/
def SlotState.takeWaker (state : SlotState) (ring : Option Nat) : SlotState × WakeOutcome × Option Waker :=
  match state.waiterEpoch with
  | none => (state, .empty, none)
  | some observed =>
    if ring.any (· ≤ observed) then (state, .filtered, none)
    else
      ({ state with waiterEpoch := none, waker := none },
        match state.waker with
        | some waker => (.woken, some waker)
        | none => (.empty, none))

/-- `publish` tests the epoch it has just raised. -/
def SlotState.publish (state : SlotState) (epoch : Nat) : SlotState × WakeOutcome × Option Waker :=
  let raised := { state with publishedEpoch := max state.publishedEpoch epoch }
  raised.takeWaker (some raised.publishedEpoch)

/-! ## The operations -/

/-- The section of an operation with `id`: nothing changes when the slot has another generation. -/
def WakerTable.locked {α : Type} (table : WakerTable) (id : WakerSlotId) (stale : α) (f : SlotState → SlotState × α) :
    WakerTable × α :=
  match table.slots[(splitId id).2]? with
  | none => (table, stale)
  | some state =>
    if isLive state (splitId id).1 then
      ({ table with slots := table.slots.set (splitId id).2 (f state).1 }, (f state).2)
    else (table, stale)

/-- What a call still has to do after its section. -/
structure After where
  waker : Option Waker
  recycle : Option Nat
deriving DecidableEq, Repr

def After.nothing : After := ⟨none, none⟩

def WakerTable.freeSection (table : WakerTable) (id : WakerSlotId) : WakerTable × After :=
  table.locked id .nothing fun state =>
    (state.release.1, ⟨state.release.2.1, if state.release.2.2 then some (splitId id).2 else none⟩)

def WakerTable.register (table : WakerTable) (id : WakerSlotId) (waker : Waker) (observed : Nat) : WakerTable × Bool :=
  if observed = epochNone then (table, false)
  else table.locked id false fun state => (state.register waker observed, true)

def WakerTable.deregister (table : WakerTable) (id : WakerSlotId) : WakerTable :=
  (table.locked id () fun state => (state.deregister, ())).1

def WakerTable.wakeImpl (table : WakerTable) (id : WakerSlotId) (ring : Option Nat) :
    WakerTable × WakeOutcome × Option Waker :=
  table.locked id (.stale, none) fun state => state.takeWaker ring

def WakerTable.wake (table : WakerTable) (id : WakerSlotId) : WakerTable × WakeOutcome × Option Waker :=
  table.wakeImpl id none

def WakerTable.wakePast (table : WakerTable) (id : WakerSlotId) (ring : Nat) :
    WakerTable × WakeOutcome × Option Waker :=
  if ring = epochNone then (table, .invalidEpoch, none) else table.wakeImpl id (some ring)

def WakerTable.publish (table : WakerTable) (id : WakerSlotId) (epoch : Nat) :
    WakerTable × WakeOutcome × Option Waker :=
  if firstCompletionEpoch ≤ epoch ∧ epoch < epochNone then
    table.locked id (.stale, none) fun state => state.publish epoch
  else (table, .invalidEpoch, none)

/-- The slot has the generation of `id`. -/
def WakerTable.live (table : WakerTable) (id : WakerSlotId) : Bool :=
  match table.slots[(splitId id).2]? with
  | none => false
  | some state => isLive state (splitId id).1

def WakerTable.published (table : WakerTable) (id : WakerSlotId) : Option Nat :=
  match table.slots[(splitId id).2]? with
  | none => none
  | some state => if isLive state (splitId id).1 then some state.publishedEpoch else none

/-- An operation with an identifier. -/
inductive Call
  | free (id : WakerSlotId)
  | register (id : WakerSlotId) (waker : Waker) (observed : Nat)
  | deregister (id : WakerSlotId)
  | wake (id : WakerSlotId)
  | wakePast (id : WakerSlotId) (ring : Nat)
  | publish (id : WakerSlotId) (epoch : Nat)
deriving DecidableEq, Repr

def Call.id : Call → WakerSlotId
  | .free id | .register id _ _ | .deregister id | .wake id | .wakePast id _ | .publish id _ => id

def Call.frees : Call → Bool
  | .free _ => true
  | _ => false

/-- `sweep` wakes one slot after the other. -/
def sweep (ids : List WakerSlotId) : List Call := ids.map .wake

/-- The section of a call. -/
def Call.exec (table : WakerTable) : Call → WakerTable × After
  | .free id => table.freeSection id
  | .register id waker observed => ((table.register id waker observed).1, .nothing)
  | .deregister id => (table.deregister id, .nothing)
  | .wake id => ((table.wake id).1, ⟨(table.wake id).2.2, none⟩)
  | .wakePast id ring => ((table.wakePast id ring).1, ⟨(table.wakePast id ring).2.2, none⟩)
  | .publish id epoch => ((table.publish id epoch).1, ⟨(table.publish id epoch).2.2, none⟩)

/-! ## Threads -/

/-- Where a thread is. In `busy` it has a waker to wake, taken from a slot, an index to
give back and calls to make, in this order; the other three are inside `alloc`. -/
inductive Pc
  | busy (waker : Option (WakerSlotId × Waker)) (recycle : Option Nat) (calls : List Call)
  | pop
  | reuse (index : Nat)
  | grow
deriving DecidableEq, Repr

def Pc.idle : Pc := .busy none none []

/-- The calls that are left. -/
def Pc.calls : Pc → List Call
  | .busy _ _ calls => calls
  | _ => []

/-- The waker to wake. -/
def Pc.taken : Pc → Option (WakerSlotId × Waker)
  | .busy waker _ _ => waker
  | _ => none

/-- The index that is neither in the free list nor behind an identifier. -/
def Pc.holds : Pc → Option Nat
  | .busy _ recycle _ => recycle
  | .reuse index => some index
  | _ => none

/-- The table and its threads. `issued`: what `alloc` has returned; `freed`: what `free` was
called with while it was live. -/
structure Sys where
  table : WakerTable
  threads : Nat → Pc
  issued : List WakerSlotId
  freed : List WakerSlotId

def Sys.new : Sys := ⟨.new, fun _ => .idle, [], []⟩

def Sys.put (s : Sys) (t : Nat) (pc : Pc) : Sys := { s with threads := Function.update s.threads t pc }

/-- `alloc` returns. -/
def Sys.issue (s : Sys) (t : Nat) (id : WakerSlotId) : Sys := { s.put t .idle with issued := id :: s.issued }

/-- `alloc` pops the free list. -/
def Sys.pop (s : Sys) (t : Nat) : Sys :=
  match s.table.free with
  | [] => s.put t .grow
  | index :: free => { s.put t (.reuse index) with table := { s.table with free } }

/-- `alloc` looks at the slot it popped; an index out of range is a panic. -/
def Sys.reuse (s : Sys) (t index : Nat) : Sys :=
  match s.table.slots[index]? with
  | none => s.put t .idle
  | some state =>
    match state.reuse index with
    | none => s.put t .pop
    | some id => s.issue t id

/-- `alloc` adds a slot; without an index for it it panics. -/
def Sys.grow (s : Sys) (t : Nat) : Sys :=
  if s.table.slots.length < 2 ^ 32 then
    { s.issue t (slotId 1 s.table.slots.length) with
      table := { s.table with slots := s.table.slots ++ [SlotState.new] } }
  else s.put t .idle

/-- The section of a call. -/
def Sys.call (s : Sys) (t : Nat) (call : Call) (calls : List Call) : Sys :=
  { s.put t (.busy ((call.exec s.table).2.waker.map (call.id, ·)) (call.exec s.table).2.recycle calls) with
    table := (call.exec s.table).1
    freed := if call.frees && s.table.live call.id then call.id :: s.freed else s.freed }

/-- `free` gives an index back. -/
def Sys.recycle (s : Sys) (t index : Nat) (calls : List Call) : Sys :=
  { s.put t (.busy none none calls) with table := { s.table with free := index :: s.table.free } }

/-- A thread does one thing; which calls it may begin is `allowed`. The waker that it wakes, if it
wakes one, stands between the states. -/
inductive Sys.Step (allowed : Call → Prop) : Sys → Option Waker → Sys → Prop
  | begin {s : Sys} {t : Nat} {calls : List Call} (hidle : s.threads t = .idle)
      (hids : ∀ c ∈ calls, c.id ∈ s.issued ∧ allowed c) : Step allowed s none (s.put t (.busy none none calls))
  | alloc {s : Sys} {t : Nat} (hidle : s.threads t = .idle) : Step allowed s none (s.put t .pop)
  | pop {s : Sys} {t : Nat} (h : s.threads t = .pop) : Step allowed s none (s.pop t)
  | reuse {s : Sys} {t index : Nat} (h : s.threads t = .reuse index) : Step allowed s none (s.reuse t index)
  | grow {s : Sys} {t : Nat} (h : s.threads t = .grow) : Step allowed s none (s.grow t)
  | call {s : Sys} {t : Nat} {c : Call} {calls : List Call} (h : s.threads t = .busy none none (c :: calls)) :
      Step allowed s none (s.call t c calls)
  | recycle {s : Sys} {t index : Nat} {calls : List Call} (h : s.threads t = .busy none (some index) calls) :
      Step allowed s none (s.recycle t index calls)
  | wake {s : Sys} {t : Nat} {id : WakerSlotId} {waker : Waker} {recycle : Option Nat} {calls : List Call}
      (h : s.threads t = .busy (some (id, waker)) recycle calls) :
      Step allowed s (some waker) (s.put t (.busy none recycle calls))

end Pie.Waker
