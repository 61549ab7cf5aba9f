import Pie.Lib.Systems
import Pie.Waker.Table

/-!
# Waiting on a slot

`WaitFuture` checks, registers its waker and checks again; writers raise a
counter or set a flag, and then call the table. Names follow `wait.rs`. A check
loads the flag and the counter one at a time, in any order. Every other thread
does what it likes with the table, except that only the future registers a waker
in the slot or takes it out again.
-/

namespace Pie.Waker

/-- What a check reads: a word of its own, or the epoch that was published in the slot. -/
inductive Source
  | counter
  | published
deriving DecidableEq, Repr

/-- Ready when what is read is past the target, or when the flag is set. -/
structure Check where
  source : Source
  target : Nat
deriving DecidableEq, Repr

inductive Readiness
  | ready
  | pending (observed : Nat)
deriving DecidableEq, Repr

/-- What a check has loaded so far. -/
structure Loads where
  flag : Option Bool
  count : Option Nat
deriving DecidableEq, Repr

def Loads.none : Loads := ⟨.none, .none⟩

/-- What the check returns, once it has loaded enough. -/
def Check.verdict (check : Check) (loads : Loads) : Option Readiness :=
  match loads.flag, loads.count with
  | some true, _ => some .ready
  | flag, some count =>
    if check.target < count then some .ready
    else if flag = some false then some (.pending count) else none
  | _, .none => none

/-- Where `poll` is. -/
inductive Stage
  /-- Between polls; the waker of the last poll, if it returned `Pending`. -/
  | resting (last : Option Waker)
  | first (waker : Waker) (loads : Loads)
  | registering (waker : Waker) (observed : Nat)
  /-- The slot did not take the waker, and it is about to be woken. -/
  | refused (waker : Waker)
  | second (waker : Waker) (observed : Nat) (loads : Loads)
  /-- The second check was ready. -/
  | removing
deriving DecidableEq, Repr

structure WaitFuture where
  check : Check
  stage : Stage
deriving DecidableEq, Repr

/-- The table with its threads, the words a check reads, the one live future, and the wakers
woken since it last registered. -/
structure World where
  sys : Sys
  counter : Nat
  flag : Bool
  future : Option WaitFuture
  since : List Waker

/-- Only the future of the slot registers in it. -/
def Outside (slot : WakerSlotId) (c : Call) : Prop :=
  c.id = slot → (∀ waker observed, c ≠ .register slot waker observed) ∧ c ≠ .deregister slot

/-- What the check would load now; a slot with another generation has published nothing. -/
def World.count (w : World) (slot : WakerSlotId) : Source → Nat
  | .counter => w.counter
  | .published => (w.sys.table.published slot).getD 0

/-- What the check would return now. -/
def World.isReady (w : World) (slot : WakerSlotId) (check : Check) : Prop :=
  w.flag = true ∨ check.target < w.count slot check.source

def World.become (w : World) (check : Check) (stage : Stage) : World :=
  { w with future := some ⟨check, stage⟩ }

/-- The registration of a poll. -/
def World.register (w : World) (slot : WakerSlotId) (check : Check) (waker : Waker) (observed : Nat) : World :=
  { w with
    sys := { w.sys with table := (w.sys.table.register slot waker observed).1 }
    future := some ⟨check,
      if (w.sys.table.register slot waker observed).2 then .second waker observed .none else .refused waker⟩
    since := [] }

def World.deregister (w : World) (slot : WakerSlotId) : World :=
  { w with sys := { w.sys with table := w.sys.table.deregister slot } }

/-- One thing that happens. `value`: what the counter may be raised to. -/
inductive World.Step (value : Nat → Prop) (slot : WakerSlotId) : World → World → Prop
  /-- A thread goes on. -/
  | thread {w : World} {woken : Option Waker} {sys : Sys} (h : w.sys.Step (Outside slot) woken sys) :
      Step value slot w { w with sys, since := w.since ++ woken.toList }
  /-- A writer raises the counter; next it calls `wake_past` or `publish` with the value. -/
  | raise {w : World} {t v : Nat} {c : Call} (hidle : w.sys.threads t = .idle) (hslot : slot ∈ w.sys.issued)
      (hv : value v) (hraise : w.counter < v) (hc : c = .wakePast slot v ∨ c = .publish slot v) :
      Step value slot w { w with sys := w.sys.put t (.busy none none [c]), counter := v }
  /-- A writer sets the flag; next it sweeps the slot, perhaps with others, or frees it. -/
  | setFlag {w : World} {t : Nat} {calls : List Call} (hidle : w.sys.threads t = .idle) (hslot : slot ∈ w.sys.issued)
      (hc : calls = [.free slot] ∨ ∃ ids, calls = sweep ids ∧ slot ∈ ids ∧ ∀ id ∈ ids, id ∈ w.sys.issued) :
      Step value slot w { w with sys := w.sys.put t (.busy none none calls), flag := true }
  | new {w : World} {check : Check} (h : w.future = none) (hslot : slot ∈ w.sys.issued) :
      Step value slot w (w.become check (.resting none))
  | poll {w : World} {check : Check} {last : Option Waker} {waker : Waker}
      (h : w.future = some ⟨check, .resting last⟩) : Step value slot w (w.become check (.first waker .none))
  | firstFlag {w : World} {check : Check} {waker : Waker} {loads : Loads}
      (h : w.future = some ⟨check, .first waker loads⟩) (hl : loads.flag = none) :
      Step value slot w (w.become check (.first waker { loads with flag := some w.flag }))
  | firstCount {w : World} {check : Check} {waker : Waker} {loads : Loads}
      (h : w.future = some ⟨check, .first waker loads⟩) (hl : loads.count = none) :
      Step value slot w (w.become check (.first waker { loads with count := some (w.count slot check.source) }))
  | firstReady {w : World} {check : Check} {waker : Waker} {loads : Loads}
      (h : w.future = some ⟨check, .first waker loads⟩) (hv : check.verdict loads = some .ready) :
      Step value slot w (w.become check (.resting none))
  | firstPending {w : World} {check : Check} {waker : Waker} {loads : Loads} {observed : Nat}
      (h : w.future = some ⟨check, .first waker loads⟩) (hv : check.verdict loads = some (.pending observed)) :
      Step value slot w (w.become check (.registering waker observed))
  | register {w : World} {check : Check} {waker : Waker} {observed : Nat}
      (h : w.future = some ⟨check, .registering waker observed⟩) :
      Step value slot w (w.register slot check waker observed)
  /-- `wake_by_ref` -/
  | refused {w : World} {check : Check} {waker : Waker} (h : w.future = some ⟨check, .refused waker⟩) :
      Step value slot w { w.become check (.resting (some waker)) with since := w.since ++ [waker] }
  | secondFlag {w : World} {check : Check} {waker : Waker} {observed : Nat} {loads : Loads}
      (h : w.future = some ⟨check, .second waker observed loads⟩) (hl : loads.flag = none) :
      Step value slot w (w.become check (.second waker observed { loads with flag := some w.flag }))
  | secondCount {w : World} {check : Check} {waker : Waker} {observed : Nat} {loads : Loads}
      (h : w.future = some ⟨check, .second waker observed loads⟩) (hl : loads.count = none) :
      Step value slot w
        (w.become check (.second waker observed { loads with count := some (w.count slot check.source) }))
  | secondReady {w : World} {check : Check} {waker : Waker} {observed : Nat} {loads : Loads}
      (h : w.future = some ⟨check, .second waker observed loads⟩) (hv : check.verdict loads = some .ready) :
      Step value slot w (w.become check .removing)
  | secondPending {w : World} {check : Check} {waker : Waker} {observed again : Nat} {loads : Loads}
      (h : w.future = some ⟨check, .second waker observed loads⟩) (hv : check.verdict loads = some (.pending again)) :
      Step value slot w (w.become check (.resting (some waker)))
  | remove {w : World} {check : Check} (h : w.future = some ⟨check, .removing⟩) :
      Step value slot w ((w.deregister slot).become check (.resting none))
  | drop {w : World} {check : Check} {last : Option Waker} (h : w.future = some ⟨check, .resting last⟩) :
      Step value slot w { w.deregister slot with future := none }

/-- An empty table, nobody waits; the counter has any value. -/
def World.Start (w : World) : Prop := w.sys = .new ∧ w.flag = false ∧ w.future = none ∧ w.since = []

/-- No thread has a call on the slot left, nor a waker taken from it to wake. -/
def World.Finished (w : World) (slot : WakerSlotId) : Prop :=
  ∀ t, (∀ c ∈ (w.sys.threads t).calls, c.id ≠ slot) ∧ ∀ waker, (w.sys.threads t).taken ≠ some (slot, waker)

/-- The waker of a poll that returned `Pending` has been woken, or the check is not ready. -/
def World.Attended (w : World) (slot : WakerSlotId) : Prop :=
  ∀ check waker, w.future = some ⟨check, .resting (some waker)⟩ → ¬w.isReady slot check ∨ waker ∈ w.since

end Pie.Waker
