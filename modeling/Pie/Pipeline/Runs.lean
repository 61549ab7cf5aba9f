import Pie.Lib.Systems
import Pie.Pipeline.Channel

/-!
# Runs of a channel

The host calls, the engine reads or publishes, in any order. What was put, read,
published and taken is written down along the way. `Orderly` is how the host
calls: a channel gets its endpoint after it was bound, and its seed is committed
once, after that, and flushed under the same lock.
-/

namespace Pie.Pipeline

open Eta Lib.Systems

/-- The channel's cell, its ring, and what has happened. `skipped`: values the engine was
given without the ring. -/
structure World where
  cell : ChannelCell
  ring : HostRing
  puts : List Bytes
  skipped : Nat
  reads : List Bytes
  published : List Bytes
  taken : List Bytes
deriving DecidableEq

inductive HostCall
  | attach (instanceId : Nat)
  | detach (instanceId : Nat)
  | attachEndpoint
  | put (native : Bytes)
  | commitSeed
  | flush
  /-- `commit_seed`, and `flush_writer_staging` before the lock is let go. -/
  | commitAndFlush
  | take
  | read
deriving DecidableEq, Repr

namespace World

variable (decl : ChannelDecl) (endpoint : ChannelEndpoint)

/-- A head that the host moves in a writer's ring passes over values the engine has. -/
def commit (w : World) : World :=
  { w with
    cell := (w.cell.commitSeed w.ring).1
    ring := (w.cell.commitSeed w.ring).2
    skipped := w.skipped + ((w.cell.commitSeed w.ring).2.head - w.ring.head) }

def flush (w : World) : World :=
  { w with cell := (w.cell.flushWriterStaging w.ring).2.1, ring := (w.cell.flushWriterStaging w.ring).2.2 }

def host (w : World) : HostCall → World
  | .attach instanceId =>
    match w.cell.attach w.ring instanceId decl none with
    | .ok cell => { w with cell }
    | .error _ => w
  | .detach instanceId => { w with cell := w.cell.detach instanceId }
  | .attachEndpoint =>
    { w with
      cell := (w.cell.attachEndpoint w.ring endpoint).2.1
      ring := (w.cell.attachEndpoint w.ring endpoint).2.2 }
  | .put native =>
    match w.cell.putRef w.ring native with
    | .ok (cell, ring) => { w with cell, ring, puts := w.puts ++ [native] }
    | .error _ => w
  | .commitSeed => w.commit
  | .flush => w.flush
  | .commitAndFlush => w.commit.flush
  | .take =>
    match w.cell.take w.ring with
    | (.ok value, cell, ring) => { w with cell, ring, taken := w.taken ++ [value] }
    | (.error _, cell, ring) => { w with cell, ring }
  | .read => { w with cell := (w.cell.read w.ring).2 }

/-- The engine that binds an instance writes its seed into a ring of its own. -/
def placeSeed (w : World) (seed : Bytes) : World :=
  { w with ring := { w.ring with cells := w.ring.cells.set 0 (w.cell.wire seed), tail := 1 } }

/-- The engine reads the cell at the head. -/
def consume (w : World) : World :=
  { w with
    ring := { w.ring with head := w.ring.head + 1 }
    reads := w.reads ++ [(w.ring.cells[w.ring.head % (endpoint.capacity.toNat + 1)]?).getD []] }

/-- The engine writes the cell at the tail. -/
def publish (w : World) (native : Bytes) : World :=
  { w with
    ring := { w.ring with
      cells := w.ring.cells.set (w.ring.tail % (endpoint.capacity.toNat + 1))
        (w.cell.mirrorWire endpoint.cellBytes native)
      tail := w.ring.tail + 1 }
    published := w.published ++ [native] }

/-- One call of the host, among those `allowed`, or one step of the engine. -/
inductive Step (allowed : World → HostCall → Prop) : World → World → Prop
  | host {w : World} {call : HostCall} (h : allowed w call) : Step allowed w (w.host decl endpoint call)
  | placeSeed {w : World} {seed : Bytes} (hrole : w.cell.role = some .writer) (hadopted : endpoint.adopted = true)
      (hpending : w.cell.seedPending = true) (htail : w.ring.tail = 0) (hseed : w.cell.staged.head? = some seed) :
      Step allowed w (w.placeSeed seed)
  | consume {w : World} (hrole : decl.hostRole = .writer) (h : w.ring.head < w.ring.tail) :
      Step allowed w (w.consume endpoint)
  | publish {w : World} {native : Bytes} (hrole : decl.hostRole = .reader)
      (hroom : w.ring.tail - w.ring.head < endpoint.capacity.toNat) (hnative : w.cell.Native native) :
      Step allowed w (w.publish endpoint native)
  | poison {w : World} {epoch : Nat} (h : epoch ≠ 0) :
      Step allowed w { w with ring := { w.ring with poison := epoch } }
  | close {w : World} {word : Nat} (h : word ≠ 0) :
      Step allowed w { w with ring := { w.ring with closed := word } }

/-- A new cell, and a ring for the declared channel. -/
def Start (w : World) : Prop :=
  ∃ globalId shape dtype capacity cells,
    cells.length = endpoint.capacity.toNat + 1 ∧ endpoint.capacity = decl.capacity
      ∧ w = ⟨.new globalId shape dtype capacity, ⟨cells, 0, 0, 0, 0⟩, [], 0, [], [], []⟩

abbrev Runs (allowed : World → HostCall → Prop) : World → Prop :=
  Reachable (Start decl endpoint) (Step decl endpoint allowed)

/-- The calls as the binding of a pass makes them. The engine of an adopted ring has placed
the seed when the endpoint comes, and the seed was looked at before it is committed. -/
def Orderly (w : World) : HostCall → Prop
  | .attachEndpoint =>
    w.cell.role ≠ none
      ∧ (endpoint.adopted = true → w.cell.role = some .writer → w.cell.seedPending = true → 0 < w.ring.tail)
  | .commitSeed => False
  | .commitAndFlush => w.cell.seedPending = true ∧ w.cell.staged ≠ [] ∧ w.cell.endpoint ≠ none
  | _ => True

/-- The engine reads what was put, in that order; of the rest every value is in the ring, in its
place, or staged. -/
structure InOrder (w : World) : Prop where
  reads : w.reads <+: (w.puts.drop w.skipped).map w.cell.wire
  skipped : w.skipped ≤ decl.seeded.toNat
  bounded : w.puts.length ≤ w.skipped + w.reads.length + w.cell.capacity.toNat
  waiting : ∃ k, w.cell.staged = w.puts.drop k ∧ ∀ n, w.skipped + w.reads.length ≤ n → n < k →
    n < w.ring.tail ∧ w.ring.cells[n % (endpoint.capacity.toNat + 1)]? = (w.puts[n]?).map w.cell.wire

/-- `take` returns what was published, in that order, each as soon as the words let it; the
host finds no overrun. -/
structure Delivered (w : World) : Prop where
  taken : w.taken <+: w.published
  bounded : w.published.length ≤ w.taken.length + endpoint.capacity.toNat
  clean : w.cell.poisoned ≠ none → w.ring.poison ≠ 0
  next : w.cell.endpoint ≠ none → w.ring.poison = 0 → w.ring.closed = 0 →
    (w.cell.take w.ring).1 = (w.published[w.taken.length]?).elim (.error .empty) .ok
      ∧ (w.cell.read w.ring).1 = (w.published[w.taken.length]?).elim (.error .empty) .ok

end World

end Pie.Pipeline
