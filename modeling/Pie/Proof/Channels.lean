import Pie.Proof.ChannelReads

/-!
# Channels are bounded queues

Where the calls come as the binding of a pass makes them, the engine reads a
writer's values as they were put, and the host takes a reader's as they were
published. Three runs show that the calls have to come so.
-/

namespace Pie.Proof.Channels

open List Pie.Pipeline Pie.Eta Lib.Rings Lib.Systems

variable {decl : ChannelDecl} {endpoint : ChannelEndpoint} {w : World}

/-- With nothing wrong, what is read or taken next is the next that was published. -/
theorem ReaderInv.next (h : ReaderInv endpoint w) {copied : Nat} (hm : Mirrored endpoint w copied)
    (hpoison : w.ring.poison = 0) (hclosed : w.ring.closed = 0) :
    ∃ cell', w.cell.refreshReaderMirrors w.ring = (.ok (), cell')
      ∧ ∀ op, cell'.readable op = (w.published[w.ring.head]?).elim (.error .empty) .ok := by
  obtain ⟨result, poisoned, copied', hrefresh, -, -, -, hgood⟩ := refresh_mirrored h hm
  obtain ⟨rfl, rfl, rfl⟩ := hgood hpoison hclosed
  refine ⟨_, hrefresh, fun op => ?_⟩
  refine (readable_reader ?_).trans ?_
  · exact .inr hm.role
  show ((w.published.take w.ring.tail).drop w.ring.head).head?.elim _ _ = _
  rw [h.tail, take_length, head?_drop]

theorem ReaderInv.delivered (h : ReaderInv endpoint w) : w.Delivered endpoint := by
  have hhead : w.ring.head ≤ w.published.length := h.tail ▸ h.window.le
  have hlen : w.taken.length = w.ring.head := by
    rw [h.taken, length_take, min_eq_left hhead]
  refine ⟨?_, ?_, h.clean, fun he hpoison hclosed => ?_⟩
  · rw [h.taken]
    exact take_prefix _ _
  · rw [hlen, ← h.tail]
    exact h.room
  · rw [hlen]
    rcases h.mirror with hu | ⟨copied, hm⟩
    · exact absurd hu.endpoint he
    · obtain ⟨cell', hrefresh, hread⟩ := h.next hm hpoison hclosed
      unfold ChannelCell.take ChannelCell.read
      rw [hrefresh]
      dsimp only
      rw [hread, hread]
      refine ⟨?_, rfl⟩
      cases w.published[w.ring.head]? <;> rfl

/-- **Every channel is a bounded queue**, from the host to the engine or from the engine to the host. -/
theorem channel_queue (h : World.Runs decl endpoint (World.Orderly endpoint) w) :
    (decl.hostRole = .writer → w.InOrder decl endpoint) ∧ (decl.hostRole = .reader → w.Delivered endpoint) :=
  ⟨fun hrole => runs_inOrder hrole h, fun hrole => (readerInv_runs hrole h).delivered⟩

/-! ## Runs -/

variable {allowed : World → HostCall → Prop} (seeded : Bool)

/-- A channel of single booleans. -/
def flags : ChannelDecl := ⟨.scalar, .concrete .bool, 3, .writer, seeded⟩

def flagRing : ChannelEndpoint := ⟨1, 7, 1, 3, false⟩

def flagStart : World := ⟨.new 7 [] .bool 3, ⟨[[], [], [], []], 0, 0, 0, 0⟩, [], 0, [], [], []⟩

/-- The host calls, and then the engine reads once. -/
def afterCalls (calls : List HostCall) : World :=
  (calls.foldl (World.host (flags seeded) flagRing) flagStart).consume flagRing

theorem flagStart_runs : World.Runs (flags seeded) flagRing allowed flagStart :=
  .init ⟨7, [], .bool, 3, _, rfl, rfl, rfl⟩

theorem runs_call (h : World.Runs decl endpoint allowed w) {call : HostCall}
    (ha : allowed w call) : World.Runs decl endpoint allowed (w.host decl endpoint call) :=
  h.step (.host ha)

theorem afterCalls_runs {seeded : Bool} {calls : List HostCall}
    (h : (calls.foldl (World.host (flags seeded) flagRing) flagStart).ring.head
      < (calls.foldl (World.host (flags seeded) flagRing) flagStart).ring.tail) :
    World.Runs (flags seeded) flagRing (fun _ _ => True) (afterCalls seeded calls) := by
  have hcalls : ∀ (calls : List HostCall) {w : World}, World.Runs (flags seeded) flagRing (fun _ _ => True) w →
      World.Runs (flags seeded) flagRing (fun _ _ => True) (calls.foldl (World.host (flags seeded) flagRing) w) := by
    intro calls
    induction calls with
    | nil => exact id
    | cons call calls ih => exact fun hw => ih (runs_call hw trivial)
  exact (hcalls calls (flagStart_runs seeded)).step (.consume rfl h)

theorem channel_queue_flags : (afterCalls true
    [.put [0], .put [0], .attach 1, .attachEndpoint, .commitAndFlush, .put [1]]).InOrder (flags true) flagRing := by
  have hseed := runs_call (flagStart_runs true) (show flagStart.Orderly flagRing (.put [0]) from trivial)
  have hput := runs_call hseed (show World.Orderly flagRing _ (.put [0]) from trivial)
  have hattach := runs_call hput (show World.Orderly flagRing _ (.attach 1) from trivial)
  have hendpoint := runs_call hattach (show World.Orderly flagRing _ .attachEndpoint from ⟨by decide, nofun⟩)
  have hcommit := runs_call hendpoint (show World.Orderly flagRing _ .commitAndFlush from ⟨rfl, nofun, nofun⟩)
  have hlast := runs_call hcommit (show World.Orderly flagRing _ (.put [1]) from trivial)
  exact (channel_queue (hlast.step (.consume rfl (by decide)))).1 rfl

/-- A value that is put between the seed's commit and the flush overtakes what was staged; a commit
without a seed loses a value; an endpoint that comes before the binding leaves values staged. -/
theorem calls_out_of_order :
    (∃ w, World.Runs (flags true) flagRing (fun _ _ => True) w ∧ ¬w.InOrder (flags true) flagRing)
      ∧ (∃ w, World.Runs (flags false) flagRing (fun _ _ => True) w ∧ ¬w.InOrder (flags false) flagRing
        ∧ w.cell.seedTaken = true)
      ∧ ∃ w, World.Runs (flags false) flagRing (fun _ _ => True) w ∧ ¬w.InOrder (flags false) flagRing
        ∧ w.cell.seedTaken = false := by
  refine ⟨⟨afterCalls true [.put [0], .put [0], .attach 1, .attachEndpoint, .commitSeed, .put [1]],
    afterCalls_runs (by decide), fun h => ?_⟩, ⟨afterCalls false [.put [0], .put [1], .commitSeed, .attach 1, .attachEndpoint],
    afterCalls_runs (by decide), fun h => ?_, rfl⟩, ⟨afterCalls false [.put [0], .attachEndpoint, .attach 1, .put [1]],
    afterCalls_runs (by decide), fun h => ?_, rfl⟩⟩
  · exact absurd h.reads (by decide)
  · exact absurd h.reads (by decide)
  · exact absurd h.reads (by decide)

end Pie.Proof.Channels
