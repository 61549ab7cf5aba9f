import Pie.Lib.Rings
import Pie.Pipeline.Runs

/-!
# A writer's ring

The values that were put are numbered. Those below the writer's tail are in the
ring or were read, the others are staged; a seed that was not committed is number
`0`, and the tail stands behind it. A staged value that stays behind an attached
endpoint was refused, and then the ring refuses every other one.
-/

namespace Pie.Proof.Channels

open List Pie.Pipeline Pie.Eta Lib.Rings Lib.Systems ChannelCell World

variable {cell cell' : ChannelCell} {ring ring' : HostRing} {endpoint : ChannelEndpoint} {puts rest : List Bytes}
  {native : Bytes}

theorem wireLen_congr {a b : Bytes} (h : a.length = b.length) : cell.wireLen a = cell.wireLen b := by
  unfold ChannelCell.wireLen
  rw [h]

/-! ## One write -/

theorem writeWriterRing_ok (h : cell.writeWriterRing ring endpoint native = .ok (cell', ring')) :
    cell.writerTail - ring.head < cell.capacity.toNat ∧ cell.wireLen native = endpoint.cellBytes
      ∧ cell' = { cell with
          writerTail := cell.writerTail + 1, ringHostCopies := cell.ringHostCopies ++ [native] }
      ∧ ring' = { ring with
          cells := ring.cells.set (cell.writerTail % (endpoint.capacity.toNat + 1)) (cell.wire native)
          tail := cell.writerTail + 1 } := by
  unfold writeWriterRing at h
  split at h
  · cases h
  split at h
  · cases h
  split at h
  · cases h
  split at h
  · cases h
  rename_i hfull hlen
  rw [not_ne_iff] at hlen
  cases h
  rw [wire, hlen]
  exact ⟨Nat.lt_of_not_le hfull, rfl, rfl, rfl⟩

/-- The ring takes no value of this cell, whichever it is. -/
def Refuses (endpoint : ChannelEndpoint) (cell : ChannelCell) (ring : HostRing) : Prop :=
  ring.poison ≠ 0 ∨ ring.closed ≠ 0
    ∨ ∀ native : Bytes, native.length = cell.nativeLen → cell.wireLen native ≠ endpoint.cellBytes

theorem Refuses.write (h : Refuses endpoint cell ring) (hn : native.length = cell.nativeLen) :
    ∃ error, cell.writeWriterRing ring endpoint native = .error error := by
  unfold writeWriterRing
  by_cases hpoison : ring.poison ≠ 0
  · exact ⟨_, if_pos hpoison⟩
  by_cases hclosed : ring.closed ≠ 0
  · exact ⟨_, by rw [if_neg hpoison, if_pos hclosed]⟩
  have hlen := (h.resolve_left hpoison).resolve_left hclosed native hn
  rw [if_neg hpoison, if_neg hclosed, if_pos hlen]
  split
  · exact ⟨_, rfl⟩
  · exact ⟨_, rfl⟩

/-- The values up to the writer's tail are in the ring, as far as they were not read. -/
structure Queued (endpoint : ChannelEndpoint) (cell : ChannelCell) (ring : HostRing) (puts rest : List Bytes) : Prop where
  rest : rest = puts.drop cell.writerTail
  tail : ring.tail = cell.writerTail
  window : Window ring.cells (puts.map cell.wire) ring.head ring.tail
  room : puts.length ≤ ring.head + cell.capacity.toNat
  cells : ring.cells.length = endpoint.capacity.toNat + 1
  capacity : cell.capacity = endpoint.capacity

/-- The first that is not in the ring is written behind those that are. -/
theorem Queued.write (h : Queued endpoint cell ring puts (native :: rest))
    (hw : cell.writeWriterRing ring endpoint native = .ok (cell', ring')) : Queued endpoint cell' ring' puts rest := by
  obtain ⟨hroom, -, rfl, rfl⟩ := writeWriterRing_ok hw
  have hrest := h.rest
  have hfirst : puts[cell.writerTail]? = some native := by
    rw [← head?_drop, ← hrest]
    rfl
  refine ⟨?_, rfl, ?_, h.room, by rw [length_set]; exact h.cells, h.capacity⟩
  · show rest = puts.drop (cell.writerTail + 1)
    rw [← drop_drop, ← hrest]
    rfl
  · have hspace : ring.tail < ring.head + ring.cells.length := by
      rw [h.cells, h.tail, ← h.capacity]
      omega
    have hwindow := h.window.write hspace (show (puts.map cell.wire)[ring.tail]? = some (cell.wire native) by
      rw [getElem?_map, h.tail, hfirst]
      rfl)
    rw [h.cells, h.tail] at hwindow
    exact hwindow

/-- A value that was put and is not in the ring is refused only where every other one is. -/
theorem Queued.refused {error : ChannelError} (h : Queued endpoint cell ring puts (native :: rest))
    (hn : native.length = cell.nativeLen) (hw : cell.writeWriterRing ring endpoint native = .error error) :
    Refuses endpoint cell ring := by
  unfold writeWriterRing at hw
  split at hw
  · exact .inl ‹_›
  split at hw
  · exact .inr (.inl ‹_›)
  split at hw
  · rename_i hfull
    have hlen := congrArg length h.rest
    rw [length_cons, length_drop] at hlen
    have hle := h.window.le
    have hroom := h.room
    rw [h.tail] at hle
    omega
  split at hw
  · rename_i hlen
    exact .inr (.inr fun other ho => wireLen_congr (ho.trans hn.symm) ▸ hlen)
  · cases hw

/-! ## Flushing -/

/-- Values were written to the ring, and nothing else happened to the cell. -/
def Wrote (cell cell' : ChannelCell) (ring ring' : HostRing) : Prop :=
  ∃ staged writerTail copies cells tail, cell.writerTail ≤ writerTail
    ∧ cell' = { cell with staged, writerTail, ringHostCopies := copies } ∧ ring' = { ring with cells, tail }

theorem Wrote.of_write (h : cell.writeWriterRing ring endpoint native = .ok (cell', ring')) :
    Wrote cell cell' ring ring' := by
  obtain ⟨-, -, hcell, hring⟩ := writeWriterRing_ok h
  exact ⟨_, _, _, _, _, Nat.le_succ _, hcell, hring⟩

theorem Wrote.trans {cell'' : ChannelCell} {ring'' : HostRing} (h : Wrote cell cell' ring ring')
    (h' : Wrote cell' cell'' ring' ring'') : Wrote cell cell'' ring ring'' := by
  obtain ⟨_, _, _, _, _, hle, rfl, rfl⟩ := h
  obtain ⟨_, _, _, _, _, hle', rfl, rfl⟩ := h'
  exact ⟨_, _, _, _, _, le_trans hle hle', rfl, rfl⟩

/-- What is staged behind the ring, and refused if it is still there. -/
structure Flushed (endpoint : ChannelEndpoint) (cell : ChannelCell) (ring : HostRing) (puts : List Bytes) : Prop where
  queued : Queued endpoint cell ring puts cell.staged
  refused : cell.staged ≠ [] → Refuses endpoint cell ring

theorem flushStaged_flushed : ∀ {rest : List Bytes} {cell : ChannelCell} {ring : HostRing},
    Queued endpoint cell ring puts rest → (∀ native ∈ rest, native.length = cell.nativeLen) →
    Flushed endpoint (flushStaged endpoint rest cell ring).2.1
        (flushStaged endpoint rest cell ring).2.2 puts
      ∧ Wrote cell (flushStaged endpoint rest cell ring).2.1 ring
        (flushStaged endpoint rest cell ring).2.2 := by
  intro rest
  induction rest with
  | nil =>
    intro cell ring h _
    exact ⟨⟨⟨h.rest, h.tail, h.window, h.room, h.cells, h.capacity⟩, absurd rfl⟩, _, _, _, _, _, le_rfl, rfl, rfl⟩
  | cons native rest ih =>
    intro cell ring h hlen
    unfold flushStaged
    have hn := hlen native mem_cons_self
    cases hw : cell.writeWriterRing ring endpoint native with
    | error error =>
      exact ⟨⟨⟨h.rest, h.tail, h.window, h.room, h.cells, h.capacity⟩, fun _ => h.refused hn hw⟩,
        _, _, _, _, _, le_rfl, rfl, rfl⟩
    | ok next =>
      obtain ⟨cell', ring'⟩ := next
      have hwrote := Wrote.of_write hw
      have hnative : cell'.nativeLen = cell.nativeLen := by
        obtain ⟨_, _, _, _, _, -, rfl, -⟩ := hwrote
        rfl
      obtain ⟨hflushed, hwrote'⟩ := ih (h.write hw) fun other ho => by
        rw [hnative]
        exact hlen other (mem_cons_of_mem _ ho)
      exact ⟨hflushed, hwrote.trans hwrote'⟩

/-! ## The invariant -/

variable {decl : ChannelDecl} {w : World}

/-- Nothing but staging has happened. -/
structure Unbound (w : World) : Prop where
  role : w.cell.role = none
  attached : w.cell.endpoint = none
  seeded : w.cell.seeded = false
  seedTaken : w.cell.seedTaken = false
  writerTail : w.cell.writerTail = 0
  tail : w.ring.tail = 0
  staged : w.cell.staged = w.puts

structure BoundWriter (decl : ChannelDecl) (endpoint : ChannelEndpoint) (w : World) : Prop where
  role : w.cell.role = some .writer
  capacity : w.cell.capacity = endpoint.capacity
  seeded : w.cell.seeded = decl.seeded
  attached : w.cell.endpoint = none ∨ w.cell.endpoint = some endpoint

/-- The seed is staged in front of the others, and in the ring only if the engine put it there. -/
structure Pending (decl : ChannelDecl) (endpoint : ChannelEndpoint) (w : World) : Prop
    extends BoundWriter decl endpoint w where
  pending : w.cell.seedPending = true
  writerTail : w.cell.writerTail = 1
  staged : w.cell.staged = w.puts
  skipped : w.skipped = 0
  tail : w.ring.tail ≤ 1
  adopted : 0 < w.ring.tail → endpoint.adopted = true
  placed : endpoint.adopted = true → w.cell.endpoint ≠ none → 0 < w.ring.tail

/-- There is no seed to wait for. -/
structure Writing (decl : ChannelDecl) (endpoint : ChannelEndpoint) (w : World) : Prop
    extends BoundWriter decl endpoint w where
  pending : w.cell.seedPending = false
  tail : w.ring.tail = w.cell.writerTail
  staged : w.cell.staged = w.puts.drop w.cell.writerTail
  early : w.cell.endpoint = none → w.cell.writerTail = 0
  seed : w.cell.seeded = true → 1 ≤ w.cell.writerTail

/-- Values are written as they are put, once there is an endpoint. -/
structure Settled (decl : ChannelDecl) (endpoint : ChannelEndpoint) (w : World) : Prop
    extends Writing decl endpoint w where
  refused : w.cell.endpoint ≠ none → w.cell.staged ≠ [] → Refuses endpoint w.cell w.ring

structure WriterCore (decl : ChannelDecl) (endpoint : ChannelEndpoint) (w : World) : Prop where
  cells : w.ring.cells.length = endpoint.capacity.toNat + 1
  lengths : ∀ native ∈ w.puts, native.length = w.cell.nativeLen
  room : w.puts.length ≤ w.ring.head + w.cell.capacity.toNat
  window : Window w.ring.cells (w.puts.map w.cell.wire) w.ring.head w.ring.tail
  mirror : w.cell.reader = none ∧ w.cell.produced = []
  skipped : w.skipped ≤ w.ring.head ∧ w.skipped ≤ decl.seeded.toNat
  reads : w.reads = ((w.puts.take w.ring.head).drop w.skipped).map w.cell.wire

/-- **What holds of a writer's channel in every state.** -/
structure WriterInv (decl : ChannelDecl) (endpoint : ChannelEndpoint) (w : World) : Prop
    extends WriterCore decl endpoint w where
  phase : Unbound w ∨ Pending decl endpoint w ∨ Settled decl endpoint w

theorem writerInv_init (h : w.Start decl endpoint) : WriterInv decl endpoint w := by
  obtain ⟨globalId, shape, dtype, capacity, cells, hcells, -, rfl⟩ := h
  exact ⟨⟨hcells, nofun, Nat.zero_le _, .empty (Nat.zero_le _), ⟨rfl, rfl⟩, ⟨le_rfl, Nat.zero_le _⟩, rfl⟩,
    .inl ⟨rfl, rfl, rfl, rfl, rfl, rfl, rfl⟩⟩

/-! ### Binding -/

theorem validateAttachment_ok (h : cell.validateAttachment decl none = .ok ()) (hrole : decl.hostRole ≠ .none) :
    cell.capacity = decl.capacity ∧ cell.attachments = [] := by
  unfold validateAttachment at h
  split at h
  · cases h
  split at h
  · cases h
  split at h
  · cases h
  split at h
  · cases h
  split at h
  · rw [if_pos (.inl hrole)] at h
    cases h
  · exact ⟨not_ne_iff.mp ‹_›, not_ne_iff.mp ‹_›⟩

theorem bindCounters_eq : cell.bindCounters ring decl = { cell with
    writerTail := (cell.bindCounters ring decl).writerTail
    deviceReservedHead := (cell.bindCounters ring decl).deviceReservedHead
    deviceReservedTail := (cell.bindCounters ring decl).deviceReservedTail } := by
  unfold bindCounters
  by_cases hseed : decl.seeded = true ∧ decl.hostRole = .writer
  · simp only [if_pos hseed]
    cases cell.endpoint <;> rfl
  · simp only [if_neg hseed]
    cases cell.endpoint <;> rfl

theorem attach_ok {instanceId : Nat} (h : cell.attach ring instanceId decl none = .ok cell')
    (hrole : decl.hostRole ≠ .none) :
    cell.capacity = decl.capacity ∧ cell' = { cell with
      role := some decl.hostRole
      seeded := decl.seeded
      writerTail := (cell.bindCounters ring decl).writerTail
      declaredDtype := cell'.declaredDtype
      externName := cell'.externName
      attachments := cell'.attachments
      deviceReservedHead := cell'.deviceReservedHead
      deviceReservedTail := cell'.deviceReservedTail } := by
  unfold ChannelCell.attach at h
  cases hv : cell.validateAttachment decl none with
  | error error => rw [hv] at h; cases h
  | ok _ =>
    rw [hv] at h
    have hcell := Except.ok.inj h
    obtain ⟨hcap, hnone⟩ := validateAttachment_ok hv hrole
    refine ⟨hcap, ?_⟩
    rw [← hcell]
    unfold ChannelCell.bind
    rw [if_pos hnone, bindCounters_eq]

theorem bindCounters_writerTail : (cell.bindCounters ring decl).writerTail
    = max (if cell.endpoint ≠ none ∧ decl.hostRole = .writer then max cell.writerTail ring.tail else cell.writerTail)
      (if decl.seeded ∧ decl.hostRole = .writer then 1 else 0) := by
  unfold bindCounters
  by_cases hseed : decl.seeded = true ∧ decl.hostRole = .writer
  · simp only [if_pos hseed]
    cases cell.endpoint <;> simp
  · simp only [if_neg hseed]
    cases cell.endpoint <;> simp

theorem WriterInv.attach (h : WriterInv decl endpoint w) (hcap : endpoint.capacity = decl.capacity)
    (hrole : decl.hostRole = .writer) {instanceId : Nat} {cell' : ChannelCell}
    (ha : w.cell.attach w.ring instanceId decl none = .ok cell') : WriterInv decl endpoint { w with cell := cell' } := by
  obtain ⟨hcapacity, hcell⟩ := attach_ok ha (by rw [hrole]; nofun)
  have htail : (w.cell.bindCounters w.ring decl).writerTail = _ := bindCounters_writerTail
  generalize (w.cell.bindCounters w.ring decl).writerTail = tail at hcell htail
  have hcapacity' : w.cell.capacity = endpoint.capacity := hcapacity.trans hcap.symm
  rw [hcell]
  refine { h with phase := .inr ?_ }
  rcases h.phase with hu | hp | hs
  · have hnone : ¬(w.cell.endpoint ≠ none ∧ decl.hostRole = .writer) := fun hc => hc.1 hu.attached
    rw [if_neg hnone, hu.writerTail] at htail
    cases hseed : decl.seeded with
    | true =>
      rw [hseed, if_pos ⟨rfl, hrole⟩] at htail
      have hskip : w.skipped = 0 := by
        have hle := h.window.le
        rw [hu.tail] at hle
        exact Nat.le_zero.mp (le_trans h.skipped.1 hle)
      refine .inl ⟨⟨congrArg some hrole, hcapacity', hseed.symm, .inl hu.attached⟩, ?_, htail, hu.staged, hskip,
        by rw [hu.tail]; exact Nat.zero_le _, ?_, ?_⟩
      · show (true && !w.cell.seedTaken) = true
        rw [hu.seedTaken]
        rfl
      · intro hlt
        rw [hu.tail] at hlt
        exact absurd hlt (lt_irrefl 0)
      · exact fun _ he => absurd hu.attached he
    | false =>
      rw [hseed, if_neg (fun hc => by cases hc.1)] at htail
      have hzero : tail = 0 := htail
      refine .inr ⟨⟨⟨congrArg some hrole, hcapacity', hseed.symm, .inl hu.attached⟩, rfl, hu.tail.trans hzero.symm,
        ?_, fun _ => hzero, nofun⟩, fun he => absurd hu.attached he⟩
      show w.cell.staged = w.puts.drop tail
      rw [hzero, hu.staged]
      rfl
  · have hsame : tail = w.cell.writerTail := by
      have hle := hp.tail
      rw [htail, hp.writerTail]
      split <;> split <;> omega
    refine .inl { hp with role := congrArg some hrole, seeded := rfl, pending := ?_, writerTail := ?_ }
    · show (decl.seeded && !w.cell.seedTaken) = true
      rw [← hp.seeded]
      exact hp.pending
    · exact hsame.trans hp.writerTail
  · have hsame : tail = w.cell.writerTail := by
      have hseed := hs.seed
      rw [hs.seeded] at hseed
      have hone : (if decl.seeded ∧ decl.hostRole = .writer then 1 else 0) ≤ w.cell.writerTail := by
        split
        · exact hseed ‹_ ∧ _›.1
        · exact Nat.zero_le _
      rw [htail, hs.tail, Nat.max_self, ite_self]
      exact max_eq_left hone
    rw [hsame]
    refine .inr { hs with role := congrArg some hrole, seeded := rfl, pending := ?_, seed := ?_ }
    · show (decl.seeded && !w.cell.seedTaken) = false
      rw [← hs.seeded]
      exact hs.pending
    · rw [← hs.seeded]
      exact hs.seed

/-! ### Flushing and committing -/

theorem WriterCore.queued (h : WriterCore decl endpoint w) (hw : Writing decl endpoint w) :
    Queued endpoint w.cell w.ring w.puts w.cell.staged :=
  ⟨hw.staged, hw.tail, h.window, h.room, h.cells, hw.capacity⟩

/-- After a flush, what is still staged was refused. -/
theorem Writing.flush (hw : Writing decl endpoint w) (h : WriterCore decl endpoint w)
    (he : w.cell.endpoint = some endpoint) : WriterInv decl endpoint w.flush := by
  have heq : w.cell.flushWriterStaging w.ring = flushStaged endpoint w.cell.staged w.cell w.ring := by
    unfold flushWriterStaging
    rw [if_neg (by rw [hw.role, hw.pending]; simp), he]
  have hlengths : ∀ native ∈ w.cell.staged, native.length = w.cell.nativeLen := by
    intro native hn
    rw [hw.staged] at hn
    exact h.lengths native (mem_of_mem_drop hn)
  obtain ⟨hflushed, hwrote⟩ := flushStaged_flushed (h.queued hw) hlengths
  unfold World.flush
  rw [heq]
  generalize (flushStaged endpoint w.cell.staged w.cell w.ring).2 = next at *
  obtain ⟨_, _⟩ := next
  obtain ⟨staged, writerTail, copies, cells, tail, hle, rfl, rfl⟩ := hwrote
  have hq := hflushed.queued
  refine ⟨⟨hq.cells, h.lengths, h.room, hq.window, h.mirror, h.skipped, h.reads⟩, .inr (.inr ?_)⟩
  have hearly : w.cell.endpoint = none → writerTail = 0 := fun hc => by rw [he] at hc; cases hc
  exact ⟨⟨{ hw.toBoundWriter with }, hw.pending, hq.tail, hq.rest, hearly, fun hs => le_trans (hw.seed hs) hle⟩,
    fun _ => hflushed.refused⟩

theorem WriterInv.flush (h : WriterInv decl endpoint w) : WriterInv decl endpoint w.flush := by
  -- without a writer, with a seed to wait for or without an endpoint nothing happens
  have hsame : w.cell.flushWriterStaging w.ring = (.ok (), w.cell, w.ring) → WriterInv decl endpoint w.flush := by
    intro heq
    unfold World.flush
    rw [heq]
    exact h
  rcases h.phase with hu | hp | hs
  · exact hsame (if_pos (.inl (by rw [hu.role]; nofun)))
  · exact hsame (if_pos (.inr hp.pending))
  · rcases hs.attached with he | he
    · refine hsame ?_
      unfold flushWriterStaging
      rw [if_neg (by rw [hs.role, hs.pending]; simp), he]
    · exact hs.toWriting.flush h.toWriterCore he

/-- The seed leaves the staging queue, and the tail already stands behind it. -/
theorem Pending.commit (hp : Pending decl endpoint w) (h : WriterCore decl endpoint w) (hstaged : w.cell.staged ≠ [])
    (he : w.cell.endpoint = some endpoint) :
    WriterCore decl endpoint w.commit ∧ Writing decl endpoint w.commit ∧ w.commit.cell.endpoint = some endpoint := by
  obtain ⟨hseeded, htaken⟩ : w.cell.seeded = true ∧ w.cell.seedTaken = false := by
    have hpending := hp.pending
    unfold seedPending at hpending
    simpa using hpending
  have hone : 1 ≤ decl.seeded.toNat := by
    rw [← hp.seeded, hseeded]
    exact le_refl 1
  have hpos : 1 ≤ w.puts.length := by
    rw [← hp.staged]
    exact length_pos_of_ne_nil hstaged
  have hdrop : w.cell.staged.tail = w.puts.drop w.cell.writerTail := by
    rw [hp.staged, hp.writerTail, drop_one]
  unfold World.commit commitSeed
  rw [he]
  dsimp only
  by_cases hadopted : endpoint.adopted = true
  · have htail : w.ring.tail = 1 := le_antisymm hp.tail (hp.placed hadopted (by rw [he]; nofun))
    rw [if_neg (by rw [hadopted]; simp)]
    refine ⟨{ h with skipped := ⟨?_, ?_⟩, reads := ?_ }, ?_, rfl⟩
    · rw [hp.skipped, Nat.sub_self]
      exact Nat.zero_le _
    · rw [hp.skipped, Nat.sub_self]
      exact Nat.zero_le _
    · rw [Nat.sub_self]
      exact h.reads
    · refine ⟨{ hp.toBoundWriter with attached := .inr rfl }, ?_, htail.trans hp.writerTail.symm, hdrop, ?_, ?_⟩
      · exact Bool.and_false _
      · nofun
      · exact fun _ => le_of_eq hp.writerTail.symm
  · have htail : w.ring.tail = 0 := by
      by_contra hne
      exact hadopted (hp.adopted (Nat.pos_of_ne_zero hne))
    have hhead : w.ring.head = 0 := Nat.le_zero.mp (htail ▸ h.window.le)
    rw [if_pos ⟨hp.role, by simpa using hadopted, htail, hhead⟩]
    have hroom := h.room
    have hreads := h.reads
    rw [hhead] at hroom hreads
    refine ⟨⟨h.cells, h.lengths, ?_, ?_, h.mirror, ⟨?_, ?_⟩, ?_⟩, ?_, rfl⟩
    · show w.puts.length ≤ w.cell.writerTail + w.cell.capacity.toNat
      omega
    · exact .empty (by rw [hp.writerTail, length_map]; exact hpos)
    · show w.skipped + (w.cell.writerTail - w.ring.head) ≤ w.cell.writerTail
      rw [hp.skipped, hhead]
      omega
    · show w.skipped + (w.cell.writerTail - w.ring.head) ≤ decl.seeded.toNat
      rw [hp.skipped, hhead, hp.writerTail]
      exact hone
    · show w.reads = ((w.puts.take w.cell.writerTail).drop (w.skipped + (w.cell.writerTail - w.ring.head))).map w.cell.wire
      rw [hreads, hp.skipped, hhead, hp.writerTail]
      cases w.puts <;> rfl
    · refine ⟨{ hp.toBoundWriter with attached := .inr rfl }, ?_, rfl, hdrop, ?_, ?_⟩
      · exact Bool.and_false _
      · nofun
      · exact fun _ => le_of_eq hp.writerTail.symm

theorem WriterInv.commitAndFlush (h : WriterInv decl endpoint w) (hpending : w.cell.seedPending = true)
    (hstaged : w.cell.staged ≠ []) (he : w.cell.endpoint ≠ none) : WriterInv decl endpoint w.commit.flush := by
  rcases h.phase with hu | hp | hs
  · exact absurd hu.attached he
  · obtain ⟨hcore, hwriting, hattached⟩ := hp.commit h.toWriterCore hstaged (hp.attached.resolve_left he)
    exact hwriting.flush hcore hattached
  · rw [hs.pending] at hpending
    cases hpending

/-- The endpoint comes, and what was put before it is written. -/
theorem WriterInv.attachEndpoint (h : WriterInv decl endpoint w) (hrole : w.cell.role ≠ none)
    (hplaced : endpoint.adopted = true → w.cell.role = some .writer → w.cell.seedPending = true → 0 < w.ring.tail) :
    WriterInv decl endpoint (w.host decl endpoint .attachEndpoint) := by
  show WriterInv decl endpoint { w with
    cell := (w.cell.attachEndpoint w.ring endpoint).2.1, ring := (w.cell.attachEndpoint w.ring endpoint).2.2 }
  unfold ChannelCell.attachEndpoint
  split
  · exact h
  split
  · exact h
  rename_i hnone
  have hwriter : w.cell.role = some .writer := by
    rcases h.phase with hu | hp | hs
    · exact absurd hu.role hrole
    · exact hp.role
    · exact hs.role
  rw [if_neg (by rw [hwriter]; nofun)]
  dsimp only
  rw [if_pos hwriter]
  -- the world as it is when the flush begins
  have hcore : WriterCore decl endpoint { w with cell := { w.cell with endpoint := some endpoint } } :=
    { h.toWriterCore with }
  have hinv : WriterInv decl endpoint (World.flush { w with cell := { w.cell with endpoint := some endpoint } }) := by
    rcases h.phase with hu | hp | hs
    · exact absurd hu.role hrole
    · refine WriterInv.flush ⟨hcore, .inr (.inl { hp with attached := .inr rfl, placed := fun ha _ => ?_ })⟩
      exact hplaced ha hwriter hp.pending
    · refine Writing.flush { hs.toWriting with attached := .inr rfl, early := nofun } hcore rfl
  unfold World.flush at hinv
  split
  · rename_i heq
    dsimp only at hinv
    rw [heq] at hinv
    exact hinv
  · rename_i heq
    dsimp only at hinv
    rw [heq] at hinv
    exact hinv

/-! ### Putting -/

theorem checkPut_ok (h : cell.checkPut native = .ok ()) : native.length = cell.nativeLen := by
  unfold checkPut at h
  split at h
  · cases h
  · exact not_ne_iff.mp ‹_›

theorem putRef_ok (h : cell.putRef ring native = .ok (cell', ring')) : native.length = cell.nativeLen
      ∧ ((∃ e, cell.directRing = some e ∧ cell.writeWriterRing ring e native = .ok (cell', ring'))
        ∨ cell.directRing = none
            ∧ cell.writerTail - (if cell.endpoint.isSome then ring.head else 0) + cell.staged.length < cell.capacity.toNat
            ∧ cell' = { cell with staged := cell.staged ++ [native] } ∧ ring' = ring) := by
  unfold putRef at h
  split at h
  · cases h
  refine ⟨checkPut_ok ‹_›, ?_⟩
  split at h
  · exact .inl ⟨_, ‹_›, h⟩
  rename_i hdirect
  dsimp only at h
  by_cases hfull : cell.capacity.toNat ≤
      cell.writerTail - (if cell.endpoint.isSome then ring.head else 0) + cell.staged.length
  · rw [if_pos hfull] at h
    cases h
  · rw [if_neg hfull] at h
    cases h
    exact .inr ⟨hdirect, Nat.lt_of_not_le hfull, rfl, rfl⟩

theorem WriterCore.staging (h : WriterCore decl endpoint w) (hn : native.length = w.cell.nativeLen)
    (hroom : w.puts.length < w.ring.head + w.cell.capacity.toNat) {staged : List Bytes} :
    WriterCore decl endpoint { w with cell := { w.cell with staged }, puts := w.puts ++ [native] } := by
  refine { h with lengths := ?_, room := ?_, window := ?_, reads := ?_ }
  · intro other ho
    rcases mem_append.mp ho with ho | ho
    · exact h.lengths other ho
    · rw [mem_singleton.mp ho]
      exact hn
  · show (w.puts ++ [native]).length ≤ _
    rw [length_append]
    exact hroom
  · show Window w.ring.cells ((w.puts ++ [native]).map w.cell.wire) w.ring.head w.ring.tail
    rw [map_append]
    exact h.window.append _
  · show w.reads = (((w.puts ++ [native]).take w.ring.head).drop w.skipped).map w.cell.wire
    have hle : w.ring.head ≤ w.puts.length := by
      have hwithin := h.window.within
      rw [length_map] at hwithin
      exact le_trans h.window.le hwithin
    rw [take_append_of_le_length hle]
    exact h.reads

section

variable (h : WriterInv decl endpoint w)
include h

theorem writing_of (hrole : w.cell.role = some .writer)
    (hpending : w.cell.seedPending = false) : Settled decl endpoint w := by
  rcases h.phase with hu | hp | hs
  · rw [hu.role] at hrole
    cases hrole
  · rw [hp.pending] at hpending
    cases hpending
  · exact hs

theorem WriterInv.put {cell' : ChannelCell} {ring' : HostRing}
    (hput : w.cell.putRef w.ring native = .ok (cell', ring')) :
    WriterInv decl endpoint { w with cell := cell', ring := ring', puts := w.puts ++ [native] } := by
  obtain ⟨hn, ⟨e, hdirect, hwrite⟩ | ⟨hdirect, hroom, rfl, rfl⟩⟩ := putRef_ok hput
  · obtain ⟨hwriter, hpending⟩ : w.cell.role = some .writer ∧ w.cell.seedPending = false := by
      unfold directRing at hdirect
      split at hdirect
      · assumption
      · cases hdirect
    unfold directRing at hdirect
    rw [if_pos ⟨hwriter, hpending⟩] at hdirect
    obtain hs := writing_of h hwriter hpending
    have hsome : w.cell.endpoint ≠ none := by rw [hdirect]; nofun
    obtain rfl : e = endpoint := Option.some.inj (hdirect.symm.trans (hs.attached.resolve_left hsome))
    -- had anything been refused, this would be refused as well
    have hnil : w.cell.staged = [] := by
      by_contra hne
      obtain ⟨error, herror⟩ := (hs.refused hsome hne).write hn
      rw [hwrite] at herror
      cases herror
    have hall : w.cell.writerTail = w.puts.length := by
      have hwithin := h.window.within
      rw [length_map, hs.tail] at hwithin
      refine le_antisymm hwithin ?_
      rw [hs.staged] at hnil
      exact drop_eq_nil_iff.mp hnil
    obtain ⟨hroom, -, -, -⟩ := writeWriterRing_ok hwrite
    have hcore : WriterCore decl e { w with puts := w.puts ++ [native] } := by
      have hle := h.window.le
      rw [hs.tail, hall] at hle
      exact h.toWriterCore.staging hn (by omega)
    have hq : Queued e w.cell w.ring (w.puts ++ [native]) [native] :=
      ⟨by rw [hall, drop_left], hs.tail, hcore.window, hcore.room, h.cells, hs.capacity⟩
    have hq' := hq.write hwrite
    obtain ⟨-, -, rfl, rfl⟩ := writeWriterRing_ok hwrite
    refine ⟨⟨hq'.cells, hcore.lengths, hcore.room, hq'.window, h.mirror, h.skipped, hcore.reads⟩, .inr (.inr ?_)⟩
    refine ⟨⟨{ hs.toBoundWriter with }, hpending, rfl, ?_, fun hc => absurd hc hsome,
      fun hseed => Nat.le_succ_of_le (hs.seed hseed)⟩, fun _ hne => absurd hnil hne⟩
    exact hnil.trans hq'.rest
  · rcases h.phase with hu | hp | hs
    · rw [hu.writerTail, hu.staged, Nat.zero_sub, zero_add] at hroom
      refine ⟨h.toWriterCore.staging hn (by omega), .inl { hu with staged := ?_ }⟩
      show w.cell.staged ++ [native] = w.puts ++ [native]
      rw [hu.staged]
    · rw [hp.staged] at hroom
      refine ⟨h.toWriterCore.staging hn (by omega), .inr (.inl { hp with staged := ?_ })⟩
      show w.cell.staged ++ [native] = w.puts ++ [native]
      rw [hp.staged]
    · have hnone : w.cell.endpoint = none := by
        unfold directRing at hdirect
        rwa [if_pos ⟨hs.role, hs.pending⟩] at hdirect
      have hstaged : w.cell.staged = w.puts := by
        rw [hs.staged, hs.early hnone]
        rfl
      rw [hs.early hnone, hstaged, Nat.zero_sub, zero_add] at hroom
      refine ⟨h.toWriterCore.staging hn (by omega),
        .inr (.inr { hs with staged := ?_, refused := fun hc => absurd hnone hc })⟩
      show w.cell.staged ++ [native] = (w.puts ++ [native]).drop w.cell.writerTail
      rw [hs.early hnone, hstaged]
      rfl

/-- Neither the mirror nor what was copied from it concerns a writer. -/
theorem WriterInv.readable (op : String) :
    w.cell.refreshReaderMirrors w.ring = (.ok (), w.cell) ∧ ∃ error, w.cell.readable op = .error error := by
  constructor
  · unfold refreshReaderMirrors
    rw [h.mirror.1]
  · have hrole : w.cell.role = none ∨ w.cell.role = some .writer := by
      rcases h.phase with hu | hp | hs
      · exact .inl hu.role
      · exact .inr hp.role
      · exact .inr hs.role
    unfold ChannelCell.readable
    rw [h.mirror.2]
    rcases hrole with hrole | hrole
    · rw [hrole]
      cases w.cell.poisoned <;> exact ⟨_, rfl⟩
    · rw [hrole]
      cases w.cell.poisoned <;> exact ⟨_, rfl⟩

theorem WriterInv.take : w.host decl endpoint .take = w := by
  obtain ⟨hrefresh, error, herror⟩ := h.readable "take"
  unfold host ChannelCell.take
  rw [hrefresh]
  dsimp only
  rw [herror]

theorem WriterInv.read : w.host decl endpoint .read = w := by
  obtain ⟨hrefresh, -⟩ := h.readable "read"
  unfold host ChannelCell.read
  rw [hrefresh]

theorem WriterInv.consume (hlt : w.ring.head < w.ring.tail) :
    WriterInv decl endpoint (w.consume endpoint) := by
  have hlen : w.ring.head < w.puts.length := by
    have hwithin := h.window.within
    rw [length_map] at hwithin
    exact lt_of_lt_of_le hlt hwithin
  have hcell : w.ring.cells[w.ring.head % (endpoint.capacity.toNat + 1)]? = some (w.cell.wire w.puts[w.ring.head]) := by
    rw [← h.cells, h.window.holds _ le_rfl hlt, getElem?_map, getElem?_eq_getElem hlen]
    rfl
  unfold World.consume
  rw [hcell]
  have hphase : Unbound w → False := fun hu => by
    rw [hu.tail] at hlt
    exact Nat.not_lt_zero _ hlt
  refine ⟨⟨h.cells, h.lengths, ?_, h.window.advance hlt, h.mirror, ⟨?_, h.skipped.2⟩, ?_⟩, .inr ?_⟩
  · show w.puts.length ≤ w.ring.head + 1 + w.cell.capacity.toNat
    have hroom := h.room
    omega
  · exact Nat.le_succ_of_le h.skipped.1
  · show w.reads ++ [w.cell.wire w.puts[w.ring.head]]
      = ((w.puts.take (w.ring.head + 1)).drop w.skipped).map w.cell.wire
    rw [← take_concat_get' _ _ hlen, drop_append_of_le_length (by rw [length_take]; have := h.skipped.1; omega),
      map_append, h.reads]
    rfl
  · rcases h.phase with hu | hp | hs
    · exact (hphase hu).elim
    · exact .inl { hp with }
    · exact .inr { hs with }

theorem WriterInv.placeSeed {seed : Bytes} (hrole : w.cell.role = some .writer)
    (hadopted : endpoint.adopted = true) (hpending : w.cell.seedPending = true) (htail : w.ring.tail = 0)
    (hseed : w.cell.staged.head? = some seed) : WriterInv decl endpoint (w.placeSeed seed) := by
  rcases h.phase with hu | hp | hs
  · rw [hu.role] at hrole
    cases hrole
  · have hfirst : (w.puts.map w.cell.wire)[w.ring.tail]? = some (w.cell.wire seed) := by
      rw [htail, getElem?_map, ← head?_eq_getElem?, ← hp.staged, hseed]
      rfl
    have hspace : w.ring.tail < w.ring.head + w.ring.cells.length := by
      rw [h.cells]
      omega
    have hwindow := h.window.write hspace hfirst
    rw [htail, Nat.zero_mod] at hwindow
    refine ⟨⟨by rw [← h.cells]; exact length_set, h.lengths, h.room, hwindow, h.mirror, h.skipped, h.reads⟩,
      .inr (.inl { hp with tail := le_refl 1, adopted := fun _ => hadopted, placed := fun _ _ => Nat.one_pos })⟩
  · rw [hs.pending] at hpending
    cases hpending

/-- A ring that refused goes on refusing when a word is set. -/
theorem WriterInv.words {poison closed : Nat} (hpoison : w.ring.poison ≠ 0 → poison ≠ 0)
    (hclosed : w.ring.closed ≠ 0 → closed ≠ 0) :
    WriterInv decl endpoint { w with ring := { w.ring with poison, closed } } := by
  refine { h with phase := ?_ }
  rcases h.phase with hu | hp | hs
  · exact .inl { hu with }
  · exact .inr (.inl { hp with })
  · refine .inr (.inr { hs with refused := fun he hne => ?_ })
    exact (hs.refused he hne).imp hpoison (Or.imp_left hclosed)

/-! ### Runs -/

theorem writerInv_host (hcap : endpoint.capacity = decl.capacity)
    (hrole : decl.hostRole = .writer) {call : HostCall} (ho : w.Orderly endpoint call) :
    WriterInv decl endpoint (w.host decl endpoint call) := by
  cases call with
  | attach instanceId =>
    unfold World.host
    dsimp only
    cases ha : w.cell.attach w.ring instanceId decl none with
    | error error => exact h
    | ok cell' => exact h.attach hcap hrole ha
  | detach instanceId =>
    refine { h with phase := ?_ }
    rcases h.phase with hu | hp | hs
    · exact .inl { hu with }
    · exact .inr (.inl { hp with })
    · exact .inr (.inr { hs with })
  | attachEndpoint => exact h.attachEndpoint ho.1 ho.2
  | put native =>
    unfold World.host
    dsimp only
    cases hput : w.cell.putRef w.ring native with
    | error error => exact h
    | ok next => exact h.put hput
  | commitSeed => exact ho.elim
  | flush => exact h.flush
  | commitAndFlush => exact h.commitAndFlush ho.1 ho.2.1 ho.2.2
  | take =>
    rw [h.take]
    exact h
  | read =>
    rw [h.read]
    exact h

end

theorem writerInv_step {w' : World} (hcap : endpoint.capacity = decl.capacity) (hrole : decl.hostRole = .writer)
    (h : WriterInv decl endpoint w) (hs : Step decl endpoint (Orderly endpoint) w w') :
    WriterInv decl endpoint w' := by
  cases hs with
  | host ho => exact writerInv_host h hcap hrole ho
  | placeSeed hwriter hadopted hpending htail hseed => exact h.placeSeed hwriter hadopted hpending htail hseed
  | consume _ hlt => exact h.consume hlt
  | publish hreader => rw [hrole] at hreader; cases hreader
  | poison hp => exact h.words (fun _ => hp) id
  | close hc => exact h.words id fun _ => hc

theorem runs_capacity {allowed : World → HostCall → Prop} (h : Runs decl endpoint allowed w) :
    endpoint.capacity = decl.capacity := by
  induction h with
  | init h0 =>
    obtain ⟨_, _, _, _, _, -, hcap, -⟩ := h0
    exact hcap
  | step _ _ ih => exact ih

theorem writerInv_runs (hrole : decl.hostRole = .writer) (h : Runs decl endpoint (Orderly endpoint) w) :
    WriterInv decl endpoint w :=
  h.invariant (fun _ => writerInv_init) fun _ _ hr hi hs => writerInv_step (runs_capacity hr) hrole hi hs

theorem WriterInv.inOrder (h : WriterInv decl endpoint w) : w.InOrder decl endpoint := by
  have hle : w.ring.head ≤ w.puts.length := by
    have hwithin := h.window.within
    rw [length_map] at hwithin
    exact le_trans h.window.le hwithin
  have hread : w.skipped + w.reads.length = w.ring.head := by
    rw [h.reads, length_map, length_drop, length_take, min_eq_left hle]
    exact Nat.add_sub_cancel' h.skipped.1
  refine ⟨?_, h.skipped.2, by rw [hread]; exact h.room, ?_⟩
  · rw [h.reads]
    exact (( take_prefix _ _).drop _).map _
  · rw [hread]
    have hheld : ∀ n, w.ring.head ≤ n → n < w.ring.tail →
        w.ring.cells[n % (endpoint.capacity.toNat + 1)]? = (w.puts[n]?).map w.cell.wire := by
      intro n hl hh
      rw [← h.cells, h.window.holds n hl hh, getElem?_map]
    rcases h.phase with hu | hp | hs
    · exact ⟨0, hu.staged, fun n _ hn => absurd hn (Nat.not_lt_zero n)⟩
    · exact ⟨0, hp.staged, fun n _ hn => absurd hn (Nat.not_lt_zero n)⟩
    · refine ⟨w.cell.writerTail, hs.staged, fun n hl hn => ?_⟩
      rw [← hs.tail] at hn
      exact ⟨hn, hheld n hl hn⟩

/-- **A writer's channel is a bounded queue.** -/
theorem runs_inOrder (hrole : decl.hostRole = .writer) (h : Runs decl endpoint (Orderly endpoint) w) :
    w.InOrder decl endpoint :=
  (writerInv_runs hrole h).inOrder

end Pie.Proof.Channels
