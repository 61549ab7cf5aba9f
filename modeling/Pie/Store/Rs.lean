import Pie.Lib.Reading
import Pie.Store.GenMap
import Pie.Store.Pool

/-!
# Recurrent state

A working set holds a slot with the state its tokens fold into, and a buffer of
pages for the tokens past it. A fire prepares what it writes, taking slots and
pages from a grant or from the pools, and publishes it or cancels it; what a fork
shares is copied before it is written.

Names follow `store/rs.rs`. Counts are plain numbers, and a difference that would
be negative panics. What only checks itself in a debug build is left out, as are
the checkpoints and the moves to the host.
-/

namespace Pie.Store.Rs

open Lib

structure RsSlotId where
  index : Nat
deriving DecidableEq, Repr

instance : PoolId RsSlotId where
  fromIndex := RsSlotId.mk
  index := RsSlotId.index
  index_fromIndex _ := rfl

inductive RsWsMarker

abbrev RsWorkingSetId := GenKey RsWsMarker

def U32_MAX : Nat := 2 ^ 32 - 1

def saturatingAdd (a b : Nat) : Nat := min (a + b) U32_MAX

structure RsGeometry where
  stateSize : Nat
  bufferPageTokens : Nat
deriving DecidableEq, Repr

/-- The tokens a token is read through, and those a page holds. -/
structure RingGeometry where
  tokens : Nat
  pageSize : Nat
deriving DecidableEq, Repr

structure RingState where
  retired : Nat
  committed : Nat
  head : Nat
deriving DecidableEq, Repr

/-- What a fire moves a ring by once it is published. -/
structure RingAdvance where
  positioned : Bool
  settled : Nat
  reach : Nat
  fold : Option Nat
  commitEnd : Nat
  head : Option Nat
deriving DecidableEq, Repr

structure RsUnits where
  slots : Nat
  pages : Nat
deriving DecidableEq, Repr

namespace RsUnits

def covers (have' need : RsUnits) : Bool := need.slots ≤ have'.slots && need.pages ≤ have'.pages

def add (a b : RsUnits) : RsUnits := ⟨a.slots + b.slots, a.pages + b.pages⟩

end RsUnits

inductive RsError
  | unknownWorkingSet
  | belowFrozen (slot frozen : Nat)
  | duplicateWorkingSet
  | outOfSlots (requested available : RsUnits)
  | grantMismatch (required granted : RsUnits)
deriving DecidableEq, Repr

structure RsGrant where
  slots : List RsSlotId
  pages : List RsSlotId
deriving DecidableEq, Repr

def RsGrant.units (grant : RsGrant) : RsUnits := ⟨grant.slots.length, grant.pages.length⟩

/-- Token `t` of page `p` holds slot `base + p * page + t`. -/
structure RsEntry where
  geom : RsGeometry
  folded : Option RsSlotId
  buffer : List (Option RsSlotId)
  base : Nat
  frozen : Nat
  ring : Option RingState
deriving DecidableEq, Repr

structure Touch where
  writes : List RsSlotId
  reads : List RsSlotId
deriving DecidableEq, Repr

structure RsStateTarget where
  slot : RsSlotId
  reset : Bool
  copyFrom : Option RsSlotId
  foldTokens : Option Nat
deriving DecidableEq, Repr

inductive RsBufferTarget
  | fresh (index : Nat) (dst : RsSlotId)
  | inPlace (index : Nat) (dst : RsSlotId)
  | cow (index : Nat) (src dst : RsSlotId)
deriving DecidableEq, Repr

namespace RsBufferTarget

def src : RsBufferTarget → Option RsSlotId
  | .cow _ src _ => some src
  | _ => none

def dst : RsBufferTarget → RsSlotId
  | .fresh _ dst => dst
  | .inPlace _ dst => dst
  | .cow _ _ dst => dst

def index : RsBufferTarget → Nat
  | .fresh index _ => index
  | .inPlace index _ => index
  | .cow index _ _ => index

end RsBufferTarget

structure RsPreparedWrite where
  ws : RsWorkingSetId
  state : Option RsStateTarget
  buffers : List RsBufferTarget
  allocated : List RsSlotId
  seq : Nat
  snapshots : List (Nat × RsSlotId)

structure RsPendingFold where
  ws : RsWorkingSetId
  tokens : Nat

/-- A working set's state as of a row of the fire, held by a hidden working set. -/
structure RsSnapshot where
  ws : RsWorkingSetId
  row : Nat
  slot : RsSlotId
  snapshot : RsWorkingSetId

structure RsPublished where
  seqs : List Nat
  snapshots : List RsSnapshot

structure RsStore where
  slots : Pool RsSlotId
  pages : Pool RsSlotId
  hostSlots : Pool RsSlotId
  hostPages : Pool RsSlotId
  pagesAt : Nat
  ring : Option RingGeometry
  refs : AList fun _ : RsSlotId => Nat
  workingSets : GenMap RsWsMarker RsEntry
  seq : Nat
  inflight : List (Nat × Touch)

namespace RsStore

def new (slots pages hostSlots hostPages : Nat) : RsStore where
  slots := Pool.new slots
  pages := Pool.newRange slots pages
  hostSlots := Pool.newRange (slots + pages) hostSlots
  hostPages := Pool.newRange (slots + pages + hostSlots) hostPages
  pagesAt := slots
  ring := none
  refs := ∅
  workingSets := .empty
  seq := 0
  inflight := []

variable (s : RsStore)

/-! ## Ids and pools -/

def isPage (id : RsSlotId) : Bool :=
  (s.pagesAt ≤ id.index && id.index < s.hostSlots.base) || s.hostPages.contains id

def isHost (id : RsSlotId) : Bool := s.hostSlots.base ≤ id.index

def engineId (id : RsSlotId) : Nat :=
  if s.hostPages.contains id then id.index - s.hostPages.base
  else if s.hostSlots.contains id then id.index - s.hostSlots.base
  else if s.isPage id then id.index - s.pagesAt
  else id.index

def pageId (page : Nat) : RsSlotId := ⟨page + s.pagesAt⟩

def recycleOne (id : RsSlotId) (epoch : Nat) : RsStore :=
  if s.isPage id then { s with pages := s.pages.recycleAfterEpoch [id] epoch }
  else { s with slots := s.slots.recycleAfterEpoch [id] epoch }

def recycle (ids : List RsSlotId) (epoch : Nat) : RsStore := ids.foldl (fun s id => s.recycleOne id epoch) s

def releaseHost (id : RsSlotId) : RsStore :=
  if s.isPage id then { s with hostPages := s.hostPages.releaseReserved [id] }
  else { s with hostSlots := s.hostSlots.releaseReserved [id] }

/-- The oldest fire that is not settled. -/
def oldest : Option Nat := (s.inflight.map Prod.fst).min?

def retireIdle : RsStore :=
  -- with no fire on its way, everything that waits is retired
  match s.oldest with
  | some oldest =>
    { s with slots := s.slots.retireThrough (oldest - 1), pages := s.pages.retireThrough (oldest - 1) }
  | none => { s with slots := s.slots.retireThrough (2 ^ 64 - 1), pages := s.pages.retireThrough (2 ^ 64 - 1) }

def insertTouch (seq : Nat) (touch : Touch) : RsStore :=
  { s with inflight := s.inflight.filter (·.1 ≠ seq) ++ [(seq, touch)] }

def removeTouch (seq : Nat) : RsStore := { s with inflight := s.inflight.filter (·.1 ≠ seq) }

def modifyTouch (seq : Nat) (f : Touch → Touch) : RsStore :=
  { s with inflight := s.inflight.map fun e => if e.1 = seq then (e.1, f e.2) else e }

def noteReads (seq : Nat) (ids : List RsSlotId) : RsStore :=
  s.modifyTouch seq fun touch => { touch with reads := touch.reads ++ ids }

def refCount (id : RsSlotId) : Nat := (s.refs.lookup id).getD 1

/-- Drops a reference, and recycles the slot once none remains, behind the newest
fire that writes or reads it. -/
def decref (id : RsSlotId) : Bool × RsStore :=
  let count := s.refCount id - 1
  if count ≠ 0 then (false, { s with refs := s.refs.insert id count })
  else
    let s := { s with refs := s.refs.erase id }
    if s.isHost id then (true, s.releaseHost id)
    else
      let touching := s.inflight.filter fun e => id ∈ e.2.writes || id ∈ e.2.reads
      let epoch := (touching.map Prod.fst).max?.getD ((s.oldest.map (· - 1)).getD s.seq)
      (true, s.recycle [id] epoch)

def decrefAll (ids : List RsSlotId) : RsStore := ids.foldl (fun s id => (s.decref id).2) s

def available : RsUnits := ⟨s.slots.available, s.pages.available⟩

def alloc (need : RsUnits) : Option (List RsSlotId × List RsSlotId) × RsStore :=
  match s.slots.tryAllocN need.slots with
  | none => (none, s)
  | some (slots, rest) =>
    match s.pages.tryAllocN need.pages with
    | none => (none, { s with slots := rest.releaseReserved slots })
    | some (pages, restPages) => (some (slots, pages), { s with slots := rest, pages := restPages })

def reserve (need : RsUnits) : Option RsGrant × RsStore :=
  ((s.alloc need).1.map fun taken => ⟨taken.1, taken.2⟩, (s.alloc need).2)

def releaseReservation (grant : RsGrant) : RsStore :=
  { s with slots := s.slots.releaseReserved grant.slots, pages := s.pages.releaseReserved grant.pages }

/-! ## Working sets -/

def entry (ws : RsWorkingSetId) : Except RsError RsEntry :=
  match s.workingSets.get ws with
  | some entry => .ok entry
  | none => .error .unknownWorkingSet

def setEntry (ws : RsWorkingSetId) (entry : RsEntry) : RsStore := { s with workingSets := s.workingSets.set ws entry }

def createWorkingSet (geom : RsGeometry) : RsWorkingSetId × RsStore :=
  let entry : RsEntry := ⟨geom, none, [], 0, 0, s.ring.map fun _ => ⟨0, 0, 0⟩⟩
  ((s.workingSets.insert entry).1, { s with workingSets := (s.workingSets.insert entry).2 })

/-- The slots and pages an entry holds. -/
def slotsOf (entry : RsEntry) : List RsSlotId := entry.folded.toList ++ entry.buffer.filterMap id

def increfAll (ids : List RsSlotId) : RsStore :=
  ids.foldl (fun s id => { s with refs := s.refs.insert id (s.refCount id + 1) }) s

def fork (ws : RsWorkingSetId) : Except RsError RsWorkingSetId × RsStore :=
  match s.entry ws with
  | .error e => (.error e, s)
  | .ok entry =>
    let s := s.increfAll (slotsOf entry)
    (.ok (s.workingSets.insert entry).1, { s with workingSets := (s.workingSets.insert entry).2 })

/-- How many slots it was the last holder of. -/
def releaseWorkingSet (ws : RsWorkingSetId) : Nat × RsStore :=
  match s.workingSets.get ws with
  | none => (0, s)
  | some entry =>
    (slotsOf entry).foldl (fun (freed, s) id => let (last, s) := s.decref id; (freed + last.toNat, s))
      (0, { s with workingSets := s.workingSets.remove ws })

def foldedSlot (ws : RsWorkingSetId) : Except RsError (Option RsSlotId) := return (← s.entry ws).folded

def frozen (ws : RsWorkingSetId) : Except RsError Nat := return (← s.entry ws).frozen

/-- Where a buffer begins: an empty one, at what is folded. -/
def baseOf (entry : RsEntry) : Nat := if entry.buffer.isEmpty then entry.frozen else entry.base

def base (ws : RsWorkingSetId) : Except RsError Nat := return baseOf (← s.entry ws)

def RS_TRANSLATION_UNMAPPED : Nat := U32_MAX

def bufferTranslation (ws : RsWorkingSetId) : Except RsError (List Nat) :=
  return (← s.entry ws).buffer.map fun page => (page.map s.engineId).getD RS_TRANSLATION_UNMAPPED

/-! ## What a write takes -/

/-- A page of the buffer, where it is mapped. -/
def pageAt (entry : RsEntry) (index : Nat) : Option RsSlotId := entry.buffer[index]?.join

def pageTokens (entry : RsEntry) : Nat := max entry.geom.bufferPageTokens 1

def liveRing (entry : RsEntry) : Option RingState := entry.ring.filter fun _ => 0 < s.pages.capacity

def ringTargets (entry : RsEntry) (pages : List Nat) : List (Nat × Option RsSlotId) :=
  if (s.liveRing entry).isNone then []
  else (pages.mergeSort.dedup).map fun page => (page, pageAt entry page)

/-- Whether a write takes a fresh page: the set holds none, or shares the one it holds. -/
def takesPage (page : Option RsSlotId) : Bool := page.all fun id => 1 < s.refCount id

def targetsDemand (targets : List (Nat × Option RsSlotId)) : Nat := targets.countP fun t => s.takesPage t.2

/-- Whether a write of the state takes a fresh slot. -/
def takesSlot (writeState fresh : Bool) (folded : Option RsSlotId) : Bool :=
  writeState && (fresh || folded.all fun id => 1 < s.refCount id)

def ringDemand (ws : RsWorkingSetId) (pages : List Nat) : Except RsError RsUnits :=
  return ⟨0, s.targetsDemand (s.ringTargets (← s.entry ws) pages)⟩

/-- A difference of `u32`. -/
def minus (a b : Nat) : Except (Stop RsError) Nat := if b ≤ a then .ok (a - b) else .error .panic

/-- The pages the slots from `start` up to `stop` are of; a write of no slots has none. -/
def bufferTargets (entry : RsEntry) (writes : Option (Nat × Nat)) :
    Except (Stop RsError) (List (Nat × Option RsSlotId)) :=
  match writes.filter fun w => w.1 < w.2 with
  | none => return []
  | some (start, stop) =>
    if start < entry.frozen then .error (.error (.belowFrozen start entry.frozen))
    else do
      let page := pageTokens entry
      let first ← minus start (baseOf entry)
      let last ← minus (stop - 1) (baseOf entry)
      return (List.range' (first / page) (last / page + 1 - first / page)).map fun index => (index, pageAt entry index)

/-- Unwraps an error of the store, of a program that may panic. -/
def orStop {α : Type} (x : Except RsError α) : Except (Stop RsError) α := x.mapError .error

def groupDemand (ws : RsWorkingSetId) (writeState fresh : Bool) (writes : Option (Nat × Nat)) :
    Except (Stop RsError) RsUnits := do
  let entry ← orStop (s.entry ws)
  let targets ← bufferTargets entry writes
  return ⟨(s.takesSlot writeState fresh entry.folded).toNat, s.targetsDemand targets⟩

end RsStore

/-! ## Preparing -/

/-- A store, and the grant its caller may take from. -/
structure Held where
  store : RsStore
  granted : Option RsGrant

abbrev Act (ε α : Type) := EStateM (Stop ε) Held α

namespace RsStore

def lift {ε α : Type} (x : Except (Stop ε) α) : Act ε α := fun held =>
  match x with
  | .ok a => .ok a held
  | .error e => .error e held

/-- Slots and pages, of the grant if there is one, else of the pools. -/
def take (need : RsUnits) : Act RsError (List RsSlotId × List RsSlotId) := fun held =>
  match held.granted with
  | some grant =>
    if grant.units.covers need then
      .ok (grant.slots.take need.slots, grant.pages.take need.pages)
        { held with granted := some ⟨grant.slots.drop need.slots, grant.pages.drop need.pages⟩ }
    else .error (.error (.grantMismatch need grant.units)) held
  | none =>
    match held.store.alloc need with
    | (some taken, store) => .ok taken { held with store }
    | (none, store) => .error (.error (.outOfSlots need store.available)) { held with store }

/-- What becomes of the state; `fresh` is the slot that was taken for it. -/
def stateTarget (s : RsStore) (fresh : Bool) (foldTokens : Option Nat) (folded : Option RsSlotId)
    (slots : List RsSlotId) : Except (Stop RsError) RsStateTarget :=
  match folded, slots with
  | none, slot :: _ => .ok ⟨slot, true, none, foldTokens⟩
  | none, [] => .error .panic
  | some old, slots =>
    if fresh || 1 < s.refCount old then
      match slots with
      | slot :: _ => .ok ⟨slot, false, some old, foldTokens⟩
      | [] => .error .panic
    else .ok ⟨old, false, none, foldTokens⟩

/-- What becomes of each page; the fresh ones are given out in their order. -/
def placeTargets (s : RsStore) : List (Nat × Option RsSlotId) → List RsSlotId →
    Except (Stop RsError) (List RsBufferTarget)
  | [], _ => .ok []
  | (index, some src) :: rest, ids =>
    if 1 < s.refCount src then
      match ids with
      | dst :: ids => return .cow index src dst :: (← placeTargets s rest ids)
      | [] => .error .panic
    else return .inPlace index src :: (← placeTargets s rest ids)
  | (index, none) :: rest, ids =>
    match ids with
    | dst :: ids => return .fresh index dst :: (← placeTargets s rest ids)
    | [] => .error .panic

/-- Prepares a write of the state and of pages of the buffer. -/
def prepareTargets (ws : RsWorkingSetId) (writeState fresh : Bool) (foldTokens : Option Nat)
    (sources : List (Nat × Option RsSlotId)) : Act RsError RsPreparedWrite := do
  let s := (← get).store
  let folded := (← lift (orStop (s.entry ws))).folded
  let need : RsUnits := ⟨(s.takesSlot writeState fresh folded).toNat, s.targetsDemand sources⟩
  let (slots, pages) ← take need
  let state ← if writeState then some <$> lift (s.stateTarget fresh foldTokens folded slots) else pure none
  let buffers ← lift (s.placeTargets sources pages)
  let s := (← get).store
  let seq := s.seq + 1
  let touch : Touch := {
    writes := (state.map RsStateTarget.slot).toList ++ buffers.map RsBufferTarget.dst
    reads := (state.bind RsStateTarget.copyFrom).toList ++ buffers.filterMap RsBufferTarget.src }
  modify fun held => { held with store := { held.store with seq }.insertTouch seq touch }
  return { ws, state, buffers, allocated := slots ++ pages, seq, snapshots := [] }

/-- The buffer, long enough for the slots up to `stop`. -/
def growBuffer (entry : RsEntry) (stop : Nat) : RsEntry :=
  let base := baseOf entry
  let page := pageTokens entry
  let pages := (stop - base + page - 1) / page
  { entry with base, buffer := entry.buffer ++ List.replicate (pages - entry.buffer.length) none }

def prepareGroup (ws : RsWorkingSetId) (writeState fresh : Bool) (fold : Option Nat) (writes : Option (Nat × Nat)) :
    Act RsError RsPreparedWrite := do
  match writes.filter fun w => w.1 < w.2 with
  | some (_, stop) =>
    let entry ← lift (orStop ((← get).store.entry ws))
    modify fun held => { held with store := held.store.setEntry ws (growBuffer entry stop) }
  | none => pure ()
  let entry ← lift (orStop ((← get).store.entry ws))
  let targets ← lift (bufferTargets entry writes)
  prepareTargets ws writeState fresh fold targets

def prepareRing (ws : RsWorkingSetId) (pages : List Nat) : Act RsError RsPreparedWrite := do
  let s := (← get).store
  let entry ← lift (orStop (s.entry ws))
  prepareTargets ws false false none (s.ringTargets entry pages)

/-- A fresh slot for each of `rows`, where the fire lands the state as of that row. -/
def prepareSnapshots (prepared : RsPreparedWrite) (rows : List Nat) : Act RsError RsPreparedWrite := do
  if rows.isEmpty then return prepared
  else
    let (slots, _) ← take ⟨rows.length, 0⟩
    modify fun held => { held with
      store := held.store.modifyTouch prepared.seq fun touch => { touch with writes := touch.writes ++ slots } }
    return { prepared with allocated := prepared.allocated ++ slots, snapshots := rows.zip slots }

variable (s : RsStore)

def cancelPrepared (prepared : RsPreparedWrite) : RsStore :=
  ((s.recycle prepared.allocated prepared.seq).removeTouch prepared.seq).retireIdle

def cancelBatch (prepared : List RsPreparedWrite) : RsStore := prepared.foldl cancelPrepared s

/-! ## Publishing -/

/-- The entry after a page of its buffer was put there. -/
def putPage (entry : RsEntry) (index : Nat) (dst : RsSlotId) : RsEntry :=
  { entry with buffer := (entry.buffer ++ List.replicate (index + 1 - entry.buffer.length) none).set index (some dst) }

/-- `none` where the working set is gone, which a batch is checked for. -/
def setBufferPage (ws : RsWorkingSetId) (index : Nat) (dst : RsSlotId) : Option RsStore :=
  (s.workingSets.get ws).map fun entry => s.setEntry ws (putPage entry index dst)

def publishTarget (ws : RsWorkingSetId) (s : RsStore) : RsBufferTarget → Option RsStore
  | .fresh index dst => { s with refs := s.refs.insert dst 1 }.setBufferPage ws index dst
  | .cow index src dst => do
    let s ← { s with refs := s.refs.insert dst 1 }.setBufferPage ws index dst
    return (s.decref src).2
  | .inPlace _ _ => some s

def publishState (ws : RsWorkingSetId) (state : RsStateTarget) : Option RsStore := do
  let entry ← s.workingSets.get ws
  if entry.folded = some state.slot then return s
  else
    let s := { s with refs := s.refs.insert state.slot 1 }.setEntry ws { entry with folded := some state.slot }
    match entry.folded with
    | some old => return (s.decref old).2
    | none => return s

def publishSnapshot (ws : RsWorkingSetId) (geom : RsGeometry) (frozen : Nat) (acc : RsStore × List RsSnapshot)
    (row : Nat × RsSlotId) : RsStore × List RsSnapshot :=
  let s := { acc.1 with refs := acc.1.refs.insert row.2 1 }
  -- a sum of `u32` wraps
  let frozen := (frozen + row.1) % 2 ^ 32
  let entry : RsEntry := ⟨geom, some row.2, [], frozen, frozen, none⟩
  ({ s with workingSets := (s.workingSets.insert entry).2 },
    acc.2 ++ [⟨ws, row.1, row.2, (s.workingSets.insert entry).1⟩])

/-- What publishing a batch has come to. -/
structure Publishing where
  store : RsStore
  folds : List RsPendingFold
  snapshots : List RsSnapshot

def publishPrevalidated (p : Publishing) (prepared : RsPreparedWrite) : Option Publishing := do
  let entry ← p.store.workingSets.get prepared.ws
  let (s, snapshots) := prepared.snapshots.foldl (publishSnapshot prepared.ws entry.geom entry.frozen) (p.store, p.snapshots)
  let s ← match prepared.state with
    | some state => s.publishState prepared.ws state
    | none => some s
  let s ← prepared.buffers.foldlM (publishTarget prepared.ws) s
  let fold := (prepared.state.bind RsStateTarget.foldTokens).map fun tokens => (⟨prepared.ws, tokens⟩ : RsPendingFold)
  return ⟨s, p.folds ++ fold.toList, snapshots⟩

/-- Why a batch is not published: one of its sets is gone, or there twice. -/
def validateBatch (prepared : List RsPreparedWrite) : Except RsError Unit :=
  let rec validate : List RsWorkingSetId → List RsPreparedWrite → Except RsError Unit
    | _, [] => .ok ()
    | seen, write :: rest => do
      let _ ← s.entry write.ws
      if write.ws ∈ seen then .error .duplicateWorkingSet else validate (seen ++ [write.ws]) rest
  validate [] prepared

def publishBatch (prepared : List RsPreparedWrite) : Act RsError (RsPublished × List RsPendingFold) := fun held =>
  match held.store.validateBatch prepared with
  | .error e => .error (.error e) { held with store := held.store.cancelBatch prepared }
  | .ok () =>
    match prepared.foldlM publishPrevalidated ⟨held.store, [], []⟩ with
    | none => .error .panic held
    | some p => .ok (⟨prepared.map RsPreparedWrite.seq, p.snapshots⟩, p.folds) { held with store := p.store }

/-- How many pages of a buffer lie wholly below what is frozen. -/
def pagesBelow (entry : RsEntry) : Nat := min ((entry.frozen - entry.base) / pageTokens entry) entry.buffer.length

/-- The entry without the pages below what is frozen. -/
def dropPages (entry : RsEntry) : RsEntry :=
  let drop := pagesBelow entry
  let buffer := entry.buffer.drop drop
  { entry with buffer, base := if buffer.isEmpty then entry.frozen else entry.base + drop * pageTokens entry }

/-- The buffer pages wholly below the slots go. -/
def fold (ws : RsWorkingSetId) (slots : Nat) : RsStore :=
  match s.workingSets.get ws with
  | none => s
  | some entry =>
    let entry := { entry with frozen := saturatingAdd entry.frozen slots }
    (s.setEntry ws (dropPages entry)).decrefAll ((entry.buffer.take (pagesBelow entry)).filterMap id)

def commitFolds (folds : List RsPendingFold) : RsStore := folds.foldl (fun s f => s.fold f.ws f.tokens) s

/-- Moves a ring by what its published fire commits; `none` where the set is gone. -/
def ringAdvance (ws : RsWorkingSetId) (advance : RingAdvance) (order : List Nat) : Option RsStore :=
  match s.ring with
  | none => some s
  | some geom => do
    let entry ← s.workingSets.get ws
    match entry.ring with
    | none => return s
    | some ring =>
      let committed := match advance.fold with
        | none => max ring.committed (min advance.settled ring.head)
        | some fold => saturatingAdd ring.committed (min fold (advance.commitEnd - ring.committed))
      let ring := { ring with committed, head := advance.head.getD ring.head }
      let reach := if advance.positioned then ring.committed else advance.reach
      let first := (reach - geom.tokens) / max geom.pageSize 1
      if first ≤ ring.retired then return s.setEntry ws { entry with ring := some ring }
      else
        let behind := (order.take first).drop ring.retired
        let dropped := behind.foldl (fun (acc : List (Option RsSlotId) × List RsSlotId) page =>
          (acc.1.set page none, acc.2 ++ (acc.1[page]?.join).toList)) (entry.buffer, [])
        let entry := { entry with ring := some { ring with retired := first }, buffer := dropped.1 }
        return (s.setEntry ws entry).decrefAll dropped.2

/-- The ring page of each kv page index, 0 where none is written yet. -/
def ringTranslation (ws : RsWorkingSetId) (indexes : List Nat) : Except RsError (List Nat) := do
  let entry ← s.entry ws
  if (s.liveRing entry).isNone then return []
  else return indexes.map fun page => ((pageAt entry page).map s.engineId).getD 0

def settle (published : RsPublished) : RsStore := (published.seqs.foldl removeTouch s).retireIdle

end RsStore

end Pie.Store.Rs
