import Pie.Kv.Hash
import Pie.Kv.Log

/-!
# The KV store

A page table, the pools its pages come from, and what the store keeps about both.
-/

namespace Pie.Kv

open Store

inductive KvStoreError where
  | table (error : KvTableError)
  | commitMismatch
deriving DecidableEq, Repr

structure KvStore where
  table : KvPageTable
  pool : Pool PhysicalKvPageId
  hostPool : Pool HostKvSlotId
  diskPool : Pool DiskKvSlotId
  /-- `none` while some are off the device. -/
  flat : HashMap WorkingSetId (Option (List PhysicalKvPageId))
  domain : Hash256
  pageSize : Nat
  logSeq : Nat
  seq : Nat
  outstanding : Finset Nat

inductive PreparedTarget where
  | fresh (index : Nat) (dst : PhysicalKvPageId)
  | inPlace (index : Nat) (dst : PhysicalKvPageId)
  | cow (index : Nat) (src dst : PhysicalKvPageId)
deriving DecidableEq, Repr

/-- The page that a target maps; `changes_mapping` when there is one. -/
def PreparedTarget.mapped : PreparedTarget → Option PhysicalKvPageId
  | .fresh _ dst | .cow _ _ dst => some dst
  | .inPlace _ _ => none

structure KvPreparedWrite where
  ws : WorkingSetId
  targets : List PreparedTarget
  allocated : List PhysicalKvPageId
  cowStart : Option Nat
  seq : Nat

structure PageCommit where
  tokenHashes : List (Option Hash256)
  pageHash : Option Hash256

/-- What a store operation leaves: its result, and the store after it. -/
abbrev StoreResult (α : Type) := Except KvStoreError α × KvStore

namespace KvStore

/-- `new_with_swap`, on the domain that the seed hashes to. -/
def new (capacity hostCapacity diskCapacity : Nat) (domain : Hash256) : KvStore :=
  { table := KvPageTable.new
    pool := Pool.new capacity
    hostPool := Pool.new hostCapacity
    diskPool := Pool.new diskCapacity
    flat := ∅
    domain := domain
    pageSize := 0
    logSeq := 0
    seq := 0
    outstanding := ∅ }

/-- The table has done its part. -/
def onTable {α : Type} (s : KvStore) (r : TableResult α) : StoreResult α :=
  (r.1.mapError .table, { s with table := r.2 })

def createWorkingSet (s : KvStore) : WorkingSetId × KvStore :=
  let (ws, table) := s.table.createWorkingSet
  (ws, { s with table := table, flat := s.flat.insert ws (some []) })

def refreshFlat (s : KvStore) (ws : WorkingSetId) : Option KvStore := do
  let flat ← s.table.flatten ws
  some { s with flat := s.flat.insert ws flat.toOption }

def fork (s : KvStore) (ws : WorkingSetId) : Option (StoreResult WorkingSetId) := do
  match ← s.table.fork ws with
  | (.error e, table) => some (.error (.table e), { s with table := table })
  | (.ok child, table) =>
    let s ← { s with table := table }.refreshFlat child
    some (.ok child, s)

/-! ## Page keys -/

/-- `none` inside when the slot before `start` is opaque and no hash names what follows. -/
def chainRoot (s : KvStore) (ws : WorkingSetId) (start pageSize : Nat) :
    Option (Except KvStoreError (Option (Option Hash256))) :=
  let page := max pageSize 1
  match start with
  | 0 => some (.ok (some none))
  | last + 1 => do
    match ← s.table.pageTokenHashes ws (last / page) with
    | .error e => some (.error (.table e))
    | .ok hashes => some (.ok (hashes[last % page]?.join.map some))

/-- `Vec::resize` with unhashed slots. -/
def resize (hashes : List (Option Hash256)) (page : Nat) : List (Option Hash256) :=
  hashes.take page ++ List.replicate (page - hashes.length) none

/-- The page's slots `at_..at_ + count`, from the hashes of the slots from `start` on. -/
def setSlots (slots : List Hash256) (start page : Nat) :
    Nat → Nat → List (Option Hash256) → Option (List (Option Hash256))
  | _, 0, hashes => some hashes
  | at_, count + 1, hashes => do
    let slot ← slots[at_ - start]?
    if at_ % page < hashes.length then
      setSlots slots start page (at_ + 1) count (hashes.set (at_ % page) (some slot))
    else none

/-- The pages `indexes` with the slots from `start` on hashed; a page whose every slot is hashed seals. -/
def sealPages (hash : Hashing) (s : KvStore) (ws : WorkingSetId) (start : Nat) (slots : List Hash256) (page : Nat) :
    List Nat → Option (Except KvStoreError (List (List (Option Hash256) × Option Hash256)))
  | [] => some (.ok [])
  | index :: indexes => do
    match ← s.table.pageTokenHashes ws index with
    | .error e => some (.error (.table e))
    | .ok hashes =>
      let first := max (index * page) start
      let hashes ← setSlots slots start page first (min ((index + 1) * page) (start + slots.length) - first)
        (resize hashes page)
      let pageHash := if hashes.all Option.isSome then some (hash.page hashes) else none
      match ← sealPages hash s ws start slots page indexes with
      | .error e => some (.error e)
      | .ok pages => some (.ok ((hashes, pageHash) :: pages))

def sealRows (hash : Hashing) (s : KvStore) (ws : WorkingSetId) (start : Nat) (slots : List Hash256)
    (pageSize : Nat) : Option (StoreResult Nat) :=
  let page := max pageSize 1
  if slots.isEmpty then some (.ok 0, s)
  else do
    let stop := start + slots.length
    let first := start / page
    match ← sealPages hash s ws start slots page (List.range' first ((stop + page - 1) / page - first)) with
    | .error e => some (.error e, s)
    | .ok pages =>
      match ← s.table.commitHashes ws first pages with
      | (.error e, table) => some (.error (.table e), { s with table := table })
      | (.ok (), table) => some (.ok (pages.countP fun p => p.2.isSome), { s with table := table })

/-- The hashes of the pages `indexes`; `none` inside when one of them is not sealed. -/
def sealedKeys (s : KvStore) (ws : WorkingSetId) : List Nat → Option (Except KvStoreError (Option (List Hash256)))
  | [] => some (.ok (some []))
  | index :: indexes => do
    match ← s.table.pageHashAt ws index with
    | .error e => some (.error (.table e))
    | .ok none => some (.ok none)
    | .ok (some key) =>
      match ← s.sealedKeys ws indexes with
      | .error e => some (.error e)
      | .ok keys => some (.ok (keys.map (key :: ·)))

/-- The hashes held of a page cut at a token; `none` inside when one of them is missing. -/
def heldSlots (s : KvStore) (ws : WorkingSetId) (start page : Nat) :
    Option (Except KvStoreError (Option (List (Option Hash256)))) :=
  if start % page = 0 then some (.ok (some []))
  else do
    match ← s.table.pageTokenHashes ws (start / page) with
    | .error e => some (.error (.table e))
    | .ok hashes =>
      let held := resize hashes (start % page)
      some (.ok (if held.all Option.isSome then some held else none))

/-- The keys of the pages that fill up as slots are pushed. -/
def pushSlots (hash : Hashing) (page : Nat) : List Hash256 → List (Option Hash256) → List Hash256 → List Hash256
  | keys, _, [] => keys
  | keys, partly, slot :: slots =>
    let partly := partly ++ [some slot]
    if partly.length = page then pushSlots hash page (keys ++ [hash.page partly]) [] slots
    else pushSlots hash page keys partly slots

/-- `none` inside when an earlier page is not sealed: no key names what follows. -/
def pageKeys (hash : Hashing) (s : KvStore) (ws : WorkingSetId) (start : Nat) (slots : List Hash256)
    (pageSize : Nat) : Option (Except KvStoreError (Option (List Hash256))) := do
  let page := max pageSize 1
  match ← s.sealedKeys ws (List.range (start / page)) with
  | .error e => some (.error e)
  | .ok none => some (.ok none)
  | .ok (some keys) =>
    match ← s.heldSlots ws start page with
    | .error e => some (.error e)
    | .ok none => some (.ok none)
    | .ok (some held) => some (.ok (some (pushSlots hash page keys held slots)))

/-! ## Prepared writes -/

/-- Device pages wait for the epoch; host and disk slots are free at once. -/
def recycleBackings (s : KvStore) (backings : List KvPageBacking) (epoch : Nat) : KvStore :=
  { s with
    pool := s.pool.recycleAfterEpoch (backings.filterMap KvPageBacking.residentId) epoch
    hostPool := s.hostPool.releaseReserved (backings.filterMap fun b => match b with
      | .swapped slot => some slot
      | _ => none)
    diskPool := s.diskPool.releaseReserved (backings.filterMap fun b => match b with
      | .onDisk slot => some slot
      | _ => none) }

def retireIdle (s : KvStore) : KvStore :=
  let through := (s.outstanding.min.map (· - 1)).untopD s.seq
  { s with pool := s.pool.retireThrough through }

def cancelPrepared (s : KvStore) (prepared : KvPreparedWrite) : KvStore :=
  retireIdle { s with
    pool := s.pool.recycleAfterEpoch prepared.allocated prepared.seq
    outstanding := s.outstanding.erase prepared.seq }

/-- The commits of the targets that are written in place. -/
def commitTargets (ws : WorkingSetId) : List (PreparedTarget × PageCommit) → KvStore → Option (StoreResult Unit)
  | [], s => some (.ok (), s)
  | (.inPlace index _, commit) :: rest, s => do
    match ← s.table.commitInPlace ws index commit.tokenHashes commit.pageHash with
    | (.error e, table) => some (.error (.table e), { s with table := table })
    | (.ok (), table) => commitTargets ws rest { s with table := table }
  | (.fresh _ _, _) :: rest, s | (.cow _ _ _, _) :: rest, s => commitTargets ws rest s

/-- The pages of the targets that change the mapping. -/
def publishedPages (pairs : List (PreparedTarget × PageCommit)) : List PublishedPage :=
  pairs.filterMap fun p => p.1.mapped.map fun dst => ⟨dst, p.2.tokenHashes, p.2.pageHash⟩

/-- What the pages take the place of is given back. -/
def placePages (t : KvPageTable) (ws : WorkingSetId) (cowStart : Option Nat) (pages : List PublishedPage) :
    Option (TableResult (List KvPageBacking)) :=
  match cowStart with
  | some start => t.replaceTail ws start pages
  | none =>
    if pages.isEmpty then some (.ok [], t)
    else (t.publishAppended ws pages).map fun r => (r.1.map fun _ => [], r.2)

def publishPrepared (s : KvStore) (prepared : KvPreparedWrite) (commits : List PageCommit) : Option (StoreResult Nat) :=
  if commits.length ≠ prepared.targets.length then some (.error .commitMismatch, s.cancelPrepared prepared)
  else do
    let pairs := prepared.targets.zip commits
    match ← commitTargets prepared.ws pairs s with
    | (.error e, s) => some (.error e, s)
    | (.ok (), s) =>
      match ← placePages s.table prepared.ws prepared.cowStart (publishedPages pairs) with
      | (.error e, table) => some (.error (.table e), { s with table := table })
      | (.ok freed, table) =>
        let s := { s with table := table }
        let s ← if prepared.targets.any fun target => target.mapped.isSome then s.refreshFlat prepared.ws else some s
        some (.ok prepared.seq, s.recycleBackings freed prepared.seq)

/-! ## The token log -/

def logRows (s : KvStore) (ws : WorkingSetId) (start : Nat) (tokens : List Nat) : StoreResult Unit :=
  s.onTable (s.table.logRows ws start tokens)

def logBegin (s : KvStore) (ws : WorkingSetId) (cut : Nat) : StoreResult Nat :=
  let s := { s with logSeq := s.logSeq + 1 }
  match s.table.logBegin ws s.logSeq cut with
  | (.error e, table) => (.error (.table e), { s with table := table })
  | (.ok (), table) => (.ok s.logSeq, { s with table := table })

def logEnd (s : KvStore) (ws : WorkingSetId) (seq : Nat) (rows : Option (Nat × List Nat)) : StoreResult Unit :=
  s.onTable (s.table.logEnd ws seq rows)

def logged (s : KvStore) (ws : WorkingSetId) : Except KvStoreError (List Nat) :=
  (s.table.logged ws).mapError .table

end KvStore

end Pie.Kv
