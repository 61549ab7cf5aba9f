import Pie.Store.GenMap
import Pie.Store.Pool
import Pie.Kv.Runs

/-!
# The KV page table

A trie of pages. An *owned* node holds pages of its own; a *selection* takes a
part of its parent's. A working set is a terminal node, and denotes the pages on
the path to it. Every anchor (a working set's terminal, a cache root, a pin)
counts on its own node and on every node above it, and a node no anchor counts
on is given back.

The functions follow `page_table.rs`. Where the source can panic (`expect`,
`unreachable!`, an index out of range, a failed debug assertion) the function
returns `none`; where it returns an error it returns that error and the table as
it is then. Loops over parent pointers carry fuel, and running out of it is a
`none` too: `some` says the source's loop ends.
-/

namespace Pie.Kv

open Store

inductive WsMarker
inductive NodeMarker

abbrev WorkingSetId := GenKey WsMarker
abbrev NodeId := GenKey NodeMarker

structure PhysicalKvPageId where
  val : Nat
deriving DecidableEq, Repr

structure HostKvSlotId where
  val : Nat
deriving DecidableEq, Repr

structure DiskKvSlotId where
  val : Nat
deriving DecidableEq, Repr

instance : PoolId PhysicalKvPageId := ⟨PhysicalKvPageId.mk, PhysicalKvPageId.val, fun _ => rfl⟩
instance : PoolId HostKvSlotId := ⟨HostKvSlotId.mk, HostKvSlotId.val, fun _ => rfl⟩
instance : PoolId DiskKvSlotId := ⟨DiskKvSlotId.mk, DiskKvSlotId.val, fun _ => rfl⟩

/-- A content key: 32 bytes. -/
abbrev Hash256 := BitVec 256

/-- A process: a 128-bit uuid. -/
abbrev ProcessId := BitVec 128

inductive KvPageBacking where
  | resident (id : PhysicalKvPageId)
  | swapped (slot : HostKvSlotId)
  | onDisk (slot : DiskKvSlotId)
deriving DecidableEq, Repr

def KvPageBacking.residentId : KvPageBacking → Option PhysicalKvPageId
  | .resident id => some id
  | .swapped _ => none
  | .onDisk _ => none

/-- `slot` is the source's `local`: the page's place in its owner. -/
structure TriePageLocation where
  node : NodeId
  slot : Nat
deriving DecidableEq

structure PublishedPage where
  id : PhysicalKvPageId
  tokenHashes : List (Option Hash256)
  pageHash : Option Hash256

inductive Pages where
  | owned (backings : List KvPageBacking) (tokenHashes : List (List (Option Hash256)))
      (pageHashes : List (Option Hash256))
  | parentSelection (runs : Runs)

structure KvTrieNode where
  parent : Option NodeId
  children : List NodeId
  pages : Pages
  exactAnchors : Nat
  pathAnchors : Nat

structure WorkingSetEntry where
  terminal : Option NodeId
  pageLen : Nat
  mappedLen : Nat
  suspended : Bool := false
  folded : Nat := 0
  promptPages : Nat := 0
  owner : Option ProcessId := none
  supplied : Nat := 0
  logged : List Nat := []
  pending : List (Nat × Nat) := []

/-- What the log knows short of what the fires on their way may still change. -/
def WorkingSetEntry.known (e : WorkingSetEntry) : List Nat :=
  match (e.pending.map Prod.snd).min? with
  | none => e.logged
  | some cut => e.logged.take cut

structure KeptPath where
  terminal : NodeId
  pages : Nat

inductive KvTableError where
  | unknownWorkingSet
  | unwritten (index mappedLen : Nat)
  | badRange (start stop mappedLen pageLen : Nat)
  | publishExceedsReservation (count mappedLen pageLen : Nat)
  | nonResident (index : Nat)
  | backingChanged
deriving DecidableEq, Repr

/-- The pages `start..start+len` of a mapping come from `node`; `start` may be
negative for the topmost segment. -/
structure Segment where
  node : NodeId
  start : Int
  len : Nat

def Segment.stop (s : Segment) : Int := s.start + s.len

/-- `HashMap`: a finite map, read by key and listed in some order. -/
abbrev HashMap (K V : Type) := AList (fun _ : K => V)

structure KvPageTable where
  workingSets : GenMap WsMarker WorkingSetEntry
  nodes : GenMap NodeMarker KvTrieNode
  cacheRoots : HashMap NodeId Nat
  pins : HashMap NodeId Nat
  swapLocations : Finset TriePageLocation
  /-- The latest copies of a page key that start a node, none where the source has no entry. -/
  nodeStarts : Hash256 → List NodeId

/-- `NODE_COPIES`. -/
def nodeCopies : Nat := 4

/-- What a table operation leaves: its result, and the table after it. -/
abbrev TableResult (α : Type) := Except KvTableError α × KvPageTable

def Pages.len : Pages → Nat
  | .owned backings _ _ => backings.length
  | .parentSelection runs => runsLen runs

def Pages.isOwned : Pages → Bool
  | .owned _ _ _ => true
  | .parentSelection _ => false

/-! ## Holds -/

/-- The map after one more hold of `node`, and whether it is the first. -/
def hold (holds : HashMap NodeId Nat) (node : NodeId) : HashMap NodeId Nat × Bool :=
  let count := (holds.lookup node).getD 0 + 1
  (holds.insert node count, count == 1)

/-- The map after one hold of `node` is let go, and whether it was the last. -/
def letGo (holds : HashMap NodeId Nat) (node : NodeId) : HashMap NodeId Nat × Bool :=
  match holds.lookup node with
  | none => (holds, false)
  | some count =>
    if count - 1 > 0 then (holds.insert node (count - 1), false)
    else (holds.erase node, true)

namespace KvPageTable

def new : KvPageTable :=
  { workingSets := GenMap.empty
    nodes := GenMap.empty
    cacheRoots := ∅
    pins := ∅
    swapLocations := ∅
    nodeStarts := fun _ => [] }

/-- A loop over parents meets each node at most once. -/
def fuel (t : KvPageTable) : Nat := t.nodes.slots.length

def entry (t : KvPageTable) (ws : WorkingSetId) : Except KvTableError WorkingSetEntry :=
  match t.workingSets.get ws with
  | some e => .ok e
  | none => .error .unknownWorkingSet

def setEntry (t : KvPageTable) (ws : WorkingSetId) (e : WorkingSetEntry) : KvPageTable :=
  { t with workingSets := t.workingSets.set ws e }

def setNode (t : KvPageTable) (n : NodeId) (nd : KvTrieNode) : KvPageTable :=
  { t with nodes := t.nodes.set n nd }

/-- Some residency move holds a page of `n`. -/
def inSwap (t : KvPageTable) (n : NodeId) : Bool :=
  decide (∃ l ∈ t.swapLocations, l.node = n)

/-! ## Reading a path -/

def contributionLen (t : KvPageTable) (n : NodeId) : Option Nat :=
  (t.nodes.get n).map (fun nd => nd.pages.len)

/-- What comes before `n` in a mapping: a selection stands in for its owner. -/
def predecessor (t : KvPageTable) (n : NodeId) : Option (Option NodeId) := do
  let nd ← t.nodes.get n
  match nd.pages with
  | .parentSelection _ =>
    let owner ← nd.parent
    let o ← t.nodes.get owner
    some o.parent
  | .owned _ _ _ => some nd.parent

def segmentsLoop (t : KvPageTable) : Nat → Option NodeId → Int → Option (List Segment)
  | _, none, _ => some []
  | 0, some _, _ => none
  | fuel + 1, some node, stop => do
    let len ← t.contributionLen node
    let start := stop - len
    if start ≤ 0 then some [⟨node, start, len⟩]
    else
      let before ← t.predecessor node
      let rest ← segmentsLoop t fuel before start
      some (⟨node, start, len⟩ :: rest)

/-- Last segment first; a published mapping must be covered down to its first page. -/
def segments (t : KvPageTable) (terminal : Option NodeId) (anchor : Nat) :
    Option (List Segment) := do
  let out ← t.segmentsLoop t.fuel terminal anchor
  if anchor = 0 ∨ (out.getLast?.any (fun s => decide (s.start ≤ 0))) = true then some out else none

def resolveOwner (t : KvPageTable) (n : NodeId) (slot : Nat) : Option (NodeId × Nat) := do
  let nd ← t.nodes.get n
  match nd.pages with
  | .owned _ _ _ => some (n, slot)
  | .parentSelection runs =>
    let owner ← nd.parent
    let off ← runsOffset runs slot
    some (owner, off)

def resolveLocation (t : KvPageTable) (n : NodeId) (slot : Nat) : Option TriePageLocation :=
  (t.resolveOwner n slot).map (fun p => ⟨p.1, p.2⟩)

def resolveBacking (t : KvPageTable) (n : NodeId) (slot : Nat) : Option KvPageBacking := do
  let location ← t.resolveLocation n slot
  let nd ← t.nodes.get location.node
  match nd.pages with
  | .owned backings _ _ => backings[location.slot]?
  | .parentSelection _ => none

/-- `None` inside is a page below the device. -/
def resolveId (t : KvPageTable) (n : NodeId) (slot : Nat) : Option (Option PhysicalKvPageId) :=
  (t.resolveBacking n slot).map KvPageBacking.residentId

/-- The pages of a mapping as its segments name them, first page first. -/
def segmentPages (segs : List Segment) : List (NodeId × Nat) :=
  segs.reverse.flatMap (fun s =>
    let from_ := (max (-s.start) 0).toNat
    (List.range' from_ (s.len - from_)).map (fun slot => (s.node, slot)))

def backingAt (t : KvPageTable) (l : TriePageLocation) : Except KvTableError KvPageBacking :=
  match t.nodes.get l.node with
  | none => .error .backingChanged
  | some nd =>
    match nd.pages with
    | .owned backings _ _ =>
      match backings[l.slot]? with
      | some b => .ok b
      | none => .error .backingChanged
    | .parentSelection _ => .error .backingChanged

/-- The page `index` of a mapping, through the first segment that starts at or below it. -/
def segmentAt (t : KvPageTable) (segs : List Segment) (index : Nat) : Option (NodeId × Nat) := do
  let seg ← segs.find? (fun s => decide (s.start ≤ (index : Int)))
  t.resolveOwner seg.node ((index : Int) - seg.start).toNat

def pageOwner (t : KvPageTable) (ws : WorkingSetId) (index : Nat) :
    Option (Except KvTableError (NodeId × Nat)) :=
  match t.entry ws with
  | .error e => some (.error e)
  | .ok entry =>
    if entry.mappedLen ≤ index then some (.error (.unwritten index entry.mappedLen))
    else do
      let segs ← t.segments entry.terminal entry.mappedLen
      let owner ← t.segmentAt segs index
      some (.ok owner)

/-- The ids of `pages`, or the place of the first one below the device. -/
def collectIds (t : KvPageTable) : List (NodeId × Nat) → List PhysicalKvPageId →
    Option (Except KvTableError (List PhysicalKvPageId))
  | [], out => some (.ok out)
  | (n, slot) :: rest, out => do
    match ← t.resolveId n slot with
    | none => some (.error (.nonResident out.length))
    | some id => t.collectIds rest (out ++ [id])

def flatten (t : KvPageTable) (ws : WorkingSetId) :
    Option (Except KvTableError (List PhysicalKvPageId)) :=
  match t.entry ws with
  | .error e => some (.error e)
  | .ok entry => do
    let segs ← t.segments entry.terminal entry.mappedLen
    match ← t.collectIds (segmentPages segs) [] with
    | .error e => some (.error e)
    | .ok ids => if ids.length = entry.mappedLen then some (.ok ids) else none

/-- What `visit_working_set_locations` visits, in its order. -/
def workingSetLocations (t : KvPageTable) (ws : WorkingSetId) :
    Option (Except KvTableError (List TriePageLocation)) :=
  match t.entry ws with
  | .error e => some (.error e)
  | .ok entry => do
    let segs ← t.segments entry.terminal entry.mappedLen
    let locations ← (segmentPages segs).mapM (fun p => t.resolveLocation p.1 p.2)
    some (.ok locations)

/-! ## Anchors -/

/-- Counts one more anchor on every node from `cursor` up. -/
def addPath : Nat → Option NodeId → KvPageTable → Option KvPageTable
  | _, none, t => some t
  | 0, some _, _ => none
  | fuel + 1, some current, t => do
    let nd ← t.nodes.get current
    addPath fuel nd.parent (t.setNode current { nd with pathAnchors := nd.pathAnchors + 1 })

def addAnchor (t : KvPageTable) (node : NodeId) : Option KvPageTable := do
  let nd ← t.nodes.get node
  addPath t.fuel (some node) (t.setNode node { nd with exactAnchors := nd.exactAnchors + 1 })

/-- Anchors what a mapping ends at, if it ends anywhere. -/
def anchorTerminal (t : KvPageTable) : Option NodeId → Option KvPageTable
  | some node => t.addAnchor node
  | none => some t

/-- Counts one anchor less on every node from `cursor` up, and lists those nodes. -/
def dropPath : Nat → Option NodeId → KvPageTable → Option (List NodeId × KvPageTable)
  | _, none, t => some ([], t)
  | 0, some _, _ => none
  | fuel + 1, some current, t => do
    let nd ← t.nodes.get current
    if nd.pathAnchors = 0 then none
    else
      let (path, t) ← dropPath fuel nd.parent
        (t.setNode current { nd with pathAnchors := nd.pathAnchors - 1 })
      some (current :: path, t)

/-- Forgets `node` as a copy of the key its first page is sealed under. -/
def dropNodeStart (t : KvPageTable) (node : NodeId) (pages : Pages) : KvPageTable :=
  match pages with
  | .owned _ _ (some first :: _) =>
    { t with nodeStarts :=
        Function.update t.nodeStarts first ((t.nodeStarts first).filter (fun c => c ≠ node)) }
  | _ => t

/-- The parent, if it is there, forgets its child `node`. -/
def unlink (t : KvPageTable) (node : NodeId) (parent : Option NodeId) : KvPageTable :=
  match parent with
  | none => t
  | some p =>
    match t.nodes.get p with
    | none => t
    | some pd => t.setNode p { pd with children := pd.children.filter (fun c => c ≠ node) }

/-- The part of a detach after the children are gone: the parent forgets `node`, the
index of node starts too, and its pages are given back. -/
def detachSelf (t : KvPageTable) (node : NodeId) : Option (List KvPageBacking × KvPageTable) := do
  let nd ← t.nodes.get node
  let t := (t.unlink node nd.parent).dropNodeStart node nd.pages
  let removed ← t.nodes.get node
  let freed := match removed.pages with
    | .owned backings _ _ => backings
    | .parentSelection _ => []
  some (freed, { t with nodes := t.nodes.remove node })

def detachUnreferenced : Nat → NodeId → KvPageTable → Option (List KvPageBacking × KvPageTable)
  | 0, _, _ => none
  | fuel + 1, node, t =>
    match t.nodes.get node with
    | none => some ([], t)
    | some e =>
      if e.pathAnchors ≠ 0 then some ([], t)
      else do
        let (freed, t) ← e.children.foldlM (fun (acc : List KvPageBacking × KvPageTable) child => do
          let c ← acc.2.nodes.get child
          if c.pathAnchors ≠ 0 then none
          else
            let (more, t) ← detachUnreferenced fuel child acc.2
            some (acc.1 ++ more, t)) ([], t)
        let (own, t) ← t.detachSelf node
        some (freed ++ own, t)

/-- The runs the children of a node take of it; `none` once one of them reads all of it. -/
def takenRuns (t : KvPageTable) : List NodeId → Option (Option Runs)
  | [] => some (some [])
  | child :: rest => do
    let c ← t.nodes.get child
    match c.pages with
    | .owned _ _ _ => some none
    | .parentSelection runs => do
      match ← t.takenRuns rest with
      | none => some none
      | some more => some (some (runs ++ more))

/-- `partition_point` of the kept pages below `bound`. -/
def rank (kept : List Nat) (bound : Nat) : Nat := (kept.takeWhile (fun i => decide (i < bound))).length

def movedRuns (kept : List Nat) (runs : Runs) : Runs :=
  runs.foldl (fun moved r =>
    let start := rank kept r.start
    pushCoalesced moved ⟨start, start + (r.stop - r.start)⟩) []

/-- A node only selections read keeps the pages some selection takes; its others go. -/
def compactOwner (t : KvPageTable) (owner : NodeId) : Option (List KvPageBacking × KvPageTable) :=
  match t.nodes.get owner with
  | none => some ([], t)
  | some node =>
    if node.exactAnchors ≠ 0 ∨ t.inSwap owner = true then some ([], t)
    else
      match node.pages with
      | .parentSelection _ => some ([], t)
      | .owned backings tokenHashes pageHashes =>
        if node.children.isEmpty then some ([], t)
        else do
          match ← t.takenRuns node.children with
          | none => some ([], t)
          | some taken =>
            let kept := runsIndices (union taken)
            if kept.length = backings.length then some ([], t)
            else
              let newBackings ← kept.mapM (fun i => backings[i]?)
              let newTokens ← kept.mapM (fun i => tokenHashes[i]?)
              let newPages ← kept.mapM (fun i => pageHashes[i]?)
              let freed := (backings.zipIdx.filter (fun p => decide (p.2 ∉ kept))).map Prod.fst
              let t := t.setNode owner { node with pages := .owned newBackings newTokens newPages }
              let t ← node.children.foldlM (fun (t : KvPageTable) child => do
                let c ← t.nodes.get child
                match c.pages with
                | .parentSelection runs =>
                  some (t.setNode child { c with pages := .parentSelection (movedRuns kept runs) })
                | .owned _ _ _ => none) t
              some (freed, t)

def detachAll (path : List NodeId) (t : KvPageTable) : Option (List KvPageBacking × KvPageTable) :=
  path.foldlM (fun (acc : List KvPageBacking × KvPageTable) current => do
    let (more, t) ← detachUnreferenced (acc.2.fuel + 1) current acc.2
    some (acc.1 ++ more, t)) ([], t)

def compactAll (owners : List NodeId) (t : KvPageTable) :
    Option (List KvPageBacking × KvPageTable) :=
  owners.foldlM (fun (acc : List KvPageBacking × KvPageTable) current => do
    let (more, t) ← acc.2.compactOwner current
    some (acc.1 ++ more, t)) ([], t)

def removeAnchor (t : KvPageTable) (node : NodeId) : Option (List KvPageBacking × KvPageTable) := do
  let nd ← t.nodes.get node
  if nd.exactAnchors = 0 then none
  else
    let (path, t) ← dropPath t.fuel (some node)
      (t.setNode node { nd with exactAnchors := nd.exactAnchors - 1 })
    let (freed, t) ← detachAll path t
    let (more, t) ← compactAll path t
    some (freed ++ more, t)

def moveTerminal (t : KvPageTable) (ws : WorkingSetId) (terminal : Option NodeId) :
    Option (TableResult (List KvPageBacking)) :=
  match t.entry ws with
  | .error e => some (.error e, t)
  | .ok entry =>
    if entry.terminal = terminal then some (.ok [], t)
    else do
      let t ← t.anchorTerminal terminal
      let t := t.setEntry ws { entry with terminal := terminal }
      match entry.terminal with
      | none => some (.ok [], t)
      | some node =>
        let (freed, t) ← t.removeAnchor node
        some (.ok freed, t)

def insertSelection (t : KvPageTable) (owner : NodeId) (runs : Runs) :
    Option (NodeId × KvPageTable) := do
  let (node, nodes) := t.nodes.insert
    { parent := some owner, children := [], pages := .parentSelection runs
      exactAnchors := 0, pathAnchors := 0 }
  let o ← nodes.get owner
  if o.pages.isOwned then
    some (node, { t with nodes := nodes.set owner { o with children := o.children ++ [node] } })
  else none

def makePrefixSelection (t : KvPageTable) (node : NodeId) (off : Nat) :
    Option (NodeId × KvPageTable) := do
  let nd ← t.nodes.get node
  match nd.pages with
  | .owned backings _ _ =>
    if off < backings.length then t.insertSelection node [⟨0, off⟩] else none
  | .parentSelection runs =>
    let owner ← nd.parent
    t.insertSelection owner (runsSlice runs 0 off)

def boundaryTerminal (t : KvPageTable) (segs : List Segment) (boundary : Nat) :
    Option (NodeId × KvPageTable) := do
  if boundary = 0 then none
  else
    let b : Int := boundary
    let seg ← segs.find? (fun s => decide (s.start < b ∧ b ≤ s.stop))
    if b = seg.stop then some (seg.node, t)
    else t.makePrefixSelection seg.node (b - seg.start).toNat

/-! ## Working sets -/

def createWorkingSet (t : KvPageTable) : WorkingSetId × KvPageTable :=
  let (ws, workingSets) := t.workingSets.insert { terminal := none, pageLen := 0, mappedLen := 0 }
  (ws, { t with workingSets := workingSets })

def fork (t : KvPageTable) (ws : WorkingSetId) : Option (TableResult WorkingSetId) :=
  match t.entry ws with
  | .error e => some (.error e, t)
  | .ok entry => do
    let (child, workingSets) := t.workingSets.insert
      { terminal := entry.terminal, pageLen := entry.pageLen, mappedLen := entry.mappedLen
        logged := entry.known
        folded := entry.folded, promptPages := entry.promptPages }
    let t ← { t with workingSets := workingSets }.anchorTerminal entry.terminal
    some (.ok child, t)

def reserve (t : KvPageTable) (ws : WorkingSetId) (pages : Nat) : Except KvTableError (Nat × Nat) × KvPageTable :=
  match t.entry ws with
  | .error e => (.error e, t)
  | .ok entry =>
    (.ok (entry.pageLen, entry.pageLen + pages),
      t.setEntry ws { entry with pageLen := entry.pageLen + pages })

def canExtendInPlace (t : KvPageTable) (ws : WorkingSetId) (terminal : NodeId) : Option Bool := do
  let node ← t.nodes.get terminal
  if !node.pages.isOwned || !node.children.isEmpty then some false
  else
    match t.entry ws with
    | .error _ => some false
    | .ok entry =>
      some (decide (entry.terminal = some terminal) && node.exactAnchors == 1
        && node.pathAnchors == 1)

/-- A new owned node below `parent`, which nothing anchors yet. -/
def insertOwned (t : KvPageTable) (parent : Option NodeId) (pages : Pages) :
    Option (NodeId × KvPageTable) :=
  let (node, nodes) := t.nodes.insert
    { parent := parent, children := [], pages := pages, exactAnchors := 0, pathAnchors := 0 }
  match parent with
  | none => some (node, { t with nodes := nodes })
  | some p => do
    let pd ← nodes.get p
    some (node, { t with nodes := nodes.set p { pd with children := pd.children ++ [node] } })

/-- The node that holds `pages` after the terminal: the terminal itself where only this
working set reads it, else a new child. -/
def extendOrInsert (t : KvPageTable) (ws : WorkingSetId) (terminal : Option NodeId)
    (pages : List PublishedPage) : Option (NodeId × KvPageTable) := do
  let backings := pages.map (fun p => KvPageBacking.resident p.id)
  let tokens := pages.map PublishedPage.tokenHashes
  let hashes := pages.map PublishedPage.pageHash
  match terminal with
  | none => t.insertOwned none (.owned backings tokens hashes)
  | some term =>
    if ← t.canExtendInPlace ws term then
      let node ← t.nodes.get term
      match node.pages with
      | .owned b tk h =>
        some (term, t.setNode term
          { node with pages := .owned (b ++ backings) (tk ++ tokens) (h ++ hashes) })
      | .parentSelection _ => none
    else t.insertOwned (some term) (.owned backings tokens hashes)

def publishAppended (t : KvPageTable) (ws : WorkingSetId) (pages : List PublishedPage) :
    Option (TableResult Unit) :=
  match t.entry ws with
  | .error e => some (.error e, t)
  | .ok entry =>
    let count := pages.length
    if entry.pageLen < entry.mappedLen + count then
      some (.error (.publishExceedsReservation count entry.mappedLen entry.pageLen), t)
    else if count = 0 then some (.ok (), t)
    else do
      let (node, t) ← t.extendOrInsert ws entry.terminal pages
      match ← t.moveTerminal ws (some node) with
      | (.error e, t) => some (.error e, t)
      | (.ok freed, t) =>
        -- append descendants retain the old path
        if freed ≠ [] then none
        else
          match t.entry ws with
          | .error e => some (.error e, t)
          | .ok after =>
            some (.ok (), t.setEntry ws { after with mappedLen := entry.mappedLen + count })

/-- Where a mapping cut at `from_` ends: nowhere, or at a boundary. -/
def tailTerminal (t : KvPageTable) (segs : List Segment) (from_ : Nat) :
    Option (Option NodeId × KvPageTable) :=
  if from_ = 0 then some (none, t)
  else (t.boundaryTerminal segs from_).map (fun p => (some p.1, p.2))

def replaceTail (t : KvPageTable) (ws : WorkingSetId) (from_ : Nat) (pages : List PublishedPage) :
    Option (TableResult (List KvPageBacking)) :=
  match t.entry ws with
  | .error e => some (.error e, t)
  | .ok entry =>
    if entry.mappedLen < from_ then
      some (.error (.badRange from_ from_ entry.mappedLen entry.pageLen), t)
    else if entry.pageLen < from_ + pages.length then
      some (.error (.publishExceedsReservation pages.length from_ entry.pageLen), t)
    else if from_ < entry.mappedLen then do
      let segs ← t.segments entry.terminal entry.mappedLen
      let (terminal, t) ← t.tailTerminal segs from_
      match ← t.moveTerminal ws terminal with
      | (.error e, t) => some (.error e, t)
      | (.ok freed, t) =>
        match t.entry ws with
        | .error e => some (.error e, t)
        | .ok after =>
          let t := t.setEntry ws { after with mappedLen := from_ }
          match ← t.publishAppended ws pages with
          | (.error e, t) => some (.error e, t)
          | (.ok (), t) => some (.ok freed, t)
    else do
      match ← t.publishAppended ws pages with
      | (.error e, t) => some (.error e, t)
      | (.ok (), t) => some (.ok [], t)

/-- Overwrites the hashes of one owned page. -/
def setHashes (t : KvPageTable) (owner : NodeId) (slot : Nat) (tokens : List (Option Hash256))
    (page : Option Hash256) : Option KvPageTable := do
  let node ← t.nodes.get owner
  match node.pages with
  | .owned b tk h =>
    if slot < tk.length ∧ slot < h.length then
      some (t.setNode owner { node with pages := .owned b (tk.set slot tokens) (h.set slot page) })
    else none
  | .parentSelection _ => none

def commitInPlace (t : KvPageTable) (ws : WorkingSetId) (index : Nat)
    (tokens : List (Option Hash256)) (page : Option Hash256) : Option (TableResult Unit) := do
  match ← t.pageOwner ws index with
  | .error e => some (.error e, t)
  | .ok (owner, slot) =>
    let t ← t.setHashes owner slot tokens page
    some (.ok (), t)

/-- The latest few copies that still start with the key. -/
def indexNodeStart (t : KvPageTable) (key : Hash256) (node : NodeId) : KvPageTable :=
  let starts (copy : NodeId) : Bool :=
    match t.nodes.get copy with
    | some ⟨_, _, .owned _ _ (first :: _), _, _⟩ => decide (first = some key)
    | _ => false
  let copies := (t.nodeStarts key).filter (fun copy => decide (copy ≠ node) && starts copy) ++ [node]
  let copies := if nodeCopies < copies.length then copies.drop 1 else copies
  { t with nodeStarts := Function.update t.nodeStarts key copies }

/-- A first page that is keyed is a start of its node. -/
def indexFirst (t : KvPageTable) (page : Option Hash256) (owner : NodeId) (slot : Nat) : KvPageTable :=
  match page with
  | some key => if slot = 0 then t.indexNodeStart key owner else t
  | none => t

/-- The commits of `pages` from page `index` on, over segments read once. -/
def commitHashesLoop (segs : List Segment) : KvPageTable → Nat →
    List (List (Option Hash256) × Option Hash256) → Option KvPageTable
  | t, _, [] => some t
  | t, index, (tokens, page) :: rest => do
    let (owner, slot) ← t.segmentAt segs index
    let t ← t.setHashes owner slot tokens page
    commitHashesLoop segs (t.indexFirst page owner slot) (index + 1) rest

def commitHashes (t : KvPageTable) (ws : WorkingSetId) (first : Nat)
    (pages : List (List (Option Hash256) × Option Hash256)) : Option (TableResult Unit) :=
  match t.entry ws with
  | .error e => some (.error e, t)
  | .ok entry =>
    let stop := first + pages.length
    if entry.mappedLen < stop then some (.error (.unwritten (stop - 1) entry.mappedLen), t)
    else do
      let segs ← t.segments entry.terminal entry.mappedLen
      let t ← commitHashesLoop segs t first pages
      some (.ok (), t)

/-- The readers of a page: an owned child takes all of its parent, a selection its runs. -/
def pageReaders (t : KvPageTable) (owner : NodeId) (slot : Nat) : Option Nat := do
  let node ← t.nodes.get owner
  let more ← node.children.mapM (fun child => do
    let c ← t.nodes.get child
    some (match c.pages with
      | .owned _ _ _ => c.pathAnchors
      | .parentSelection runs => if runs.any (fun r => r.contains slot) then c.pathAnchors else 0))
  some (node.exactAnchors + more.sum)

def privatelyWritable (t : KvPageTable) (ws : WorkingSetId) (index : Nat) :
    Option (Except KvTableError Bool) := do
  match ← t.pageOwner ws index with
  | .error e => some (.error e)
  | .ok (owner, slot) =>
    let readers ← t.pageReaders owner slot
    some (.ok (readers == 1))

def releaseWorkingSetBackings (t : KvPageTable) (ws : WorkingSetId) :
    Option (List KvPageBacking × KvPageTable) :=
  match t.workingSets.get ws with
  | none => some ([], t)
  | some entry =>
    let t := { t with workingSets := t.workingSets.remove ws }
    match entry.terminal with
    | none => some ([], t)
    | some terminal => t.removeAnchor terminal

/-- The hashes of one owned page. -/
def hashesOf (t : KvPageTable) (owner : NodeId) (slot : Nat) :
    Option (List (Option Hash256) × Option Hash256) := do
  let node ← t.nodes.get owner
  match node.pages with
  | .owned _ tk h => do
    let tokens ← tk[slot]?
    let page ← h[slot]?
    some (tokens, page)
  | .parentSelection _ => none

def pageTokenHashes (t : KvPageTable) (ws : WorkingSetId) (index : Nat) :
    Option (Except KvTableError (List (Option Hash256))) := do
  match ← t.pageOwner ws index with
  | .error e => some (.error e)
  | .ok (owner, slot) => (t.hashesOf owner slot).map (fun p => .ok p.1)

def pageHashAt (t : KvPageTable) (ws : WorkingSetId) (index : Nat) :
    Option (Except KvTableError (Option Hash256)) := do
  match ← t.pageOwner ws index with
  | .error e => some (.error e)
  | .ok (owner, slot) => (t.hashesOf owner slot).map (fun p => .ok p.2)

/-- Whole, computed and keyed, so it never changes in place. -/
def sealed (t : KvPageTable) (ws : WorkingSetId) (index : Nat) : Option (Except KvTableError Bool) := do
  match ← t.pageHashAt ws index with
  | .error e => some (.error e)
  | .ok h => some (.ok h.isSome)

/-! ## Attaching to a path -/

def pathLenLoop (t : KvPageTable) : Nat → Option NodeId → Option Nat
  | _, none => some 0
  | 0, some _ => none
  | fuel + 1, some node => do
    let len ← t.contributionLen node
    let before ← t.predecessor node
    let rest ← pathLenLoop t fuel before
    some (len + rest)

def pathPrefixLen (t : KvPageTable) (node : NodeId) (slot : Nat) : Option Nat := do
  let before ← t.predecessor node
  let rest ← t.pathLenLoop t.fuel before
  some (slot + 1 + rest)

/-- The segments of the whole path to `node`, and how many of its pages end at `slot`. -/
def pathSegments (t : KvPageTable) (node : NodeId) (slot : Nat) : Option (Nat × List Segment) := do
  let stop ← t.pathPrefixLen node slot
  let len ← t.contributionLen node
  if len < slot + 1 then none
  else
    let segs ← t.segments (some node) (stop + (len - (slot + 1)))
    some (stop, segs)

def pathLocations (t : KvPageTable) (node : NodeId) (slot : Nat) : Option (List TriePageLocation) := do
  let (stop, segs) ← t.pathSegments node slot
  (segs.reverse.flatMap (fun s =>
    (List.range' (max s.start 0).toNat ((min s.stop (stop : Int)).toNat - (max s.start 0).toNat)).map
      (fun at_ => (s.node, ((at_ : Int) - s.start).toNat)))).mapM
    (fun p => t.resolveLocation p.1 p.2)

/-- The `held` pages of `ws` are the first of the path `segs` covers. -/
def holdsPrefixOf (t : KvPageTable) (ws : WorkingSetId) (held : Nat) (segs : List Segment) :
    Option Bool :=
  if held = 0 then some true
  else do
    match ← t.workingSetLocations ws with
    | .error _ => none
    | .ok mine =>
      let path ← ((segmentPages segs).take held).mapM (fun p => t.resolveLocation p.1 p.2)
      some (decide (mine = path))

/-- The pages `ws` holds must be the path's own, and none past them is written. -/
def attach (t : KvPageTable) (ws : WorkingSetId) (node : NodeId) (slot : Nat) : Option (TableResult Nat) := do
  let (stop, segs) ← t.pathSegments node slot
  match t.entry ws with
  | .error e => some (.error e, t)
  | .ok entry =>
    let refused := KvTableError.badRange entry.mappedLen stop entry.mappedLen entry.pageLen
    if stop ≤ entry.mappedLen then some (.error refused, t)
    else do
      if ← t.holdsPrefixOf ws entry.mappedLen segs then
        let (terminal, t) ← t.boundaryTerminal segs stop
        match ← t.moveTerminal ws (some terminal) with
        | (.error e, t) => some (.error e, t)
        | (.ok freed, t) =>
          -- the old path is a prefix of the new one
          if freed ≠ [] then none
          else
            match t.entry ws with
            | .error e => some (.error e, t)
            | .ok after =>
              some (.ok stop, t.setEntry ws
                { after with pageLen := max entry.pageLen stop, mappedLen := stop })
      else some (.error refused, t)

/-! ## Cache roots and pins -/

def keepPrefixOf (t : KvPageTable) (path : KeptPath) (pages : Nat) :
    Option (KeptPath × KvPageTable) := do
  let segs ← t.segments (some path.terminal) path.pages
  let (terminal, t) ← t.boundaryTerminal segs pages
  some (⟨terminal, pages⟩, t)

def keepPrefix (t : KvPageTable) (ws : WorkingSetId) (pages : Nat) : Option (TableResult KeptPath) :=
  match t.entry ws with
  | .error e => some (.error e, t)
  | .ok entry => do
    let segs ← t.segments entry.terminal entry.mappedLen
    let (terminal, t) ← t.boundaryTerminal segs pages
    some (.ok ⟨terminal, pages⟩, t)

/-- Where pages that come after `after` hang: at its node, or at a selection that ends there. -/
def graftAfter (t : KvPageTable) : Option TriePageLocation → Option (Option NodeId × KvPageTable)
  | none => some (none, t)
  | some at_ => do
    let nd ← t.nodes.get at_.node
    match nd.pages with
    | .parentSelection _ => none
    | .owned b _ _ =>
      if at_.slot + 1 = b.length then some (some at_.node, t)
      else (t.makePrefixSelection at_.node (at_.slot + 1)).map (fun p => (some p.1, p.2))

/-- A new node is a start of the key of its first page. -/
def indexHead (t : KvPageTable) (pageHashes : List Hash256) (node : NodeId) : KvPageTable :=
  match pageHashes.head? with
  | some key => t.indexNodeStart key node
  | none => t

/-- A node of sealed pages that came from elsewhere, grafted `after` the page it extends. -/
def insertCached (t : KvPageTable) (after : Option TriePageLocation)
    (backings : List KvPageBacking) (tokenHashes : List (List (Option Hash256)))
    (pageHashes : List Hash256) : Option (NodeId × KvPageTable) := do
  let (parent, t) ← t.graftAfter after
  let (node, t) ← t.insertOwned parent (.owned backings tokenHashes (pageHashes.map some))
  some (node, t.indexHead pageHashes node)

def leaseCacheRoot (t : KvPageTable) (node : NodeId) : Option KvPageTable :=
  let (roots, first) := hold t.cacheRoots node
  let t := { t with cacheRoots := roots }
  if first then t.addAnchor node else some t

def releaseCacheRoot (t : KvPageTable) (node : NodeId) : Option (List KvPageBacking × KvPageTable) :=
  let (roots, last) := letGo t.cacheRoots node
  let t := { t with cacheRoots := roots }
  if last then t.removeAnchor node else some ([], t)

def pin (t : KvPageTable) (node : NodeId) : Option KvPageTable :=
  let (pins, first) := hold t.pins node
  let t := { t with pins := pins }
  if first then t.addAnchor node else some t

def unpin (t : KvPageTable) (node : NodeId) : Option (List KvPageBacking × KvPageTable) :=
  let (pins, last) := letGo t.pins node
  let t := { t with pins := pins }
  if last then t.removeAnchor node else some ([], t)

/-! ## Residency moves -/

/-- One move has a page at a time: a page already in one fails the assertion. -/
def pinSwapLocations (t : KvPageTable) : List TriePageLocation → Option KvPageTable
  | [] => some t
  | l :: rest =>
    if l ∈ t.swapLocations then none
    else pinSwapLocations { t with swapLocations := insert l t.swapLocations } rest

/-- The owners of the locations that were held, each once. -/
def swapOwners (held : Finset TriePageLocation) : List TriePageLocation → List NodeId
  | [] => []
  | l :: rest =>
    let more := swapOwners (held.erase l) rest
    if l ∈ held ∧ l.node ∉ more then l.node :: more else more

def unpinSwapLocations (t : KvPageTable) (locations : List TriePageLocation) :
    Option (List KvPageBacking × KvPageTable) :=
  compactAll (swapOwners t.swapLocations locations)
    { t with swapLocations := t.swapLocations.filter (fun l => l ∉ locations) }

/-- The first pass of `replace_backings`: every page is backed as expected. -/
def backingsMatch (t : KvPageTable) :
    List (TriePageLocation × KvPageBacking × KvPageBacking) → Except KvTableError Unit
  | [] => .ok ()
  | (l, expected, _) :: rest =>
    match t.backingAt l with
    | .error e => .error e
    | .ok b => if b ≠ expected then .error .backingChanged else t.backingsMatch rest

/-- The second pass. -/
def setBackings : KvPageTable → List (TriePageLocation × KvPageBacking × KvPageBacking) →
    Option (TableResult Unit)
  | t, [] => some (.ok (), t)
  | t, (l, _, replacement) :: rest =>
    match t.nodes.get l.node with
    | none => some (.error .backingChanged, t)
    | some nd =>
      match nd.pages with
      | .parentSelection _ => some (.error .backingChanged, t)
      | .owned b tk h =>
        if l.slot < b.length then
          setBackings (t.setNode l.node { nd with pages := .owned (b.set l.slot replacement) tk h })
            rest
        else none

def replaceBackings (t : KvPageTable)
    (replacements : List (TriePageLocation × KvPageBacking × KvPageBacking)) : Option (TableResult Unit) :=
  match t.backingsMatch replacements with
  | .error e => some (.error e, t)
  | .ok () => t.setBackings replacements

end KvPageTable

end Pie.Kv
