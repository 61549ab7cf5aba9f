import Pie.Eta.Container

/-!
# Host channels

The host's end of a channel. Values wait in `staged` until there is a ring to
write them to; what the engine publishes is copied out of the ring into
`produced`. A method that touches the ring is given it as it is, and returns it
as it leaves it. A failed call returns what it has changed all the same.

Names follow `pipeline/channel.rs`. Addresses are left out: there is one ring
for the channel, and its words are named, not indexed.
-/

namespace Pie.Pipeline

open Eta

abbrev Bytes := List UInt8

/-- What the host and the engine share. The engine moves the head and the host the tail of
a writer's ring; of a reader's ring it is the other way round. -/
structure HostRing where
  cells : List Bytes
  head : Nat
  tail : Nat
  poison : Nat
  closed : Nat
deriving DecidableEq, Repr

/-- `RegisteredChannel` behind its `Arc`, which `address` stands for. An adopted ring is the
engine's own. -/
structure ChannelEndpoint where
  address : Nat
  channelId : Nat
  cellBytes : Nat
  capacity : BitVec 32
  adopted : Bool
deriving DecidableEq, Repr

structure ReaderMirror where
  cellBytes : Nat
  cap1 : Nat
  copiedTail : Nat
deriving DecidableEq, Repr

structure ChannelAttachment where
  instanceId : Nat
  externDir : Option ExternDir
deriving DecidableEq

inductive ChannelError
  | wrongRole (role : HostRole) (op : String)
  | empty
  | poisoned (reason : String)
  | badLength (expected got : Nat)
  | missingSeed
  | full
  | seedAlreadyStaged
  | closed
deriving DecidableEq, Repr

structure ChannelCell where
  globalId : Nat
  shape : List (BitVec 32)
  dtype : Dtype
  capacity : BitVec 32
  role : Option HostRole
  seeded : Bool
  seedTaken : Bool
  endpoint : Option ChannelEndpoint
  declaredDtype : Option ChanDType
  externName : Option String
  attachments : List ChannelAttachment
  staged : List Bytes
  ringHostCopies : List Bytes
  writerTail : Nat
  produced : List Bytes
  deviceReservedHead : Nat
  deviceReservedTail : Nat
  reader : Option ReaderMirror
  poisoned : Option String
  frontOverride : Option Bytes
deriving DecidableEq

/-! ## Booleans -/

/-- `out` bytes, one bit a boolean. -/
def packBoolInto (native : Bytes) (out : Nat) : Bytes :=
  native.zipIdx.foldl (fun wire (b, i) =>
    if b ≠ 0 then wire.modify (i / 8) (· ||| 1 <<< UInt8.ofNat (i % 8)) else wire) (List.replicate out 0)

def unpackBool (wire : Bytes) (numel : Nat) : Bytes :=
  (List.range numel).map fun i => (wire[i / 8]?).getD 0 >>> UInt8.ofNat (i % 8) &&& 1

/-- What a cell of `cellBytes` bytes holds of a value. -/
def toWire (dtype : Dtype) (cellBytes : Nat) (native : Bytes) : Bytes :=
  if dtype = .bool then packBoolInto native cellBytes else native

/-- The value in a cell of a mirror, where a boolean has a bit or a byte. -/
def fromWire (dtype : Dtype) (numel nativeLen : Nat) (wire : Bytes) : Bytes :=
  if dtype = .bool then
    if wire.length = nativeLen then wire.map fun byte => if byte ≠ 0 then 1 else 0 else unpackBool wire numel
  else wire

def decodeReaderCell (dtype : Dtype) (numel nativeLen : Nat) (wire : Bytes) : Except ChannelError Bytes :=
  let native := fromWire dtype numel nativeLen wire
  if native.length = nativeLen then .ok native else .error (.badLength nativeLen native.length)

namespace ChannelCell

def new (globalId : Nat) (shape : List (BitVec 32)) (dtype : Dtype) (capacity : BitVec 32) : ChannelCell where
  globalId := globalId
  shape := shape
  dtype := dtype
  capacity := capacity
  role := none
  seeded := false
  seedTaken := false
  endpoint := none
  declaredDtype := none
  externName := none
  attachments := []
  staged := []
  ringHostCopies := []
  writerTail := 0
  produced := []
  deviceReservedHead := 0
  deviceReservedTail := 0
  reader := none
  poisoned := none
  frontOverride := none

def numel (cell : ChannelCell) : Nat := numelOf cell.shape

def nativeLen (cell : ChannelCell) : Nat := cell.numel * cell.dtype.bytesCeil

/-- A boolean takes a bit of a cell. -/
def wireLen (cell : ChannelCell) (native : Bytes) : Nat :=
  if cell.dtype = .bool then (native.length + 7) / 8 else native.length

/-- The bytes of a value in a writer's ring. -/
def wire (cell : ChannelCell) (native : Bytes) : Bytes := toWire cell.dtype (cell.wireLen native) native

/-- A value as the engine has it: a boolean is `0` or `1`. -/
def Native (cell : ChannelCell) (native : Bytes) : Prop :=
  native.length = cell.nativeLen ∧ (cell.dtype = .bool → ∀ b ∈ native, b = 0 ∨ b = 1)

/-- The bytes of a value in a reader's mirror, which may hold a boolean in a byte. -/
def mirrorWire (cell : ChannelCell) (cellBytes : Nat) (native : Bytes) : Bytes :=
  if cellBytes = cell.nativeLen then native else toWire cell.dtype cellBytes native

/-! ## Attaching to a pass -/

inductive AttachError
  | shape
  | dtype
  | capacity
  | declaredDtype
  /-- a host-visible or seeded channel may attach to only one pass -/
  | onlyOnePass
  /-- shared extern channels cannot have a host role or seed -/
  | sharedExtern
  | externName
  /-- extern endpoint is already claimed -/
  | claimed
  /-- extern channels cannot have a host role or seed -/
  | externRole
deriving DecidableEq, Repr

def validateAttachment (cell : ChannelCell) (decl : ChannelDecl) (externBinding : Option (String × ExternDir)) :
    Except AttachError Unit :=
  if cell.shape ≠ decl.shape.dims then .error .shape
  else if cell.dtype ≠ decl.dtype.programDtype then .error .dtype
  else if cell.capacity ≠ decl.capacity then .error .capacity
  else if cell.declaredDtype.any (· ≠ decl.dtype) then .error .declaredDtype
  else if cell.attachments ≠ [] then
    match externBinding with
    | none =>
      if decl.hostRole ≠ .none ∨ decl.seeded ∨ cell.role ≠ some .none ∨ cell.seeded then .error .onlyOnePass
      else .ok ()
    | some (name, dir) =>
      if decl.hostRole ≠ .none ∨ decl.seeded then .error .sharedExtern
      else if cell.externName ≠ some name then .error .externName
      else if cell.attachments.any fun attachment => attachment.externDir = some dir then .error .claimed
      else .ok ()
  else if externBinding.isSome ∧ (decl.hostRole ≠ .none ∨ decl.seeded) then .error .externRole
  else .ok ()

/-- What the first attachment sets: the counters of a ring that is there already, or those of an empty one. -/
def bindCounters (cell : ChannelCell) (ring : HostRing) (decl : ChannelDecl) : ChannelCell :=
  let bound :=
    match cell.endpoint with
    | some _ =>
      { cell with
        deviceReservedHead := ring.head
        deviceReservedTail := ring.tail
        writerTail := if decl.hostRole = .writer then max cell.writerTail ring.tail else cell.writerTail }
    | none => { cell with deviceReservedHead := 0, deviceReservedTail := decl.seeded.toNat }
  if decl.seeded ∧ decl.hostRole = .writer then { bound with writerTail := max bound.writerTail 1 } else bound

def bind (cell : ChannelCell) (ring : HostRing) (decl : ChannelDecl) : ChannelCell :=
  let bound := if cell.attachments = [] then cell.bindCounters ring decl else cell
  { bound with role := some decl.hostRole, seeded := decl.seeded, declaredDtype := some decl.dtype }

def attach (cell : ChannelCell) (ring : HostRing) (instanceId : Nat) (decl : ChannelDecl)
    (externBinding : Option (String × ExternDir)) : Except AttachError ChannelCell := do
  cell.validateAttachment decl externBinding
  let bound := cell.bind ring decl
  pure { bound with
    externName := (externBinding.map Prod.fst).or bound.externName
    attachments := bound.attachments ++ [⟨instanceId, externBinding.map Prod.snd⟩] }

def detach (cell : ChannelCell) (instanceId : Nat) : ChannelCell :=
  { cell with attachments := cell.attachments.filter fun attachment => attachment.instanceId ≠ instanceId }

/-! ## The writer's end -/

def epochReason (poison : Nat) : String := s!"engine published poison epoch {poison}"

def writeWriterRing (cell : ChannelCell) (ring : HostRing) (endpoint : ChannelEndpoint) (native : Bytes) :
    Except ChannelError (ChannelCell × HostRing) :=
  if ring.poison ≠ 0 then .error (.poisoned (epochReason ring.poison))
  else if ring.closed ≠ 0 then .error .closed
  else if cell.capacity.toNat ≤ cell.writerTail - ring.head then .error .full
  else if cell.wireLen native ≠ endpoint.cellBytes then
    .error (.badLength endpoint.cellBytes (cell.wireLen native))
  else
    let cap1 := endpoint.capacity.toNat + 1
    .ok ({ cell with writerTail := cell.writerTail + 1, ringHostCopies := cell.ringHostCopies ++ [native] },
      { ring with
        cells := ring.cells.set (cell.writerTail % cap1) (toWire cell.dtype endpoint.cellBytes native)
        tail := cell.writerTail + 1 })

/-- The loop of `flush_writer_staging`: a value that is refused stays in front. -/
def flushStaged (endpoint : ChannelEndpoint) :
    List Bytes → ChannelCell → HostRing → Except ChannelError Unit × ChannelCell × HostRing
  | [], cell, ring => (.ok (), { cell with staged := [] }, ring)
  | native :: rest, cell, ring =>
    match cell.writeWriterRing ring endpoint native with
    | .error error => (.error error, { cell with staged := native :: rest }, ring)
    | .ok (cell, ring) => flushStaged endpoint rest cell ring

/-- The seed was not given to the engine yet. -/
def seedPending (cell : ChannelCell) : Bool := cell.seeded && !cell.seedTaken

def flushWriterStaging (cell : ChannelCell) (ring : HostRing) : Except ChannelError Unit × ChannelCell × HostRing :=
  if cell.role ≠ some .writer ∨ cell.seedPending then (.ok (), cell, ring)
  else
    match cell.endpoint with
    | none => (.ok (), cell, ring)
    | some endpoint => flushStaged endpoint cell.staged cell ring

/-- What `put_ref` checks first. -/
def checkPut (cell : ChannelCell) (native : Bytes) : Except ChannelError Unit :=
  if native.length ≠ cell.nativeLen then .error (.badLength cell.nativeLen native.length)
  else
    match cell.role with
    | none | some .writer => .ok ()
    | some role =>
      if !cell.seedPending then .error (.wrongRole role "put")
      else if cell.staged ≠ [] then .error .seedAlreadyStaged
      else .ok ()

/-- Where a value is written without being staged; the source asserts that nothing is staged then. -/
def directRing (cell : ChannelCell) : Option ChannelEndpoint :=
  if cell.role = some .writer ∧ cell.seedPending = false then cell.endpoint else none

def putRef (cell : ChannelCell) (ring : HostRing) (native : Bytes) : Except ChannelError (ChannelCell × HostRing) :=
  match cell.checkPut native with
  | .error error => .error error
  | .ok () =>
    match cell.directRing with
    | some endpoint => cell.writeWriterRing ring endpoint native
    | none =>
      let consumed := if cell.endpoint.isSome then ring.head else 0
      if cell.capacity.toNat ≤ cell.writerTail - consumed + cell.staged.length then .error .full
      else .ok ({ cell with staged := cell.staged ++ [native] }, ring)

/-- `peek_seed` has found the seed, which the engine was given. -/
def commitSeed (cell : ChannelCell) (ring : HostRing) : ChannelCell × HostRing :=
  let taken := { cell with staged := cell.staged.tail, seedTaken := true }
  match cell.endpoint with
  | none => (taken, ring)
  | some endpoint =>
    if cell.role = some .writer ∧ !endpoint.adopted ∧ ring.tail = 0 ∧ ring.head = 0 then
      (taken, { ring with tail := cell.writerTail, head := cell.writerTail })
    else (taken, ring)

/-! ## The reader's end -/

inductive MirrorError
  /-- engine mirror bound to another role -/
  | role
  /-- engine returned an invalid mirror binding -/
  | invalid
  /-- endpoint mirror already attached -/
  | attached
  | cellBytes (got expected : Nat)
deriving DecidableEq, Repr

def attachReaderMirror (cell : ChannelCell) (endpoint : ChannelEndpoint) : Except MirrorError ChannelCell :=
  if cell.role ≠ some .reader then .error .role
  else if endpoint.cellBytes = 0 then .error .invalid
  else if cell.reader.isSome then .error .attached
  else if endpoint.cellBytes ≠ cell.nativeLen
      ∧ ¬(cell.dtype = .bool ∧ endpoint.cellBytes = (cell.numel + 7) / 8) then
    .error (.cellBytes endpoint.cellBytes cell.nativeLen)
  else .ok { cell with reader := some ⟨endpoint.cellBytes, endpoint.capacity.toNat + 1, 0⟩ }

def overrunReason (tail copied cap1 : Nat) : String :=
  s!"channel mirror overrun (tail {tail}, copied {copied}, capacity {cap1})"

def poison (cell : ChannelCell) (reason : String) : ChannelCell :=
  if cell.poisoned = none then { cell with poisoned := some reason } else cell

/-- The loop of `refresh_reader_mirrors`: cells up to the visible tail are decoded in turn. -/
def copyCells (ring : HostRing) : Nat → ChannelCell → ReaderMirror → Except ChannelError Unit × ChannelCell
  | 0, cell, reader => (.ok (), { cell with reader := some reader })
  | n + 1, cell, reader =>
    let wire := (ring.cells[reader.copiedTail % reader.cap1]?).getD []
    match decodeReaderCell cell.dtype cell.numel cell.nativeLen wire with
    | .error error => (.error error, { cell with reader := some reader })
    | .ok native =>
      copyCells ring n { cell with produced := cell.produced ++ [native] }
        { reader with copiedTail := reader.copiedTail + 1 }

/-- What the words say to a reader: a reason to be poisoned, whether the channel is closed,
and how many cells there are to copy. -/
def look (ring : HostRing) (reader : ReaderMirror) : Option String × Bool × Nat :=
  if ring.poison ≠ 0 then (some (epochReason ring.poison), false, 0)
  else if ring.closed ≠ 0 then (none, true, 0)
  else if reader.cap1 ≤ ring.tail - reader.copiedTail then
    (some (overrunReason ring.tail reader.copiedTail reader.cap1), false, 0)
  else (none, false, ring.tail - reader.copiedTail)

def refreshReaderMirrors (cell : ChannelCell) (ring : HostRing) : Except ChannelError Unit × ChannelCell :=
  match cell.reader with
  | none => (.ok (), cell)
  | some reader =>
    let (reason, closed, ahead) := look ring reader
    let cell := match reason with
      | some reason => cell.poison reason
      | none => cell
    match copyCells ring ahead cell reader with
    | (.error error, cell) => (.error error, cell)
    | (.ok (), cell) =>
      if closed ∧ cell.produced = [] ∧ cell.poisoned = none then (.error .closed, cell) else (.ok (), cell)

/-- What `take` and `read` check once the mirror is refreshed. -/
def readable (cell : ChannelCell) (op : String) : Except ChannelError Bytes :=
  match cell.poisoned, cell.role with
  | some reason, _ => .error (.poisoned reason)
  | none, some .none => .error (.wrongRole .none op)
  | none, some .writer => .error (.wrongRole .writer op)
  | none, _ =>
    match cell.produced.head? with
    | some value => .ok value
    | none => .error .empty

def take (cell : ChannelCell) (ring : HostRing) : Except ChannelError Bytes × ChannelCell × HostRing :=
  match cell.refreshReaderMirrors ring with
  | (.error error, cell) => (.error error, cell, ring)
  | (.ok (), cell) =>
    match cell.readable "take" with
    | .error error => (.error error, cell, ring)
    | .ok value =>
      (.ok value, { cell with produced := cell.produced.tail, frontOverride := none },
        if cell.reader.isSome then { ring with head := ring.head + 1 } else ring)

def read (cell : ChannelCell) (ring : HostRing) : Except ChannelError Bytes × ChannelCell :=
  match cell.refreshReaderMirrors ring with
  | (.error error, cell) => (.error error, cell)
  | (.ok (), cell) => (cell.readable "read", cell)

inductive EndpointError
  | otherChannel (channel endpoint : Nat)
  | alreadyRegistered
  | mirror (error : MirrorError)
  | stagingFlush (error : ChannelError)
deriving DecidableEq, Repr

def attachEndpoint (cell : ChannelCell) (ring : HostRing) (endpoint : ChannelEndpoint) :
    Except EndpointError Unit × ChannelCell × HostRing :=
  if endpoint.channelId ≠ cell.globalId then (.error (.otherChannel cell.globalId endpoint.channelId), cell, ring)
  else
    match cell.endpoint with
    | some existing =>
      (if existing.address = endpoint.address then .ok () else .error .alreadyRegistered, cell, ring)
    | none =>
      match if cell.role = some .reader then cell.attachReaderMirror endpoint else .ok cell with
      | .error error => (.error (.mirror error), cell, ring)
      | .ok cell =>
        let cell := { cell with endpoint := some endpoint }
        if cell.role = some .writer then
          match cell.flushWriterStaging ring with
          | (.error error, cell, ring) => (.error (.stagingFlush error), cell, ring)
          | (.ok (), cell, ring) => (.ok (), cell, ring)
        else (.ok (), cell, ring)

end ChannelCell

end Pie.Pipeline
