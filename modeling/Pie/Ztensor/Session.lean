import Pie.Ztensor.Write

/-!
# Sessions

From opening a writer to finishing its file or giving it up. A client holds a
writer and, while it streams an object, the sink of that object; a call that
fails leaves both as they were when it failed. Names follow `write.rs`.
-/

namespace Pie.Ztensor

open Std Lib Lib.Words Lib.Effects
open Cbor (Value)

/-! ## Sinks -/

structure Sink where
  ticket : Nat
  name : Str
  object : Object
  declared : Nat
  written : Nat
  hasher : BlobHasher
  started : Bool

abbrev SinkAct (α : Type) := EStateM (Stop Error) (Writer × Sink) α

namespace Sink

def onWriter {α : Type} (x : Act α) : SinkAct α := zoom Prod.fst (fun st w => (w, st.2)) x

def checkOwner (s : Sink) (w : Writer) : Result Unit :=
  if w.openSink ≠ some s.ticket then
    Result.invalidInput [.lit "object ", .debug s.name.bytes, .lit ": this sink is not the one open on that writer"]
  else .ok ()

def setOffset (s : Sink) (offset : Nat) : Sink :=
  { s with object := { s.object with blob := { s.object.blob with offset := offset } } }

/-- The first write reserves the place of the blob. -/
def start : SinkAct Unit := do
  let (_, s) ← get
  if s.started then pure ()
  else do
    let offset ← onWriter Writer.reserveBlob
    modify fun st => (st.1, { st.2.setOffset offset with started := true })

def write (env : Env) (chunk : List UInt8) : SinkAct Unit := do
  let (w, s) ← get
  lift (s.checkOwner w)
  start
  let (_, s) ← get
  let stop ← lift (Result.okOr
    (.invalidInput [.lit "object ", .debug s.name.bytes, .lit ": ", .num (s.written + chunk.length),
      .lit " bytes written into a blob declared as ", .num s.declared])
    ((checkedAdd s.written chunk.length).filter fun stop => stop ≤ s.declared))
  onWriter (Writer.writeBytes chunk)
  let hasher ← lift (s.hasher.update env chunk)
  modify fun st => (st.1, { st.2 with hasher := hasher, written := stop })

/-- The place of the blob of a sink that closes: that of the same content, if there is one. -/
def settle (key : Digest × Nat) (offset : Nat) : Act Nat := do
  let w ← get
  match w.dedup.lookup key with
  | some prev => do
    let same ← Writer.rangesEqual prev offset key.2
    if same then do
      Writer.truncate offset
      pure prev
    else pure offset
  | none => do
    modify fun w => { w with dedup := (key, offset) :: w.dedup }
    pure offset

def close (env : Env) (s : Sink) : Act Unit := do
  let w ← get
  lift (s.checkOwner w)
  if s.written < s.declared then
    throw (.error (.invalidInput [.lit "object ", .debug s.name.bytes, .lit ": ", .num s.written, .lit " of ",
      .num s.declared, .lit " bytes written"]))
  let reserved ← (if s.started then pure s.object.blob.offset else Writer.reserveBlob)
  let (digest, blocks) := s.hasher.finish env
  let offset ← settle (digest, s.declared) reserved
  Writer.commit s.name
    { s.object with blob := { s.object.blob with offset := offset, digest := some digest, blocks := blocks } }
  modify fun w => { w with openSink := none }

end Sink

/-- `stream`: a sink for an object that declares its length. -/
def Writer.stream (env : Env) (ticket : Nat) (name : Str) (b : ObjectBuilder) : Act Sink := do
  let w ← get
  let (object, payload) ← lift (Writer.build env w name b)
  match payload with
  | .length length => do
    set { w with openSink := some ticket }
    pure ⟨ticket, name, object, length, 0, .new w.blocks, false⟩
  | _ =>
    throw (.error (.invalidInput [.lit "object ", .debug name.bytes,
      .lit ": streaming declares the blob with .length(); use .object() for bytes in hand"]))

/-! ## Opening -/

structure Options where
  canonical : Bool := true
  align : Option Nat := none
  blocks : Option Nat := none

def isPowerOfTwo (n : Nat) : Bool := decide (n = 2 ^ n.log2)

def checkAlignment (align : Nat) : Result Unit :=
  if ¬ isPowerOfTwo align ∨ align < ALIGN_FLOOR then
    Result.invalidInput [.lit "alignment must be a power of two >= ", .num ALIGN_FLOOR, .lit ", got ", .num align]
  else .ok ()

/-- How often two divides a number, with at most so many rounds. -/
def trailingZeros : Nat → Nat → Nat
  | 0, _ => 0
  | rounds + 1, n => if n % 2 = 0 then trailingZeros rounds (n / 2) + 1 else 0

def inheritedAlignment (manifest : Manifest) (manifestAt : Nat) : Nat :=
  let common := manifest.objects.toList.foldl (fun common e =>
    if e.2.blob.shard.isNone ∧ 0 < e.2.blob.offset then Nat.gcd common e.2.blob.offset else common) manifestAt
  if common = 0 then ALIGN_FLOOR
  else max ALIGN_FLOOR (min (2 ^ min (trailingZeros 64 common) 63) ALIGN_CANONICAL)

namespace Options

/-- `build`: a writer of a new file; `accesses` is what will come of its accesses to the file. -/
def build (o : Options) (accesses : List Access) : Result Writer := do
  let align ← (match o.canonical, o.align with
    | true, none => .ok ALIGN_CANONICAL
    | true, some a =>
      if a = ALIGN_CANONICAL then .ok ALIGN_CANONICAL
      else Result.invalidInput [.lit "canonical form places blobs at ", .num ALIGN_CANONICAL, .lit "; got align(",
        .num a, .lit "). Add .canonical(false) to choose your own alignment."]
    | false, some a => do
      checkAlignment a
      .ok a
    | false, none => .ok ALIGN_CANONICAL)
  if o.canonical ∧ o.blocks.isSome then
    Result.invalidInput [.lit "canonical form carries no block digests; add .canonical(false)"]
  if o.blocks = some 0 then Result.invalidInput [.lit "block size must be at least 1"]
  match Out.write MAGIC ⟨[], [], accesses⟩ with
  | .error e _ => .error e
  | .ok _ out => .ok ⟨out, MAGIC.length, align, o.canonical, o.blocks, .new, [], none, none, false⟩

/-- `append`: a writer that goes on at the end of a file. -/
def append (o : Options) (env : Env) (store : Store) (accesses : List Access) : Result Writer := do
  if o.canonical then
    Result.invalidInput [.lit "canonical form is written in one pass; add .canonical(false)"]
  let parsed ← validateStore env store
  let stop := store.bytes.length
  match parsed.manifest with
  | none =>
    Result.invalidInput [.str store.path.bytes,
      .lit ": a data shard carries no manifest, so there is nothing to add to"]
  | some (manifest, placement) => do
    let align ← (match o.align with
      | some a => do
        checkAlignment a
        .ok a
      | none => .ok (inheritedAlignment manifest placement.manifestAt))
    .ok ⟨⟨store.bytes, [], accesses⟩, stop, align, false, o.blocks, manifest, [], none, none, true⟩

end Options

/-! ## Closing -/

namespace Writer

/-- The footer of a file whose manifest lies at `offset`. -/
def footer (env : Env) (offset : Nat) (manifest : List UInt8) : List UInt8 :=
  toLe 8 offset ++ toLe 8 manifest.length ++ toLe 8 (env.xxh3 manifest).toNat ++ toLe 4 VERSION ++ Out.zeros 4 ++ MAGIC

/-- `finish`: the file is what was written. -/
def finish (env : Env) : Act Nat := do
  let w ← get
  if w.openSink.isSome then
    throw (.error (.invalidInput [.lit "a streamed object is still open; close its sink before finishing"]))
  let manifest ← lift (Result.ofCbor (Cbor.encode w.manifest.toValue))
  if MAX_MANIFEST_LEN < manifest.length then throw (.error (.invalidInput [.lit "manifest exceeds 1 GiB"]))
  let offset ← lift w.alignedOffset
  padTo offset
  writeBytes manifest
  writeBytes (footer env offset manifest)
  onOut Out.intoInner
  let w ← get
  pure w.offset

/-- `abandon`: what is left on disk. A new file is removed, an old one keeps what reached it. -/
def abandon (w : Writer) : Option (List UInt8) := if w.appending then some w.out.file else none

/-- `drop` of a writer that appends: what is buffered is discarded. -/
def drop (w : Writer) : Option (List UInt8) := if w.appending then some w.out.file else some (after (Out.flush w.out)).file

/-- How a writer is given up; a writer that does not finish is dropped. -/
inductive GivingUp where
  | abandon
  | drop
  | finish
deriving DecidableEq, Repr

/-- What is left on disk, if the writer is given up. -/
def givenUp (env : Env) (w : Writer) : GivingUp → Option (List UInt8)
  | .abandon => w.abandon
  | .drop => w.drop
  | .finish =>
    match finish env w with
    | .ok _ _ => none
    | .error _ w => w.drop

end Writer

/-! ## Runs -/

structure Session where
  writer : Writer
  sink : Option Sink
  ticket : Nat

inductive Call where
  | setAttributes (attributes : Value)
  | object (name : Str) (b : ObjectBuilder)
  | link (name : Str) (object : Object) (shard : Str)
  | addShard (name : Str) (shard : Shard)
  | stream (name : Str) (b : ObjectBuilder)
  | write (chunk : List UInt8)
  | close

namespace Session

abbrev Run (α : Type) := EStateM (Stop Error) Session α

def new (w : Writer) : Session := ⟨w, none, 1⟩

def onWriter {α : Type} (x : Act α) : Run α := zoom Session.writer (fun s w => { s with writer := w }) x

/-- A client that holds no sink has no such call. -/
def noSink {α : Type} : Run α := throw (.error (.invalidInput [.lit "no sink"]))

def stream (env : Env) (name : Str) (b : ObjectBuilder) : Run Unit := do
  let s ← get
  let sink ← onWriter (Writer.stream env s.ticket name b)
  modify fun s => { s with sink := some sink, ticket := s.ticket + 1 }

def write (env : Env) (chunk : List UInt8) : Run Unit := do
  let s ← get
  match s.sink with
  | none => noSink
  | some sink => zoom (fun s => (s.writer, sink)) (fun s st => { s with writer := st.1, sink := some st.2 }) (Sink.write env chunk)

/-- The sink is gone, whatever comes of it. -/
def close (env : Env) : Run Unit := do
  let s ← get
  match s.sink with
  | none => noSink
  | some sink => do
    modify fun s => { s with sink := none }
    onWriter (Sink.close env sink)

def perform (env : Env) : Call → Run Unit
  | .setAttributes attributes => onWriter (Writer.setAttributes attributes)
  | .object name b => onWriter (Writer.object env name b)
  | .link name object shard => onWriter (Writer.link env name object shard)
  | .addShard name shard => onWriter (Writer.addShard name shard)
  | .stream name b => stream env name b
  | .write chunk => write env chunk
  | .close => close env

/-- Calls that all succeed. -/
def run (env : Env) : List Call → Run Unit
  | [] => pure ()
  | c :: cs => do
    perform env c
    run env cs

/-- Calls one after the other, whether or not they succeed. -/
def goOn (env : Env) : List Call → Session → Session
  | [], s => s
  | c :: cs, s => goOn env cs (after (perform env c s))

end Session

end Pie.Ztensor
