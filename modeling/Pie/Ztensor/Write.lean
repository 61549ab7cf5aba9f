import Pie.Ztensor.Output

/-!
# Writing a file

A writer places each object where the last one ended, unless it has the same
bytes already. Objects come with their bytes, with their planes, or in chunks
through a sink. Names follow `write.rs`. Where the file lies, and the move to
its final path when it is published, are left out; a sum that no `u64` holds is
a panic.
-/

namespace Pie.Ztensor

open Std Lib Lib.Words Lib.Effects
open Cbor (Value)

structure Writer where
  out : Out
  offset : Nat
  align : Nat
  canonical : Bool
  blocks : Option Nat
  manifest : Manifest
  dedup : List ((Digest × Nat) × Nat)
  lastName : Option Str
  openSink : Option Nat
  appending : Bool

abbrev Act (α : Type) := EStateM (Stop Error) Writer α

namespace Writer

/-- A program on what the writer writes through. -/
def onOut {α : Type} (x : Write α) : Act α := zoom Writer.out (fun w o => { w with out := o }) x

/-! ## Placing bytes -/

def writeBytes (data : List UInt8) : Act Unit := do
  onOut (Out.write data)
  let w ← get
  if w.offset + data.length < WORD then set { w with offset := w.offset + data.length }
  else throw .panic

/-- The loop of `pad_to`: zeros, at most 4096 at a time. -/
def padLoop : Nat → Nat → Act Unit
  | 0, _ => pure ()
  | rounds + 1, gap =>
    if gap = 0 then pure ()
    else do
      let n := min gap 4096
      onOut (Out.write (Out.zeros n))
      padLoop rounds (gap - n)

def padTo (target : Nat) : Act Unit := do
  let w ← get
  padLoop (target - w.offset) (target - w.offset)
  modify fun w => { w with offset := target }

def alignedOffset (w : Writer) : Result Nat :=
  Result.okOr (.invalidInput [.lit "file offset overflow"]) (alignUp w.offset w.align)

def reserveBlob : Act Nat := do
  let w ← get
  let target ← lift w.alignedOffset
  padTo target
  pure target

def writeBlob (data : List UInt8) : Act Nat := do
  let target ← reserveBlob
  writeBytes data
  pure target

/-- The loop of `segments_equal`, over what lies in the file from `pos` on. -/
def compareSegments (file : List UInt8) : Nat → List (Nat × List UInt8) → Result Bool
  | _, [] => .ok true
  | pos, (gap, data) :: rest => do
    let buf ← readExact file pos (gap + data.length)
    if (buf.take gap).any (· ≠ 0) ∨ buf.drop gap ≠ data then .ok false
    else compareSegments file (pos + (gap + data.length)) rest

def segmentsEqual (offset : Nat) (segments : List (Nat × List UInt8)) : Act Bool := do
  onOut Out.flush
  onOut Out.touch
  let w ← get
  lift (compareSegments w.out.file offset segments)

/-- The loop of `ranges_equal`. -/
def compareRanges (file : List UInt8) (a b len chunk : Nat) : Nat → Nat → Result Bool
  | 0, _ => .ok true
  | rounds + 1, done =>
    if ¬ done < len then .ok true
    else do
      let n := min (len - done) chunk
      let x ← readExact file (a + done) n
      let y ← readExact file (b + done) n
      if x ≠ y then .ok false else compareRanges file a b len chunk rounds (done + n)

def rangesEqual (a b len : Nat) : Act Bool := do
  onOut Out.flush
  onOut Out.touch
  let w ← get
  lift (compareRanges w.out.file a b len (min len (2 ^ 20)) len 0)

def truncate (len : Nat) : Act Unit := do
  onOut Out.flush
  onOut (Out.setLen len)
  modify fun w => { w with offset := len }

/-- The hash of some segments, and how long they are. -/
def hashSegments (env : Env) : List (Nat × List UInt8) → BlobHasher → Nat → Result (BlobHasher × Nat)
  | [], h, length => .ok (h, length)
  | (gap, data) :: rest, h, length => do
    let h ← h.update env (Out.zeros gap)
    let h ← h.update env data
    hashSegments env rest h (length + (gap + data.length))

/-- The loop that writes them. -/
def writeSegments : List (Nat × List UInt8) → Act Unit
  | [] => pure ()
  | (gap, data) :: rest => do
    writeBytes (Out.zeros gap)
    writeBytes data
    writeSegments rest

/-- `dedup.entry(key).or_insert(target)`. -/
def orInsert (w : Writer) (key : Digest × Nat) (target : Nat) : Writer :=
  match w.dedup.lookup key with
  | some _ => w
  | none => { w with dedup := (key, target) :: w.dedup }

/-- The place of a blob of the same content, if there is one. -/
def shared (key : Digest × Nat) (segments : List (Nat × List UInt8)) : Act (Option Nat) := do
  let w ← get
  match w.dedup.lookup key with
  | none => pure none
  | some offset => do
    let same ← segmentsEqual offset segments
    pure (if same then some offset else none)

def writeOrShareSegments (env : Env) (segments : List (Nat × List UInt8)) (blocks : Option Nat) :
    Act (Nat × Digest × Option Blocks) := do
  let (hasher, length) ← lift (hashSegments env segments (.new blocks) 0)
  let (digest, blocks) := hasher.finish env
  let key := (digest, length)
  match ← shared key segments with
  | some offset => pure (offset, digest, blocks)
  | none => do
    let target ← reserveBlob
    writeSegments segments
    modify fun w => w.orInsert key target
    pure (target, digest, blocks)

def writeOrShareBlob (env : Env) (data : List UInt8) (blocks : Option Nat) : Act (Nat × Digest × Option Blocks) :=
  writeOrShareSegments env [(0, data)] blocks

/-- The zeros before each plane. -/
def planeSegments : Nat → List (List UInt8) → Result (List (Nat × List UInt8))
  | _, [] => .ok []
  | cursor, plane :: rest => do
    let start ← Result.okOr (.invalidInput [.lit "blob size overflow"]) (alignUp cursor PLANE_ALIGN)
    let segments ← planeSegments (start + plane.length) rest
    .ok ((start - cursor, plane) :: segments)

def writePlanes (env : Env) (planes : List (List UInt8)) (blocks : Option Nat) : Act (Nat × Digest × Option Blocks) := do
  let segments ← lift (planeSegments 0 planes)
  writeOrShareSegments env segments blocks

/-! ## New objects -/

/-- `invalid`: what a reader would reject is invalid input. -/
def invalid : Error → Error
  | .reject _ detail => .invalidInput detail
  | other => other

def isAscii (s : Str) : Bool := s.bytes.all fun b => decide (b < 0x80)

def checkCanonicalName (env : Env) (w : Writer) (name : Str) : Result Unit :=
  if w.canonical ∧ ¬ isAscii name ∧ ¬ env.isNfc name then
    Result.invalidInput [.lit "canonical form requires NFC-normalized names, got ", .debug name.bytes]
  else .ok ()

def checkNewObject (env : Env) (w : Writer) (name : Str) (shape : List Nat) : Result Unit := do
  if w.openSink.isSome then
    Result.invalidInput [.lit "object ", .debug name.bytes, .lit " cannot be added while a streamed object is open"]
  Result.mapErr invalid (checkName name)
  checkCanonicalName env w name
  if w.manifest.objects.contains name then Result.invalidInput [.lit "duplicate object ", .debug name.bytes]
  let _ ← Result.mapErr invalid (checkShape shape)
  if w.canonical then
    match w.lastName with
    | some last =>
      if (compare name last).isLE then
        Result.invalidInput [.lit "canonical form requires sorted insertion: ", .debug name.bytes, .lit " after ",
          .debug last.bytes]
      else .ok ()
    | none => .ok ()
  else .ok ()

def commit (name : Str) (object : Object) : Act Unit :=
  modify fun w =>
    { w with manifest := { w.manifest with objects := w.manifest.objects.insert name object }, lastName := some name }

end Writer

inductive Payload where
  | bytes (data : List UInt8)
  | planes (planes : List (List UInt8))
  | encoded (stored : List UInt8)
  | length (n : Nat)
  | external (shard : Str) (start stop : Nat)
  | linked (object : Object)
  | missing

def Payload.setter : Payload → String
  | bytes _ => "bytes"
  | encoded _ => "bytes"
  | planes _ => "planes"
  | length _ => "length"
  | external _ _ _ => "external"
  | linked _ => "link"
  | missing => "nothing"

structure ObjectBuilder where
  shape : List Nat
  term : Option Term
  layout : Option Str
  pairs : List (Value × Value)
  attributes : Option Value
  encoding : Option Str
  digest : Option Digest
  payload : Payload
  conflict : Option Message

namespace ObjectBuilder

def new : ObjectBuilder := ⟨[], none, none, [], none, none, none, .missing, none⟩

def setShape (b : ObjectBuilder) (shape : List Nat) : ObjectBuilder := { b with shape := shape }

def setTerm (b : ObjectBuilder) (term : Term) : ObjectBuilder := { b with term := some term }

def setLayout (b : ObjectBuilder) (layout : Str) : ObjectBuilder := { b with layout := some layout }

def attr (b : ObjectBuilder) (key : Str) (value : Value) : ObjectBuilder :=
  { b with pairs := b.pairs ++ [(.text key, value)] }

def setAttributes (b : ObjectBuilder) (attributes : Value) : ObjectBuilder := { b with attributes := some attributes }

def setEncoding (b : ObjectBuilder) (encoding : Str) : ObjectBuilder := { b with encoding := some encoding }

def setDigest (b : ObjectBuilder) (digest : Digest) : ObjectBuilder := { b with digest := some digest }

/-- `payload`: the first one set stays, and a second one is a conflict. -/
def setPayload (b : ObjectBuilder) (payload : Payload) : ObjectBuilder :=
  match b.payload with
  | .missing => { b with payload := payload }
  | already =>
    { b with conflict := some (b.conflict.getD
        [.lit "payload already set by `", .lit already.setter, .lit "`, then `", .lit payload.setter, .lit "`"]) }

end ObjectBuilder

/-! ## Describing an object -/

namespace Writer

def validateObject (env : Env) (name : Str) (object : Object) : Result Unit := do
  if object.term.isNone ∧ object.layout.isNone then
    Result.invalidInput [.lit "object ", .debug name.bytes, .lit ": no type and no layout to define its values"]
  match object.attributes with
  | some attributes => Result.mapErr invalid (checkAttributes attributes)
  | none => .ok ()
  match object.layout with
  | none => do
    let expected ← Result.mapErr invalid object.canonicalSize
    if object.blob.decodedSize ≠ expected then
      Result.invalidInput [.lit "object ", .debug name.bytes, .lit ": ", .num object.blob.decodedSize,
        .lit " bytes given, its shape and type take ", .num expected]
    else .ok ()
  | some layout =>
    match env.layout layout with
    | some validate => Result.mapErr invalid (validate name object)
    | none => .ok ()

def validateExternal (manifest : Manifest) (blob : Blob) : Result Unit :=
  match blob.shard with
  | none => Result.invalidInput [.lit "an external blob names no shard"]
  | some sname => do
    let shard ← Result.okOr (.invalidInput [.lit "unregistered shard ", .debug sname.bytes]) manifest.shards[sname]?
    if blob.offset % ALIGN_FLOOR ≠ 0 ∨ blob.offset < ALIGN_FLOOR then
      Result.invalidInput [.lit "offset ", .num blob.offset, .lit " violates the ", .num ALIGN_FLOOR, .lit " floor"]
    if shard.size < FOOTER_LEN then Result.panic
    let regionEnd := shard.size - FOOTER_LEN
    if ((checkedAdd blob.offset blob.length).filter fun stop => stop ≤ regionEnd).isNone then
      Result.invalidInput [.lit "blob outside shard ", .debug sname.bytes, .lit "'s data region"]
    Result.mapErr invalid blob.check

/-- The attributes of a builder, one by one or wholesale. -/
def builderAttributes (bad : Message → Result (List (Value × Value))) (b : ObjectBuilder) :
    Result (List (Value × Value)) :=
  match b.attributes with
  | none => .ok b.pairs
  | some attributes =>
    if b.pairs ≠ [] then bad [.lit "attributes given both one by one and wholesale"]
    else
      match attributes with
      | .map pairs => .ok pairs
      | other => bad [.lit "attributes must be a map, got ", .value other]

/-- The planes a type has and those given. -/
def checkPlanes (bad : Message → Result Unit) : List Plane → List (List UInt8) → Result Unit
  | plane :: expected, data :: planes =>
    if data.length ≠ plane.len then
      bad [.lit "plane ", .debug plane.path.bytes, .lit " is ", .num plane.len, .lit " bytes, ", .num data.length,
        .lit " given"]
    else checkPlanes bad expected planes
  | _, _ => .ok ()

/-- The blob of a builder, before it is placed, and what is to be written of it. -/
def buildBlob (env : Env) (w : Writer) (bad : {α : Type} → Message → Result α) (b : ObjectBuilder) :
    Result (Blob × Payload) :=
  match b.payload with
  | .missing => bad [.lit "no bytes, planes, length, or external blob"]
  | .linked _ => Result.panic
  | .encoded _ => Result.panic
  | .external shard start stop => do
    if b.encoding.isSome then
      bad [.lit "an encoded external blob carries a decoded length only its own manifest knows; link it with `Writer::link`"]
    if stop < start then
      bad [.lit "range ", .num start, .lit "..", .num stop, .lit " ends before it starts"]
    let blob : Blob := ⟨some shard, start, stop - start, none, none, b.digest, none⟩
    validateExternal w.manifest blob
    .ok (blob, .missing)
  | .length length =>
    if b.encoding.isSome then bad [.lit "a streamed blob is written raw; encode bytes in hand"]
    else .ok (Blob.local 0 length, .length length)
  | .planes planes => do
    if b.layout.isSome then bad [.lit "planes are laid out canonically; a named layout takes bytes"]
    if b.encoding.isSome then bad [.lit "planes are written raw; encode bytes in hand"]
    match b.term with
    | none => bad [.lit "planes need a type to lay them out"]
    | some term => do
      let expected ← Result.mapErr invalid (term.planes b.shape)
      if expected.length ≠ planes.length then
        bad [.lit "the type has ", .num expected.length, .lit " planes, ", .num planes.length, .lit " given"]
      checkPlanes bad expected planes
      let length ← Result.mapErr invalid (term.canonicalSize b.shape)
      .ok (Blob.local 0 length, .planes planes)
  | .bytes data =>
    match b.encoding with
    | none => .ok (Blob.local 0 data.length, .bytes data)
    | some id => do
      let encode ← Result.okOr
        (.unsupported [.lit "encoding profile ", .debug id.bytes, .lit " is not registered"]) (env.encoding id)
      let stored ← encode data
      let hasher ← (BlobHasher.new w.blocks).update env data
      let (digest, blocks) := hasher.finish env
      .ok (⟨none, 0, stored.length, some id, some data.length, some digest, blocks⟩, .encoded stored)

def build (env : Env) (w : Writer) (name : Str) (b : ObjectBuilder) : Result (Object × Payload) :=
  let bad {α : Type} (detail : Message) : Result α :=
    Result.invalidInput (.lit "object " :: .debug name.bytes :: .lit ": " :: detail)
  match b.conflict with
  | some conflict => bad conflict
  | none =>
    match b.payload with
    | .linked object => do
      checkNewObject env w name object.shape
      validateExternal w.manifest object.blob
      validateObject env name object
      .ok (object, .missing)
    | _ => do
      checkNewObject env w name b.shape
      let attributes ← builderAttributes bad b
      let attributes := if attributes = [] then none else some (Value.map attributes)
      if b.digest.isSome then
        match b.payload with
        | .external _ _ _ => .ok ()
        | _ => bad [.lit "only an external blob takes a digest; this writer hashes what it writes"]
      if b.encoding.isSome ∧ w.canonical then
        bad [.lit "canonical form forbids encoded blobs; add .canonical(false)"]
      let (blob, payload) ← buildBlob env w bad b
      let object : Object := ⟨b.shape, b.term, b.layout, attributes, blob⟩
      validateObject env name object
      .ok (object, payload)

/-! ## Objects with their bytes in hand -/

def object (env : Env) (name : Str) (b : ObjectBuilder) : Act Unit := do
  let w ← get
  let (object, payload) ← lift (build env w name b)
  match payload with
  | .bytes data => do
    let (offset, digest, blocks) ← writeOrShareBlob env data w.blocks
    commit name { object with blob := { object.blob with offset := offset, digest := some digest, blocks := blocks } }
  | .planes planes => do
    let (offset, digest, blocks) ← writePlanes env planes w.blocks
    commit name { object with blob := { object.blob with offset := offset, digest := some digest, blocks := blocks } }
  | .encoded stored => do
    let offset ← writeBlob stored
    commit name { object with blob := { object.blob with offset := offset } }
  | .length _ =>
    throw (.error (.invalidInput [.lit "object ", .debug name.bytes,
      .lit " declares a length; use .stream() instead"]))
  | _ => commit name object

def link (env : Env) (name : Str) (o : Object) (shard : Str) : Act Unit :=
  if o.blob.shard.isSome then
    throw (.error (.invalidInput [.lit "the object is itself a foreign reference; only local blobs can be linked"]))
  else object env name (ObjectBuilder.new.setPayload (.linked { o with blob := { o.blob with shard := some shard } }))

def setAttributes (attributes : Value) : Act Unit :=
  modify fun w => { w with manifest := { w.manifest with attributes := some attributes } }

def addShard (name : Str) (shard : Shard) : Act Unit := do
  let w ← get
  if w.canonical then
    throw (.error (.invalidInput [.lit "canonical form is single-file; add .canonical(false)"]))
  lift (Result.mapErr invalid (checkShardName name))
  lift (Result.mapErr invalid shard.digest.check)
  if shard.size < MIN_FILE_LEN then
    throw (.error (.invalidInput [.lit "shard size ", .num shard.size, .lit " below minimum file size"]))
  match w.manifest.shards[name]? with
  | some existing =>
    if existing ≠ shard then
      throw (.error (.invalidInput [.lit "shard ", .debug name.bytes,
        .lit " is already registered with a different identity"]))
  | none => pure ()
  set { w with manifest := { w.manifest with shards := w.manifest.shards.insert name shard } }

end Writer

end Pie.Ztensor
