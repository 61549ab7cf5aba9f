import Mathlib.Data.List.Destutter
import Pie.Ztensor.Format

/-!
# What a reader accepts

The frame of a file, its manifest, and the places the manifest gives its blobs;
and what keeps a file from being canonical. Names follow `format/validate.rs`,
and `provide/store.rs` for the file that is read.
-/

namespace Pie.Ztensor

open Std Lib Lib.Words

structure Footer where
  offset : Nat
  length : Nat
  hash : BitVec 64
deriving DecidableEq

structure Placement where
  manifestAt : Nat
  manifestLen : Nat
  fileLen : Nat
deriving DecidableEq, Repr

structure Parsed where
  manifest : Option (Manifest × Placement)
  occupied : List (Nat × Nat)

/-- A file that is open for reading. -/
structure Store where
  path : Str
  bytes : List UInt8

/-- `bounded` and the read after it. -/
def Store.read (s : Store) (offset len : Nat) : Result (List UInt8) :=
  match (checkedAdd offset len).filter fun stop => stop ≤ s.bytes.length with
  | some _ => .ok ((s.bytes.drop offset).take len)
  | none =>
    Result.unsupported [.lit "range ", .num offset, .lit "+", .num len, .lit " is outside ", .str s.path.bytes,
      .lit " (", .num s.bytes.length, .lit " bytes)"]

/-! ## The frame -/

/-- The bytes of the footer from `at` on. -/
def footerField (footer : List UInt8) (start len : Nat) : List UInt8 := (footer.drop start).take len

def checkFrame (fileLen : Nat) (read : Nat → Nat → Result (List UInt8)) : Result (List UInt8) := do
  if fileLen < MIN_FILE_LEN then
    Result.reject .fileTooSmall [.lit "file shorter than ", .num MIN_FILE_LEN, .lit " B"]
  let magic ← read 0 MAGIC.length
  if magic ≠ MAGIC then Result.reject .headerMagic [.lit "bad header magic"]
  let footer ← read (fileLen - FOOTER_LEN) FOOTER_LEN
  if footerField footer 32 8 ≠ MAGIC then Result.reject .footerMagic [.lit "bad footer magic"]
  let version := ofLe (footerField footer 24 4)
  if version ≠ VERSION then
    Result.reject .version [.lit "unsupported version ", .num version, .lit "; this build reads ", .num VERSION]
  .ok footer

def parseFooter (footer : List UInt8) : Result (Option Footer) :=
  let offset := ofLe (footerField footer 0 8)
  let length := ofLe (footerField footer 8 8)
  let hash := BitVec.ofNat 64 (ofLe (footerField footer 16 8))
  if length = 0 then
    if offset ≠ 0 ∨ hash ≠ 0 then
      Result.reject .manifestBounds [.lit "data shard footer must zero manifest offset and hash"]
    else .ok none
  else if MAX_MANIFEST_LEN < length then Result.reject .manifestTooLarge [.lit "manifest over 1 GiB"]
  else if offset % ALIGN_FLOOR ≠ 0 ∨ offset < ALIGN_FLOOR then
    Result.reject .blobAlignment [.lit "manifest blob is misaligned"]
  else .ok (some ⟨offset, length, hash⟩)

def manifestBounds (footer : Footer) (fileLen : Nat) : Result (Nat × Nat) :=
  let dataEnd := fileLen - FOOTER_LEN
  match (checkedAdd footer.offset footer.length).filter fun stop => stop ≤ dataEnd with
  | some stop => .ok (stop, dataEnd)
  | none => Result.reject .manifestBounds [.lit "manifest outside data region"]

def decodeManifest (env : Env) (bytes : List UInt8) (expectedHash : BitVec 64) : Result Manifest := do
  if env.xxh3 bytes ≠ expectedHash then Result.reject .manifestHash [.lit "manifest hash mismatch"]
  let v ← Result.ofCbor (Cbor.decode bytes)
  Manifest.fromValue v

/-! ## The manifest -/

/-- `sort_unstable` and `dedup`. -/
def sortDedup (ranges : List (Nat × Nat)) : List (Nat × Nat) :=
  (ranges.insertionSort fun a b => a.1 < b.1 ∨ (a.1 = b.1 ∧ a.2 ≤ b.2)).destutter (· ≠ ·)

def frameRanges (ranges : List (Nat × Nat)) (fileLen : Nat) : List (Nat × Nat) :=
  sortDedup (ranges ++ [(0, MAGIC.length), (fileLen - FOOTER_LEN, FOOTER_LEN)])

/-- `windows(2)`: no range begins within the one before it. -/
def noOverlap (shard : Option Str) : List (Nat × Nat) → Result Unit
  | a :: b :: rest => do
    let stop ← Result.plus a.1 a.2
    if b.1 < stop then
      Result.reject .blobOverlap ([.lit "blobs at ", .num a.1, .lit " (+", .num a.2, .lit ") and ", .num b.1, .lit " in "]
        ++ (match shard with
          | none => [.lit "this file"]
          | some s => [.lit "shard ", .debug s.bytes])
        ++ [.lit " partially overlap"])
    else noOverlap shard (b :: rest)
  | _ => .ok ()

/-- The ranges of the blobs, by the shard they lie in. -/
abbrev Refs := TreeMap (Option Str) (List (Nat × Nat))

def Refs.push (refs : Refs) (shard : Option Str) (range : Nat × Nat) : Refs :=
  refs.insert shard (refs.getD shard [] ++ [range])

/-- One object of the loop of `validate_manifest`. -/
def validateEntry (env : Env) (manifest : Manifest) (dataEnd : Nat) (refs : Refs) (name : Str) (obj : Object) :
    Result Refs := do
  checkName name
  let _ ← Result.mapErr (Error.at' name) (checkShape obj.shape)
  let b := obj.blob
  if b.offset % ALIGN_FLOOR ≠ 0 ∨ b.offset < ALIGN_FLOOR then
    Result.reject .blobAlignment [.debug name.bytes, .lit ": offset ", .num b.offset, .lit " misaligned"]
  let regionEnd ← (match b.shard with
    | none => .ok dataEnd
    | some s =>
      match manifest.shards[s]? with
      | none => Result.reject .shardRef [.debug name.bytes, .lit ": shard ", .debug s.bytes, .lit " not in table"]
      | some shard =>
        if shard.size < FOOTER_LEN then Result.reject .blobBounds [.lit "shard smaller than footer"]
        else .ok (shard.size - FOOTER_LEN))
  let _ ← Result.okOr (.reject .blobBounds [.debug name.bytes, .lit ": blob outside data region"])
    ((checkedAdd b.offset b.length).filter fun stop => stop ≤ regionEnd)
  let refs := if 0 < b.length then refs.push b.shard (b.offset, b.length) else refs
  match obj.layout with
  | none => do
    let expected ← Result.mapErr (Error.at' name) obj.canonicalSize
    if b.decodedSize ≠ expected then
      Result.reject .size [.debug name.bytes, .lit ": decoded size ", .num b.decodedSize, .lit " != the ",
        .num expected, .lit " its shape and type require"]
    else .ok refs
  | some layout =>
    match env.layout layout with
    | some validate => do
      validate name obj
      .ok refs
    | none => .ok refs

def validateManifest (env : Env) (manifest : Manifest) (dataEnd : Nat) (manifestBlob : Nat × Nat) :
    Result (List (Nat × Nat)) := do
  manifest.shards.toList.forM fun e => do
    checkShardName e.1
    if e.2.size < MIN_FILE_LEN then
      Result.reject .schema [.lit "shard ", .debug e.1.bytes, .lit ": size ", .num e.2.size,
        .lit " below minimum file size"]
  let refs ← manifest.objects.toList.foldlM (fun refs e => validateEntry env manifest dataEnd refs e.1 e.2)
    ((∅ : Refs).insert none [manifestBlob])
  refs.toList.forM fun e => noOverlap e.1 (sortDedup e.2)
  .ok (sortDedup (refs.getD none []))

/-- `&buf[start..stop]`. -/
def indexRange (buf : List UInt8) (start stop : Nat) : Result (List UInt8) :=
  if start ≤ stop ∧ stop ≤ buf.length then .ok ((buf.drop start).take (stop - start)) else Result.panic

/-- `image`: a file that is at hand. -/
def image (env : Env) (buf : List UInt8) : Result (Option Manifest) := do
  let footer ← checkFrame buf.length fun start n => do
    let stop ← Result.plus start n
    indexRange buf start stop
  let footer ← parseFooter footer
  match footer with
  | none => .ok none
  | some footer => do
    let (manifestEnd, dataEnd) ← manifestBounds footer buf.length
    let bytes ← indexRange buf footer.offset manifestEnd
    let manifest ← decodeManifest env bytes footer.hash
    let _ ← validateManifest env manifest dataEnd (footer.offset, footer.length)
    .ok (some manifest)

/-- `store`: the whole of a file that lies on disk. -/
def validateStore (env : Env) (store : Store) : Result Parsed := do
  let fileLen := store.bytes.length
  let footer ← checkFrame fileLen store.read
  let footer ← parseFooter footer
  match footer with
  | none => .ok ⟨none, frameRanges [] fileLen⟩
  | some footer => do
    let (_, dataEnd) ← manifestBounds footer fileLen
    let bytes ← store.read footer.offset footer.length
    let manifest ← decodeManifest env bytes footer.hash
    let occupied ← validateManifest env manifest dataEnd (footer.offset, footer.length)
    .ok ⟨some (manifest, ⟨footer.offset, footer.length, fileLen⟩), frameRanges occupied fileLen⟩

/-! ## Canonical form -/

/-- The state of the loop of `canonical_violations`; a map is the list of what went into it. -/
structure Sweep where
  bad : List Message
  cursor : Nat
  placed : List (Nat × Nat)
  byContent : List ((List UInt8 × Nat) × Nat)
  stopped : Bool

/-- What is wrong with a blob wherever it lies. -/
def blobViolations (label : Part) (blob : Blob) : List Message :=
  (if blob.encoding.isSome then [[.lit "rule 4: ", label, .lit " is stored under an encoding"]] else [])
  ++ (match blob.digest with
    | none => [[.lit "rule 4: ", label, .lit " carries no digest"]]
    | some d =>
      if d.algorithm ≠ .lit "xxh3" then
        [[.lit "rule 4: ", label, .lit " has a ", .str d.display, .lit " digest, not xxh3"]]
      else [])
  ++ (if blob.blocks.isSome then [[.lit "rule 4: ", label, .lit " carries block digests"]] else [])

/-- A blob of the file that is not where its place in the order of names puts it. -/
def placeViolations (label : Part) (offset expected : Nat) : List Message :=
  if offset % ALIGN_CANONICAL ≠ 0 then
    [[.lit "rule 2: ", label, .lit " is at offset ", .num offset, .lit ", which is not a multiple of ",
      .num ALIGN_CANONICAL]]
  else if expected < offset then
    [[.lit "rule 1: ", .num (offset - expected), .lit " bytes before ", label, .lit " at ", .num offset,
      .lit " belong to nothing; canonical form packs blobs with no gaps"]]
  else if offset < expected then
    [[.lit "rule 3: ", label, .lit " is at ", .num offset, .lit ", before the ", .num expected,
      .lit " that its place in name order gives it"]]
  else []

/-- Content that another blob has already. -/
def repeated (s : Sweep) (label : Part) (blob : Blob) : List Message :=
  match blob.digest with
  | none => []
  | some d =>
    match s.byContent.lookup (d.value, blob.length) with
    | none => []
    | some first =>
      [[.lit "rule 3: ", label, .lit " repeats the content already at offset ", .num first,
        .lit " instead of sharing that blob"]]

/-- The contents after a blob that was not placed before. -/
def recordContent (byContent : List ((List UInt8 × Nat) × Nat)) (blob : Blob) : List ((List UInt8 × Nat) × Nat) :=
  match blob.digest with
  | none => byContent
  | some d =>
    match byContent.lookup (d.value, blob.length) with
    | none => ((d.value, blob.length), blob.offset) :: byContent
    | some _ => byContent

/-- One object of the loop. -/
def Sweep.step (s : Sweep) (name : Str) (object : Object) : Sweep :=
  if s.stopped then s
  else
    let blob := object.blob
    let label := Part.debug name.bytes
    let bad := s.bad ++ blobViolations label blob
    if blob.shard.isSome then { s with bad := bad }
    else
      match s.placed.lookup blob.offset with
      | some len =>
        if len ≠ blob.length then
          { s with bad := bad ++ [[.lit "rule 3: ", label, .lit " shares offset ", .num blob.offset,
            .lit " with a blob of a different length"]] }
        else { s with bad := bad }
      | none =>
        let bad := bad ++ repeated s label blob
        let byContent := recordContent s.byContent blob
        match alignUp s.cursor ALIGN_CANONICAL with
        | none =>
          ⟨bad ++ [[.lit "rule 2: ", label, .lit " places a blob past the end of u64"]], s.cursor, s.placed,
            byContent, true⟩
        | some expected =>
          ⟨bad ++ placeViolations label blob.offset expected, blob.offset + blob.length,
            (blob.offset, blob.length) :: s.placed, byContent, false⟩

/-- A name that is not in its normal form. -/
def nameViolations (env : Env) (name : Str) : List Message :=
  if ¬ name.bytes.all (fun b => decide (b < 0x80)) ∧ ¬ env.isNfc name then
    [[.lit "rule 5: object name ", .debug name.bytes, .lit " is not in NFC"]]
  else []

def canonicalViolations (env : Env) (manifest : Manifest) (p : Placement) : List Message :=
  let bad : List Message :=
    if manifest.shards.isEmpty then []
    else [[.lit "rule 6: canonical form is single-file, but the manifest declares ", .num manifest.shards.size,
      .lit " shard(s)"]]
  let bad := bad ++ manifest.objects.toList.flatMap fun e => nameViolations env e.1
  let s := manifest.objects.toList.foldl (fun s e => Sweep.step s e.1 e.2) ⟨bad, MAGIC.length, [], [], false⟩
  s.bad
    ++ (match alignUp s.cursor ALIGN_CANONICAL with
      | none => []
      | some expected =>
        if p.manifestAt ≠ expected then
          [[.lit "rule 1: the manifest is at ", .num p.manifestAt, .lit ", but the blobs end at ", .num expected,
            .lit "; the space between belongs to nothing"]]
        else [])
    ++ (if p.manifestAt + p.manifestLen + FOOTER_LEN ≠ p.fileLen then
        [[.lit "rule 3: the footer does not immediately follow the manifest (manifest ends at ",
          .num (p.manifestAt + p.manifestLen), .lit ", file is ", .num p.fileLen, .lit ")"]]
      else [])

end Pie.Ztensor
