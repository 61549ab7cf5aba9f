import Pie.Ztensor.Term

/-!
# Files of tensors

A file is a magic number, the bytes of its tensors, a manifest that says where
they lie, and a footer that says where the manifest lies. Names follow
`format/mod.rs`: the records of a manifest, the checks they have to pass, and
the values they are written as and read from.
-/

namespace Pie.Ztensor

open Std Lib Lib.Words

def MAGIC : List UInt8 := [0x89, 0x5A, 0x54, 0x32, 0x0D, 0x0A, 0x1A, 0x0A]

def VERSION : Nat := 3

def FOOTER_LEN : Nat := 40

def ALIGN_FLOOR : Nat := 4096

def ALIGN_CANONICAL : Nat := 65536

def MAX_MANIFEST_LEN : Nat := 2 ^ 30

def MAX_NAME_LEN : Nat := 1024

def MAX_SHARD_NAME : Nat := 64

def MAX_RANK : Nat := 64

def MIN_FILE_LEN : Nat := MAGIC.length + FOOTER_LEN

/-! ## Values -/

namespace Cbor.Value

def asU64 : Value → Option Nat
  | uint n => some n.toNat
  | _ => none

def asText : Value → Option Str
  | text s => some s
  | _ => none

def asArray : Value → Option (List Value)
  | array a => some a
  | _ => none

def asMap : Value → Option (List (Value × Value))
  | map m => some m
  | _ => none

def textOr (v : Value) (field : Str) : Result Str :=
  Result.okOr (.reject .schema [.debug field.bytes, .lit " must be text"]) v.asText

def u64Or (v : Value) (field : Str) : Result Nat :=
  Result.okOr (.reject .schema [.debug field.bytes, .lit " must be an unsigned int"]) v.asU64

def mapOr (v : Value) (field : Str) : Result (List (Value × Value)) :=
  Result.okOr (.reject .schema [.debug field.bytes, .lit " must be a map"]) v.asMap

def arrayOr (v : Value) (field : Str) : Result (List Value) :=
  Result.okOr (.reject .schema [.debug field.bytes, .lit " must be an array"]) v.asArray

def uintsOr (v : Value) (field : Str) : Result (List Nat) := do
  let items ← v.arrayOr field
  items.mapM fun item => item.u64Or field

def bytesOr (v : Value) (message : String) : Result (List UInt8) :=
  match v with
  | bytes b => .ok b
  | _ => Result.reject .schema [.lit message]

end Cbor.Value

open Cbor (Value)

def text (s : String) : Value := .text (.lit s)

def u64 (n : Nat) : Value := .uint (BitVec.ofNat 64 n)

def missing {α : Type} (what field : String) : Result α :=
  Result.reject .schema [.lit what, .lit " missing ", .debug (ascii field)]

/-- The loop over the entries of a map whose keys are texts; the others are passed over. -/
def readFields {σ : Type} (field : Str → Value → σ → Result σ) (init : σ) (entries : List (Value × Value)) : Result σ :=
  entries.foldlM (fun st e =>
    match e.1.asText with
    | some key => field key e.2 st
    | none => .ok st) init

/-! ## Names and shapes -/

/-- A byte of a shard's name. -/
def shardByte (b : UInt8) : Bool :=
  isDigit b || (decide (0x41 ≤ b) && decide (b ≤ 0x5A)) || (decide (0x61 ≤ b) && decide (b ≤ 0x7A))
    || b == 0x2E || b == 0x5F || b == 0x2D

/-- The first character of a text. -/
def firstChar (bs : List UInt8) : List UInt8 :=
  match Utf8.step bs with
  | .char n => bs.take n
  | _ => []

def checkShardName (name : Str) : Result Unit :=
  let bad (msg : Message) : Result Unit :=
    Result.reject .shardName (.lit "shard name " :: .debug name.bytes :: .lit ": " :: msg)
  if name.bytes = [] then bad [.lit "must not be empty"]
  else if MAX_SHARD_NAME < name.bytes.length then bad [.lit "longer than ", .num MAX_SHARD_NAME, .lit " bytes"]
  else if name.bytes.head? = some 0x2E then bad [.lit "must not start with '.'"]
  else
    match name.bytes.dropWhile shardByte with
    | [] => .ok ()
    | rest => bad [.lit "contains ", .debug (firstChar rest), .lit "; allowed: A-Z a-z 0-9 . _ -"]

def checkName (s : Str) : Result Unit :=
  if s.bytes = [] ∨ MAX_NAME_LEN < s.bytes.length ∨ s.bytes.contains 0 then
    Result.reject .name [.lit "invalid name ", .debug s.bytes]
  else .ok ()

def checkAttributes (v : Value) : Result Unit := do
  let entries ← Result.okOr (.reject .schema [.lit "'attributes' must be a map"]) v.asMap
  entries.forM fun e => do
    let key ← Result.okOr (.reject .schema [.lit "attribute keys must be text"]) e.1.asText
    checkName key

def checkShape (shape : List Nat) : Result Nat :=
  if MAX_RANK < shape.length then
    Result.reject .shape [.lit "rank ", .num shape.length, .lit " exceeds ", .num MAX_RANK]
  else Result.okOr (.reject .shape [.lit "shape product overflows u64"]) (product shape)

/-! ## Digests -/

inductive DigestAlgorithm where
  | xxh3
  | sha256
deriving DecidableEq, Repr

namespace DigestAlgorithm

def asStr : DigestAlgorithm → Str
  | xxh3 => .lit "xxh3"
  | sha256 => .lit "sha256"

def width : DigestAlgorithm → Nat
  | xxh3 => 8
  | sha256 => 32

def parse (name : Str) : Result DigestAlgorithm :=
  if name = .lit "xxh3" then .ok xxh3
  else if name = .lit "sha256" then .ok sha256
  else
    Result.unsupported [.lit "digest algorithm ", .debug name.bytes, .lit "; this build computes xxh3 and sha256"]

end DigestAlgorithm

structure Digest where
  algorithm : Str
  value : List UInt8
deriving DecidableEq

namespace Digest

def new (algorithm : DigestAlgorithm) (value : List UInt8) : Digest := ⟨algorithm.asStr, value⟩

def hexDigit (n : Nat) : UInt8 := UInt8.ofNat (if n < 10 then 0x30 + n else 0x57 + n)

def hex (d : Digest) : List UInt8 := d.value.flatMap fun b => [hexDigit (b.toNat / 16), hexDigit (b.toNat % 16)]

def display (d : Digest) : List UInt8 := d.algorithm.bytes ++ [0x3A] ++ d.hex

def check (d : Digest) : Result Unit :=
  if d.algorithm.bytes = [] ∨ ¬ d.algorithm.bytes.all (fun b => (decide (0x61 ≤ b) && decide (b ≤ 0x7A)) || isDigit b)
      ∨ d.value = [] then
    Result.reject .schema [.lit "malformed digest ", .str d.display]
  else
    match DigestAlgorithm.parse d.algorithm with
    | .ok algo =>
      if d.value.length ≠ algo.width then
        Result.reject .schema [.str d.algorithm.bytes, .lit " digest must be ", .num algo.width, .lit " bytes, got ",
          .num d.value.length]
      else .ok ()
    | .error _ => .ok ()

def toValue (d : Digest) : Value :=
  .map [(text "algorithm", .text d.algorithm), (text "value", .bytes d.value)]

def fromValue (v : Value) : Result Digest := do
  let m ← v.mapOr (.lit "digest")
  let (algorithm, value) ← readFields (fun key val (st : Option Str × Option (List UInt8)) =>
    if key = .lit "algorithm" then do
      let s ← val.textOr (.lit "digest.algorithm")
      .ok (some s, st.2)
    else if key = .lit "value" then do
      let b ← val.bytesOr "digest.value must be bytes"
      .ok (st.1, some b)
    else .ok st) (none, none) m
  match algorithm, value with
  | some algorithm, some value => do
    let d : Digest := ⟨algorithm, value⟩
    d.check
    .ok d
  | _, _ => missing "digest" "algorithm/value"

end Digest

/-! ## Blobs -/

structure Blocks where
  size : Nat
  digests : List (List UInt8)
deriving DecidableEq

namespace Blocks

def count (size decoded : Nat) : Nat := decoded / size + if decoded % size = 0 then 0 else 1

def check (b : Blocks) (digest : Digest) (decoded : Nat) : Result Unit :=
  if b.size = 0 then Result.reject .schema [.lit "blocks.size must be at least 1"]
  else
    let expected := count b.size decoded
    if b.digests.length ≠ expected then
      Result.reject .schema [.lit "blocks holds ", .num b.digests.length, .lit " digests, ", .num expected,
        .lit " blocks of ", .num b.size, .lit " cover ", .num decoded, .lit " bytes"]
    else
      match DigestAlgorithm.parse digest.algorithm with
      | .ok algo =>
        if b.digests.any (fun d => d.length ≠ algo.width) then
          Result.reject .schema [.lit "every block digest must be ", .num algo.width, .lit " bytes"]
        else .ok ()
      | .error _ => .ok ()

def toValue (b : Blocks) : Value :=
  .map [(text "size", u64 b.size), (text "digests", .array (b.digests.map .bytes))]

def fromValue (v : Value) : Result Blocks := do
  let m ← v.mapOr (.lit "blocks")
  let (size, digests) ← readFields (fun key val (st : Option Nat × Option (List (List UInt8))) =>
    if key = .lit "size" then do
      let n ← val.u64Or (.lit "blocks.size")
      .ok (some n, st.2)
    else if key = .lit "digests" then do
      let items ← val.arrayOr (.lit "blocks.digests")
      let ds ← items.mapM fun d => d.bytesOr "block digests must be bytes"
      .ok (st.1, some ds)
    else .ok st) (none, none) m
  match size, digests with
  | some size, some digests => .ok ⟨size, digests⟩
  | _, _ => missing "blocks" "size/digests"

end Blocks

structure Blob where
  shard : Option Str
  offset : Nat
  length : Nat
  encoding : Option Str
  decodedLength : Option Nat
  digest : Option Digest
  blocks : Option Blocks
deriving DecidableEq

namespace Blob

def «local» (offset length : Nat) : Blob := ⟨none, offset, length, none, none, none, none⟩

def decodedSize (b : Blob) : Nat :=
  match b.encoding with
  | none => b.length
  | some _ => b.decodedLength.getD 0

def check (b : Blob) : Result Unit := do
  if b.encoding.isSome ≠ b.decodedLength.isSome then
    Result.reject .schema [.lit "'decoded_length' is required iff 'encoding' is present"]
  match b.digest with
  | some d => d.check
  | none => .ok ()
  match b.blocks, b.digest with
  | some _, none => Result.reject .schema [.lit "'blocks' requires 'digest'"]
  | some blocks, some digest => blocks.check digest b.decodedSize
  | none, _ => .ok ()

/-- An entry of a map where the field is there. -/
def entry {α : Type} (key : String) (value : α → Value) : Option α → List (Value × Value)
  | some a => [(text key, value a)]
  | none => []

def toValue (b : Blob) : Value :=
  .map ([(text "offset", u64 b.offset), (text "length", u64 b.length)]
    ++ entry "shard" .text b.shard
    ++ entry "encoding" .text b.encoding
    ++ entry "decoded_length" u64 b.decodedLength
    ++ entry "digest" Digest.toValue b.digest
    ++ entry "blocks" Blocks.toValue b.blocks)

def fromValue (v : Value) : Result Blob := do
  let entries ← v.mapOr (.lit "blob")
  let (blob, offset, length) ← readFields (fun key val (st : Blob × Option Nat × Option Nat) =>
    if key = .lit "offset" then do
      let n ← val.u64Or (.lit "offset")
      .ok (st.1, some n, st.2.2)
    else if key = .lit "length" then do
      let n ← val.u64Or (.lit "length")
      .ok (st.1, st.2.1, some n)
    else if key = .lit "shard" then do
      let name ← val.textOr (.lit "shard")
      checkShardName name
      .ok ({ st.1 with shard := some name }, st.2)
    else if key = .lit "encoding" then do
      let s ← val.textOr (.lit "encoding")
      .ok ({ st.1 with encoding := some s }, st.2)
    else if key = .lit "decoded_length" then do
      let n ← val.u64Or (.lit "decoded_length")
      .ok ({ st.1 with decodedLength := some n }, st.2)
    else if key = .lit "digest" then do
      let d ← Digest.fromValue val
      .ok ({ st.1 with digest := some d }, st.2)
    else if key = .lit "blocks" then do
      let b ← Blocks.fromValue val
      .ok ({ st.1 with blocks := some b }, st.2)
    else .ok st) (Blob.local 0 0, none, none) entries
  match offset, length with
  | some offset, some length => do
    let blob := { blob with offset := offset, length := length }
    blob.check
    .ok blob
  | _, _ => missing "blob" "offset/length"

end Blob

/-! ## Objects and manifests -/

structure Object where
  shape : List Nat
  term : Option Term
  layout : Option Str
  attributes : Option Value
  blob : Blob

namespace Object

/-- `canonical_term`: the type of an object that no layout places. -/
def canonicalTerm (term : Option Term) (layout : Option Str) : Result Term :=
  match layout with
  | some layout =>
    Result.unsupported [.lit "layout ", .debug layout.bytes,
      .lit " places the planes; the canonical rule does not apply"]
  | none => Result.okOr (.unsupported [.lit "no type"]) term

def canonicalSize (o : Object) : Result Nat := do
  let t ← canonicalTerm o.term o.layout
  t.canonicalSize o.shape

def toValue (o : Object) : Value :=
  .map ([(text "shape", .array (o.shape.map u64))]
    ++ Blob.entry "type" (fun t => .text (Term.display t)) o.term
    ++ Blob.entry "layout" .text o.layout
    ++ Blob.entry "attributes" id o.attributes
    ++ [(text "blob", o.blob.toValue)])

/-- The fields of an object while they are read. -/
structure Fields where
  shape : Option (List Nat) := none
  term : Option Term := none
  layout : Option Str := none
  attributes : Option Value := none
  blob : Option Blob := none

def fromValue (v : Value) : Result Object := do
  let entries ← v.mapOr (.lit "object")
  let f ← readFields (fun key val (st : Fields) =>
    if key = .lit "shape" then do
      let shape ← val.uintsOr (.lit "shape")
      .ok { st with shape := some shape }
    else if key = .lit "type" then do
      let s ← val.textOr (.lit "type")
      let t ← Term.parse s
      .ok { st with term := some t }
    else if key = .lit "layout" then do
      let s ← val.textOr (.lit "layout")
      .ok { st with layout := some s }
    else if key = .lit "attributes" then do
      checkAttributes val
      .ok { st with attributes := some val }
    else if key = .lit "blob" then do
      let b ← Blob.fromValue val
      .ok { st with blob := some b }
    else .ok st) {} entries
  match f.shape, f.blob with
  | some shape, some blob =>
    if f.term.isNone ∧ f.layout.isNone then
      Result.reject .schema [.lit "object has no 'type' and no 'layout' to define its values"]
    else .ok ⟨shape, f.term, f.layout, f.attributes, blob⟩
  | _, _ => missing "object" "shape/blob"

end Object

structure Shard where
  size : Nat
  digest : Digest
deriving DecidableEq

structure Manifest where
  attributes : Option Value
  shards : TreeMap Str Shard
  objects : TreeMap Str Object

namespace Manifest

/-- `Manifest::default`. -/
def new : Manifest := ⟨none, ∅, ∅⟩

def toValue (m : Manifest) : Value :=
  let shards := m.shards.toList.map fun e =>
    (Value.text e.1, Value.map [(text "size", u64 e.2.size), (text "digest", e.2.digest.toValue)])
  .map (Blob.entry "attributes" id m.attributes
    ++ (if m.shards.isEmpty then [] else [(text "shards", .map shards)])
    ++ [(text "objects", .map (m.objects.toList.map fun e => (.text e.1, e.2.toValue)))])

def parseShard (val : Value) : Result Shard := do
  let m ← val.mapOr (.lit "shard entry")
  let (size, digest) ← readFields (fun key val (st : Option Nat × Option Digest) =>
    if key = .lit "size" then do
      let n ← val.u64Or (.lit "shard.size")
      .ok (some n, st.2)
    else if key = .lit "digest" then do
      let d ← Digest.fromValue val
      .ok (st.1, some d)
    else .ok st) (none, none) m
  match size, digest with
  | some size, some digest => .ok ⟨size, digest⟩
  | _, _ => missing "shard entry" "size/digest"

def parseShards (v : Value) : Result (TreeMap Str Shard) := do
  let entries ← v.mapOr (.lit "shards")
  entries.foldlM (fun shards e => do
    let name ← Result.okOr (.reject .schema [.lit "shard key must be text"]) e.1.asText
    checkShardName name
    let shard ← parseShard e.2
    .ok (shards.insert name shard)) ∅

def parseObjects (v : Value) : Result (TreeMap Str Object) := do
  let entries ← v.mapOr (.lit "objects")
  entries.foldlM (fun objects e => do
    let name ← e.1.textOr (.lit "object name")
    checkName name
    let object ← Object.fromValue e.2
    .ok (objects.insert name object)) ∅

def fromValue (v : Value) : Result Manifest := do
  let entries ← Result.okOr (.reject .schema [.lit "manifest root must be a map"]) v.asMap
  let (manifest, hasObjects) ← readFields (fun key val (st : Manifest × Bool) =>
    if key = .lit "attributes" then do
      checkAttributes val
      .ok ({ st.1 with attributes := some val }, st.2)
    else if key = .lit "shards" then do
      let shards ← parseShards val
      .ok ({ st.1 with shards := shards }, st.2)
    else if key = .lit "objects" then do
      let objects ← parseObjects val
      .ok ({ st.1 with objects := objects }, true)
    else .ok st) (new, false) entries
  if hasObjects then .ok manifest else Result.reject .schema [.lit "manifest missing 'objects'"]

end Manifest

/-- The hash, the normal form of names, and the profiles of the vocabulary. -/
structure Env where
  xxh3 : List UInt8 → BitVec 64
  isNfc : Str → Bool
  layout : Str → Option (Str → Object → Result Unit)
  encoding : Str → Option (List UInt8 → Result (List UInt8))

end Pie.Ztensor
