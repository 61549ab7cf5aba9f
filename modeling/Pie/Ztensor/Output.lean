import Pie.Lib.Effects
import Pie.Ztensor.Validate

/-!
# What a writer writes through

A file behind a buffer. The buffer holds no more than its capacity: with more,
some of what it holds goes to the file, how much is not ours to say. An access
to the file may fail, having written some of it or none. Then the hash of what
is written, of the whole and of its blocks.
-/

namespace Pie.Ztensor

open Lib Lib.Words Lib.Effects

/-! ## The buffer -/

/-- What comes of an access to the file: the bytes that reach it, where that is open, and whether it fails. -/
structure Access where
  bytes : Nat
  fails : Bool
deriving DecidableEq, Repr

/-- `BufWriter<File>`: writes go to the end of the file. `accesses` are those still to come; then all go well. -/
structure Out where
  file : List UInt8
  buf : List UInt8
  accesses : List Access

def CAPACITY : Nat := 2 ^ 20

/-- All that was written. -/
def Out.content (o : Out) : List UInt8 := o.file ++ o.buf

abbrev Write (α : Type) := EStateM (Stop Error) Out α

namespace Out

/-- What comes of the next access. -/
def next (o : Out) : Access := o.accesses.head?.getD ⟨0, false⟩

/-- `write_all`. What does not fit is written from the front; bytes that were not yet held are gone with a failure. -/
def write (data : List UInt8) : Write Unit := fun o =>
  let held := o.buf ++ data
  if held.length ≤ CAPACITY then .ok () { o with buf := held }
  else
    let n := o.next.bytes
    if o.next.fails then
      .error (.error .io) ⟨o.file ++ held.take n, o.buf.drop n, o.accesses.tail⟩
    else .ok () ⟨o.file ++ held.take n, held.drop n, o.accesses.tail⟩

def flush : Write Unit := fun o =>
  if o.buf = [] then .ok () o
  else if o.next.fails then
    .error (.error .io) ⟨o.file ++ o.buf.take o.next.bytes, o.buf.drop o.next.bytes, o.accesses.tail⟩
  else .ok () ⟨o.file ++ o.buf, [], o.accesses.tail⟩

/-- `into_inner`. When it fails the buffer is dropped, and that tries once more. -/
def intoInner : Write Unit := fun o =>
  match flush o with
  | .ok _ o => .ok () o
  | .error e o => .error e { after (flush o) with buf := [] }

/-- An access that writes nothing. -/
def touch : Write Unit := fun o =>
  if o.next.fails then .error (.error .io) { o with accesses := o.accesses.tail }
  else .ok () { o with accesses := o.accesses.tail }

def zeros (n : Nat) : List UInt8 := List.replicate n 0

/-- `set_len`, and the end of the file is where writing goes on. -/
def setLen (len : Nat) : Write Unit := do
  touch
  modify fun o => { o with file := o.file.take len ++ zeros (len - o.file.length) }

end Out

/-- `read_exact` from a place of a file. -/
def readExact (file : List UInt8) (pos n : Nat) : Result (List UInt8) :=
  if n = 0 then .ok []
  else if file.length < pos + n then Result.fail .io
  else .ok ((file.drop pos).take n)

/-! ## Hashes -/

/-- `Hasher::finish` of the bytes it has seen. -/
def digestOf (env : Env) (bytes : List UInt8) : Digest := .new .xxh3 (Cbor.toBe 8 (env.xxh3 bytes).toNat)

/-- The blocks of a hash: the block that is being filled, and the digests of those before it. -/
structure BlockHasher where
  size : Nat
  hasher : List UInt8
  filled : Nat
  digests : List (List UInt8)

structure BlobHasher where
  whole : List UInt8
  block : Option BlockHasher

namespace BlobHasher

def new (blocks : Option Nat) : BlobHasher := ⟨[], blocks.map fun size => ⟨size, [], 0, []⟩⟩

/-- The loop of `update`. Blocks of no bytes are never filled by any: the loop would go on until there is no memory left. -/
def updateBlocks (env : Env) : Nat → List UInt8 → BlockHasher → Result BlockHasher
  | 0, [], b => .ok b
  | 0, _ :: _, _ => Result.panic
  | rounds + 1, bytes, b =>
    if bytes = [] then .ok b
    else
      let take := min (b.size - b.filled) bytes.length
      let hasher := b.hasher ++ bytes.take take
      let filled := b.filled + take
      if filled = b.size then
        updateBlocks env rounds (bytes.drop take) ⟨b.size, [], 0, b.digests ++ [(digestOf env hasher).value]⟩
      else updateBlocks env rounds (bytes.drop take) ⟨b.size, hasher, filled, b.digests⟩

def update (env : Env) (h : BlobHasher) (bytes : List UInt8) : Result BlobHasher := do
  match h.block with
  | none => .ok ⟨h.whole ++ bytes, none⟩
  | some b => do
    let b ← updateBlocks env bytes.length bytes b
    .ok ⟨h.whole ++ bytes, some b⟩

def finish (env : Env) (h : BlobHasher) : Digest × Option Blocks :=
  (digestOf env h.whole, h.block.map fun b =>
    ⟨b.size, b.digests ++ if 0 < b.filled then [(digestOf env b.hasher).value] else []⟩)

end BlobHasher

end Pie.Ztensor
