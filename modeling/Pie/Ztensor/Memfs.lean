import Pie.Lib.Reading
import Pie.Lib.Records
import Pie.Lib.Spans

/-!
# Files in memory

A mounted file is held in parts, or is lazy: its bytes are fetched when they are
read, and a window that was fetched for a part of it is kept for the next read.

Names follow `memfs.rs`. A slice out of bounds panics. A fetch is a request of
which the file has to say whether it fails; the counts of requests do not wrap.
What a failed fetch leaves in a buffer is not read, so the buffer goes with it.
-/

namespace Pie.Memfs

open Lib Records Spans

def LAZY_PIN_TAIL : Nat := 2

def U64_MAX : Nat := 2 ^ 64 - 1

def saturatingAdd (a b : Nat) : Nat := min (a + b) U64_MAX

def saturatingMul (a b : Nat) : Nat := min (a * b) U64_MAX

/-- Where a lazy file is fetched from: its bytes, and the requests that fail. -/
structure Remote where
  bytes : List UInt8
  failure : Nat → Option String

/-- What a lazy file remembers between reads. -/
structure Cache where
  windows : List (Nat × List UInt8)
  error : Option String
  requests : Nat
  fetched : Nat
deriving DecidableEq

def Cache.empty : Cache := ⟨[], none, 0, 0⟩

abbrev Act (α : Type) := EStateM (Stop String) Cache α

def panic {α : Type} : Act α := throw .panic

/-- `&bytes[start..start + n]`. -/
def part (bytes : List UInt8) (start n : Nat) : Act (List UInt8) :=
  if start + n ≤ bytes.length then return slice bytes start n else panic

/-- `into[dst..dst + n].copy_from_slice(bytes)`. -/
def copyInto (into : List UInt8) (dst : Nat) (bytes : List UInt8) : Act (List UInt8) :=
  if dst + bytes.length ≤ into.length then return into.take dst ++ bytes ++ into.drop (dst + bytes.length) else panic

structure Lazy where
  len : Nat
  window : Nat
  keep : Nat

/-- What the loop of `read_at` carries. -/
structure Progress where
  cursor : Nat
  run : Option Nat
  into : List UInt8

namespace Lazy

variable (file : Lazy) (remote : Remote)

def pinFrom : Nat :=
  saturatingMul ((file.len + file.window - 1) / file.window) file.window - saturatingMul file.window LAZY_PIN_TAIL

def fetch (offset n : Nat) : Act (List UInt8) := fun cache =>
  let asked := { cache with requests := cache.requests + 1, fetched := cache.fetched + n }
  match remote.failure cache.requests with
  | none => .ok (slice remote.bytes offset n) asked
  | some why => .error (.error why) { asked with error := some why }

/-- Where the window ends that starts at `start`. -/
def stop (start : Nat) : Nat := min (saturatingAdd start file.window) file.len

def fill (start : Nat) : Act (List UInt8) := fetch remote start (file.stop start - start)

/-- Whether a window lies before the pinned tail. -/
def unpinned (w : Nat × List UInt8) : Bool := w.1 < file.pinFrom

/-- Removes the oldest window before the pinned tail until there are few enough. -/
def evict : Nat → List (Nat × List UInt8) → List (Nat × List UInt8)
  | 0, windows => windows
  | count + 1, windows =>
    if file.keep < count + 1 then
      match windows.findIdx? file.unpinned with
      | some oldest => evict count (windows.eraseIdx oldest)
      | none => windows
    else windows

def keepWindow (start : Nat) (window : List UInt8) : Act Unit :=
  modify fun cache : Cache =>
    let windows := (cache.windows.filter fun w => w.1 ≠ start) ++ [(start, window)]
    { cache with windows := file.evict (windows.countP file.unpinned) windows }

/-- Fetches the run of whole windows that waits, up to `upTo`. -/
def flush (offset upTo : Nat) (p : Progress) : Act Progress :=
  match p.run with
  | none => return p
  | some start => do
    let (dst, n) := (start - offset, upTo - start)
    if p.into.length < dst + n then panic
    let into ← copyInto p.into dst (← fetch remote start n)
    return { p with run := none, into }

/-- One window of a read: the part of it that is asked for. -/
def turn (offset last : Nat) (p : Progress) : Act Progress := do
  let start := p.cursor - p.cursor % file.window
  let stop := file.stop start
  let take := min stop last
  let cache ← get
  match cache.windows.find? fun w => w.1 = start with
  | some (at', window) =>
    let into ← copyInto p.into (p.cursor - offset) (← part window (p.cursor - start) (take - p.cursor))
    set { cache with windows := cache.windows.eraseP (fun (w : Nat × List UInt8) => w.1 = start) ++ [(at', window)] }
    let p ← flush remote offset p.cursor { p with into }
    return { p with cursor := take }
  | none =>
    if p.cursor = start ∧ take = stop then
      return { p with run := some (p.run.getD p.cursor), cursor := take }
    else
      let p ← flush remote offset p.cursor p
      let window ← file.fill remote start
      let into ← copyInto p.into (p.cursor - offset) (← part window (p.cursor - start) (take - p.cursor))
      file.keepWindow start window
      return { p with into, cursor := take }

/-- `while cursor < end`; every turn reads a byte, so there are no more turns than bytes. -/
def turns (offset last : Nat) : Nat → Progress → Act Progress
  | 0, p => return p
  | fuel + 1, p => if p.cursor < last then do turns offset last fuel (← file.turn remote offset last p) else return p

def readAt (offset : Nat) (into : List UInt8) : Act (List UInt8) := do
  let last := offset + into.length
  let p ← file.turns remote offset last into.length ⟨offset, none, into⟩
  return (← flush remote offset last p).into

end Lazy

/-- A mounted file. -/
structure Chunks where
  parts : List (List UInt8)
  ends : List Nat
  lazy : Option Lazy

/-- `result.ok()`. -/
def ok {α : Type} (x : Act α) : Act (Option α) := fun cache =>
  match x cache with
  | .ok a cache => .ok (some a) cache
  | .error (.error _) cache => .ok none cache
  | .error .panic cache => .error .panic cache

namespace Chunks

/-- How far each part reaches. -/
def endsFrom : Nat → List (List UInt8) → List Nat
  | _, [] => []
  | total, part :: parts => (total + part.length) :: endsFrom (total + part.length) parts

def new (parts : List (List UInt8)) : Chunks := ⟨parts, endsFrom 0 parts, none⟩

def lazyKeeping (len window keep : Nat) : Chunks := ⟨[], [], some ⟨len, window, keep⟩⟩

variable (file : Chunks) (remote : Remote)

def len : Nat :=
  match file.lazy with
  | some lazy => lazy.len
  | none => file.ends.getLast?.getD 0

def locate (offset : Nat) : Act (Option (Nat × Nat)) :=
  if file.len ≤ offset then return none
  else
    let index := partitionPoint (fun stop => stop ≤ offset) file.ends
    if index = 0 then return some (index, offset)
    else match file.ends[index - 1]? with
      | some start => return some (index, offset - start)
      | none => panic

def inRange (offset len : Nat) : Bool := offset + len ≤ U64_MAX && offset + len ≤ file.len

/-- Copies from the parts from one on, the first of them from `at'` on. -/
def copyParts : List (List UInt8) → Nat → Nat → List UInt8 → Act (List UInt8)
  | [], _, done, into => if done < into.length then panic else return into
  | bytes :: parts, at', done, into =>
    if done < into.length then do
      let n := min (bytes.length - at') (into.length - done)
      let into ← copyInto into done (← part bytes at' n)
      copyParts parts 0 (done + n) into
    else return into

def readAt (offset : Nat) (into : List UInt8) : Act (Option (List UInt8)) :=
  if !file.inRange offset into.length then return none
  else if into.isEmpty then return some into
  else match file.lazy with
    | some lazy => ok (lazy.readAt remote offset into)
    | none => do
      match ← file.locate offset with
      | none => return none
      | some (index, at') => return some (← copyParts (file.parts.drop index) at' 0 into)

def read (offset len : Nat) : Act (Option (List UInt8)) :=
  if !file.inRange offset len then return none
  else file.readAt remote offset (List.replicate len 0)

/-- The part, and the range of it, that holds the bytes, where one part does. -/
def insideOne (offset len : Nat) : Act (Option (Nat × Nat × Nat)) :=
  if !file.inRange offset len then return none
  else if len = 0 then return some (0, 0, 0)
  else if file.lazy.isSome then return none
  else do
    match ← file.locate offset with
    | none => return none
    | some (index, at') =>
      match file.parts[index]? with
      | none => panic
      | some bytes => return if at' + len ≤ bytes.length then some (index, at', at' + len) else none

def slice (offset len : Nat) : Act (Option (List UInt8)) := do
  match ← file.insideOne offset len with
  | some (index, start, stop) =>
    if stop ≤ start then return some []
    else match file.parts[index]? with
      | none => panic
      | some bytes => return some (← part bytes start (stop - start))
  | none => if file.inRange offset len then file.read remote offset len else return none

end Chunks

/-- What a caller asks of a mounted file. -/
inductive Call where
  | read (offset len : Nat)
  | readAt (offset : Nat) (into : List UInt8)
  | slice (offset len : Nat)
deriving DecidableEq

namespace Call

def offset : Call → Nat
  | .read offset _ => offset
  | .readAt offset _ => offset
  | .slice offset _ => offset

def len : Call → Nat
  | .read _ len => len
  | .readAt _ into => into.length
  | .slice _ len => len

def perform (file : Chunks) (remote : Remote) : Call → Act (Option (List UInt8))
  | .read offset len => file.read remote offset len
  | .readAt offset into => file.readAt remote offset into
  | .slice offset len => file.slice remote offset len

/-- One call after the other. -/
def performAll (file : Chunks) (remote : Remote) : List Call → Act Unit
  | [] => return
  | call :: calls => do
    let _ ← call.perform file remote
    performAll file remote calls

end Call

end Pie.Memfs
