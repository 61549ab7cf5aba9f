import Pie.Lib.Alternate

/-!
# Run-length masks

A mask over positions as the lengths of its runs, the first run of cleared
positions. Runs are 32-bit words and their arithmetic wraps; positions are
machine words wide enough for every mask.

The functions follow `brle.rs`. A loop over the set bits of a word carries the
width of the word as fuel.
-/

namespace Pie.Grammar

open Lib

abbrev U32 := BitVec 32
abbrev U64 := BitVec 64

structure RunMask where
  buffer : List U32
  totalSize : Nat
deriving DecidableEq, Repr

/-- What `iter_runs` yields: a value and the positions `start..stop` that have it. -/
structure MaskRun where
  value : Bool
  start : Nat
  stop : Nat
deriving DecidableEq, Repr

/-- The runs of the buffer from its place `index` on, at position `pos`; empty ones are skipped. -/
def iterRunsFrom : List U32 → Nat → Nat → List MaskRun
  | [], _, _ => []
  | r :: rest, index, pos =>
    if 0 < r.toNat then
      ⟨index % 2 != 0, pos, pos + r.toNat⟩ :: iterRunsFrom rest (index + 1) (pos + r.toNat)
    else iterRunsFrom rest (index + 1) (pos + r.toNat)

/-- The last run of a buffer that has one is of set positions. -/
def lastRunIsTrue (buffer : List U32) : Bool := (buffer.length - 1) % 2 != 0

/-- `*buffer.last_mut().unwrap() += len`. -/
def growLast (buffer : List U32) (len : U32) : List U32 :=
  buffer.dropLast ++ [buffer.getLastD 0 + len]

/-- A run at the end of a buffer: joined to the last one where it has its value. -/
def pushRun (buffer : List U32) (value : Bool) (len : U32) : List U32 :=
  if buffer.isEmpty then (if value then [0, len] else [len])
  else if lastRunIsTrue buffer == value then growLast buffer len
  else buffer ++ [len]

namespace RunMask

def new (size : Nat) : RunMask :=
  if size = 0 then ⟨[], 0⟩ else ⟨[BitVec.ofNat 32 size], size⟩

def len (m : RunMask) : Nat := m.totalSize

def isEmpty (m : RunMask) : Bool := m.totalSize == 0

def iterRuns (m : RunMask) : List MaskRun := iterRunsFrom m.buffer 0 0

/-- The list a mask stands for. -/
def toVec (m : RunMask) : List Bool :=
  m.iterRuns.flatMap (fun r => List.replicate (r.stop - r.start) r.value)

/-! ## From a bitmask -/

/-- The state of the fill: the runs so far, the last position the value changed at, and the
value there. -/
structure Fill where
  buffer : List U32
  prevPos : U32
  prevMsb : U64

def fuse (lo hi : U32) : U64 := lo.setWidth 64 ||| (hi.setWidth 64 <<< 32)

/-- A run ends at every set bit of `tr`, the lowest first. -/
def drain {w : Nat} (base : U32) : Nat → BitVec w → Fill → Fill
  | 0, _, st => st
  | fuel + 1, tr, st =>
    if tr = 0 then st
    else
      let globalPos := base + tr.ctz.setWidth 32
      drain base fuel (tr &&& (tr - 1))
        { st with buffer := st.buffer ++ [globalPos - st.prevPos], prevPos := globalPos }

/-- The changes within one 64-bit word, and from the bit before it. -/
def fillWord (base : U32) (w64 : U64) (st : Fill) : Fill :=
  let shifted := (w64 <<< 1) ||| st.prevMsb
  drain base 64 (w64 ^^^ shifted) { st with prevMsb := w64 >>> 63 }

/-- Sixteen words at a time: a batch that goes on with the value before it changes nothing. -/
def fillBatch (st : Fill) (batch : List U32 × Nat) : Fill :=
  let word (k : Nat) : U64 := fuse (batch.1.getD (2 * k) 0) (batch.1.getD (2 * k + 1) 0)
  let words := (List.range 8).map word
  let orAll := words.foldl (· ||| ·) 0
  let andAll := words.foldl (· &&& ·) (BitVec.allOnes 64)
  if orAll = 0 ∧ st.prevMsb = 0 then st
  else if orAll = BitVec.allOnes 64 ∧ andAll = BitVec.allOnes 64 ∧ st.prevMsb = 1 then
    { st with prevMsb := 1 }
  else
    let batchBase := BitVec.ofNat 32 batch.2 * 512
    words.zipIdx.foldl (fun st p => fillWord (batchBase + BitVec.ofNat 32 p.2 * 64) p.1 st) st

/-- What is left of full words goes in pairs. -/
def fillPair (remBaseBits : U32) (st : Fill) (pair : List U32 × Nat) : Fill :=
  fillWord (remBaseBits + BitVec.ofNat 32 pair.2 * 64) (fuse (pair.1.getD 0 0) (pair.1.getD 1 0)) st

/-- A single word, of which the last may count in part. -/
def fillLast (totalSize numWords : Nat) (st : Fill) (word : U32 × Nat) : Fill :=
  let isLast := word.2 == numWords - 1
  let bitsInWord := if isLast && totalSize % 32 != 0 then totalSize % 32 else 32
  let mask : U32 := ((1 : U32) <<< bitsInWord) - 1
  let w := if bitsInWord < 32 then word.1 &&& mask else word.1
  let shifted := (w <<< 1) ||| st.prevMsb.setWidth 32
  let transitions := if bitsInWord < 32 then (w ^^^ shifted) &&& mask else w ^^^ shifted
  let st := drain (BitVec.ofNat 32 word.2 * 32) 32 transitions st
  { st with prevMsb := (w >>> 31).setWidth 64 }

/-- `as_chunks`: the whole chunks of `n`, numbered. -/
def chunks (n : Nat) (words : List U32) : List (List U32 × Nat) :=
  (List.range (words.length / n)).map (fun i => ((words.drop (i * n)).take n, i))

/-- The runs of the first `total_size` bits. -/
def fromBitmask (bitmask : List U32) (totalSize : Nat) : RunMask :=
  if totalSize = 0 then ⟨[], 0⟩
  else
    let numWords := (totalSize + 31) / 32
    let words := bitmask.take numWords
    let fullU32s := totalSize / 32
    let batchU32s := fullU32s / 16 * 16
    let st := (chunks 16 (words.take batchU32s)).foldl fillBatch ⟨[], 0, 0⟩
    let remainingPairs := (words.take fullU32s).drop batchU32s
    let st := (chunks 2 remainingPairs).foldl (fillPair (BitVec.ofNat 32 batchU32s * 32)) st
    let u32Processed := batchU32s + remainingPairs.length / 2 * 2
    let st := (words.zipIdx.drop u32Processed).foldl (fillLast totalSize numWords) st
    let finalRun := BitVec.ofNat 32 totalSize - st.prevPos
    if 0 < finalRun.toNat ∨ st.buffer = [] then ⟨st.buffer ++ [finalRun], totalSize⟩
    else ⟨st.buffer, totalSize⟩

/-- One value: the run so far goes on, or ends. -/
def sliceStep (st : List U32 × Bool × U32) (val : Bool) : List U32 × Bool × U32 :=
  let (buffer, currentVal, count) := st
  if val = currentVal then (buffer, currentVal, count + 1) else (buffer ++ [count], val, 1)

def fromSlice (v : List Bool) : RunMask :=
  match v with
  | [] => new 0
  | first :: _ =>
    let start : List U32 × Bool × U32 := if first then ([0], true, 0) else ([], false, 0)
    let (buffer, _, count) := v.foldl sliceStep start
    ⟨buffer ++ [count], v.length⟩

/-! ## Reading -/

/-- The first run that holds `index`, and the runs from it on. -/
def seek (index : Nat) : List MaskRun → Option Bool × List MaskRun
  | [] => (none, [])
  | r :: rest =>
    if r.start ≤ index ∧ index < r.stop then (some r.value, r :: rest) else seek index rest

/-- The answer to the query for `q.2`, at the place `q.1` it was asked. -/
def answer (st : List Bool × List MaskRun) (q : Nat × Nat) : List Bool × List MaskRun :=
  match seek q.2 st.2 with
  | (some value, rest) => (st.1.set q.1 value, rest)
  | (none, rest) => (st.1, rest)

/-- Queries in order of their index, each answered from where the last one stopped; `none` is an
index out of bounds. -/
def isMasked (m : RunMask) (indices : List Nat) : Option (List Bool) :=
  let indexed := (indices.zipIdx.map (fun p => (p.2, p.1))).mergeSort (fun a b => a.2 ≤ b.2)
  if indices.any (fun i => decide (m.len ≤ i)) then none
  else
    some (indexed.foldl answer (List.replicate indices.length false, m.iterRuns)).1

/-- The walk over the runs from the first position not covered yet. -/
def rangeAllValue (stop : Nat) (expected : Bool) : List MaskRun → Nat → Bool
  | [], covered => decide (stop ≤ covered)
  | r :: rest, covered =>
    let from_ := max r.start covered
    let to_ := min r.stop stop
    if from_ < to_ then
      if r.value ≠ expected then false
      else if stop ≤ to_ then true
      else if stop ≤ r.stop then decide (stop ≤ to_)
      else rangeAllValue stop expected rest to_
    else if stop ≤ r.stop then decide (stop ≤ covered)
    else rangeAllValue stop expected rest covered

def isRangeAllValue (m : RunMask) (start stop : Nat) (expected : Bool) : Bool :=
  if stop ≤ start then true
  else if m.len < stop then false
  else rangeAllValue stop expected m.iterRuns start

/-! ## Growing and cutting -/

def append (m : RunMask) (flag : Bool) : RunMask :=
  ⟨pushRun m.buffer flag 1, m.totalSize + 1⟩

def extend (m other : RunMask) : RunMask :=
  if other.isEmpty then m
  else if m.isEmpty then other
  else
    let selfLast := lastRunIsTrue m.buffer
    let otherFirst := other.buffer.head? == some 0 && decide (1 < other.buffer.length)
    let buffer :=
      if selfLast == otherFirst then
        let firstLen := if otherFirst then other.buffer.getD 1 0 else other.buffer.getD 0 0
        growLast m.buffer firstLen ++ other.buffer.drop (if otherFirst then 2 else 1)
      else if otherFirst then m.buffer ++ other.buffer.drop 1
      else m.buffer ++ other.buffer
    ⟨buffer, m.totalSize + other.totalSize⟩

/-- The part of one run within `start..stop`, at the end of the buffer. -/
def clip (start stop : Nat) (buffer : List U32) (r : MaskRun) : List U32 :=
  let from_ := max r.start start
  let to_ := min r.stop stop
  if from_ < to_ then pushRun buffer r.value (BitVec.ofNat 32 (to_ - from_)) else buffer

def slice (m : RunMask) (start stop : Nat) : RunMask :=
  let stop := min stop m.len
  if stop ≤ start then new 0
  else ⟨m.iterRuns.foldl (clip start stop) [], stop - start⟩

def removeRange (m : RunMask) (start stop : Nat) : RunMask :=
  let stop := min stop m.len
  if stop ≤ start then m else (m.slice 0 start).extend (m.slice stop m.len)

def remove (m : RunMask) (index : Nat) : RunMask :=
  if index < m.len then m.removeRange index (index + 1) else m

/-! ## Masking -/

/-- The positions at which a mask may change once the ranges are set. -/
def events (m : RunMask) (ranges : List (Nat × Nat)) : Finset Nat :=
  let total := m.len
  let clamped := ranges.map (fun r => (min r.1 total, min r.2 total))
  insert 0 (insert total
    (((clamped.filter (fun r => decide (r.1 < r.2))).flatMap (fun r => [r.1, r.2])).toFinset
      ∪ (m.iterRuns.flatMap (fun r => [r.start, r.stop])).toFinset))

/-- The state of the sweep: the new buffer, and the ranges and runs not passed yet. -/
structure Sweep where
  buffer : List U32
  ranges : List (Nat × Nat)
  runs : List MaskRun

/-- The positions between two events all have one value: that of the one in the middle. `none` is
a position no run holds. -/
def sweepWindow (flag : Bool) (st : Sweep) (window : Nat × Nat) : Option Sweep :=
  let (start, stop) := window
  if stop ≤ start then some st
  else do
    let mid := start + (stop - start) / 2
    let ranges := st.ranges.dropWhile (fun r => decide (r.2 ≤ mid))
    let masked := (ranges.head?).any (fun r => decide (r.1 ≤ mid ∧ mid < r.2))
    if masked then
      some ⟨pushRun st.buffer flag (BitVec.ofNat 32 (stop - start)), ranges, st.runs⟩
    else
      let runs := st.runs.dropWhile (fun r => decide (r.stop ≤ mid))
      let run ← runs.head?
      some ⟨pushRun st.buffer run.value (BitVec.ofNat 32 (stop - start)), ranges, runs⟩

def maskInternal (m : RunMask) (ranges : List (Nat × Nat)) (flag : Bool) : Option RunMask :=
  if ranges = [] ∨ m.totalSize = 0 then some m
  else do
    let points := (m.events ranges).sort
    let st ← (points.zip points.tail).foldlM (sweepWindow flag) ⟨[], ranges, m.iterRuns⟩
    some { m with buffer := st.buffer }

def maskRange (m : RunMask) (start stop : Nat) (flag : Bool) : Option RunMask :=
  if stop ≤ start then some m else m.maskInternal [(start, stop)] flag

/-- Consecutive indices of a sorted list as one range each. -/
def groupRanges : List Nat → Nat → Nat → List (Nat × Nat)
  | [], start, stop => [(start, stop)]
  | index :: rest, start, stop =>
    if index = stop then groupRanges rest start (index + 1)
    else (start, stop) :: groupRanges rest index (index + 1)

def mask (m : RunMask) (indices : List Nat) (flag : Bool) : Option RunMask :=
  match (indices.mergeSort (fun a b => decide (a ≤ b))).dedup with
  | [] => some m
  | first :: rest => m.maskInternal (groupRanges rest first (first + 1)) flag

/-! ## Writing without some positions -/

/-- What the ranges take of the run `s..e`, and the ranges that may take of the next. -/
def skipRun (s e : U32) : List (U32 × U32) → U32 → U32 × List (U32 × U32)
  | [], skipped => (skipped, [])
  | (rs, re) :: rest, skipped =>
    if e ≤ rs then (skipped, (rs, re) :: rest)
    else
      let overlapS := if rs ≤ s then s else rs
      let overlapE := if re ≤ e then re else e
      let skipped := if overlapS < overlapE then skipped + (overlapE - overlapS) else skipped
      if re ≤ e then skipRun s e rest skipped else (skipped, (rs, re) :: rest)

/-- The state of the write: the value of the last run written, the positions written, the ranges
left, and the output. -/
structure Skip where
  lastValue : Option Bool
  newTotal : U32
  ranges : List (U32 × U32)
  out : List U32

/-- `effLen` more positions of value `v`. -/
def Skip.write (st : Skip) (v : Bool) (effLen : U32) (ranges : List (U32 × U32)) : Skip :=
  let newTotal := st.newTotal + effLen
  match st.lastValue with
  | none => ⟨some v, newTotal, ranges, st.out ++ (if v then [0, effLen] else [effLen])⟩
  | some lv =>
    if lv = v then ⟨some lv, newTotal, ranges, growLast st.out effLen⟩
    else ⟨some v, newTotal, ranges, st.out ++ [effLen]⟩

def skipStep (st : Skip) (r : MaskRun) : Skip :=
  let s := BitVec.ofNat 32 r.start
  let e := BitVec.ofNat 32 r.stop
  let (skipped, ranges) := skipRun s e st.ranges 0
  let effLen := (e - s) - skipped
  if effLen = 0 then { st with ranges } else st.write r.value effLen ranges

/-- The positions written, and the output after them. -/
def writeSkipping (m : RunMask) (skipRanges : List (U32 × U32)) (out : List U32) : U32 × List U32 :=
  let st := m.iterRuns.foldl skipStep ⟨none, 0, skipRanges, out⟩
  (st.newTotal, st.out)

/-! ## Pages -/

/-- `(1u64 << bit).wrapping_sub(1)` -/
def below (bit : Nat) : U64 := ((1 : U64) <<< bit) - 1

/-- `out[i] |= mask`; `none` is an index out of bounds. -/
def orWord (out : List U64) (i : Nat) (mask : U64) : Option (List U64) :=
  if i < out.length then some (out.modify i (· ||| mask)) else none

/-- `out[lo..hi]`, all set. -/
def fillWords (out : List U64) (lo hi : Nat) : Option (List U64) :=
  if hi ≤ out.length then some (out.mapIdx fun i w => if lo ≤ i ∧ i < hi then BitVec.allOnes 64 else w) else none

def setBits (out : List U64) (lo hi : Nat) : Option (List U64) :=
  if hi ≤ lo then some out
  else if lo / 64 = hi / 64 then orWord out (lo / 64) (below (hi % 64) &&& ~~~below (lo % 64))
  else do
    let out ← orWord out (lo / 64) (~~~below (lo % 64))
    let out ← fillWords out (lo / 64 + 1) (hi / 64)
    if 0 < hi % 64 then orWord out (hi / 64) (below (hi % 64)) else some out

def setPageBitsInRange (s e pageSize numPages : U32) (out : List U64) : Option (List U64) :=
  if e ≤ s then some out
  else
    let pLo := (s.toNat + pageSize.toNat - 1) / pageSize.toNat
    let pHi := min (e.toNat / pageSize.toNat) numPages.toNat
    if pLo < pHi then setBits out pLo pHi else some out

/-- The positions up to the end of the run are covered; a run of cleared ones may hold pages. -/
def dropRun (pageSize numPages : U32) (st : U32 × List U64) (r : MaskRun) : Option (U32 × List U64) :=
  let stop := BitVec.ofNat 32 r.stop
  if r.value then some (stop, st.2)
  else (setPageBitsInRange (BitVec.ofNat 32 r.start) stop pageSize numPages st.2).map fun out => (stop, out)

def droppablePageBits (m : RunMask) (pageSize numPages totalSeqLen : U32) (out : List U64) : Option (List U64) :=
  if numPages = 0 ∨ pageSize = 0 then some out
  else do
    let (covered, out) ← m.iterRuns.foldlM (dropRun pageSize numPages) (0, out)
    if covered < totalSeqLen then setPageBitsInRange covered totalSeqLen pageSize numPages out else some out

end RunMask

end Pie.Grammar
