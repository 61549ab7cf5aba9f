import Pie.Lib.Records
import Pie.Lib.Words

/-!
# How pages of state are laid out

A transfer between two groups of ranks lays the pages of the one out again as the
other has them: each head of each token goes to the rank that holds it there.

Names follow `format.rs`. Arithmetic that overflows, a division by zero and an
index out of bounds panic, which is `none`. Places inside the two layouts stay
below their sizes, so it is the sizes that are computed with a check.
-/

namespace Pie.State

open Lib Words Records

/-- A sum of `u32`. -/
def add32 (a b : Nat) : Option Nat := if a + b < 2 ^ 32 then some (a + b) else none

/-- A product of `u32`. -/
def mul32 (a b : Nat) : Option Nat := if a * b < 2 ^ 32 then some (a * b) else none

/-- `u32::div_ceil`. -/
def divCeil (a b : Nat) : Option Nat :=
  if b = 0 then none else some (a / b + if 0 < a % b then 1 else 0)

/-- One KV plane of a page, as a host slot holds it: `[token][head][dim]`. -/
structure Plane where
  heads : UInt32
  headDim : UInt32
  elemBytes : UInt32
deriving DecidableEq

namespace Plane

def headsPerRank (plane : Plane) (ranks : Nat) : Nat := max (plane.heads.toNat / max ranks 1) 1

/-- The model head a rank's `localHead` is. A rank of a group wider than the heads
holds a copy of one. -/
def headOf (plane : Plane) (ranks rank localHead : Nat) : Option Nat :=
  if ranks ≤ plane.heads.toNat then do
    add32 (← mul32 rank (plane.headsPerRank ranks)) localHead
  else do
    return (← mul32 rank plane.heads.toNat) / ranks

def bytes (plane : Plane) (ranks pageTokens : Nat) : Option Nat := do
  let rows ← checkedMul pageTokens (plane.headsPerRank ranks)
  let lanes ← checkedMul rows plane.headDim.toNat
  checkedMul lanes plane.elemBytes.toNat

/-- The bytes of one head of one token: a product of two `u32` in a `usize`. -/
def head (plane : Plane) : Nat := plane.headDim.toNat * plane.elemBytes.toNat

end Plane

/-- How an engine's host-tier read lays out pages: rank after rank, and within a
rank page after page, each page its planes in order. -/
structure PageLayout where
  ranks : UInt32
  pageTokens : UInt32
  planes : List Plane
deriving DecidableEq

namespace PageLayout

def rankPageBytes (layout : PageLayout) : Option Nat :=
  layout.planes.foldlM (fun sum plane => do
    checkedAdd sum (← plane.bytes layout.ranks.toNat layout.pageTokens.toNat)) 0

/-- Bytes `pages` pages take, across every rank. -/
def bytes (layout : PageLayout) (pages : Nat) : Option Nat := do
  let ranks ← checkedMul (← layout.rankPageBytes) layout.ranks.toNat
  checkedMul ranks pages

/-- Whether `other` holds the same state another way. -/
def convertibleTo (layout other : PageLayout) : Bool :=
  layout.pageTokens == other.pageTokens && layout.planes == other.planes

end PageLayout

/-- Heads of a rank that sit side by side in one source rank. -/
structure Run where
  /-- The first head here. -/
  here : Nat
  /-- The source rank. -/
  src : Nat
  /-- The first head there. -/
  srcLocal : Nat
  heads : Nat
deriving DecidableEq

/-- Where the ranks of another group hold a model head. -/
def sourceOf (plane : Plane) (ranks modelHead : Nat) : Option (Nat × Nat) :=
  if ranks ≤ plane.heads.toNat then
    let per := plane.headsPerRank ranks
    some (modelHead / per, modelHead % per)
  else do
    return (← divCeil (← mul32 modelHead ranks) plane.heads.toNat, 0)

/-- One more head: of the last run where it follows on, else of its own. -/
def pushHead (runs : List Run) (localHead src srcLocal : Nat) : List Run :=
  match runs.getLast? with
  | some last =>
    if last.src = src ∧ last.srcLocal + last.heads = srcLocal then
      runs.dropLast ++ [{ last with heads := last.heads + 1 }]
    else runs ++ [⟨localHead, src, srcLocal, 1⟩]
  | none => [⟨localHead, src, srcLocal, 1⟩]

/-- A rank's heads as runs. -/
def runsOf (plane : Plane) (fromRanks toRanks rank : Nat) : Option (List Run) :=
  (List.range (plane.headsPerRank toRanks)).foldlM (fun runs localHead => do
    let modelHead ← plane.headOf toRanks rank localHead
    let (src, srcLocal) ← sourceOf plane fromRanks modelHead
    return pushHead runs localHead src srcLocal) []

/-- `out[d..d + len].copy_from_slice(&bytes[s..s + len])`. -/
def copy (bytes out : List UInt8) (s d len : Nat) : Option (List UInt8) :=
  if s + len ≤ bytes.length ∧ d + len ≤ out.length then
    some (out.take d ++ slice bytes s len ++ out.drop (d + len))
  else none

/-- The place of a plane of a page in one rank of each of the layouts. -/
structure Bases where
  src : Nat
  dst : Nat

/-- One run of heads of a page, token after token. -/
def copyRun (bytes : List UInt8) (tokens srcHeads dstHeads head : Nat) (base : Bases) (out : List UInt8) (run : Run) :
    Option (List UInt8) :=
  (List.range tokens).foldlM (fun out token =>
    copy bytes out (base.src + (token * srcHeads + run.srcLocal) * head)
      (base.dst + (token * dstHeads + run.here) * head) (run.heads * head)) out

/-- What the loop over the planes of a rank carries. -/
structure Cursor where
  out : List UInt8
  planeAtDst : Nat
  planeAtSrc : Nat

/-- The sizes the loops go by. -/
structure Sizes where
  pages : Nat
  tokens : Nat
  srcPage : Nat
  dstPage : Nat
  srcRank : Nat

def reshardPlane (bytes : List UInt8) (sizes : Sizes) (fromRanks toRanks rank : Nat) (cursor : Cursor) (plane : Plane) :
    Option Cursor := do
  let (srcHeads, dstHeads) := (plane.headsPerRank fromRanks, plane.headsPerRank toRanks)
  let runs ← runsOf plane fromRanks toRanks rank
  let out ← (List.range sizes.pages).foldlM (fun out page =>
    let dstBase := rank * sizes.dstPage * sizes.pages + page * sizes.dstPage + cursor.planeAtDst
    runs.foldlM (fun out run =>
      let srcBase := run.src * sizes.srcRank + page * sizes.srcPage + cursor.planeAtSrc
      copyRun bytes sizes.tokens srcHeads dstHeads plane.head ⟨srcBase, dstBase⟩ out run) out) cursor.out
  return {
    out
    planeAtSrc := ← checkedAdd cursor.planeAtSrc (← plane.bytes fromRanks sizes.tokens)
    planeAtDst := ← checkedAdd cursor.planeAtDst (← plane.bytes toRanks sizes.tokens) }

def reshardRank (bytes : List UInt8) (sizes : Sizes) (fromRanks : Nat) (dst : PageLayout) (out : List UInt8) (rank : Nat) :
    Option (List UInt8) := do
  return (← dst.planes.foldlM (reshardPlane bytes sizes fromRanks dst.ranks.toNat rank) ⟨out, 0, 0⟩).out

/-- `vec![0u8; n]`: no allocation is larger than `isize::MAX`. -/
def zeroes (n : Nat) : Option (List UInt8) := if n < 2 ^ 63 then some (List.replicate n 0) else none

/-- `pages` pages laid out as `src`, laid out again as `dst`. -/
def reshard (bytes : List UInt8) (pages : Nat) (src dst : PageLayout) : Option (Except String (List UInt8)) := do
  if src = dst then
    return .ok bytes
  if !src.convertibleTo dst then
    return .error "the layouts hold different state"
  let size ← src.bytes pages
  if bytes.length ≠ size then
    return .error s!"{bytes.length} bytes are not {pages} pages of {size}"
  let srcPage ← src.rankPageBytes
  let dstPage ← dst.rankPageBytes
  let srcRank ← checkedMul srcPage pages
  let sizes : Sizes := { pages, tokens := src.pageTokens.toNat, srcPage, dstPage, srcRank }
  let out ← zeroes (← dst.bytes pages)
  let out ← (List.range dst.ranks.toNat).foldlM (reshardRank bytes sizes src.ranks.toNat dst) out
  return .ok out

end Pie.State
