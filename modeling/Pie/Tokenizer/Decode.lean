import Pie.Lib.Text
import Mathlib.Data.Finmap

/-!
# Tokenizers and decoding

A tokenizer is a table of what each id spells, the added tokens, and the
pipeline it was loaded for. `decode` turns a whole list of ids into a string;
a `TokenizerDecoder` does so piece by piece, and keeps between two pieces the
bytes it cannot put out yet.

Names follow `lib.rs`, `bpe.rs` and `unigram.rs`. A hash map is a `Finmap`, or
an `AList` where its entries are listed in the order the map has them; a regex
is the text it is compiled from, a score the bits of its `f32`.
-/

namespace Pie.Tokenizer

open Lib Lib.Utf8

abbrev TokenId := BitVec 32

structure AddedToken where
  id : TokenId
  content : Str
  special : Bool
  lstrip : Bool
  rstrip : Bool
deriving DecidableEq

inductive BpeMode where
  | merge
  | preferWholeToken
deriving DecidableEq, Repr

inductive DummyPrefix where
  | none
  | everySegment
  | firstSegment
deriving DecidableEq, Repr

structure Splitter where
  regex : Str
  keepGaps : Bool
deriving DecidableEq

abbrev Score := BitVec 32

structure UnigramScores where
  pieces : AList (fun _ : Str => TokenId × Score)
  maxLen : Nat
  unkId : TokenId

inductive Pipeline where
  | byteLevelRegex (nfc : Bool) (splitters : List Splitter) (bpeMode : BpeMode)
  | byteFallbackReplace (normalizerFrom normalizerTo : Str) (unkTokenId : Option TokenId)
      (dummyPrefix : DummyPrefix) (stripDecoderMarker : Bool)
  | unigram (scores : UnigramScores) (replacement : Str) (prependAlways : Bool)
      (eosId : Option TokenId)
  | rawChar

structure BpeTable where
  tokenToId : Finmap (fun _ : List UInt8 => TokenId)
  merges : Finmap (fun _ : TokenId × TokenId => TokenId × TokenId)
  decodeTable : List (Option (List UInt8))
  byteFallbackIds : List (Option TokenId)

def BpeTable.idToBytes (bpe : BpeTable) (id : TokenId) : Option (List UInt8) :=
  (bpe.decodeTable[id.toNat]?).join

structure Tokenizer where
  bpe : BpeTable
  pipeline : Pipeline
  specialTokenIds : List TokenId
  addedTokens : List AddedToken

/-- The matcher of the added tokens is built from them alone. -/
def Tokenizer.new (bpe : BpeTable) (pipeline : Pipeline) (addedTokens : List AddedToken) : Tokenizer :=
  { bpe, pipeline, addedTokens
    specialTokenIds := ((addedTokens.filter (·.special)).map (·.id)).mergeSort (fun a b => a ≤ b) }

/-! ## Bytes -/

/-- Replaced bytes at the end of the output. -/
def appendReplaced (output haystack needle replacement : List UInt8) : List UInt8 :=
  if needle.isEmpty then output ++ haystack
  else output ++ splice haystack needle.length replacement (findIter needle haystack)

/-- A digit of `from_str_radix` in base sixteen. -/
def hexDigit (b : UInt8) : Option Nat :=
  if 0x30 ≤ b ∧ b ≤ 0x39 then some (b.toNat - 0x30)
  else if 0x41 ≤ b ∧ b ≤ 0x46 then some (b.toNat - 0x41 + 10)
  else if 0x61 ≤ b ∧ b ≤ 0x66 then some (b.toNat - 0x61 + 10)
  else none

/-- `u8::from_str_radix` of two characters: a plus sign may stand for the first digit. -/
def fromStrRadix16 (high low : UInt8) : Option UInt8 :=
  if high = 0x2B then (hexDigit low).map UInt8.ofNat
  else do
    let h ← hexDigit high
    let l ← hexDigit low
    some (UInt8.ofNat (h * 16 + l))

/-- The byte a token `<0xNN>` spells. -/
def byteFallbackValue (token : List UInt8) : Option UInt8 :=
  match token with
  | [0x3C, 0x30, 0x78, high, low, 0x3E] => fromStrRadix16 high low
  | _ => none

/-- The run of bytes at the end of the output: as it is, or one replacement for each of its bytes. -/
def flushByteFallback (bytes output : List UInt8) : List UInt8 × List UInt8 :=
  if bytes.isEmpty then (bytes, output)
  else if fromUtf8 bytes = .ok () then ([], output ++ bytes)
  else ([], output ++ (List.replicate bytes.length replacementChar).flatten)

def bytesToString (bytes : List UInt8) : Str :=
  if h : fromUtf8 bytes = .ok () then ⟨bytes, fromUtf8_ok h⟩
  else ⟨fromUtf8Lossy bytes, valid_fromUtf8Lossy bytes⟩

/-- The sequences of `pending` from `consumed` on; each turn consumes a byte or is the last. -/
def drainLoop (pending : List UInt8) : Nat → Nat → List UInt8 → Nat × List UInt8
  | 0, consumed, output => (consumed, output)
  | fuel + 1, consumed, output =>
    if consumed < pending.length then
      match fromUtf8 (pending.drop consumed) with
      | .ok () => (pending.length, output ++ pending.drop consumed)
      | .error error =>
        let output := output ++ (pending.drop consumed).take error.validUpTo
        match error.errorLen with
        | some errorLen =>
          drainLoop pending fuel (consumed + error.validUpTo + errorLen)
            (output ++ replacementChar)
        | none => (consumed + error.validUpTo, output)
    else (consumed, output)

/-- What is decided of `pending` goes to the output; at the end all of it does. -/
def drainUtf8 (pending output : List UInt8) (finish : Bool) : List UInt8 × List UInt8 :=
  let (consumed, output) := drainLoop pending (pending.length + 1) 0 output
  let pending := pending.drop consumed
  if finish && !pending.isEmpty then ([], output ++ fromUtf8Lossy pending) else (pending, output)

/-! ## Whole lists -/

namespace Tokenizer

/-- `binary_search` in the sorted list. -/
def isSpecial (t : Tokenizer) (id : TokenId) : Bool := t.specialTokenIds.contains id

/-- What an id spells, unless it is skipped. -/
def spelled (t : Tokenizer) (skipSpecial : Bool) (id : TokenId) : Option (List UInt8) :=
  if skipSpecial && t.isSpecial id then none else t.bpe.idToBytes id

def decodeRaw (t : Tokenizer) (ids : List TokenId) (skipSpecial : Bool) : Str :=
  bytesToString (ids.foldl (fun bytes id => bytes ++ (t.spelled skipSpecial id).getD []) [])

/-- One token of a byte-fallback pipeline: a byte of the run, or text after it. -/
def fallbackToken (pattern content : List UInt8) (st : List UInt8 × List UInt8) (raw : List UInt8) :
    List UInt8 × List UInt8 :=
  match byteFallbackValue raw with
  | some byte => (st.1 ++ [byte], st.2)
  | none =>
    let (run, output) := flushByteFallback st.1 st.2
    (run, appendReplaced output raw pattern content)

/-- One id of a byte-fallback pipeline. -/
def fallbackStep (t : Tokenizer) (skipSpecial : Bool) (pattern content : List UInt8)
    (st : List UInt8 × List UInt8) (id : TokenId) : List UInt8 × List UInt8 :=
  match t.spelled skipSpecial id with
  | some raw => fallbackToken pattern content st raw
  | none => st

def decodeByteFallback (t : Tokenizer) (ids : List TokenId) (skipSpecial : Bool)
    (decoderPattern decoderContent : List UInt8) (stripped : Option (List UInt8)) : Str :=
  let (fallbackBytes, output) :=
    ids.foldl (t.fallbackStep skipSpecial decoderPattern decoderContent) ([], [])
  let output := (flushByteFallback fallbackBytes output).2
  match stripped with
  | some marker =>
    if marker.isPrefixOf output then bytesToString (output.drop marker.length)
    else bytesToString output
  | none => bytesToString output

/-- A space. -/
def space : Str := ⟨[0x20], .char (n := 1) (by decide) .nil⟩

def decode (t : Tokenizer) (ids : List TokenId) (skipSpecial : Bool) : Str :=
  match t.pipeline with
  | .byteFallbackReplace from_ to_ _ _ stripDecoderMarker =>
    t.decodeByteFallback ids skipSpecial to_.bytes from_.bytes
      (if stripDecoderMarker then some from_.bytes else none)
  | .unigram _ replacement _ _ =>
    let text := (t.decodeRaw ids skipSpecial).replace replacement space
    (text.stripPrefix space).getD text
  | .byteLevelRegex .. => t.decodeRaw ids skipSpecial
  | .rawChar => t.decodeRaw ids skipSpecial

def stripsDecoderMarker (t : Tokenizer) : Bool :=
  match t.pipeline with
  | .byteFallbackReplace _ _ _ _ strip => strip
  | _ => false

end Tokenizer

/-! ## Piece by piece -/

structure TokenizerDecoder where
  tokenizer : Tokenizer
  skipSpecial : Bool
  pendingUtf8 : List UInt8
  fallbackRun : List UInt8
  stripArmed : Bool

def Tokenizer.decoder (t : Tokenizer) (skipSpecial : Bool) : TokenizerDecoder :=
  { tokenizer := t, skipSpecial, stripArmed := t.stripsDecoderMarker, pendingUtf8 := [],
    fallbackRun := [] }

namespace TokenizerDecoder

/-- One id of a pipeline that decodes to raw bytes. -/
def rawStep (t : Tokenizer) (skipSpecial : Bool) (st : List UInt8 × List UInt8) (id : TokenId) :
    List UInt8 × List UInt8 :=
  match t.spelled skipSpecial id with
  | some raw => drainUtf8 (st.1 ++ raw) st.2 false
  | none => st

/-- The marker before the first output is stripped once. -/
def applyStreamStrip (d : TokenizerDecoder) (output : List UInt8) : List UInt8 × TokenizerDecoder :=
  if !d.stripArmed || output.isEmpty then (output, d)
  else
    let d := { d with stripArmed := false }
    match d.tokenizer.pipeline with
    | .byteFallbackReplace from_ _ _ _ _ =>
      if from_.bytes.isPrefixOf output then (output.drop from_.bytes.length, d) else (output, d)
    | _ => (output, d)

/-- The output of some ids before the strip, and the decoder after them. -/
def feedBytes (d : TokenizerDecoder) (ids : List TokenId) : List UInt8 × TokenizerDecoder :=
  match d.tokenizer.pipeline with
  | .byteFallbackReplace from_ to_ _ _ _ =>
    let (run, output) := ids.foldl
      (d.tokenizer.fallbackStep d.skipSpecial to_.bytes from_.bytes) (d.fallbackRun, [])
    (output, { d with fallbackRun := run })
  | _ =>
    let (pending, output) := ids.foldl (rawStep d.tokenizer d.skipSpecial) (d.pendingUtf8, [])
    (output, { d with pendingUtf8 := pending })

def feed (d : TokenizerDecoder) (ids : List TokenId) : Str × TokenizerDecoder :=
  let (output, d) := d.feedBytes ids
  let (output, d) := d.applyStreamStrip output
  (bytesToString output, d)

def finish (d : TokenizerDecoder) : Str × TokenizerDecoder :=
  match d.tokenizer.pipeline with
  | .byteFallbackReplace .. =>
    let (run, output) := flushByteFallback d.fallbackRun []
    (bytesToString output, { d with fallbackRun := run })
  | _ =>
    let (pending, output) := drainUtf8 d.pendingUtf8 [] true
    (bytesToString output, { d with pendingUtf8 := pending })

/-- The strings of consecutive feeds, and the decoder after them. -/
def feedAll (d : TokenizerDecoder) (pieces : List (List TokenId)) : List Str × TokenizerDecoder :=
  pieces.foldl (fun st ids => (st.1 ++ [(st.2.feed ids).1], (st.2.feed ids).2)) ([], d)

/-- All that a decoder returns for the pieces, and at the end. -/
def run (d : TokenizerDecoder) (pieces : List (List TokenId)) : Str :=
  let (strings, d) := d.feedAll pieces
  Str.concat (strings ++ [d.finish.1])

end TokenizerDecoder

/-- The open prefixes that `bytes` does not start with end at `i`. The last one opened comes first. -/
def closePrefixes (bytes : List UInt8) (i : Nat) :
    List (Nat × List UInt8) → List Nat → List (Nat × List UInt8) × List Nat
  | [], ranges => ([], ranges)
  | (idx, pre) :: stack, ranges =>
    if pre <+: bytes then ((idx, pre) :: stack, ranges)
    else closePrefixes bytes i stack (ranges.set idx i)

/-- One token. An id without bytes is a panic. -/
def subtreeStep (vocab : List (Option (List UInt8))) (st : List (Nat × List UInt8) × List Nat)
    (token : TokenId × Nat) : Option (List (Nat × List UInt8) × List Nat) := do
  let bytes ← (vocab[token.1.toNat]?).join
  let (stack, ranges) := closePrefixes bytes token.2 st.1 st.2
  some ((token.2, bytes) :: stack, ranges)

/-- `build_subtree_ranges`. -/
def buildSubtreeRanges (sortedIds : List TokenId) (vocab : List (Option (List UInt8))) : Option (List Nat) := do
  let n := sortedIds.length
  let (stack, ranges) ← sortedIds.zipIdx.foldlM (subtreeStep vocab) ([], List.replicate n n)
  some (stack.foldl (fun ranges open_ => ranges.set open_.1 n) ranges)

end Pie.Tokenizer
