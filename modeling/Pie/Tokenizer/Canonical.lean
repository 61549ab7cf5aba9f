import Pie.Tokenizer.Loader
import Pie.Lib.LittleEndian

/-!
# Canonical objects

A tokenizer as the byte objects an artifact stores, and back. What can be
derived from the vocabulary is not stored: the ids of bytes, the text of an
added token, the pieces the scores belong to.

Names follow `canonical.rs`. The descriptor is stored as JSON, and stands here
for its text: writing it and reading it back is taken to change nothing.
-/

namespace Pie.Tokenizer

open Lib Lib.Utf8

inductive CanonicalError where
  | notDerivable
  | hole
  | tooLarge
  | version
  | offsets
  | span
  | unaccounted
  | merges
  | fallback
  | scores
  | notText
  | table
  | load (e : LoadError)
deriving DecidableEq, Repr

/-- `ensure!`. -/
def check (cond : Bool) (error : CanonicalError) : Except CanonicalError Unit :=
  if cond then .ok () else .error error

def noToken : TokenId := BitVec.allOnes 32

inductive SplitterDescriptor where
  | isolated (pattern : Str)
  | explicit (pattern : Str) (keepGaps : Bool)
deriving DecidableEq

def SplitterDescriptor.pattern : SplitterDescriptor → Str
  | .isolated p => p
  | .explicit p _ => p

def SplitterDescriptor.keepGaps : SplitterDescriptor → Bool
  | .isolated _ => true
  | .explicit _ k => k

inductive PipelineDescriptor where
  | byteLevelRegex (nfc : Bool) (splitters : List SplitterDescriptor) (preferWholeToken : Bool)
  | byteFallbackReplace (normalizerFrom normalizerTo : Str) (unkTokenId : Option TokenId)
      (dummyPrefix : DummyPrefix) (stripDecoderMarker : Bool)
  | unigram (replacement : Str) (prependAlways : Bool) (eosId : Option TokenId) (unkId : TokenId)
  | rawChar

structure Descriptor where
  version : String
  pipeline : PipelineDescriptor
  addedTokens : List AddedToken

/-- The version this build writes and reads. -/
def version : String := "pie.tokenizer/1"

structure CanonicalTokenizer where
  byteFallback : List UInt8
  descriptor : Descriptor
  mergeTable : List UInt8
  unigramScores : Option (List UInt8)
  vocabBytes : List UInt8
  vocabOffsets : List UInt8

/-- The bytes of some words. -/
def words (l : List TokenId) : List UInt8 := (l.map BitVec.toNat).flatMap (toLe 4)

def readU32s (bytes : List UInt8) : Option (List TokenId) :=
  if bytes.length % 4 = 0 then some ((readLe 4 (bytes.length / 4) bytes).map (BitVec.ofNat 32))
  else none

namespace BpeTable

/-- The ids of bytes that the vocabulary alone gives: the first that is spelled so. -/
def firstIds (tokens : List (List UInt8)) : Finmap (fun _ : List UInt8 => TokenId) :=
  tokens.zipIdx.foldl
    (fun m p => if (m.lookup p.1).isSome then m else m.insert p.1 (BitVec.ofNat 32 p.2)) ∅

/-- `entry(bytes).or_insert(id)` over the table, holes left out. -/
def derivedMap (decodeTable : List (Option (List UInt8))) : Finmap (fun _ : List UInt8 => TokenId) :=
  decodeTable.zipIdx.foldl
    (fun m p => match p.1 with
      | some bytes =>
        if (m.lookup bytes).isSome then m else m.insert bytes (BitVec.ofNat 32 p.2)
      | none => m) ∅

def encodeMapIsDerivable (bpe : BpeTable) : Bool :=
  let derived := derivedMap bpe.decodeTable
  decide (derived.keys.card = bpe.tokenToId.keys.card)
    && decide (∀ bytes ∈ bpe.tokenToId.keys, derived.lookup bytes = bpe.tokenToId.lookup bytes)

/-- The order of two pairs. -/
def pairLe (a b : TokenId × TokenId) : Prop :=
  a.1.toNat < b.1.toNat ∨ (a.1.toNat = b.1.toNat ∧ a.2.toNat ≤ b.2.toNat)

instance : DecidableRel pairLe := fun _ _ => inferInstanceAs (Decidable (_ ∨ _))

instance : IsTrans (TokenId × TokenId) pairLe := ⟨fun a b c hab hbc => by unfold pairLe at *; omega⟩

instance : Std.Total pairLe := ⟨fun a b => by unfold pairLe; omega⟩

instance : Std.Antisymm pairLe := ⟨fun a b hab hba => by
  unfold pairLe at hab hba
  refine Prod.ext (BitVec.eq_of_toNat_eq ?_) (BitVec.eq_of_toNat_eq ?_) <;> omega⟩

/-- The merges in the order of their pairs. -/
def mergeQuads (bpe : BpeTable) : List (TokenId × TokenId × TokenId × TokenId) :=
  (bpe.merges.keys.sort pairLe).filterMap
    (fun pair => (bpe.merges.lookup pair).map (fun m => (pair.1, pair.2, m.1, m.2)))

/-- One quad, whose ids are of the vocabulary and whose pair is new. -/
def addQuad (vocabSize : Nat) (table : Finmap (fun _ : TokenId × TokenId => TokenId × TokenId))
    (quad : TokenId × TokenId × TokenId × TokenId) :
    Except CanonicalError (Finmap (fun _ : TokenId × TokenId => TokenId × TokenId)) := do
  let (left, right, rank, merged) := quad
  check (decide (left.toNat < vocabSize ∧ right.toNat < vocabSize ∧ merged.toNat < vocabSize)) .table
  check (table.lookup (left, right)).isNone .table
  .ok (table.insert (left, right) (rank, merged))

def fromCanonical (vocab : List (List UInt8)) (merges : List (TokenId × TokenId × TokenId × TokenId))
    (byteFallbackIds : List (Option TokenId)) : Except CanonicalError BpeTable := do
  check (decide (vocab.length < 2 ^ 32)) .table
  let table ← merges.foldlM (addQuad vocab.length) ∅
  check (byteFallbackIds.all (fun id => id.all (fun id => decide (id.toNat < vocab.length)))) .table
  .ok { tokenToId := firstIds vocab, merges := table, decodeTable := vocab.map some, byteFallbackIds }

end BpeTable

/-! ## Writing -/

def describeSplitter (s : Splitter) : SplitterDescriptor :=
  if s.keepGaps then .isolated s.regex else .explicit s.regex false

def describePipeline : Pipeline → PipelineDescriptor
  | .unigram scores replacement prependAlways eosId =>
    .unigram replacement prependAlways eosId scores.unkId
  | .byteLevelRegex nfc splitters mode =>
    .byteLevelRegex nfc (splitters.map describeSplitter) (decide (mode = .preferWholeToken))
  | .byteFallbackReplace from_ to_ unk dummy strip => .byteFallbackReplace from_ to_ unk dummy strip
  | .rawChar => .rawChar

namespace Tokenizer

/-- An added token, with the text its id spells. -/
def describeAdded (t : Tokenizer) (token : AddedToken) : AddedToken where
  id := token.id
  content := match t.bpe.idToBytes token.id with
    | some bytes => ⟨fromUtf8Lossy bytes, valid_fromUtf8Lossy bytes⟩
    | none => Str.empty
  special := t.isSpecial token.id
  lstrip := token.lstrip
  rstrip := token.rstrip

/-- One token: its bytes, and where they end. -/
def addVocab (st : List UInt8 × List TokenId) (bytes : Option (List UInt8)) :
    Except CanonicalError (List UInt8 × List TokenId) :=
  match bytes with
  | none => .error .hole
  | some bytes => do
    let all := st.1 ++ bytes
    check (decide (all.length < 2 ^ 32)) .tooLarge
    .ok (all, st.2 ++ [BitVec.ofNat 32 all.length])

/-- The score of each id of a unigram. -/
def scoreBytes (t : Tokenizer) : Option (List UInt8) :=
  match t.pipeline with
  | .unigram scores _ _ _ => some (words (scores.scoresById t.bpe.decodeTable.length))
  | _ => none

def toCanonical (t : Tokenizer) : Except CanonicalError CanonicalTokenizer := do
  check t.bpe.encodeMapIsDerivable .notDerivable
  let (vocabBytes, vocabOffsets) ← t.bpe.decodeTable.foldlM addVocab ([], [0])
  let mergeTable := words (t.bpe.mergeQuads.flatMap (fun q => [q.1, q.2.1, q.2.2.1, q.2.2.2]))
  let byteFallback := words (t.bpe.byteFallbackIds.map (fun id => id.getD noToken))
  let descriptor : Descriptor :=
    ⟨version, describePipeline t.pipeline, t.addedTokens.map t.describeAdded⟩
  .ok { byteFallback, descriptor, mergeTable, vocabBytes
        unigramScores := t.scoreBytes
        vocabOffsets := words vocabOffsets }

end Tokenizer

/-! ## Reading -/

def rebuildSplitter (d : SplitterDescriptor) : Splitter := ⟨d.pattern, d.keepGaps⟩

/-- A piece of a unigram with its score. -/
def piece (bytes : List UInt8) (score : Score) : Except CanonicalError (Str × Score) :=
  if h : Valid bytes then .ok (⟨bytes, h⟩, score) else .error .notText

def rebuildPipeline (descriptor : PipelineDescriptor) (vocab : List (List UInt8))
    (scores : Option (List UInt8)) : Except CanonicalError Pipeline :=
  match descriptor with
  | .unigram replacement prependAlways eosId unkId =>
    match scores with
    | none => .error .scores
    | some raw => do
      check (decide (raw.length = vocab.length * 4)) .scores
      let words := (readLe 4 vocab.length raw).map (BitVec.ofNat 32)
      let pieces ← (vocab.zip words).mapM (fun p => piece p.1 p.2)
      match UnigramScores.new pieces unkId with
      | .ok scores => .ok (.unigram scores replacement prependAlways eosId)
      | .error e => .error (.load e)
  | .byteLevelRegex nfc splitters preferWholeToken =>
    .ok (.byteLevelRegex nfc (splitters.map rebuildSplitter)
      (if preferWholeToken then .preferWholeToken else .merge))
  | .byteFallbackReplace from_ to_ unk dummy strip =>
    .ok (.byteFallbackReplace from_ to_ unk dummy strip)
  | .rawChar => .ok .rawChar

/-- The bytes between two offsets. -/
def span (vocabBytes : List UInt8) (window : TokenId × TokenId) : Except CanonicalError (List UInt8) := do
  let start := window.1.toNat
  let stop := window.2.toNat
  check (decide (start ≤ stop ∧ stop ≤ vocabBytes.length)) .span
  .ok ((vocabBytes.take stop).drop start)

/-- The quads of a flat table. -/
def quads : List TokenId → List (TokenId × TokenId × TokenId × TokenId)
  | a :: b :: c :: d :: rest => (a, b, c, d) :: quads rest
  | _ => []

/-- What an object of words holds. -/
def readWords (bytes : List UInt8) (error : CanonicalError) : Except CanonicalError (List TokenId) :=
  match readU32s bytes with
  | some l => .ok l
  | none => .error error

namespace Tokenizer

def fromCanonical (objects : CanonicalTokenizer) : Except CanonicalError Tokenizer := do
  let descriptor := objects.descriptor
  check (decide (descriptor.version = version)) .version
  let offsets ← readWords objects.vocabOffsets .offsets
  check (offsets.head? == some 0) .offsets
  let vocab ← (offsets.zip offsets.tail).mapM (span objects.vocabBytes)
  check (decide ((offsets.getLastD 0).toNat = objects.vocabBytes.length)) .unaccounted
  let flat ← readWords objects.mergeTable .merges
  check (decide (flat.length % 4 = 0)) .merges
  let fallback ← readWords objects.byteFallback .fallback
  check (decide (fallback.length = 256)) .fallback
  let byteFallbackIds := fallback.map (fun id => if id ≠ noToken then some id else none)
  let pipeline ← rebuildPipeline descriptor.pipeline vocab objects.unigramScores
  let bpe ← BpeTable.fromCanonical vocab (quads flat) byteFallbackIds
  .ok (.new bpe pipeline descriptor.addedTokens)

end Tokenizer

end Pie.Tokenizer
