import Pie.Tokenizer.Decode

/-!
# Loading a tokenizer

The tables `bpe.rs` and `unigram.rs` build from a vocabulary, and what
`huggingface.rs` makes of them. The loader is modelled from where the JSON is
parsed: the profile that `compile_profile` reads from it is an argument.

A vocabulary comes out of a hash map, so its entries are in some order, which
is the order of the `AList`.
-/

namespace Pie.Tokenizer

open Lib Lib.Utf8

abbrev Vocabulary := AList (fun _ : Str => TokenId)

inductive LoadError where
  | emptyVocabulary
  | tooLarge
  | notContiguous
  | duplicateTokenId
  | sameBytes
  | unknownMergeToken
  | tooManyMerges
  | duplicateMerge
  | addedGap
  | addedBytesTaken
  | incompleteByteFallback
  | missingByteAtoms
  | emptyAddedToken
  | duplicateAddedId
  | duplicateAddedContent
  | singleWord
  | normalizedAddedToken
  | unkOutside
  | unknownTemplateToken
deriving DecidableEq, Repr

/-- `ensure!`. -/
def ensure (cond : Bool) (error : LoadError) : Except LoadError Unit :=
  if cond then .ok () else .error error

/-! ## Byte-level keys -/

/-- The code points of a text. -/
def codePoints : Nat → List UInt8 → List Nat
  | fuel + 1, b :: bs =>
    match step (b :: bs) with
    | .char n =>
      let lead := if n = 1 then b.toNat else b.toNat % 2 ^ (7 - n)
      ((b :: bs).take n).tail.foldl (fun acc c => acc * 64 + c.toNat % 64) lead
        :: codePoints fuel ((b :: bs).drop n)
    | _ => []
  | _, _ => []

def isDirectByte (b : Nat) : Bool :=
  (0x21 ≤ b && b ≤ 0x7E) || (0xA1 ≤ b && b ≤ 0xAC) || (0xAE ≤ b && b ≤ 0xFF)

/-- `build_byte_to_unicode`: a byte that is not shown as itself is the next character from 256 on. -/
def byteToUnicode (b : Nat) : Nat :=
  if isDirectByte b then b else 256 + ((List.range b).filter (fun c => !isDirectByte c)).length

/-- `CHAR_TO_BYTE`. -/
def charToByte (index : Nat) : Option UInt8 :=
  ((List.range 256).find? (fun b => byteToUnicode b == index)).map UInt8.ofNat

def byteLevelTokenToBytes (token : Str) : List UInt8 :=
  ((codePoints token.bytes.length token.bytes).mapM charToByte).getD token.bytes

/-! ## The table -/

namespace BpeTable

def key (rawByteKeys : Bool) (token : Str) : List UInt8 :=
  if rawByteKeys then byteLevelTokenToBytes token else token.bytes

/-- The two tables as they are filled: what ids spell, and the ids of bytes. -/
abbrev Filling := List (Option (List UInt8)) × Finmap (fun _ : List UInt8 => TokenId)

/-- One entry of the vocabulary. -/
def addEntry (rawByteKeys : Bool) (st : Filling) (entry : Str × TokenId) : Except LoadError Filling := do
  let bytes := key rawByteKeys entry.1
  ensure (st.1[entry.2.toNat]? == some none) .duplicateTokenId
  ensure (st.2.lookup bytes).isNone .sameBytes
  .ok (st.1.set entry.2.toNat (some bytes), st.2.insert bytes entry.2)

/-- One merge, whose rank is its place. -/
def addMerge (rawByteKeys : Bool) (tokenToId : Finmap (fun _ : List UInt8 => TokenId))
    (merges : Finmap (fun _ : TokenId × TokenId => TokenId × TokenId)) (pair : (Str × Str) × Nat) :
    Except LoadError (Finmap (fun _ : TokenId × TokenId => TokenId × TokenId)) := do
  let a := key rawByteKeys pair.1.1
  let b := key rawByteKeys pair.1.2
  match tokenToId.lookup a, tokenToId.lookup b, tokenToId.lookup (a ++ b) with
  | some left, some right, some merged =>
    ensure (decide (pair.2 + 1 < 2 ^ 32)) .tooManyMerges
    ensure (merges.lookup (left, right)).isNone .duplicateMerge
    .ok (merges.insert (left, right) (BitVec.ofNat 32 (pair.2 + 1), merged))
  | _, _, _ => .error .unknownMergeToken

/-- A digit of `{byte:02X}`. -/
def hexDigitByte (n : Nat) : UInt8 := UInt8.ofNat (if n < 10 then 0x30 + n else 0x41 + (n - 10))

/-- `<0xNN>`. -/
def hexToken (byte : Nat) : List UInt8 :=
  [0x3C, 0x30, 0x78, hexDigitByte (byte / 16), hexDigitByte (byte % 16), 0x3E]

/-- The id of a token that is spelled by the given bytes. -/
def lookupBytes (vocab : Vocabulary) (bytes : List UInt8) : Option TokenId :=
  if h : Valid bytes then vocab.lookup ⟨bytes, h⟩ else none

def maxId (vocab : Vocabulary) : Nat := (vocab.entries.map (fun e => e.2.toNat)).foldl max 0

def fromVocabAndMerges (vocab : Vocabulary) (mergePairs : List (Str × Str)) (rawByteKeys : Bool) :
    Except LoadError BpeTable := do
  ensure (decide (vocab.entries ≠ [])) .emptyVocabulary
  ensure (decide (vocab.entries.length < 2 ^ 32)) .tooLarge
  -- `checked_add` refuses the largest id
  ensure (decide (maxId vocab + 1 = vocab.entries.length)) .notContiguous
  let (decodeTable, tokenToId) ← (vocab.entries.map (fun e => (e.1, e.2))).foldlM (addEntry rawByteKeys)
    (List.replicate vocab.entries.length none, ∅)
  let merges ← mergePairs.zipIdx.foldlM (addMerge rawByteKeys tokenToId) ∅
  .ok { tokenToId, merges, decodeTable
        byteFallbackIds := (List.range 256).map (fun byte => lookupBytes vocab (hexToken byte)) }

def bytesToId (bpe : BpeTable) (bytes : List UInt8) : Option TokenId := bpe.tokenToId.lookup bytes

/-- The ids of bytes once `bytes` have the given one, which they may have already. -/
def claimBytes (tokenToId : Finmap (fun _ : List UInt8 => TokenId)) (bytes : List UInt8) (id : TokenId) :
    Except LoadError (Finmap (fun _ : List UInt8 => TokenId)) :=
  match tokenToId.lookup bytes with
  | some previous => if previous = id then .ok tokenToId else .error .addedBytesTaken
  | none => .ok (tokenToId.insert bytes id)

/-- The id of an added token is one of the vocabulary, or the next. -/
def insertAdded (bpe : BpeTable) (bytes : List UInt8) (id : TokenId) : Except LoadError BpeTable := do
  ensure (decide (id.toNat ≤ bpe.decodeTable.length)) .addedGap
  let tokenToId ← claimBytes bpe.tokenToId bytes id
  .ok { bpe with
    tokenToId
    decodeTable :=
      if id.toNat = bpe.decodeTable.length then bpe.decodeTable ++ [some bytes]
      else bpe.decodeTable.set id.toNat (some bytes) }

def hasCompleteByteFallback (bpe : BpeTable) : Bool := bpe.byteFallbackIds.all Option.isSome

def hasAllByteAtoms (bpe : BpeTable) : Bool :=
  (List.range 256).all (fun byte => (bpe.bytesToId [UInt8.ofNat byte]).isSome)

end BpeTable

namespace UnigramScores

/-- One piece: the first of its spelling counts, and the empty one does not. -/
def addPiece (st : AList (fun _ : Str => TokenId × Score) × Nat) (piece : (Str × Score) × Nat) :
    AList (fun _ : Str => TokenId × Score) × Nat :=
  if piece.1.1.bytes.isEmpty then st
  else
    ((if (st.1.lookup piece.1.1).isSome then st.1
      else st.1.insert piece.1.1 (BitVec.ofNat 32 piece.2, piece.1.2)),
      max st.2 piece.1.1.bytes.length)

def new (pieces : List (Str × Score)) (unkId : TokenId) : Except LoadError UnigramScores := do
  ensure (decide (pieces ≠ [])) .emptyVocabulary
  ensure (decide (unkId.toNat < pieces.length)) .unkOutside
  -- a piece that is not empty has an index that fits
  ensure (decide (∀ p ∈ pieces.zipIdx, p.1.1.bytes.isEmpty ∨ p.2 < 2 ^ 32)) .tooLarge
  let st := pieces.zipIdx.foldl addPiece (∅, 0)
  .ok ⟨st.1, st.2, unkId⟩

/-- The score of each id; an id with none has zero. -/
def scoresById (s : UnigramScores) (vocab : Nat) : List Score :=
  s.pieces.entries.foldl (fun out e => out.set e.2.1.toNat e.2.2) (List.replicate vocab 0)

end UnigramScores

/-! ## The loader -/

structure HfAddedToken where
  id : TokenId
  content : Str
  special : Bool
  singleWord : Bool
  lstrip : Bool
  rstrip : Bool
  normalized : Bool
deriving DecidableEq

def HfAddedToken.toAdded (t : HfAddedToken) : AddedToken :=
  ⟨t.id, t.content, t.special, t.lstrip, t.rstrip⟩

structure CompiledProfile where
  pipeline : Pipeline
  rawByteKeys : Bool
  normalizesText : Bool

def Pipeline.isByteFallback : Pipeline → Bool
  | .byteFallbackReplace .. => true
  | _ => false

/-- The state of the loop over the added tokens. -/
structure Adding where
  bpe : BpeTable
  addedTokens : List AddedToken
  ids : List TokenId
  contents : List Str

def addToken (normalizesText : Bool) (st : Adding) (token : HfAddedToken) : Except LoadError Adding := do
  ensure (!token.content.bytes.isEmpty) .emptyAddedToken
  ensure (!st.ids.contains token.id) .duplicateAddedId
  ensure (!st.contents.contains token.content) .duplicateAddedContent
  ensure (!token.singleWord) .singleWord
  ensure (!token.normalized || !normalizesText) .normalizedAddedToken
  let bpe ← st.bpe.insertAdded token.content.bytes token.id
  .ok ⟨bpe, st.addedTokens ++ [token.toAdded], token.id :: st.ids, token.content :: st.contents⟩

/-- What the loader reads of a BPE model: its vocabulary, its merges, and the added tokens. -/
structure HfTokenizer where
  vocab : Vocabulary
  merges : List (Str × Str)
  addedTokens : List HfAddedToken

def fromHf (hf : HfTokenizer) (profile : CompiledProfile) : Except LoadError Tokenizer := do
  let bpe ← BpeTable.fromVocabAndMerges hf.vocab hf.merges profile.rawByteKeys
  if profile.pipeline.isByteFallback then ensure bpe.hasCompleteByteFallback .incompleteByteFallback
  else ensure bpe.hasAllByteAtoms .missingByteAtoms
  let st ← (hf.addedTokens.mergeSort (fun a b => decide (a.id.toNat ≤ b.id.toNat))).foldlM
    (addToken profile.normalizesText) ⟨bpe, [], [], []⟩
  .ok (.new st.bpe profile.pipeline st.addedTokens)

/-- What the loader reads of a Unigram: its pieces, the id of the unknown, the marker, the name of
the token the template appends, and the added tokens. -/
structure UnigramValue where
  pieces : List (Str × Score)
  unkId : TokenId
  replacement : Str
  templateTail : Option Str
  addedTokens : List HfAddedToken

/-- `vocab.entry(piece).or_insert(id)`. -/
def addFirst (vocab : Vocabulary) (piece : (Str × Score) × Nat) : Vocabulary :=
  if (vocab.lookup piece.1.1).isSome then vocab
  else vocab.insert piece.1.1 (BitVec.ofNat 32 piece.2)

def unigramVocab (pieces : List (Str × Score)) : Vocabulary := pieces.zipIdx.foldl addFirst ∅

def unigramTemplateTail (vocab : Vocabulary) : Option Str → Except LoadError (Option TokenId)
  | none => .ok none
  | some name =>
    match vocab.lookup name with
    | some id => .ok (some id)
    | none => .error .unknownTemplateToken

def unigramFromValue (v : UnigramValue) : Except LoadError Tokenizer := do
  ensure (decide (v.pieces.length ≤ 2 ^ 32)) .tooLarge
  let vocab := unigramVocab v.pieces
  let eosId ← unigramTemplateTail vocab v.templateTail
  let scores ← UnigramScores.new v.pieces v.unkId
  let bpe ← BpeTable.fromVocabAndMerges vocab [] false
  .ok (.new bpe (.unigram scores v.replacement true eosId) (v.addedTokens.map HfAddedToken.toAdded))

end Pie.Tokenizer
