import Pie.Lib.Utf8
import Pie.Grammar.Frontend

/-!
# Reading a regular expression

The parser that turns the bytes of a pattern into a frontend expression.

Names follow `regex/parser.rs`. The parser holds the input from its position on.
Each loop and each level of nesting spends one of a number of rounds; with too few
of them the result is `unfinished`, which the source has no counterpart of.
-/

namespace Pie.Grammar.Regex

open Lib.Utf8

structure RegexParser where
  pos : Nat
  input : List UInt8
deriving DecidableEq, Repr

inductive RegexError where
  | message (text : String)
  /-- An index or a conversion that the source takes for granted fails. -/
  | panic
  | unfinished
deriving DecidableEq, Repr

def bail {α : Type} (text : String) : Except RegexError α := .error (.message text)

def unicodeMax : Nat := 0x10ffff
def surrogateStart : Nat := 0xd800
def surrogateEnd : Nat := 0xdfff

/-- `u8 as char` -/
def byteChar (b : UInt8) : Char := Char.ofNat b.toNat

/-- The byte of an ASCII character. -/
def ascii (c : Char) : UInt8 := c.toNat.toUInt8

namespace RegexParser

def peek (p : RegexParser) : Option UInt8 := p.input.head?

/-- The byte after the next one. -/
def peekNext (p : RegexParser) : Option UInt8 := p.input[1]?

def advance (p : RegexParser) : RegexParser :=
  match p.input with
  | [] => p
  | _ :: input => ⟨p.pos + 1, input⟩

def atEnd (p : RegexParser) : Bool := p.input.isEmpty

/-- The code point of the character at the head of valid UTF-8, and the length of its encoding. -/
def decodeChar : List UInt8 → Option (Nat × Nat)
  | [] => none
  | b :: bs =>
    let cont (i : Nat) : Nat := (bs.getD i 0).toNat % 64
    if b < 0x80 then some (b.toNat, 1)
    else if b < 0xE0 then some (b.toNat % 32 * 64 + cont 0, 2)
    else if b < 0xF0 then some (b.toNat % 16 * 4096 + cont 0 * 64 + cont 1, 3)
    else some (b.toNat % 8 * 262144 + cont 0 * 4096 + cont 1 * 64 + cont 2, 4)

def advanceChar (p : RegexParser) : Except RegexError (Char × RegexParser) :=
  match p.input with
  | [] => .error .panic
  | first :: input =>
    if first < 0x80 then .ok (byteChar first, ⟨p.pos + 1, input⟩)
    else
      match fromUtf8 p.input, decodeChar p.input with
      | .ok (), some (codepoint, length) => .ok (Char.ofNat codepoint, ⟨p.pos + length, p.input.drop length⟩)
      | _, _ => .error .panic

def expectByte (p : RegexParser) (expected : UInt8) : Except RegexError RegexParser :=
  if p.peek ≠ some expected then bail ("expected '" ++ (byteChar expected).toString ++ "'") else .ok p.advance

end RegexParser

open RegexParser

def validateCodepoint (codepoint : Nat) : Except RegexError Nat :=
  if unicodeMax < codepoint ∨ surrogateStart ≤ codepoint ∧ codepoint ≤ surrogateEnd then
    bail ("invalid Unicode codepoint U+" ++ String.ofList ((Nat.toDigits 16 codepoint).map Char.toUpper))
  else .ok codepoint

def codepointLiteral (codepoint : Nat) : Except RegexError FrontendExpr := do
  let codepoint ← validateCodepoint codepoint
  .ok (.literal (String.utf8EncodeChar (Char.ofNat codepoint)))

def simpleEscape (escaped : UInt8) : Nat :=
  if escaped = ascii 'n' then 0x0a
  else if escaped = ascii 'r' then 0x0d
  else if escaped = ascii 't' then 0x09
  else if escaped = ascii 'f' then 0x0c
  else if escaped = ascii 'v' then 0x0b
  else if escaped = ascii '0' then 0
  else escaped.toNat

def digitRanges : List (Nat × Nat) := [(0x30, 0x39)]

def wordRanges : List (Nat × Nat) := [(0x30, 0x39), (0x41, 0x5a), (0x5f, 0x5f), (0x61, 0x7a)]

def whitespaceRanges : List (Nat × Nat) := [(0x09, 0x0d), (0x20, 0x20)]

/-- One range more, joined with the last one if they overlap or touch. -/
def normalizeStep (normalized : List (Nat × Nat)) (range : Nat × Nat) : List (Nat × Nat) :=
  match normalized.getLast? with
  | some last =>
    if range.1 ≤ min (last.2 + 1) (2 ^ 32 - 1) then normalized.dropLast ++ [(last.1, max last.2 range.2)]
    else normalized ++ [range]
  | none => [range]

def normalizeRanges (ranges : List (Nat × Nat)) : List (Nat × Nat) :=
  (ranges.insertionSort fun a b => a.1 < b.1 ∨ a.1 = b.1 ∧ a.2 ≤ b.2).foldl normalizeStep []

def complementFrom : List (Nat × Nat) → Nat → List (Nat × Nat)
  | [], next => if next ≤ unicodeMax then [(next, unicodeMax)] else []
  | (start, stop) :: ranges, next =>
    (if next < start then [(next, start - 1)] else []) ++ complementFrom ranges (min (stop + 1) (2 ^ 32 - 1))

def complementRanges (ranges : List (Nat × Nat)) : List (Nat × Nat) := complementFrom (normalizeRanges ranges) 0

def characterClass (ranges : List (Nat × Nat)) : FrontendExpr := .characterClass false (normalizeRanges ranges)

def isMetachar (ch : UInt8) : Bool := ch ∈ "*+?\x7b\x7d|)^$".toList.map ascii

def isQuantifier (ch : Option UInt8) : Bool := ch ∈ "*+?\x7b".toList.map (some ∘ ascii)

def hexValue? (ch : UInt8) : Option Nat :=
  if 0x30 ≤ ch ∧ ch ≤ 0x39 then some (ch.toNat - 0x30)
  else if 0x41 ≤ ch ∧ ch ≤ 0x46 then some (ch.toNat - 0x41 + 10)
  else if 0x61 ≤ ch ∧ ch ≤ 0x66 then some (ch.toNat - 0x61 + 10)
  else none

/-- The hexadecimal digits at the head of the input, at most `limit` of them. -/
def hexDigits : Nat → RegexParser → List Nat × RegexParser
  | 0, p => ([], p)
  | limit + 1, p =>
    match p.peek.bind hexValue? with
    | some digit =>
      let (digits, p) := hexDigits limit p.advance
      (digit :: digits, p)
    | none => ([], p)

def radix16 (digits : List Nat) : Nat := digits.foldl (fun value digit => 16 * value + digit) 0

def readHex (count : Nat) (p : RegexParser) : Except RegexError (Nat × RegexParser) :=
  let (digits, p) := hexDigits count p
  if digits.length < count then bail "expected hex digit" else .ok (radix16 digits, p)

def parseUnicodeEscape (p : RegexParser) : Except RegexError (Nat × RegexParser) := do
  let p ← p.expectByte (ascii 'u')
  let (codepoint, p) ← (
    if p.peek = some (ascii '\x7b') then
      let (digits, p) := hexDigits p.input.length p.advance
      if digits.length = 0 ∨ 6 < digits.length ∨ p.peek ≠ some (ascii '\x7d') then bail "invalid unicode escape"
      else .ok (radix16 digits, p.advance)
    else readHex 4 p)
  let codepoint ← validateCodepoint codepoint
  .ok (codepoint, p)

def parseHexEscape (p : RegexParser) : Except RegexError (Nat × RegexParser) := do
  let p ← p.expectByte (ascii 'x')
  readHex 2 p

/-! ## Classes -/

inductive ClassItem where
  | codepoint (codepoint : Nat)
  | ranges (ranges : List (Nat × Nat))

def ClassItem.intoRanges : ClassItem → List (Nat × Nat)
  | .codepoint cp => [(cp, cp)]
  | .ranges rs => rs

def ClassItem.toCodepoint : ClassItem → Except RegexError Nat
  | .codepoint cp => .ok cp
  | .ranges _ => bail "character-class shorthand cannot be a range endpoint"

/-- The ranges of `\d`, `\w` and `\s` and of their complements. -/
def shorthand (escaped : UInt8) : Option (List (Nat × Nat)) :=
  if escaped = ascii 'd' then some digitRanges
  else if escaped = ascii 'D' then some (complementRanges digitRanges)
  else if escaped = ascii 'w' then some wordRanges
  else if escaped = ascii 'W' then some (complementRanges wordRanges)
  else if escaped = ascii 's' then some whitespaceRanges
  else if escaped = ascii 'S' then some (complementRanges whitespaceRanges)
  else none

def parseClassEscape (p : RegexParser) : Except RegexError (ClassItem × RegexParser) :=
  match p.peek with
  | none => bail "truncated escape"
  | some escaped =>
    match shorthand escaped with
    | some ranges => .ok (.ranges ranges, p.advance)
    | none =>
      if escaped = ascii 'u' then do
        let (codepoint, p) ← parseUnicodeEscape p
        .ok (.codepoint codepoint, p)
      else if escaped = ascii 'x' then do
        let (codepoint, p) ← parseHexEscape p
        .ok (.codepoint codepoint, p)
      else .ok (.codepoint (simpleEscape escaped), p.advance)

def parseClassItem (p : RegexParser) : Except RegexError (ClassItem × RegexParser) :=
  if p.peek = some (ascii '\\') then parseClassEscape p.advance
  else do
    let (ch, p) ← p.advanceChar
    .ok (.codepoint ch.toNat, p)

/-- One item of a class, or a range between two. -/
def parseClassRange (p : RegexParser) : Except RegexError ((List (Nat × Nat)) × RegexParser) := do
  let (first, p) ← parseClassItem p
  if p.peek = some (ascii '-') ∧ p.peekNext ≠ some (ascii ']') then
    let p := p.advance
    let start ← first.toCodepoint
    if p.atEnd then bail "unclosed character class"
    else
      let (last, p) ← parseClassItem p
      let stop ← last.toCodepoint
      if stop < start then bail "invalid character class range" else .ok ([(start, stop)], p)
  else .ok (first.intoRanges, p)

def parseClassItems : Nat → List (Nat × Nat) → RegexParser → Except RegexError ((List (Nat × Nat)) × RegexParser)
  | 0, _, _ => .error .unfinished
  | rounds + 1, ranges, p =>
    if p.peek = some (ascii ']') then .ok (ranges, p.advance)
    else if p.atEnd then bail "unclosed character class"
    else do
      let (more, p) ← parseClassRange p
      parseClassItems rounds (ranges ++ more) p

def parseCharacterClass (rounds : Nat) (p : RegexParser) : Except RegexError (FrontendExpr × RegexParser) := do
  let p ← p.expectByte (ascii '[')
  let negated := p.peek = some (ascii '^')
  let p := if negated then p.advance else p
  let (ranges, p) := if p.peek = some (ascii ']') then ([(0x5d, 0x5d)], p.advance) else ([], p)
  let (ranges, p) ← parseClassItems rounds ranges p
  .ok (.characterClass negated (normalizeRanges ranges), p)

def parseEscape (p : RegexParser) : Except RegexError (FrontendExpr × RegexParser) := do
  let p ← p.expectByte (ascii '\\')
  match p.peek with
  | none => bail "truncated escape"
  | some escaped =>
    match shorthand escaped with
    | some ranges => .ok (characterClass ranges, p.advance)
    | none =>
      if escaped ∈ "bB".toList.map ascii then bail "word boundaries (\\b, \\B) are not supported"
      else if escaped ∈ "pP".toList.map ascii then bail "unicode property escapes (\\p, \\P) are not supported"
      else if escaped ∈ "123456789k".toList.map ascii then bail "backreferences are not supported"
      else if escaped = ascii 'u' then do
        let (codepoint, p) ← parseUnicodeEscape p
        let literal ← codepointLiteral codepoint
        .ok (literal, p)
      else if escaped = ascii 'x' then do
        let (codepoint, p) ← parseHexEscape p
        let literal ← codepointLiteral codepoint
        .ok (literal, p)
      else do
        let literal ← codepointLiteral (simpleEscape escaped)
        .ok (literal, p.advance)

/-- The bytes of a run of characters; a character with a quantifier is a run of its own. -/
def parseLiteralBytes : Nat → List UInt8 → Nat → RegexParser → Except RegexError ((List UInt8) × RegexParser)
  | 0, _, _, _ => .error .unfinished
  | rounds + 1, bytes, count, p =>
    match p.peek with
    | none => .ok (bytes, p)
    | some first =>
      if isMetachar first ∨ first ∈ "\\[(.".toList.map ascii then .ok (bytes, p)
      else do
        let (ch, next) ← p.advanceChar
        let quantified := isQuantifier next.peek
        if quantified ∧ 0 < count then .ok (bytes, p)
        else if quantified then .ok (bytes ++ String.utf8EncodeChar ch, next)
        else parseLiteralBytes rounds (bytes ++ String.utf8EncodeChar ch) (count + 1) next

def parseLiteral (rounds : Nat) (p : RegexParser) : Except RegexError (FrontendExpr × RegexParser) := do
  let (bytes, p) ← parseLiteralBytes rounds [] 0 p
  .ok (.literal bytes, p)

/-! ## Repetition -/

def digitValue? (ch : UInt8) : Option Nat := if 0x30 ≤ ch ∧ ch ≤ 0x39 then some (ch.toNat - 0x30) else none

def readIntegerFrom : Nat → Nat → Bool → RegexParser → Except RegexError (Nat × RegexParser)
  | 0, _, _, _ => .error .unfinished
  | rounds + 1, value, hasDigit, p =>
    match p.peek.bind digitValue? with
    | some digit =>
      if 10 * value + digit < 2 ^ 32 then readIntegerFrom rounds (10 * value + digit) true p.advance
      else bail "repetition count exceeds u32::MAX"
    | none => if hasDigit then .ok (value, p) else bail "expected integer in repetition"

def readInteger (rounds : Nat) (p : RegexParser) : Except RegexError (Nat × RegexParser) := readIntegerFrom rounds 0 false p

def parseRepetition (rounds : Nat) (p : RegexParser) : Except RegexError ((Nat × Option Nat) × RegexParser) := do
  let p ← p.expectByte (ascii '\x7b')
  let (min, p) ← readInteger rounds p
  if p.peek = some (ascii '\x7d') then .ok ((min, some min), p.advance)
  else if p.peek = some (ascii ',') then
    let p := p.advance
    if p.peek = some (ascii '\x7d') then .ok ((min, none), p.advance)
    else
      let (max, p) ← readInteger rounds p
      if max < min then bail "repetition lower bound exceeds upper bound"
      else
        let p ← p.expectByte (ascii '\x7d')
        .ok ((min, some max), p)
  else bail "expected ',' or '\x7d' in repetition"

/-- A lazy mark after a quantifier is skipped, and another quantifier refused. -/
def afterQuantifier (repeated : FrontendExpr) (p : RegexParser) : Except RegexError (FrontendExpr × RegexParser) :=
  let p := if p.peek = some (ascii '?') then p.advance else p
  if isQuantifier p.peek then bail ("consecutive quantifiers are not supported at position " ++ toString p.pos)
  else .ok (repeated, p)

def parseQuantifier (rounds : Nat) (atom : FrontendExpr) (p : RegexParser) : Except RegexError (FrontendExpr × RegexParser) :=
  if p.peek = some (ascii '*') then afterQuantifier (.repeat atom 0 none) p.advance
  else if p.peek = some (ascii '+') then afterQuantifier (.repeat atom 1 none) p.advance
  else if p.peek = some (ascii '?') then afterQuantifier (.repeat atom 0 (some 1)) p.advance
  else if p.peek = some (ascii '\x7b') then do
    let ((min, max), p) ← parseRepetition rounds p
    afterQuantifier (.repeat atom min max) p
  else .ok (atom, p)

/-! ## Groups, sequences and alternatives -/

/-- Past the name of a named group. -/
def skipName : Nat → RegexParser → Except RegexError RegexParser
  | 0, _ => .error .unfinished
  | rounds + 1, p =>
    if p.atEnd then bail "unterminated named group"
    else if p.peek = some (ascii '>') then .ok p.advance
    else do
      let (_, p) ← p.advanceChar
      skipName rounds p

/-- Past what may stand between the parenthesis of a group and its expression. -/
def groupModifier (rounds : Nat) (p : RegexParser) : Except RegexError RegexParser :=
  if p.peek = some (ascii '?') then
    let p := p.advance
    if p.peek = some (ascii ':') then .ok p.advance
    else if p.peek = some (ascii '=') ∨ p.peek = some (ascii '!') then bail "lookahead assertions are not supported"
    else if p.peek = some (ascii '<') then
      if p.peekNext = some (ascii '=') ∨ p.peekNext = some (ascii '!') then bail "lookbehind assertions are not supported"
      else skipName rounds p.advance
    else bail "unsupported group modifier"
  else .ok p

mutual

def parseAlternation : Nat → List FrontendExpr → RegexParser → Except RegexError (FrontendExpr × RegexParser)
  | 0, _, _ => .error .unfinished
  | rounds + 1, alternatives, p => do
    let (sequence, p) ← parseSequence rounds [] p
    if p.peek = some (ascii '|') then parseAlternation rounds (alternatives ++ [sequence]) p.advance
    else .ok (.choose (alternatives ++ [sequence]), p)

def parseSequence : Nat → List FrontendExpr → RegexParser → Except RegexError (FrontendExpr × RegexParser)
  | 0, _, _ => .error .unfinished
  | rounds + 1, elements, p =>
    if p.atEnd ∨ p.peek ∈ "|)$".toList.map (some ∘ ascii) then .ok (.seq elements, p)
    else do
      let (atom, p) ← parseAtom rounds p
      let (element, p) ← parseQuantifier rounds atom p
      parseSequence rounds (elements ++ [element]) p

def parseAtom : Nat → RegexParser → Except RegexError (FrontendExpr × RegexParser)
  | 0, _ => .error .unfinished
  | rounds + 1, p =>
    match p.peek with
    | none => .ok (.empty, p)
    | some ch =>
      if ch = ascii '(' then parseGroup rounds p
      else if ch = ascii '[' then parseCharacterClass rounds p
      else if ch = ascii '.' then .ok (characterClass [(0, unicodeMax)], p.advance)
      else if ch = ascii '\\' then parseEscape p
      else if ch = ascii '^' then .ok (.empty, p.advance)
      else if isMetachar ch then
        bail ("unexpected metacharacter '" ++ (byteChar ch).toString ++ "' at position " ++ toString p.pos)
      else parseLiteral rounds p

def parseGroup : Nat → RegexParser → Except RegexError (FrontendExpr × RegexParser)
  | 0, _ => .error .unfinished
  | rounds + 1, p => do
    let p ← p.expectByte (ascii '(')
    let p ← groupModifier rounds p
    let (expression, p) ← parseAlternation rounds [] p
    if p.peek ≠ some (ascii ')') then bail ("unmatched '(' at position " ++ toString p.pos)
    else .ok (.group expression, p.advance)

end

def parse (rounds : Nat) (pattern : List UInt8) : Except RegexError FrontendExpr := do
  let p : RegexParser := ⟨0, pattern⟩
  let p := if p.peek = some (ascii '^') then p.advance else p
  let (result, p) ← parseAlternation rounds [] p
  let p := if p.peek = some (ascii '$') then p.advance else p
  match p.peek with
  | some ch => bail ("unexpected character at position " ++ toString p.pos ++ ": '" ++ (byteChar ch).toString ++ "'")
  | none => .ok result

/-- `regex_to_expr` -/
def regexToExpr (rounds : Nat) (pattern : String) : Except RegexError FrontendExpr := parse rounds (utf8 pattern)

end Pie.Grammar.Regex
