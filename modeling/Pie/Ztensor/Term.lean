import Pie.Lib.Decimal
import Pie.Lib.Words
import Pie.Lib.Fallible
import Pie.Ztensor.Cbor

/-!
# Types of tensors

A type is a leaf, or groups of codes with a gain and maybe an offset for each
group, themselves of some type. Its values lie in planes, one after the other,
each at a multiple of the plane alignment. Names follow `error.rs` and
`format/term.rs`.

Numbers are `u64` throughout; a sum that none holds is a panic. What an error says is kept as the pieces of its
format string, a piece for each argument.
-/

namespace Pie.Ztensor

open Lib Lib.Words

/-! ## Errors -/

inductive Rule where
  | fileTooSmall
  | headerMagic
  | footerMagic
  | version
  | manifestBounds
  | manifestTooLarge
  | manifestHash
  | cborSyntax
  | cborDeterminism
  | cborDuplicateKey
  | cborDepth
  | schema
  | name
  | shape
  | blobAlignment
  | blobBounds
  | blobOverlap
  | shardRef
  | shardName
  | type
  | layoutRule
  | layoutData
  | size
  | encoding
  | digest
  | shardIdentity
  | nameCollision
deriving DecidableEq, Repr

/-- A piece of a message: its own text, or an argument and how it is printed. -/
inductive Part where
  | lit (s : String)
  | str (s : List UInt8)
  | debug (s : List UInt8)
  | num (n : Nat)
  | value (v : Cbor.Value)

abbrev Message := List Part

inductive Error where
  | reject (rule : Rule) (detail : Message)
  | notFound (what : Message)
  | unsupported (what : Message)
  | invalidInput (what : Message)
  | io

abbrev Result (α : Type) := Except (Stop Error) α

namespace Result

variable {α : Type}

def fail (e : Error) : Result α := .error (.error e)

def panic : Result α := .error .panic

def reject (rule : Rule) (detail : Message) : Result α := fail (.reject rule detail)

def invalidInput (what : Message) : Result α := fail (.invalidInput what)

def unsupported (what : Message) : Result α := fail (.unsupported what)

/-- `a + b`, unchecked. -/
def plus (a b : Nat) : Result Nat := if a + b < WORD then .ok (a + b) else panic

/-- `ok_or_else`. -/
def okOr (e : Error) : Option α → Result α
  | some a => .ok a
  | none => fail e

def mapErr (f : Error → Error) : Result α → Result α
  | .ok a => .ok a
  | .error (.error e) => fail (f e)
  | .error .panic => panic

end Result

/-- `Error::at`. -/
def Error.at' (name : Str) : Error → Error
  | .reject rule detail => .reject rule (.debug name.bytes :: .lit ": " :: detail)
  | other => other

def Rule.ofCbor : Cbor.Rule → Rule
  | .cborSyntax => .cborSyntax
  | .cborDeterminism => .cborDeterminism
  | .cborDepth => .cborDepth
  | .cborDuplicateKey => .cborDuplicateKey

def Error.ofCbor : Cbor.Error → Error
  | .invalidInput message => .invalidInput [.lit message]
  | .reject rule message => .reject (.ofCbor rule) [.lit message]

/-- What the codec gives, with its errors among the others. -/
def Result.ofCbor {α : Type} : Except (Stop Cbor.Error) α → Result α
  | .ok a => .ok a
  | .error (.error e) => fail (.ofCbor e)
  | .error .panic => panic

/-! ## Leaves and groups -/

inductive Leaf where
  | u (bits : Nat)
  | i (bits : Nat)
  | f16
  | bf16
  | f32
  | f64
  | e2m1
  | e2m3
  | e3m2
  | e4m3
  | e5m2
  | e8m0
  | bool
deriving DecidableEq, Repr

namespace Leaf

def bits : Leaf → Nat
  | u b => b
  | i b => b
  | f16 => 16
  | bf16 => 16
  | f32 => 32
  | f64 => 64
  | e2m1 => 4
  | e2m3 => 6
  | e3m2 => 6
  | e4m3 => 8
  | e5m2 => 8
  | e8m0 => 8
  | bool => 8

def size (l : Leaf) (n : Nat) : Option Nat := (checkedMul n l.bits).map fun bits => (bits + 7) / 8

def display : Leaf → Str
  | u b => (Str.lit "u").append (.lit (toString b))
  | i b => (Str.lit "i").append (.lit (toString b))
  | f16 => .lit "f16"
  | bf16 => .lit "bf16"
  | f32 => .lit "f32"
  | f64 => .lit "f64"
  | e2m1 => .lit "e2m1"
  | e2m3 => .lit "e2m3"
  | e3m2 => .lit "e3m2"
  | e4m3 => .lit "e4m3"
  | e5m2 => .lit "e5m2"
  | e8m0 => .lit "e8m0"
  | bool => .lit "bool"

end Leaf

inductive Group where
  | n (n : Nat)
  | tile (r c : Nat)
  | row
  | tensor
deriving DecidableEq, Repr

def Group.display : Group → Str
  | n k => (Str.lit "g").append (.lit (toString k))
  | tile r c => Str.concat [.lit "g", .lit (toString r), .lit "x", .lit (toString c)]
  | row => .lit "gr"
  | tensor => .lit "gt"

mutual

inductive Term where
  | leaf (l : Leaf)
  | group (group : Group) (code : Leaf) (gain : Term) (offset : Offset)

inductive Offset where
  | none
  | post (t : Term)
  | pre (t : Term)

end

mutual

def Term.display : Term → Str
  | .leaf l => l.display
  | .group g code gain offset =>
    Str.concat [g.display, .lit "_", code.display, .lit "_", gain.display, .lit "_", offset.display]

def Offset.display : Offset → Str
  | .none => .lit "n"
  | .post t => (Str.lit "b_").append t.display
  | .pre t => (Str.lit "z_").append t.display

end

/-! ## Reading a type -/

/-- The text of a literal, by its bytes. -/
def ascii (s : String) : List UInt8 := (Str.lit s).bytes

def isDigit (b : UInt8) : Bool := decide (0x30 ≤ b) && decide (b ≤ 0x39)

/-- `number`: digits with no zero in front that a `u64` holds. -/
def number (s : List UInt8) : Option Nat :=
  if s = [] ∨ (1 < s.length ∧ s.head? = some 0x30) ∨ ¬ s.all isDigit then none
  else
    let v := s.foldl (fun acc b => acc * 10 + (b.toNat - 0x30)) 0
    if v < WORD then some v else none

/-- `Leaf::parse`: where a text begins with a longer character, what follows its first byte is no number. -/
def Leaf.parse (s : List UInt8) : Option Leaf :=
  if s = ascii "f16" then some .f16
  else if s = ascii "bf16" then some .bf16
  else if s = ascii "f32" then some .f32
  else if s = ascii "f64" then some .f64
  else if s = ascii "e2m1" then some .e2m1
  else if s = ascii "e2m3" then some .e2m3
  else if s = ascii "e3m2" then some .e3m2
  else if s = ascii "e4m3" then some .e4m3
  else if s = ascii "e5m2" then some .e5m2
  else if s = ascii "e8m0" then some .e8m0
  else if s = ascii "bool" then some .bool
  else
    match s with
    | [] => none
    | c :: rest =>
      match number rest with
      | none => none
      | some bits =>
        if ¬ (1 ≤ bits ∧ bits ≤ 64) then none
        else if c = 0x75 then some (.u bits)
        else if c = 0x69 then some (.i bits)
        else none

/-- `group`: the text after `g`. -/
def group : List UInt8 → Option Group
  | 0x67 :: rest =>
    if rest = ascii "r" then some .row
    else if rest = ascii "t" then some .tensor
    else
      match rest.span (· ≠ 0x78) with
      | (r, _ :: c) => do
        let r ← number r
        let c ← number c
        if r < 2 ∨ c < 1 then none else some (.tile r c)
      | (n, []) => do
        let n ← number n
        if n < 1 then none else some (.n n)
  | _ => none

def MAX_TERM_DEPTH : Nat := 8

/-- A parser of tokens: those still to come. -/
abbrev Parse (α : Type) := StateT (List (List UInt8)) (Except (Stop Error)) α

namespace Parse

def bad {α : Type} (text : List UInt8) (why : Message) : Parse α := fun _ =>
  Result.reject .type (.lit "type " :: .debug text :: .lit ": " :: why)

def next (text : List UInt8) : Parse (List UInt8) := fun tokens =>
  match tokens with
  | [] => bad text [.lit "ends early"] []
  | tok :: rest => .ok (tok, rest)

def leaf (text tok : List UInt8) : Parse Leaf :=
  match Leaf.parse tok with
  | some l => pure l
  | none => bad text [.debug tok, .lit " is not a leaf"]

/-- `Parser::term`; `left` is one more than the depth may still grow. -/
def term (text : List UInt8) : Nat → Parse Term
  | 0 => bad text [.lit "nests deeper than 8 group forms"]
  | left + 1 => do
    let tok ← next text
    match group tok with
    | some g => do
      let codeTok ← next text
      let code ← leaf text codeTok
      let gain ← term text left
      let mark ← next text
      if mark = ascii "n" then pure (.group g code gain .none)
      else if mark = ascii "b" then do
        let t ← term text left
        pure (.group g code gain (.post t))
      else if mark = ascii "z" then do
        let t ← term text left
        pure (.group g code gain (.pre t))
      else bad text [.debug mark, .lit " is not an offset"]
    | none =>
      if tok.head? = some 0x67 then bad text [.debug tok, .lit " is not a group"]
      else do
        let l ← leaf text tok
        pure (.leaf l)

end Parse

def Term.parse (text : Str) : Result Term := do
  let (t, rest) ← Parse.term text.bytes (MAX_TERM_DEPTH + 1) (text.bytes.splitOn 0x5F)
  if rest ≠ [] then
    Result.reject .type [.lit "type ", .debug text.bytes, .lit ": ", .lit "has tokens after the term"]
  else .ok t

/-! ## Planes -/

def PLANE_ALIGN : Nat := 256

structure Plane where
  path : Str
  leaf : Leaf
  shape : List Nat
  offset : Nat
  len : Nat
deriving DecidableEq

/-- `factor_shape`: one factor for each group. Dividing by zero is a panic. -/
def factorShape (g : Group) (shape : List Nat) : Result (List Nat) :=
  let bad (why : Message) : Result (List Nat) := Result.reject .type (.str g.display.bytes :: why)
  match g with
  | .n n =>
    match shape.reverse with
    | [] => bad [.lit " needs rank ≥ 1"]
    | last :: lead =>
      if n = 0 then Result.panic
      else if last % n ≠ 0 then bad [.lit " does not divide the last axis (", .num last, .lit ")"]
      else .ok (lead.reverse ++ [last / n])
  | .tile r c =>
    match shape.reverse with
    | cols :: rows :: lead =>
      let uneven : Result (List Nat) :=
        bad [.lit " does not divide the last two axes (", .num rows, .lit "×", .num cols, .lit ")"]
      if r = 0 then Result.panic
      else if rows % r ≠ 0 then uneven
      else if c = 0 then Result.panic
      else if cols % c ≠ 0 then uneven
      else .ok (lead.reverse ++ [rows / r, cols / c])
    | _ => bad [.lit " needs rank ≥ 2"]
  | .row =>
    match shape.reverse with
    | [] => Result.reject .type [.lit "gr needs rank ≥ 1"]
    | _ :: lead => .ok lead.reverse
  | .tensor => .ok []

/-- The name of a part of a type, after the path that leads to it. -/
def planePath (path : Str) (leaf : String) : Str :=
  if path = .empty then .lit leaf else Str.concat [path, .lit ".", .lit leaf]

mutual

def walk : Term → List Nat → Str → Result (List Plane)
  | .leaf leaf, shape, path => .ok [⟨if path = .empty then .lit "data" else path, leaf, shape, 0, 0⟩]
  | .group g code gain offset, shape, path => do
    let factor ← factorShape g shape
    let gains ← walk gain factor (planePath path "gain")
    let offsets ← walkOffset offset factor (planePath path "offset")
    .ok (⟨planePath path "code", code, shape, 0, 0⟩ :: (gains ++ offsets))

def walkOffset : Offset → List Nat → Str → Result (List Plane)
  | .none, _, _ => .ok []
  | .post t, factor, path => walk t factor path
  | .pre t, factor, path => walk t factor path

end

/-- The product of a shape, while it is a `u64`. -/
def product : List Nat → Option Nat := List.foldlM checkedMul 1

/-- The loop over the planes: each is placed where the one before it ends. -/
def placePlanes : Nat → List Plane → Result (List Plane)
  | _, [] => .ok []
  | cursor, plane :: rest => do
    let elements ← Result.okOr (.reject .shape [.lit "plane element count overflows u64"]) (product plane.shape)
    let len ← Result.okOr (.reject .shape [.lit "plane byte size overflows u64"]) (plane.leaf.size elements)
    let next ← Result.okOr (.reject .shape [.lit "blob size overflows u64"])
      ((checkedAdd cursor len).bind fun stop => alignUp stop PLANE_ALIGN)
    let rest ← placePlanes next rest
    .ok ({ plane with offset := cursor, len := len } :: rest)

namespace Term

def planes (t : Term) (shape : List Nat) : Result (List Plane) := do
  let out ← walk t shape .empty
  placePlanes 0 out

def canonicalSize (t : Term) (shape : List Nat) : Result Nat := do
  let planes ← t.planes shape
  match planes.getLast? with
  | some p => Result.plus p.offset p.len
  | none => .ok 0

end Term

end Pie.Ztensor
