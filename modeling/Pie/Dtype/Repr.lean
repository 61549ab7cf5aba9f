import Pie.Lib.Decimal
import Pie.Lib.Text

/-!
# Weight formats and their names

A format is the element code of a weight, or a group of such codes with the
format of their gain and that of their offset. `display` writes its name, and
`spells` checks a text against a format, without parsing it.

Names follow `repr.rs`. A text is its bytes. A byte that is read where the text
has none is a panic, and gives nothing.
-/

namespace Pie.Dtype

open Lib Lib.Decimal

inductive Elem where
  | u (bits : UInt8)
  | i (bits : UInt8)
  | e (e m : UInt8)
  | f32
  | f16
  | bf16
  | bool
  | nf4
  | t3
  | cb (n : UInt16)
deriving DecidableEq, Repr

inductive Group where
  | n (n : UInt32)
  | tile (r c : UInt32)
  | row
  | tensor
deriving DecidableEq, Repr

mutual

inductive Fmt where
  | elem (e : Elem)
  | q (g : Group) (elem : Elem) (gain : Fmt) (offset : Off)

/-- `Option<Off>`. -/
inductive Off where
  | none
  | pre (t : Fmt)
  | post (t : Fmt)

end

/-! ## Names -/

def lit (s : String) : List UInt8 := (Str.lit s).bytes

def Elem.display : Elem → List UInt8
  | .u b => lit "u" ++ numeral b.toNat
  | .i b => lit "i" ++ numeral b.toNat
  | .e exp man => lit "e" ++ numeral exp.toNat ++ lit "m" ++ numeral man.toNat
  | .f32 => lit "f32"
  | .f16 => lit "f16"
  | .bf16 => lit "bf16"
  | .bool => lit "bool"
  | .nf4 => lit "nf4"
  | .t3 => lit "t3"
  | .cb id => lit "cb" ++ numeral id.toNat

def Group.display : Group → List UInt8
  | .n size => lit "g" ++ numeral size.toNat
  | .tile r c => lit "g" ++ numeral r.toNat ++ lit "x" ++ numeral c.toNat
  | .row => lit "gr"
  | .tensor => lit "gt"

mutual

def Fmt.display : Fmt → List UInt8
  | .elem code => code.display
  | .q g code gain offset =>
    g.display ++ lit "_" ++ code.display ++ lit "_" ++ gain.display ++ lit "_" ++ offset.display

def Off.display : Off → List UInt8
  | .none => lit "n"
  | .pre t => lit "z_" ++ t.display
  | .post t => lit "b_" ++ t.display

end

def CAPACITY : Nat := 160

/-- `mangle`: a name that does not fit the buffer is a panic. -/
def Fmt.mangle (f : Fmt) : Option (List UInt8) := if f.display.length ≤ CAPACITY then some f.display else none

/-! ## Walking a text -/

/-- The end of the token at `i`. -/
def tokEnd (b : List UInt8) (i : Nat) : Nat := i + (b.drop i).findIdx (· == 0x5F)

/-- `None`, or a panic of the program: the inner option is the function's own. -/
abbrev Walk := OptionT Option

/-- `b[i]`. -/
def byte (b : List UInt8) (i : Nat) : Option UInt8 := b[i]?

def sep (b : List UInt8) (i : Nat) : Walk Nat := OptionT.mk <|
  if i < b.length then do
    let c ← byte b i
    some (if c = 0x5F then some (i + 1) else none)
  else some none

/-- The loop of `is`. -/
def isFrom (b : List UInt8) (i : Nat) : List UInt8 → Option Bool
  | [] => some true
  | c :: rest => do
    let c' ← byte b i
    if c' ≠ c then some false else isFrom b (i + 1) rest

def is (b : List UInt8) (i j : Nat) (text : List UInt8) : Option Bool :=
  if j < i ∨ j - i ≠ text.length then some false else isFrom b i text

/-- The loop of `digits`. No `v` overflows: it is checked against the largest `u32` after each digit. -/
def digitsFrom (b : List UInt8) : Nat → Nat → Nat → Option (Option Nat)
  | 0, _, v => some (some v)
  | count + 1, k, v => do
    let c ← byte b k
    if c < 0x30 ∨ 0x39 < c then some none
    else
      let v := v * 10 + (c.toNat - 0x30)
      if 2 ^ 32 - 1 < v then some none else digitsFrom b count (k + 1) v

def digits (b : List UInt8) (i j : Nat) : Option (Option Nat) :=
  if j ≤ i then some none else digitsFrom b (j - i) i 0

/-- A token of one byte and a number. -/
def numbered (tag : UInt8) (n : Nat) (b : List UInt8) (i j : Nat) : Option Bool :=
  if i < j then do
    let c ← byte b i
    if c ≠ tag then some false
    else do
      let d ← digits b (i + 1) j
      some (d == some n)
  else some false

/-- The loop `while k < j && b[k] != mark`. -/
def seek (mark : UInt8) (b : List UInt8) : Nat → Nat → Option Nat
  | 0, k => some k
  | count + 1, k => do
    let c ← byte b k
    if c = mark then some k else seek mark b count (k + 1)

/-- A token of one byte and two numbers with `mark` between them. -/
def paired (tag mark : UInt8) (m n : Nat) (b : List UInt8) (i j : Nat) : Option Bool :=
  if i < j then do
    let c ← byte b i
    if c ≠ tag then some false
    else do
      let k ← seek mark b (j - (i + 1)) (i + 1)
      if k < j then do
        let d ← digits b (i + 1) k
        if d ≠ some m then some false
        else do
          let d ← digits b (k + 1) j
          some (d == some n)
      else some false
  else some false

/-- The token of a codebook: two bytes and a number. -/
def codebook (n : Nat) (b : List UInt8) (i j : Nat) : Option Bool :=
  if 2 < j - i then do
    let c ← byte b i
    if c ≠ 0x63 then some false
    else do
      let c ← byte b (i + 1)
      if c ≠ 0x62 then some false
      else do
        let d ← digits b (i + 2) j
        some (d == some n)
  else some false

def elemAt (e : Elem) (b : List UInt8) (i : Nat) : Walk Nat := OptionT.mk do
  let j := tokEnd b i
  let ok ← match e with
    | .f32 => is b i j (lit "f32")
    | .f16 => is b i j (lit "f16")
    | .bf16 => is b i j (lit "bf16")
    | .bool => is b i j (lit "bool")
    | .nf4 => is b i j (lit "nf4")
    | .t3 => is b i j (lit "t3")
    | .u w => numbered 0x75 w.toNat b i j
    | .i w => numbered 0x69 w.toNat b i j
    | .e e m => paired 0x65 0x6D e.toNat m.toNat b i j
    | .cb n => codebook n.toNat b i j
  some (if ok then some j else none)

def groupAt (g : Group) (b : List UInt8) (i : Nat) : Walk Nat := OptionT.mk do
  let j := tokEnd b i
  let ok ← match g with
    | .row => is b i j (lit "gr")
    | .tensor => is b i j (lit "gt")
    | .n n => numbered 0x67 n.toNat b i j
    | .tile r c => paired 0x67 0x78 r.toNat c.toNat b i j
  some (if ok then some j else none)

/-- The token `text`, read at `i`. -/
def token (text b : List UInt8) (i : Nat) : Walk Nat := OptionT.mk do
  let j := tokEnd b i
  let ok ← is b i j text
  some (if ok then some j else none)

mutual

def walk : Fmt → List UInt8 → Nat → Walk Nat
  | .elem e, b, i => elemAt e b i
  | .q g elem gain offset, b, i => do
    let i ← sep b (← groupAt g b i)
    let i ← sep b (← elemAt elem b i)
    let i ← sep b (← walk gain b i)
    walkOff offset b i

/-- The end of `walk`. -/
def walkOff : Off → List UInt8 → Nat → Walk Nat
  | .none, b, i => token (lit "n") b i
  | .pre t, b, i => do walk t b (← sep b (← token (lit "z") b i))
  | .post t, b, i => do walk t b (← sep b (← token (lit "b") b i))

end

def spells (f : Fmt) (b : List UInt8) : Option Bool := do
  let stop ← (walk f b 0).run
  some (stop == some b.length)

end Pie.Dtype
