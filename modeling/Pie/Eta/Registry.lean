import Mathlib.Tactic

/-!
# Stages and ports

Where in a pass a program runs, and what of the pass it binds. Names follow
`registry.rs`.
-/

namespace Pie.Eta

inductive Stage where
  | prologue
  | onAttnProj
  | onAttn
  | epilogue
deriving DecidableEq, Repr

namespace Stage

def ALL : List Stage := [prologue, onAttnProj, onAttn, epilogue]

/-- `stage as u8`. -/
def toU8 : Stage → Nat
  | prologue => 0
  | onAttnProj => 1
  | onAttn => 2
  | epilogue => 3

def fromU8 : Nat → Option Stage
  | 0 => some prologue
  | 1 => some onAttnProj
  | 2 => some onAttn
  | 3 => some epilogue
  | _ => none

def perLayer : Stage → Bool
  | onAttnProj | onAttn => true
  | _ => false

@[simp] theorem fromU8_toU8 (s : Stage) : fromU8 s.toU8 = some s := by cases s <;> rfl

theorem toU8_lt (s : Stage) : s.toU8 < 256 := by cases s <;> decide

end Stage

inductive Port where
  | embedTokens
  | embedIndptr
  | positions
  | kvLen
  | readout
  | attnMask
  | slots
  | fold
deriving DecidableEq, Repr

namespace Port

/-- `port as u8`. -/
def toU8 : Port → Nat
  | embedTokens => 0
  | embedIndptr => 1
  | positions => 2
  | kvLen => 5
  | readout => 8
  | attnMask => 9
  | slots => 16
  | fold => 17

def fromU8 : Nat → Option Port
  | 0 => some embedTokens
  | 1 => some embedIndptr
  | 2 => some positions
  | 5 => some kvLen
  | 8 => some readout
  | 9 => some attnMask
  | 16 => some slots
  | 17 => some fold
  | _ => none

/-- A port that takes what it reads. -/
def consumes : Port → Bool
  | embedTokens | positions | slots => true
  | _ => false

@[simp] theorem fromU8_toU8 (p : Port) : fromU8 p.toU8 = some p := by cases p <;> rfl

theorem toU8_lt (p : Port) : p.toU8 < 256 := by cases p <;> decide

end Port

end Pie.Eta
