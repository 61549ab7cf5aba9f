import Pie.Lib.Paths

/-!
# Automata over bytes

A graph of states and edges, and what a character class adds to it. The
characters of a class are cut by the length of their encoding, and a range of
encodings of one length is cut again at each byte where the first, the last and
the bytes between them go on differently.

Names follow `fsm.rs`. A graph has fewer states than a 32-bit word counts.
-/

namespace Pie.Grammar

open Lib.Paths

abbrev StateId := Nat
abbrev RuleId := Nat

inductive FsmEdge where
  | charRange (min max : UInt8) (target : StateId)
  | epsilon (target : StateId)
  | ruleRef (rule : RuleId) (target : StateId)
deriving DecidableEq, Repr

structure NfaGraph where
  edges : List (List FsmEdge)
deriving DecidableEq, Repr

namespace NfaGraph

def new : NfaGraph := ⟨[]⟩

def numStates (fsm : NfaGraph) : Nat := fsm.edges.length

def addState (fsm : NfaGraph) : NfaGraph × StateId := (⟨fsm.edges ++ [[]]⟩, fsm.edges.length)

def addEdge (fsm : NfaGraph) (state : StateId) (edge : FsmEdge) : NfaGraph := ⟨fsm.edges.modify state (· ++ [edge])⟩

def addCharEdge (fsm : NfaGraph) (state : StateId) (min max : UInt8) (target : StateId) : NfaGraph :=
  fsm.addEdge state (.charRange min max target)

def addEpsilon (fsm : NfaGraph) (state target : StateId) : NfaGraph := fsm.addEdge state (.epsilon target)

/-- One edge reads a byte of its range, or nothing. -/
inductive Edge (fsm : NfaGraph) : Nat → List UInt8 → Nat → Prop
  | char {state target : Nat} {edges : List FsmEdge} {min max b : UInt8} (hs : fsm.edges[state]? = some edges)
      (he : .charRange min max target ∈ edges) (hb : min ≤ b ∧ b ≤ max) : Edge fsm state [b] target
  | epsilon {state target : Nat} {edges : List FsmEdge} (hs : fsm.edges[state]? = some edges)
      (he : .epsilon target ∈ edges) : Edge fsm state [] target

/-- The words from one state to another. -/
def language (fsm : NfaGraph) (start stop : StateId) : Language UInt8 := {word | Path fsm.Edge start word stop}

end NfaGraph

/-! ## Character classes -/

/-- A range joins the one before it that it meets. -/
def mergeRange (merged : List (Nat × Nat)) (range : Nat × Nat) : List (Nat × Nat) :=
  match merged.getLast? with
  | some last =>
    if range.1 ≤ last.2 + 1 then merged.dropLast ++ [(last.1, max last.2 range.2)] else merged ++ [range]
  | none => merged ++ [range]

def mergeRanges (ranges : List (Nat × Nat)) : List (Nat × Nat) :=
  (ranges.insertionSort fun a b => a.1 ≤ b.1).foldl mergeRange []

/-- What lies between the ranges, from `prevEnd` on. -/
def gaps : List (Nat × Nat) → Nat → List (Nat × Nat)
  | [], prevEnd => if prevEnd ≤ 0x10FFFF then [(prevEnd, 0x10FFFF)] else []
  | (lo, hi) :: rest, prevEnd =>
    (if prevEnd < lo then [(prevEnd, lo - 1)] else []) ++ gaps rest (min (hi + 1) (2 ^ 32 - 1))

/-- The part of a range outside the surrogates. -/
def dropSurrogates (range : Nat × Nat) : List (Nat × Nat) :=
  if range.2 < 0xD800 ∨ 0xDFFF < range.1 then [range]
  else
    (if range.1 < 0xD800 then [(range.1, 0xD7FF)] else [])
      ++ if 0xDFFF < range.2 then [(0xE000, range.2)] else []

def complementCodepointRanges (ranges : List (Nat × Nat)) : List (Nat × Nat) :=
  (gaps (mergeRanges ranges) 0).flatMap dropSurrogates

/-- `char::from_u32`. -/
def fromU32 (cp : Nat) : Option Char := if h : cp.isValidChar then some (Char.ofNatAux cp h) else none

def encodeCodepointUtf8 (cp : Nat) : Option (List UInt8) := (fromU32 cp).map String.utf8EncodeChar

/-- `lo` and `hi` are what is left of the two encodings, and `left` the bytes after their first. -/
def addUtf8ByteRange : Nat → NfaGraph → List UInt8 → List UInt8 → StateId → StateId → Option NfaGraph
  | 0, fsm, lo :: _, hi :: _, start, stop => some (fsm.addCharEdge start lo hi stop)
  | left + 1, fsm, lo :: los, hi :: his, start, stop =>
    if lo = hi then
      let (fsm, mid) := fsm.addState
      addUtf8ByteRange left (fsm.addCharEdge start lo hi mid) los his mid stop
    else do
      let (fsm, s) := fsm.addState
      let fsm ← addUtf8ByteRange left (fsm.addCharEdge start lo lo s) los (los.map fun _ => 0xBF) s stop
      let fsm ←
        (if lo.toNat < hi.toNat - 1 then
          let (fsm, s) := fsm.addState
          addUtf8ByteRange left (fsm.addCharEdge start (lo + 1) (hi - 1) s) (los.map fun _ => 0x80)
            (his.map fun _ => 0xBF) s stop
        else some fsm)
      let (fsm, s) := fsm.addState
      addUtf8ByteRange left (fsm.addCharEdge start hi hi s) (his.map fun _ => 0x80) his s stop
  | _, _, _, _, _, _ => none

def addUtf8NfaRange (fsm : NfaGraph) (lo hi : Nat) (start stop : StateId) : Option NfaGraph := do
  let loBytes ← encodeCodepointUtf8 lo
  let hiBytes ← encodeCodepointUtf8 hi
  addUtf8ByteRange (loBytes.length - 1) fsm loBytes hiBytes start stop

/-- The encodings of one length. -/
def addUtf8Class (fsm : NfaGraph) (lo hi : Nat) (start stop : StateId) : Option NfaGraph :=
  if lo ≤ hi then addUtf8NfaRange fsm lo hi start stop else some fsm

def addCodepointRangeNfa (fsm : NfaGraph) (range : Nat × Nat) (start stop : StateId) : Option NfaGraph := do
  let (lo, hi) := range
  let fsm := if lo ≤ min hi 0x7F then fsm.addCharEdge start (.ofNat lo) (.ofNat (min hi 0x7F)) stop else fsm
  let fsm ← addUtf8Class fsm (max lo 0x80) (min hi 0x7FF) start stop
  let fsm ← addUtf8Class fsm (max lo 0x800) (min hi 0xD7FF) start stop
  let fsm ← addUtf8Class fsm (max lo 0xE000) (min hi 0xFFFF) start stop
  addUtf8Class fsm (max lo 0x10000) (min hi 0x10FFFF) start stop

def buildCharClassNfa (fsm : NfaGraph) (negated : Bool) (ranges : List (Nat × Nat)) (start stop : StateId) :
    Option NfaGraph :=
  (if negated then complementCodepointRanges ranges else ranges).foldlM
    (fun fsm range => addCodepointRangeNfa fsm range start stop) fsm

/-- The automaton of a rule that is a class, and its two states. -/
def charClassAutomaton (negated : Bool) (ranges : List (Nat × Nat)) : Option (NfaGraph × StateId × StateId) := do
  let (fsm, start) := NfaGraph.new.addState
  let (fsm, stop) := fsm.addState
  let fsm ← buildCharClassNfa fsm negated ranges start stop
  pure (fsm, start, stop)

end Pie.Grammar
