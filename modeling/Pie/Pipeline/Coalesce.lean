import Mathlib
import Pie.Lib.Systems

/-!
# Coalesced prefills

Passes that claim the pages they are about to compute, and wait for the pages
that others have claimed. Names follow `coalesce.rs`; `by` and `until` of a claim
are words of Lean, and are `claimant` and `lapsesAt` here. An instant is a number
of nanoseconds. Passes run in turns: a turn is one section under a lock, or one
look at the clock. Between two turns pages are sealed or dropped and time passes.
-/

namespace Pie.Coalesce

def POLL : Nat := 5000000

def LEAST : Nat := 1000000000

def MOST : Nat := 10000000000

def TOKENS_PER_SECOND : Nat := 2000

def fromMillis (ms : Nat) : Nat := ms * 1000000

/-- When a claim on so many pages lapses. The tokens are counted in 64 bits. -/
def deadline (pages pageSize now : Nat) : Nat :=
  let tokens := pages * pageSize % 2 ^ 64
  now + min (LEAST + fromMillis (tokens * 1000 % 2 ^ 64 / TOKENS_PER_SECOND)) MOST

structure Claim (Ws : Type) where
  claimant : Ws
  lapsesAt : Nat
deriving DecidableEq, Repr

section

variable {Key Ws : Type} [DecidableEq Key] [DecidableEq Ws]

abbrev Claims (Key Ws : Type) := Key → Option (Claim Ws)

/-- `claims.retain`: those that lapse after `now`. -/
def sweep (claims : Claims Key Ws) (now : Nat) : Claims Key Ws :=
  fun k => (claims k).filter fun claim => decide (now < claim.lapsesAt)

/-- The claims of others on the keys, from the first on as long as there is one that has not lapsed. -/
def foundRun (claims : Claims Key Ws) (ws : Ws) (now : Nat) : List Key → List (Claim Ws)
  | [] => []
  | key :: mine =>
    match claims key with
    | some claim =>
      if claim.claimant ≠ ws ∧ now < claim.lapsesAt then claim :: foundRun claims ws now mine else []
    | none => []

/-- How many there are, and when the last of them lapses. -/
def claimedRun (claims : Claims Key Ws) (mine : List Key) (ws : Ws) (now : Nat) : Nat × Option Nat :=
  let run := foundRun claims ws now mine
  (run.length, (run.map Claim.lapsesAt).max?)

/-- `claims.entry(key).or_insert(claim)` -/
def orInsert (claims : Claims Key Ws) (key : Key) (claim : Claim Ws) : Claims Key Ws :=
  fun k => if k = key then some ((claims key).getD claim) else claims k

/-- What a pass waits for. The claims that it found, and when it looked, are kept to speak of them. -/
structure Wait (Ws : Type) where
  want : Nat
  lapsesAt : Nat
  found : List (Claim Ws)
  looked : Nat

/-- Where a pass stands, with the number of pages that it counted as cached. -/
inductive Stage (Ws : Type)
  | counting
  | counted (had : Nat)
  | looking (had now : Nat)
  | waiting (w : Wait Ws)
  | polling (w : Wait Ws)
  | sleeping (w : Wait Ws) (since : Nat)
  | recounting
  | claiming (had : Nat)
  | inserting (had now : Nat)
  | returned

/-- A pass over the pages of `keys`, of which it holds the first. -/
structure Pass (Key Ws : Type) where
  ws : Ws
  keys : List Key
  heldPages : Nat
  pageSize : Nat
  stage : Stage Ws

/-- `run` answers how many of some keys, from the first, the store has cached in any tier. -/
structure State (Key Ws : Type) where
  clock : Nat
  run : List Key → Nat
  claims : Claims Key Ws
  passes : Nat → Option (Pass Key Ws)

/-- `cached` -/
def cached (run : List Key → Nat) (keys : List Key) (heldPages : Nat) : Nat := max (run keys) heldPages

namespace Pass

variable (p : Pass Key Ws)

/-- What the pass does once it has counted for the last time. -/
def settle (had : Nat) : Stage Ws := if had < p.keys.length then .claiming had else .returned

/-- The keys from a page on. -/
def rest (had : Nat) : List Key := p.keys.drop had

end Pass

namespace State

variable (s : State Key Ws)

def put (i : Nat) (p : Pass Key Ws) : State Key Ws := { s with passes := fun j => if j = i then some p else s.passes j }

/-- One turn of pass `i`. -/
def turn (i : Nat) (p : Pass Key Ws) : Option (State Key Ws) :=
  match p.stage with
  | .counting =>
    let had := cached s.run p.keys p.heldPages
    some (s.put i { p with stage := if p.keys.length ≤ had then .returned else .counted had })
  | .counted had => some (s.put i { p with stage := .looking had s.clock })
  | .looking had now =>
    let claims := sweep s.claims now
    let (run, lapsesAt) := claimedRun claims (p.rest had) p.ws now
    let stage :=
      match lapsesAt with
      | some lapsesAt => .waiting ⟨had + run, lapsesAt, foundRun claims p.ws now (p.rest had), now⟩
      | none => p.settle had
    some ({ s with claims }.put i { p with stage })
  | .waiting w => some (s.put i { p with stage := if s.clock < w.lapsesAt then .polling w else .recounting })
  | .polling w =>
    some (s.put i { p with
      stage := if w.want ≤ cached s.run (p.keys.take w.want) p.heldPages then .recounting else .sleeping w s.clock })
  | .sleeping w since => if s.clock < since + POLL then none else some (s.put i { p with stage := .waiting w })
  | .recounting => some (s.put i { p with stage := p.settle (cached s.run p.keys p.heldPages) })
  | .claiming had => some (s.put i { p with stage := .inserting had s.clock })
  | .inserting had now =>
    let claim := ⟨p.ws, deadline (p.keys.length - had) p.pageSize now⟩
    some ({ s with claims := (p.rest had).foldl (orInsert · · claim) s.claims }.put i { p with stage := .returned })
  | .returned => none

end State

inductive Event (Key Ws : Type)
  | tick (ns : Nat)
  /-- Pages are sealed, or dropped. -/
  | store (run : List Key → Nat)
  | beforePass (i : Nat) (ws : Ws) (keys : List Key) (heldPages pageSize : Nat)
  | turn (i : Nat)

def step (s : State Key Ws) : Event Key Ws → Option (State Key Ws)
  | .tick ns => some { s with clock := s.clock + ns }
  | .store run => some { s with run }
  | .beforePass i ws keys heldPages pageSize =>
    match s.passes i with
    | some _ => none
    | none => some (s.put i ⟨ws, keys, heldPages, pageSize, .counting⟩)
  | .turn i => (s.passes i).bind (s.turn i)

/-- No pass has begun and nothing is claimed. -/
def State.Initial (s : State Key Ws) : Prop := (∀ key, s.claims key = none) ∧ ∀ i, s.passes i = none

end

end Pie.Coalesce
