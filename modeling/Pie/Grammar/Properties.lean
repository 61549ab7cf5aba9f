import Mathlib.Data.Finmap
import Std.Data.String.ToNat
import Pie.Grammar.Frontend

/-!
# The properties of an object

What the JSON schema converter makes of the properties of an object: the pairs in
the order they are declared, some of which may be left out, and then further pairs.
Few optional properties are enumerated, a subset to an alternative; with many of
them each property becomes a rule that refers to the rules after it.

Names follow `json_schema/typed.rs`. Arithmetic is that of a build without overflow
checks: it wraps at 32 bits, and a shift takes its distance modulo 64.
-/

namespace Pie.Grammar

open FrontendExpr

structure Property where
  pair : FrontendExpr
  required : Bool

def separatedItems (item : FrontendExpr) (min : Nat) (max : Option Nat) (ws : FrontendExpr) : FrontendExpr :=
  if max = some 0 then .empty
  else
    let rest := FrontendExpr.repeat (seq [lit ",", ws, item]) (min - 1) (max.map (· - 1))
    let sequence := seq [item, rest]
    if min = 0 then optional sequence else sequence

/-- The additional pairs after `emitted` pairs, if there can be enough and not too many. -/
def additionalTail (emitted min : Nat) (max : Option Nat) (additional : Option FrontendExpr) (ws : FrontendExpr) :
    Option FrontendExpr :=
  if max.any (· < emitted) then none
  else
    let needed := min - emitted
    let allowed := max.map (· - emitted)
    match additional with
    | none => if needed = 0 then some .empty else none
    | some additional =>
      if allowed = some 0 then if needed = 0 then some .empty else none
      else if 0 < emitted then some (.repeat (seq [lit ",", ws, additional]) needed allowed)
      else some (separatedItems additional needed allowed ws)

def interspersePairs (pairs : List FrontendExpr) (ws : FrontendExpr) : List FrontendExpr :=
  pairs.zipIdx.flatMap fun (pair, index) => if 0 < index then [lit ",", ws, pair] else [pair]

/-- `1usize << bits` -/
def oneShl (bits : Nat) : Nat := 1 <<< (bits % 64)

def asU32 (n : Nat) : Nat := n % 2 ^ 32

def unsatisfiable : String := "object property constraints are unsatisfiable"

/-- The indices of the properties that may be left out. -/
def optionalIndices (properties : List Property) : List Nat :=
  properties.zipIdx.filterMap fun (property, index) => if property.required then none else some index

/-- The pairs of the required properties and of the optional ones whose bits are set. -/
def selectPairs (properties : List Property) (selected : Nat) : List FrontendExpr :=
  properties.zipIdx.filterMap fun (property, index) =>
    if property.required
        || ((optionalIndices properties).findIdx? (· == index)).any (fun bit => selected &&& oneShl bit != 0)
    then some property.pair else none

/-- An element that is pushed unless it is empty. -/
def unlessEmpty : FrontendExpr → List FrontendExpr
  | .empty => []
  | tail => [tail]

def enumerateProperties (properties : List Property) (min : Nat) (max : Option Nat) (additional : Option FrontendExpr)
    (ws : FrontendExpr) : Except String FrontendExpr :=
  let alternatives := (List.range (oneShl (optionalIndices properties).length)).filterMap fun selected =>
    let pairs := selectPairs properties selected
    (additionalTail (asU32 pairs.length) min max additional ws).map fun tail =>
      seq (interspersePairs pairs ws ++ unlessEmpty tail)
  if alternatives.isEmpty then .error unsatisfiable else .ok (choose alternatives)

/-! ## One rule for each property -/

structure Converter where
  rules : List FrontendRule
  names : Finset String
  counter : Nat

def numbered (hint : String) (n : Nat) : String := hint ++ "_" ++ toString n

theorem numbered_injective {hint : String} {m n : Nat} (h : numbered hint m = numbered hint n) : m = n := by
  unfold numbered at h
  rw [String.append_right_inj] at h
  exact Nat.repr_injective h

open Classical in
/-- `fresh_name`'s loop: a round looks at a name that no round before it looked at. -/
def freshNameFrom (names : Finset String) (hint : String) (counter : Nat) : String × Nat :=
  let name := numbered hint (counter + 1)
  if h : name ∈ names then freshNameFrom names hint (counter + 1) else (name, counter + 1)
termination_by (names.filter fun name => ∃ n, counter < n ∧ name = numbered hint n).card
decreasing_by
  refine Finset.card_lt_card ⟨fun x hx => ?_, fun hsub => ?_⟩
  · obtain ⟨hx, n, hn, rfl⟩ := Finset.mem_filter.mp hx
    exact Finset.mem_filter.mpr ⟨hx, n, Nat.lt_of_succ_lt hn, rfl⟩
  · obtain ⟨-, n, hn, he⟩ := Finset.mem_filter.mp (hsub (Finset.mem_filter.mpr ⟨h, counter + 1, Nat.lt_succ_self _, rfl⟩))
    exact Nat.lt_irrefl _ (numbered_injective he ▸ hn)

namespace Converter

def freshName (converter : Converter) (hint : String) : String × Converter :=
  let (name, counter) := freshNameFrom converter.names hint converter.counter
  (name, { converter with counter })

def defineNamed (converter : Converter) (name : String) (body : FrontendExpr) : Except String Converter :=
  if name ∈ converter.names then .error ("duplicate generated rule '" ++ name ++ "'")
  else .ok { converter with names := insert name converter.names, rules := converter.rules ++ [⟨name, body⟩] }

/-- A rule for the alternatives, if there are any. -/
def defineState (converter : Converter) (hint : String) (alternatives : List FrontendExpr) :
    Except String (Option FrontendExpr × Converter) :=
  if alternatives.isEmpty then .ok (none, converter)
  else
    let (name, converter) := converter.freshName hint
    (converter.defineNamed name (choose alternatives)).map fun converter => (some (.ruleRef name), converter)

end Converter

/-- A pair, behind a comma if it is not the first. -/
def separatedPair (emitted : Nat) (ws pair : FrontendExpr) : FrontendExpr :=
  if emitted = 0 then pair else seq [lit ",", ws, pair]

/-- To leave the property out, or to begin with it. -/
def stateAlternatives (emitted : Nat) (ws : FrontendExpr) (property : Property) (skipped taken : Option FrontendExpr) :
    List FrontendExpr :=
  skipped.toList ++ (taken.map fun rest => seq [separatedPair emitted ws property.pair, rest]).toList

/-- What was built for an index and a number of emitted pairs. -/
abbrev Memo := Finmap fun _ : Nat × Nat => Option FrontendExpr

/-- The expression for the properties from `index` on, which are the ones given, after `emitted` pairs. -/
def buildPropertyState (hint : String) (min : Nat) (max : Option Nat) (additional : Option FrontendExpr)
    (ws : FrontendExpr) : List Property → Nat → Nat → Converter → Memo →
    Except String (Option FrontendExpr × Converter × Memo)
  | properties, index, emitted, converter, memo =>
    if max.any (· < emitted) then .ok (none, converter, memo)
    else
      match memo.lookup (index, emitted) with
      | some cached => .ok (cached, converter, memo)
      | none =>
        match properties with
        | [] =>
          let tail := additionalTail emitted min max additional ws
          .ok (tail, converter, memo.insert (index, emitted) tail)
        | property :: properties => do
          let (skipped, converter, memo) ← (
            if property.required then .ok (none, converter, memo)
            else buildPropertyState hint min max additional ws properties (index + 1) emitted converter memo)
          let (taken, converter, memo) ← (
            if max.all (emitted < ·) then
              buildPropertyState hint min max additional ws properties (index + 1)
                (if min = 0 && max.isNone then 1 else asU32 (emitted + 1)) converter memo
            else .ok (none, converter, memo))
          let (result, converter) ← converter.defineState s!"{hint}_properties_{index}_{emitted}"
            (stateAlternatives emitted ws property skipped taken)
          .ok (result, converter, memo.insert (index, emitted) result)

end Pie.Grammar
