import Pie.Lib.Decimal
import Pie.Grammar.Frontend

/-!
# Patterns for numbers

The regular expressions the JSON schema converter writes for integers and numbers
between bounds. A range is cut by the number of digits, and a range of numbers of one
length again at each digit where the bounds part.

Names follow `json_schema.rs`. A result is missing where an operation on 64-bit or
8-bit words would overflow, or an index is out of bounds.
-/

namespace Pie.Grammar.NumberRegex

open Lib.Decimal

/-- `str::len` -/
def len (text : String) : Nat := (utf8 text).length

theorem utf8_toString (n : Nat) : utf8 (toString n) = numeral n := encode_toString n

theorem len_toString (n : Nat) : len (toString n) = (digits n).length := by
  unfold len
  rw [utf8_toString, numeral, List.length_map]

/-- `10u64.pow(exponent)` -/
def pow10 (exponent : Nat) : Option Nat := if 10 ^ exponent < 2 ^ 64 then some (10 ^ exponent) else none

/-- `parts.join("|")` -/
def joinBars : List String → String
  | [] => ""
  | [part] => part
  | part :: parts => part ++ "|" ++ joinBars parts

theorem pow10_eq {exponent power : Nat} (h : pow10 exponent = some power) : power = 10 ^ exponent := by
  unfold pow10 at h
  split at h
  · exact (Option.some.inj h).symm
  · cases h

def digitRange (min max : Nat) : Option String :=
  if max < min then none
  else if max - min = 0 then some (toString min)
  else if max - min = 1 then some ("[" ++ toString min ++ toString max ++ "]")
  else some ("[" ++ toString min ++ "-" ++ toString max ++ "]")

/-- `build_digit_range`, on the digits from its position on. -/
def buildDigitRange (min max : List Nat) : Option String :=
  match min, max with
  | [], _ => some ""
  | _ :: _, [] => none
  | [first], last :: _ => digitRange first last
  | first :: second :: min, last :: max =>
    if first = last then (buildDigitRange (second :: min) max).map fun rest => toString first ++ rest
    else do
      let lower ← buildDigitRange (second :: min) (List.replicate (min.length + 1) 9)
      let middle ← (
        if first + 1 < last then (digitRange (first + 1) (last - 1)).map fun digits =>
          [digits ++ "[0-9]\x7b" ++ toString (min.length + 1) ++ "\x7d"]
        else some [])
      let upper ← buildDigitRange (List.replicate max.length 0) max
      some ("(?:" ++ joinBars ([toString first ++ lower] ++ middle ++ [toString last ++ upper]) ++ ")")
termination_by Max.max min.length max.length
decreasing_by
  all_goals simp only [List.length_cons, List.length_replicate]
  all_goals omega

/-- The digits of a number's text. -/
def textDigits (text : String) : List Nat := (utf8 text).map fun byte => byte.toNat - 0x30

def sameLengthRange (min max : String) : Option String := buildDigitRange (textDigits min) (textDigits max)

/-- Numbers of `digits` digits for each length between. -/
def lengthsBetween (first last : Nat) : List String :=
  (List.range' first (last - first)).map fun digits => "[1-9][0-9]\x7b" ++ toString (digits - 1) ++ "\x7d"

/-- One of the parts. -/
def oneOf (parts : List String) : String :=
  match parts with
  | [part] => part
  | parts => "(?:" ++ joinBars parts ++ ")"

def positiveRangeRegex (min max : Nat) : Option String :=
  if min = max then some (toString min)
  else if h : len (toString min) = len (toString max) then sameLengthRange (toString min) (toString max)
  else
    match hfirst : pow10 (len (toString min)), hlast : pow10 (len (toString max) - 1) with
    | some power, some lastFloor => do
      let firstCeiling := power - 1
      let first ← (if min ≤ firstCeiling then (positiveRangeRegex min firstCeiling).map ([·]) else some [])
      let last ← (if lastFloor ≤ max then (positiveRangeRegex lastFloor max).map ([·]) else some [])
      some (oneOf (first ++ lengthsBetween (len (toString min) + 1) (len (toString max)) ++ last))
    | _, _ => none
termination_by if len (toString min) = len (toString max) then 0 else 1
decreasing_by
  · have hceiling : len (toString (power - 1)) = len (toString min) := by
      rw [pow10_eq hfirst, len_toString, len_toString, length_digits_nines (length_digits_pos min)]
    rw [if_neg h, if_pos hceiling.symm]
    exact Nat.one_pos
  · have hfloor : len (toString lastFloor) = len (toString max) := by
      rw [pow10_eq hlast, len_toString, len_toString, length_digits_pow]
      exact Nat.sub_add_cancel (length_digits_pos max)
    rw [if_neg h, if_pos hfloor]
    exact Nat.one_pos

def positiveRangeRegexUnbounded (min : Nat) : Option String :=
  match min with
  | 0 => some "(?:0|[1-9][0-9]*)"
  | 1 => some "[1-9][0-9]*"
  | min => do
    let text := toString min
    let power ← pow10 (len text)
    let range ← positiveRangeRegex min (power - 1)
    some ("(?:" ++ range ++ "|[1-9][0-9]\x7b" ++ toString (len text) ++ ",\x7d)")

/-- `generate_integer_range_regex`; a bound is an `i64`. -/
def generateIntegerRangeRegex (min max : Option Int) : Option String :=
  match min, max with
  | none, none => some "-?(?:0|[1-9][0-9]*)"
  | some min, some max =>
    if min = max then some (toString min)
    else if 0 ≤ min then positiveRangeRegex min.toNat max.toNat
    else if max < 0 then (positiveRangeRegex max.natAbs min.natAbs).map fun range => "-" ++ range
    else do
      let negative ← positiveRangeRegex 1 min.natAbs
      let positive ← positiveRangeRegex 0 max.toNat
      some ("(?:-" ++ negative ++ "|" ++ positive ++ ")")
  | some min, none =>
    if 0 ≤ min then positiveRangeRegexUnbounded min.toNat
    else (positiveRangeRegex 1 min.natAbs).map fun negative => "(?:-" ++ negative ++ "|(?:0|[1-9][0-9]*))"
  | none, some max =>
    if max < 0 then (positiveRangeRegexUnbounded max.natAbs).map fun range => "-(?:" ++ range ++ ")"
    else (positiveRangeRegex 0 max.toNat).map fun range => "(?:-[1-9][0-9]*|" ++ range ++ ")"

def decimalMagnitudeRegex (min : Nat) (max : Option Nat) : Option String :=
  match max with
  | none => (positiveRangeRegexUnbounded min).map fun range => "(?:" ++ range ++ ")(?:\\.[0-9]+)?"
  | some max =>
    if min = max then some (toString max ++ "(?:\\.0+)?")
    else if max = 0 then none
    else (positiveRangeRegex min (max - 1)).map fun range =>
      "(?:(?:" ++ range ++ ")(?:\\.[0-9]+)?|" ++ toString max ++ "(?:\\.0+)?)"

/-- `generate_bounded_number_regex`; a bound is an `i64`. -/
def generateBoundedNumberRegex (min max : Option Int) : Option String := do
  let negative ← (
    if min.all (· ≤ 0) then
      let magnitudeMin := match max with
        | some value => if value < 0 then value.natAbs else 0
        | none => 0
      let magnitudeMax := min.map Int.natAbs
      if magnitudeMax.all (magnitudeMin ≤ ·) then
        (decimalMagnitudeRegex magnitudeMin magnitudeMax).map fun range => ["-(?:" ++ range ++ ")"]
      else some []
    else some [])
  let nonnegative ← (
    if max.all (0 ≤ ·) then
      let nonnegativeMin := (Max.max (min.getD 0) 0).toNat
      let nonnegativeMax := (max.filter (0 ≤ ·)).map Int.toNat
      if nonnegativeMax.all (nonnegativeMin ≤ ·) then
        (decimalMagnitudeRegex nonnegativeMin nonnegativeMax).map fun range => [range]
      else some []
    else some [])
  some (oneOf (negative ++ nonnegative))

end Pie.Grammar.NumberRegex
