import Pie.Ztensor.Session

/-!
# What a run is given

The objects that a client hands over, each with its bytes as one piece, whether
they came in hand, as planes, or in chunks.
-/

namespace Pie.Ztensor

open Lib Lib.Words
open Cbor (Value)

structure Given where
  name : Str
  shape : List Nat
  term : Option Term
  layout : Option Str
  attributes : Option Value
  content : List UInt8

/-- The object, placed. -/
def Given.object (g : Given) (blob : Blob) : Object := ⟨g.shape, g.term, g.layout, g.attributes, blob⟩

/-- Planes as one piece: zeros before each, up to where planes begin. -/
def planesContent : Nat → List (List UInt8) → List UInt8
  | _, [] => []
  | cursor, plane :: rest =>
    Out.zeros (roundUp cursor PLANE_ALIGN - cursor) ++ plane
      ++ planesContent (roundUp cursor PLANE_ALIGN + plane.length) rest

def Payload.content : Payload → List UInt8
  | bytes data => data
  | planes pieces => planesContent 0 pieces
  | _ => []

/-- The pairs of attributes given one by one, or wholesale. -/
def ObjectBuilder.givenPairs (b : ObjectBuilder) : List (Value × Value) :=
  match b.attributes with
  | some (.map pairs) => pairs
  | _ => b.pairs

def ObjectBuilder.given (name : Str) (b : ObjectBuilder) (content : List UInt8) : Given where
  name := name
  shape := b.shape
  term := b.term
  layout := b.layout
  attributes := if b.givenPairs = [] then none else some (.map b.givenPairs)
  content := content

/-- An object that is open: what it was declared as, and the bytes that came. -/
abbrev Opened := Option (Str × ObjectBuilder × List UInt8)

/-- What is open after a call. -/
def openedAfter : Opened → Call → Opened
  | _, .stream name b => some (name, b, [])
  | some (name, b, received), .write chunk => some (name, b, received ++ chunk)
  | _, .close => none
  | opened, _ => opened

/-- The object that is complete with a call. -/
def completed : Opened → Call → List Given
  | _, .object name b => [b.given name b.payload.content]
  | some (name, b, received), .close => [b.given name received]
  | _, _ => []

/-- The objects of some calls, in the order in which they are complete. -/
def givens : Opened → List Call → List Given
  | _, [] => []
  | opened, call :: calls => completed opened call ++ givens (openedAfter opened call) calls

/-- The attributes that were set last. -/
def attributesAfter : Option Value → List Call → Option Value
  | attributes, [] => attributes
  | _, .setAttributes attributes :: calls => attributesAfter (some attributes) calls
  | attributes, _ :: calls => attributesAfter attributes calls

end Pie.Ztensor
