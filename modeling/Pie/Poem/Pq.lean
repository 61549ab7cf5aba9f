import Mathlib.Data.List.Sort

/-!
# PQ-trees

The orders of a set of leaves in which some sets of leaves stand side by side, as
a tree: the children of a P node stand in any order, those of a Q node in this
order or its reverse. Names follow `pq.rs`. A node is the tree below it, where
the code keeps its place in a vector; a mark that the code calls partial is a
`part` here.
-/

namespace Pie.Poem.Pq

abbrev Leaf := Nat

inductive Node where
  | leaf (l : Leaf)
  | p (kids : List Node)
  | q (kids : List Node)

/-- How much of a node a set holds: nothing, all of it, or all from this child on. -/
inductive Mark where
  | empty
  | full
  | part (split : Nat)
deriving DecidableEq, Repr

def Mark.isPart : Mark → Bool
  | .part _ => true
  | _ => false

/-! ## Reading a tree -/

mutual

/-- The leaves of the set below the node, counted. -/
def full (set : List Leaf) : Node → Nat
  | .leaf l => if l ∈ set then 1 else 0
  | .p kids => fullAll set kids
  | .q kids => fullAll set kids

def fullAll (set : List Leaf) : List Node → Nat
  | [] => 0
  | c :: kids => full set c + fullAll set kids

end

mutual

/-- `size`, and the `total` of `count`. -/
def size : Node → Nat
  | .leaf _ => 1
  | .p kids => sizeAll kids
  | .q kids => sizeAll kids

def sizeAll : List Node → Nat
  | [] => 0
  | c :: kids => size c + sizeAll kids

end

mutual

def owns (leaf : Leaf) : Node → Bool
  | .leaf l => decide (l = leaf)
  | .p kids => ownsAny leaf kids
  | .q kids => ownsAny leaf kids

def ownsAny (leaf : Leaf) : List Node → Bool
  | [] => false
  | c :: kids => owns leaf c || ownsAny leaf kids

end

mutual

def least : Node → Leaf
  | .leaf l => l
  | .p kids => (leastOf kids).getD 255
  | .q kids => (leastOf kids).getD 255

def leastOf : List Node → Option Leaf
  | [] => none
  | c :: kids =>
    match leastOf kids with
    | none => some (least c)
    | some l => some (min (least c) l)

end

/-! ## Scanning the marks of a Q node -/

/-- From a place on, past the marks with the property. -/
def skip (p : Mark → Bool) (marks : List Mark) (pos : Nat) : Nat := pos + ((marks.drop pos).takeWhile p).length

/-- There is a part at this place. -/
def partAt (marks : List Mark) (pos : Nat) : Bool := (marks[pos]?.map Mark.isPart).getD false

/-- `scan_side`: empties, at most one part, and fulls. -/
def scanSide (marks : List Mark) : Option (Nat × Option Nat) :=
  let head := skip (· == .empty) marks 0
  let found := partAt marks head
  let stop := skip (· == .full) marks (if found then head + 1 else head)
  if stop = marks.length then some (head, if found then some head else none) else none

structure RootScan where
  head : Nat
  first : Option Nat
  block : Nat × Nat
  second : Option Nat
deriving DecidableEq, Repr

/-- `scan_root`: empties, at most one part, fulls, at most one part, and empties. -/
def scanRoot (marks : List Mark) : Option RootScan :=
  let head := skip (· == .empty) marks 0
  let first := partAt marks head
  let start := if first then head + 1 else head
  let stop := skip (· == .full) marks start
  let second := partAt marks stop
  let last := skip (· == .empty) marks (if second then stop + 1 else stop)
  if last = marks.length then
    some ⟨head, if first then some head else none, (start, stop), if second then some stop else none⟩
  else none

/-! ## Reduction -/

def group : List Node → Node
  | [c] => c
  | block => .p block

def detach : Node → Option (List Node)
  | .q kids => some kids
  | _ => none

/-- A group of its own, when there is something to group. -/
def grouped (block : List Node) : List Node := if block.isEmpty then [] else [group block]

/-- The children with this mark. -/
def marked (mark : Mark) (kids : List (Node × Mark)) : List Node := (kids.filter (fun c => c.2 == mark)).map Prod.fst

/-- The children that are parts, each with its split. -/
def parts (kids : List (Node × Mark)) : List (Node × Nat) :=
  kids.filterMap (fun c =>
    match c.2 with
    | .part split => some (c.1, split)
    | _ => none)

/-- `reduce_p`; the mark of the node and what it becomes. -/
def reduceP (root : Bool) (kids : List (Node × Mark)) : Option (Mark × Node) :=
  let empty := marked .empty kids
  let filled := marked .full kids
  if (parts kids).isEmpty && filled.isEmpty then some (.empty, .p (kids.map Prod.fst))
  else if (parts kids).isEmpty && empty.isEmpty then some (.full, .p (kids.map Prod.fst))
  else if root then
    match parts kids with
    | [] => some (.full, .p (empty ++ [group filled]))
    | [(q, _)] =>
      if filled.isEmpty then some (.full, .p (empty ++ [q]))
      else
        match q with
        | .q inner => some (.full, .p (empty ++ [.q (inner ++ [group filled])]))
        | _ => none
    | [(one, _), (two, _)] => do
      let merged ← detach one
      let far ← detach two
      some (.full, .p (empty ++ [.q (merged ++ grouped filled ++ far.reverse)]))
    | _ => none
  else
    match parts kids with
    | [] => some (.part 1, .q [group empty, group filled])
    | [(q, split)] => do
      let inner ← detach q
      some (.part ((grouped empty).length + split), .q (grouped empty ++ inner ++ grouped filled))
    | _ => none

/-- The children of the child at a place. -/
def detachAt (kids : List (Node × Mark)) (pos : Nat) : Option (List Node) := kids[pos]?.bind (fun c => detach c.1)

/-- The first part laid open. -/
def openFirst (kids : List (Node × Mark)) : Option Nat → Option (List Node)
  | some pos => detachAt kids pos
  | none => some []

/-- What follows the fulls, from the second part turned round or from where the fulls stop. -/
def openTail (kids : List (Node × Mark)) (stop : Nat) : Option Nat → Option (List Node)
  | some pos => (detachAt kids pos).map (fun far => far.reverse ++ (kids.map Prod.fst).drop (pos + 1))
  | none => some ((kids.map Prod.fst).drop stop)

/-- What a Q node becomes at the root of the set. -/
def spliceRoot (kids : List (Node × Mark)) (scan : RootScan) : Option (List Node) := do
  let nodes := kids.map Prod.fst
  let first ← openFirst kids scan.first
  let tail ← openTail kids scan.block.2 scan.second
  some (nodes.take scan.head ++ first ++ (nodes.drop scan.block.1).take (scan.block.2 - scan.block.1) ++ tail)

/-- What a Q node becomes below the root of the set, read from the side of the empties. -/
def spliceSide (kids : List (Node × Mark)) (scan : Nat × Option Nat) : Option (Mark × Node) :=
  let nodes := kids.map Prod.fst
  match scan.2 with
  | some pos =>
    match kids[pos]? with
    | some (_, .part inner) => do
      let out ← detachAt kids pos
      some (.part (scan.1 + inner), .q (nodes.take scan.1 ++ out ++ nodes.drop (pos + 1)))
    | _ => none
  | none => some (.part scan.1, .q (nodes.take scan.1 ++ nodes.drop scan.1))

/-- `reduce_q`. -/
def reduceQ (root : Bool) (kids : List (Node × Mark)) : Option (Mark × Node) :=
  let marks := kids.map Prod.snd
  if marks.all (· == .empty) then some (.empty, .q (kids.map Prod.fst))
  else if marks.all (· == .full) then some (.full, .q (kids.map Prod.fst))
  else if root then do
    let scan ← scanRoot marks
    let out ← spliceRoot kids scan
    some (.full, .q out)
  else
    match scanSide marks with
    | some scan => spliceSide kids scan
    | none => (scanSide marks.reverse).bind (spliceSide kids.reverse)

mutual

/-- `reduce_at`. -/
def reduceAt (set : List Leaf) (root : Bool) : Node → Option (Mark × Node)
  | .leaf l => some (if full set (.leaf l) = 1 then .full else .empty, .leaf l)
  | .p kids => (marks set kids).bind (reduceP root)
  | .q kids => (marks set kids).bind (reduceQ root)

/-- The children with their marks, those that are parts reduced. -/
def marks (set : List Leaf) : List Node → Option (List (Node × Mark))
  | [] => some []
  | c :: kids =>
    (if full set c = 0 then some (c, Mark.empty)
      else if full set c = size c then some (c, Mark.full)
      else (reduceAt set false c).map (fun r => (r.2, r.1))).bind (fun here =>
        (marks set kids).map (here :: ·))

end

/-- One child alone holds leaves of the set, and all of them. -/
def onlyOne (set : List Leaf) (kids : List Node) : Bool :=
  match kids.filter (fun c => decide (0 < full set c)) with
  | [c] => decide (full set c = set.length)
  | _ => false

mutual

/-- The reduction at `pertinent_root`, the lowest node that holds the set. -/
def reducePertinent (set : List Leaf) : Node → Option Node
  | .leaf l => (reduceAt set true (.leaf l)).map Prod.snd
  | .p kids =>
    if onlyOne set kids then (reduceOnly set kids).map .p else (reduceAt set true (.p kids)).map Prod.snd
  | .q kids =>
    if onlyOne set kids then (reduceOnly set kids).map .q else (reduceAt set true (.q kids)).map Prod.snd

/-- The child that holds the set is reduced, the others stay. -/
def reduceOnly (set : List Leaf) : List Node → Option (List Node)
  | [] => some []
  | c :: kids =>
    if 0 < full set c then (reducePertinent set c).map (· :: kids) else (reduceOnly set kids).map (c :: ·)

end

/-! ## The canonical form -/

/-- A child in its canonical form: its least leaf, the node and its frontier. -/
structure Fresh where
  least : Leaf
  node : Node
  frontier : List Leaf

def byLeast (a b : Fresh) : Prop := a.least ≤ b.least

instance : DecidableRel byLeast := fun a b => inferInstanceAs (Decidable (a.least ≤ b.least))

/-- The fresh children of a node as one node, or the only one in its place. -/
def gathered (make : List Node → Node) (kids : List Fresh) : Node × List Leaf :=
  match kids with
  | [c] => (c.node, c.frontier)
  | _ => (make (kids.map (·.node)), kids.flatMap (·.frontier))

/-- Two in a row are in any order. -/
def makeQ (kids : List Node) : Node := if kids.length = 2 then .p kids else .q kids

/-- The children of a Q node from the end with the lesser leaf. -/
def turned (kids : List Fresh) : List Fresh :=
  match kids.head?, kids.getLast? with
  | some first, some last => if last.least < first.least then kids.reverse else kids
  | _, _ => kids

mutual

/-- `rebuild`: the node in its canonical form, and its frontier. -/
def rebuild : Node → Node × List Leaf
  | .leaf l => (.leaf l, [l])
  | .p kids => gathered .p ((rebuildAll kids).insertionSort byLeast)
  | .q kids => gathered makeQ (turned (rebuildAll kids))

def rebuildAll : List Node → List Fresh
  | [] => []
  | c :: kids => ⟨least c, (rebuild c).1, (rebuild c).2⟩ :: rebuildAll kids

end

/-! ## The tree -/

structure PqTree where
  root : Node
  frontier : List Leaf

def canonicalise (root : Node) : PqTree := ⟨(rebuild root).1, (rebuild root).2⟩

/-- `universe`; more leaves than a byte counts are a panic. -/
def universeOf (leaves : Nat) : Option PqTree :=
  if leaves ≤ 256 then some (canonicalise (.p ((List.range leaves).map .leaf))) else none

def reduce (tree : PqTree) (set : List Leaf) : Bool × PqTree :=
  if set.length < 2 ∨ tree.frontier.length ≤ set.length then (true, tree)
  else if full set tree.root ≠ set.length then (false, tree)
  else
    match reducePertinent set tree.root with
    | some root => (true, canonicalise root)
    | none => (false, tree)

/-! ## Admission -/

/-- What a child admits, beside the child. -/
abbrev Check := Node × (List Leaf → Bool)

/-- The first child that is not used and holds the leaf. -/
def owner (kids : List Check) (used : List Bool) (leaf : Leaf) : Option Nat :=
  (List.range kids.length).find? (fun i =>
    !used.getD i false && ((kids[i]? : Option Check).map (fun c => owns leaf c.1)).getD false)

/-- The children of a P node, each used at its place in the order; `fuel` covers the order. -/
def admitsAny (kids : List Check) : Nat → List Bool → List Leaf → Bool
  | _, used, [] => used.all (· == true)
  | 0, _, _ => false
  | fuel + 1, used, head :: order =>
    match owner kids used head with
    | none => false
    | some i =>
      match (kids[i]? : Option Check) with
      | none => false
      | some c =>
        if (head :: order).length < size c.1 then false
        else if c.2 ((head :: order).take (size c.1)) then
          admitsAny kids fuel (used.set i true) ((head :: order).drop (size c.1))
        else false

def admitsSeq : List Check → List Leaf → Bool
  | [], order => order.isEmpty
  | c :: kids, order =>
    if order.length < size c.1 then false
    else c.2 (order.take (size c.1)) && admitsSeq kids (order.drop (size c.1))

mutual

def admitsAt : Node → List Leaf → Bool
  | .leaf l, order => decide (order = [l])
  | .p kids, order => admitsAny (checks kids) order.length (List.replicate kids.length false) order
  | .q kids, order => admitsSeq (checks kids) order || admitsSeq (checks kids).reverse order

def checks : List Node → List Check
  | [] => []
  | c :: kids => (c, admitsAt c) :: checks kids

end

def admits (tree : PqTree) (order : List Leaf) : Bool :=
  decide (order.length = tree.frontier.length) && decide order.Nodup && admitsAt tree.root order

/-- How often an order enters the set. -/
def runsFrom (set : List Leaf) : Bool → List Leaf → Nat
  | _, [] => 0
  | inside, leaf :: order =>
    (if decide (leaf ∈ set) && !inside then 1 else 0) + runsFrom set (decide (leaf ∈ set)) order

def runs (order set : List Leaf) : Nat := runsFrom set false order

def isInterval (order set : List Leaf) : Bool := decide (runs order set ≤ 1)

end Pie.Poem.Pq
