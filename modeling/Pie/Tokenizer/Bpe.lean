import Pie.Tokenizer.Decode

/-!
# Merging pairs

The ids of a piece are merged pair by pair, the pair of lowest rank first. Short
pieces rescan a linked list after each merge; long ones keep a heap, in which an
entry whose rank is no longer that of its node is passed over.

Names follow `bpe.rs`. Links are 32-bit, and the greatest word is the link to
nothing, as it is the rank of no merge. An index out of range is `none`, as a
failed `expect` is, and so is a loop that takes more rounds than it is given.
-/

namespace Pie.Tokenizer

def rankMax : Nat := 2 ^ 32 - 1

/-- `NONE` -/
def noNode : Nat := 2 ^ 32 - 1

structure Node where
  tokenId : TokenId
  rank : Nat
  prev : Nat
  next : Nat
deriving DecidableEq, Repr

def BpeTable.pairMerge (bpe : BpeTable) (left right : TokenId) : Option (Nat × TokenId) :=
  (bpe.merges.lookup (left, right)).map fun m => (m.1.toNat, m.2)

def BpeTable.pairRank (bpe : BpeTable) (left right : TokenId) : Nat :=
  ((bpe.pairMerge left right).map Prod.fst).getD rankMax

/-- The links of a node are its neighbours, cut to 32 bits. -/
def buildNodes (ids : List TokenId) : List Node :=
  ids.zipIdx.map fun (id, i) =>
    ⟨id, rankMax, if 0 < i then (i - 1) % 2 ^ 32 else noNode, if i + 1 < ids.length then (i + 1) % 2 ^ 32 else noNode⟩

def nodeRank (nodes : List Node) (i : Nat) (ranks : BpeTable) : Option Nat := do
  let node ← nodes[i]?
  if node.next = noNode then some rankMax
  else
    let next ← nodes[node.next]?
    some (ranks.pairRank node.tokenId next.tokenId)

def collectIds (nodes : List Node) : Nat → Nat → Option (List TokenId)
  | 0, _ => none
  | rounds + 1, cur =>
    if cur = noNode then some []
    else do
      let node ← nodes[cur]?
      let rest ← collectIds nodes rounds node.next
      some (node.tokenId :: rest)

/-- `nodes[i]` is changed. -/
def update (nodes : List Node) (i : Nat) (f : Node → Node) : Option (List Node) :=
  if i < nodes.length then some (nodes.modify i f) else none

/-- The rank of a node is looked up again. -/
def rerank (nodes : List Node) (i : Nat) (ranks : BpeTable) : Option (Nat × List Node) := do
  let rank ← nodeRank nodes i ranks
  let nodes ← update nodes i ({ · with rank })
  some (rank, nodes)

/-- A node takes in the one after it; the index of that one is returned too. -/
def mergeNext (nodes : List Node) (i : Nat) (ranks : BpeTable) : Option (Nat × List Node) := do
  let node ← nodes[i]?
  let j := node.next
  let next ← nodes[j]?
  let (_, tokenId) ← ranks.pairMerge node.tokenId next.tokenId
  let nodes ← update nodes i ({ · with tokenId, next := next.next })
  let nodes ← (if next.next ≠ noNode then update nodes next.next ({ · with prev := i }) else some nodes)
  some (j, nodes)

/-! ## By scanning -/

/-- The lower of two ranks, the earlier where they are equal. -/
def lower (min : Nat × Nat) (rank : Nat) (i : Nat) : Nat × Nat := if rank < min.1 then (rank, i) else min

/-- The ranks of all nodes but the last, and the lowest. -/
def rankNodes (ranks : BpeTable) (nodes : List Node) : Option ((Nat × Nat) × List Node) :=
  (List.range (nodes.length - 1)).foldlM (fun (min, nodes) i => do
    let (rank, nodes) ← rerank nodes i ranks
    some (lower min rank i, nodes)) ((rankMax, noNode), nodes)

def scanRanks (nodes : List Node) : Nat → Nat × Nat → Nat → Option (Nat × Nat)
  | 0, _, _ => none
  | rounds + 1, min, cur => do
    let node ← nodes[cur]?
    let min := lower min node.rank cur
    if node.next = noNode then some min else scanRanks nodes rounds min node.next

def linearLoop (ranks : BpeTable) (rounds : Nat) : Nat → Nat × Nat → List Node → Option (List Node)
  | 0, _, _ => none
  | left + 1, min, nodes =>
    if min.1 = rankMax then some nodes
    else do
      let i := min.2
      let (_, nodes) ← mergeNext nodes i ranks
      let (_, nodes) ← rerank nodes i ranks
      let node ← nodes[i]?
      let nodes ← (if node.prev ≠ noNode then (rerank nodes node.prev ranks).map Prod.snd else some nodes)
      let min ← scanRanks nodes rounds (rankMax, noNode) 0
      linearLoop ranks rounds left min nodes

def bpeMergeLinear (rounds : Nat) (initialIds : List TokenId) (ranks : BpeTable) : Option (List TokenId) := do
  let (min, nodes) ← rankNodes ranks (buildNodes initialIds)
  let nodes ← linearLoop ranks rounds rounds min nodes
  collectIds nodes rounds 0

/-! ## By a heap -/

/-- Lower ranks first, and earlier nodes. -/
def Before (a b : Nat × Nat) : Prop := a.1 < b.1 ∨ a.1 = b.1 ∧ a.2 ≤ b.2

instance : DecidableRel Before := fun _ _ => inferInstanceAs (Decidable (_ ∨ _))

/-- A rank that is one goes into the heap, which is kept in order. -/
def push (heap : List (Nat × Nat)) (rank : Nat) (i : Nat) : List (Nat × Nat) :=
  if rank ≠ rankMax then heap.orderedInsert Before (rank, i) else heap

def heapNodes (ranks : BpeTable) (nodes : List Node) : Option (List (Nat × Nat) × List Node) :=
  (List.range (nodes.length - 1)).foldlM (fun (heap, nodes) i => do
    let (rank, nodes) ← rerank nodes i ranks
    some (push heap rank i, nodes)) ([], nodes)

def heapLoop (ranks : BpeTable) : Nat → List (Nat × Nat) → List Node → Option (List Node)
  | 0, _, _ => none
  | _ + 1, [], nodes => some nodes
  | left + 1, (rank, i) :: heap, nodes => do
    let node ← nodes[i]?
    if node.rank ≠ rank then heapLoop ranks left heap nodes
    else
      let (j, nodes) ← mergeNext nodes i ranks
      let nodes ← update nodes j ({ · with rank := rankMax })
      let (newRank, nodes) ← rerank nodes i ranks
      let heap := push heap newRank i
      let node ← nodes[i]?
      if node.prev ≠ noNode then
        let (predRank, nodes) ← rerank nodes node.prev ranks
        heapLoop ranks left (push heap predRank node.prev) nodes
      else heapLoop ranks left heap nodes

def bpeMergeHeap (rounds : Nat) (initialIds : List TokenId) (ranks : BpeTable) : Option (List TokenId) := do
  let (heap, nodes) ← heapNodes ranks (buildNodes initialIds)
  let nodes ← heapLoop ranks rounds heap nodes
  collectIds nodes rounds 0

/-- Pieces of at most 32 ids are scanned. -/
def bpeMerge (rounds : Nat) (initialIds : List TokenId) (ranks : BpeTable) : Option (List TokenId) :=
  if initialIds.length ≤ 32 then bpeMergeLinear rounds initialIds ranks else bpeMergeHeap rounds initialIds ranks

/-- The ranks of the table are below the greatest word. -/
def Ranked (bpe : BpeTable) : Prop := ∀ a b m, bpe.pairMerge a b = some m → m.1 < rankMax

/-- **One merge**: of the pairs that are next to each other, the leftmost of lowest rank. -/
inductive MergeStep (bpe : BpeTable) : List TokenId → List TokenId → Prop
  | mk {before after : List TokenId} {a b merged : TokenId} {rank : Nat} (hm : bpe.pairMerge a b = some (rank, merged))
      (hlow : ∀ c d, [c, d] <:+: before ++ a :: b :: after → ∀ m, bpe.pairMerge c d = some m → rank ≤ m.1)
      (hleft : ∀ c d, [c, d] <:+: before ++ [a] → ∀ m, bpe.pairMerge c d = some m → rank < m.1) :
      MergeStep bpe (before ++ a :: b :: after) (before ++ merged :: after)

/-- No pair has a rank. -/
def Merged (bpe : BpeTable) (ids : List TokenId) : Prop := ∀ c d, [c, d] <:+: ids → bpe.pairMerge c d = none

end Pie.Tokenizer
