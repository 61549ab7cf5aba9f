import Pie.Lib.Reading
import Pie.Poem.Classes
import Pie.Poem.Region

/-!
# The arena

Where each value of a trace is stored: values that share storage are aliases of
one root, roots live in rectangles of one arena, and rectangles that are never
live together may overlap. Names follow `arena.rs`.

Sums of offsets and sizes stay far below `2^63`; they are plain numbers here.
Where the code checks or saturates a product, so does the model.
-/

namespace Pie.Poem

open Lib

/-! ## Budgets and rows -/

structure Budget where
  maxLanes : Nat
  maxTokens : Nat
deriving DecidableEq, Repr

structure PatchLadder where
  maxPatches : Nat
  maxImages : Nat
deriving DecidableEq, Repr

structure VoxelLadder where
  maxVoxels : Nat
  maxClips : Nat
deriving DecidableEq, Repr

structure Budgets where
  tokens : Budget
  patches : Option PatchLadder
  voxels : Option VoxelLadder
deriving DecidableEq, Repr

def U64_MAX : Nat := 2 ^ 64 - 1

def saturatingMul (a b : Nat) : Nat := Nat.min (a * b) U64_MAX

def saturatingAdd (a b : Nat) : Nat := Nat.min (a + b) U64_MAX

def checkedMul (a b : Nat) : Option Nat := if a * b ≤ U64_MAX then some (a * b) else none

inductive RowExpr where
  | const (n : Nat)
  | tokens
  | tokensTimes (k : Nat)
  | lanes
  | lanesPlus (k : Nat)
  | readouts
  | patches
  | images
  | imagesPlus (k : Nat)
  | voxels
  | voxelsTimes (k : Nat)
  | clips
  | clipsPlus (k : Nat)
deriving DecidableEq, Repr

structure FireRows where
  tokens : Nat
  lanes : Nat
  patches : Nat
  images : Nat
  voxels : Nat
  clips : Nat
  readouts : Nat
deriving DecidableEq, Repr

def READOUTS_PER_LANE : Nat := 16

def NARROW_READOUT_ROW_BYTES : Nat := 64 * 2 ^ 10

def readoutsCeiling (budget : Budget) : Nat := Nat.min (budget.maxLanes * READOUTS_PER_LANE) budget.maxTokens

def readoutRows (width elem : Nat) (budget : Budget) : Nat :=
  if saturatingMul width elem ≤ NARROW_READOUT_ROW_BYTES then budget.maxTokens else readoutsCeiling budget

def FireRows.ceilings (budgets : Budgets) : FireRows where
  tokens := budgets.tokens.maxTokens
  lanes := budgets.tokens.maxLanes
  patches := (budgets.patches.map (·.maxPatches)).getD 0
  images := (budgets.patches.map (·.maxImages)).getD 0
  voxels := (budgets.voxels.map (·.maxVoxels)).getD 0
  clips := (budgets.voxels.map (·.maxClips)).getD 0
  readouts := readoutsCeiling budgets.tokens

namespace RowExpr

def of : Dim → RowExpr
  | .const n => .const n
  | .tokens => .tokens
  | .tokensTimes k => .tokensTimes k
  | .lanes => .lanes
  | .lanesPlus k => .lanesPlus k
  | .readouts => .readouts
  | .patches => .patches
  | .images => .images
  | .imagesPlus k => .imagesPlus k
  | .voxels => .voxels
  | .voxelsTimes k => .voxelsTimes k
  | .clips => .clips
  | .clipsPlus k => .clipsPlus k

def cutPerClass : RowExpr → Bool
  | .tokens | .tokensTimes _ | .patches | .images | .voxels | .voxelsTimes _ | .clips => true
  | .lanes | .const _ | .lanesPlus _ | .imagesPlus _ | .clipsPlus _ | .readouts => false

/-- `at`. -/
def rows (expr : RowExpr) (fire : FireRows) : Nat :=
  match expr with
  | .const n => n
  | .tokens => fire.tokens
  | .tokensTimes k => saturatingMul fire.tokens k
  | .lanes => fire.lanes
  | .lanesPlus k => saturatingAdd fire.lanes k
  | .readouts => fire.readouts
  | .patches => fire.patches
  | .images => fire.images
  | .imagesPlus k => saturatingAdd fire.images k
  | .voxels => fire.voxels
  | .voxelsTimes k => saturatingMul fire.voxels k
  | .clips => fire.clips
  | .clipsPlus k => saturatingAdd fire.clips k

def max (expr : RowExpr) (budgets : Budgets) : Nat := expr.rows (FireRows.ceilings budgets)

end RowExpr

def elemBytes : Dtype → Option Nat
  | .bf16 | .f16 | .i16 | .u16 => some 2
  | .f32 | .i32 | .u32 => some 4
  | .i64 | .u64 => some 8
  | .u8 | .i8 | .e4m3 | .e5m2 | .e8m0 | .bool => some 1
  | _ => none

/-! ## What may run together -/

structure Span where
  first : Nat
  last : Nat
deriving DecidableEq, Repr

def touching (a b : Span) : Bool := decide (a.first ≤ b.last) && decide (b.first ≤ a.last)

structure Concurrency where
  regionOf : List Nat
  pairs : List (Nat × Nat)
  paired : List ((Nat × Nat) × (Nat × Nat))

/-- Where each region begins and ends. -/
def mapRegions (regions : List Region) (nodes : Nat) : List Nat :=
  regions.zipIdx.foldl (fun map region => region.1.nodes.foldl (fun map node => map.set node region.2) map)
    (List.replicate (nodes + 1) regions.length)

/-- The order of pairs. -/
def pairLe (p q : Nat × Nat) : Prop := p.1 < q.1 ∨ (p.1 = q.1 ∧ p.2 ≤ q.2)

instance : DecidableRel pairLe := fun _ _ => inferInstanceAs (Decidable (_ ∨ _))

/-- `with_pairs`; a pair that names no region is a panic. -/
def Concurrency.withPairs (regions : List Region) (nodes : Nat) (pairs : List (Nat × Nat)) : Option Concurrency := do
  let pairs := (pairs.filter (fun p => p.1 != p.2)).map (fun p => if p.1 < p.2 then p else (p.2, p.1))
  let pairs := (pairs.insertionSort pairLe).dedup
  let bounds := fun r => (regions[r]? : Option Region).map (fun region => (region.start, region.stop))
  let paired ← pairs.mapM (fun p => do
    let a ← bounds p.1
    let b ← bounds p.2
    some (a, b))
  some { regionOf := mapRegions regions nodes, pairs := pairs, paired := paired }

/-- `region_of`. -/
def Concurrency.region (conc : Concurrency) (node : Nat) : Nat := conc.regionOf.getD node (2 ^ 32 - 1)

def meets (range : Nat × Nat) (span : Span) : Bool := decide (range.1 ≤ span.last) && decide (span.first < range.2)

/-- The fork pairs whose sides a span meets. -/
structure Reach where
  span : Span
  one : Nat
  two : Nat

/-- The places of the list where the property holds, as bits. -/
def bitsWhere {α : Type} (p : α → Bool) (l : List α) : Nat :=
  l.zipIdx.foldl (fun w x => if p x.1 then Bits.add w x.2 else w) 0

def Concurrency.reach (conc : Concurrency) (span : Span) : Reach where
  span := span
  one := bitsWhere (fun p => meets p.1 span) conc.paired
  two := bitsWhere (fun p => meets p.2 span) conc.paired

def Reach.overlaps (a b : Reach) : Bool :=
  touching a.span b.span || decide (a.one &&& b.two ≠ 0) || decide (a.two &&& b.one ≠ 0)

/-! ## Placements -/

structure Slot where
  offset : Nat
  bytes : Nat
  rows : RowExpr
  width : Nat
  dtype : Dtype
deriving DecidableEq, Repr

inductive Placement where
  | runtime (which : RuntimeInput)
  | param (row : Nat)
  | cache (row : Nat)
  | arena (slot : Slot)
  | alias (up : ValueId)
  | struct (kind : StructKind)
deriving DecidableEq, Repr

namespace Arena

inductive Share where
  | inPlace
  | mergeArm
deriving DecidableEq, Repr

inductive Unrectangled where
  | symbolicWidth
  | packedElement
  | oversize
deriving DecidableEq, Repr

inductive Error where
  | unrectangled (value : ValueId) (why : Unrectangled)
  | aliasOutside (holds shares : ValueId)
  | mismatch (kind : Share) (holds shares : ValueId)
deriving DecidableEq, Repr

abbrev Carve (α : Type) := Except (Stop Error) α

/-- The widths of a row, one after another. -/
def widths : List Dim → Nat → Except Unrectangled Nat
  | [], width => .ok width
  | .const n :: dims, width =>
    match checkedMul width n with
    | some width => widths dims width
    | none => .error .oversize
  | _ :: _, _ => .error .symbolicWidth

def rect (shape : List Dim) : Except Unrectangled (RowExpr × Nat) := do
  let rows := (shape.head?.map RowExpr.of).getD (.const 1)
  let width ← widths shape.tail 1
  .ok (rows, width)

/-- The rectangle of a tensor: its rows at the ceilings. -/
def tensor (budgets : Budgets) (shape : List Dim) (dtype : Dtype) : Except Unrectangled Slot := do
  let (rows, width) ← rect shape
  match elemBytes dtype with
  | none => .error .packedElement
  | some elem =>
    let carved :=
      match rows with
      | .readouts => readoutRows width elem budgets.tokens
      | _ => rows.max budgets
    match (checkedMul carved width).bind (fun bytes => checkedMul bytes elem) with
    | none => .error .oversize
    | some bytes => .ok { offset := 0, bytes := bytes, rows := rows, width := width, dtype := dtype }

def rectangle (budgets : Budgets) (decl : ValueDecl) (value : ValueId) : Carve Placement :=
  match decl.defn with
  | .input which => .ok (.runtime which)
  | .weight row => .ok (.param row)
  | .cache row => .ok (.cache row)
  | .op _ | .merge _ =>
    match decl.ty with
    | .struct kind => .ok (.struct kind)
    | .tensor shape dtype =>
      match tensor budgets shape dtype with
      | .ok slot => .ok (.arena slot)
      | .error why => .error (.error (.unrectangled value why))

def rectangles (trace : Trace) (budgets : Budgets) : Carve (List Placement) :=
  trace.values.zipIdx.mapM (fun decl => rectangle budgets decl.1 decl.2)

/-- The aliases from a value up, for so many rounds; then a cycle is a panic. -/
def rootFrom (placements : List Placement) : Nat → ValueId → Carve ValueId
  | 0, _ => .error .panic
  | fuel + 1, value =>
    match placements[value]? with
    | some (.alias up) => rootFrom placements fuel up
    | _ => .ok value

def root (placements : List Placement) (value : ValueId) : Carve ValueId :=
  rootFrom placements (placements.length + 1) value

/-- `share`: the root of one becomes an alias of the root of the other. -/
def share (kind : Share) (placements : List Placement) (holds shares : ValueId) : Carve (List Placement) := do
  let h ← root placements holds
  let s ← root placements shares
  if h = s then .ok placements
  else
    match placements[h]?, placements[s]? with
    | some a, some b =>
      match a, b with
      | .arena x, .arena y =>
        if (x.bytes, x.rows, x.width, x.dtype) = (y.bytes, y.rows, y.width, y.dtype) then
          .ok (placements.set s (.alias h))
        else .error (.error (.mismatch kind h s))
      | _, _ =>
        match kind with
        | .inPlace => .error (.error (.aliasOutside holds shares))
        | .mergeArm => .ok placements
    | _, _ => .error (.error (.aliasOutside holds shares))

def foldInPlace (trace : Trace) (placements : List Placement) : Carve (List Placement) :=
  (trace.nodes.flatMap (·.op.aliases)).foldlM (fun placements pair => share .inPlace placements pair.2 pair.1) placements

/-- The merges of a trace with their arms. -/
def mergeArms (trace : Trace) : List (ValueId × ValueId) :=
  trace.values.zipIdx.flatMap (fun decl =>
    match decl.1.defn with
    | .merge arms => arms.map (fun arm => (decl.2, arm.1))
    | _ => [])

def foldMerges (trace : Trace) (placements : List Placement) : Carve (List Placement) :=
  (mergeArms trace).foldlM (fun placements pair => share .mergeArm placements pair.1 pair.2) placements

def flattenOne (placements : List Placement) (id : Nat) : Carve (List Placement) :=
  match placements[id]? with
  | some (.alias up) => do
    let r ← root placements up
    .ok (placements.set id (.alias r))
  | _ => .ok placements

def flatten (placements : List Placement) : Carve (List Placement) :=
  (List.range placements.length).foldlM flattenOne placements

/-! ## Lifetimes -/

inductive Readers where
  | everyClass
  | itsOwnClasses
deriving DecidableEq, Repr

def EXPORTS : List (String × Readers) :=
  [("out", .everyClass), ("mtp", .itsOwnClasses), ("attn.scores", .itsOwnClasses), ("mtp.drafts", .itsOwnClasses),
    ("velocity", .itsOwnClasses), ("hidden", .itsOwnClasses), ("pixels", .itsOwnClasses)]

/-- When each root is live, and in which classes. -/
structure Lives where
  spans : List (Option Span)
  liveIn : List ClassSet

def isArena (placements : List Placement) (value : ValueId) : Bool :=
  match placements[value]? with
  | some (.arena _) => true
  | _ => false

/-- The span of a root changes, the first time from `new`. -/
def Lives.span (lives : Lives) (value : ValueId) (new : Span) (f : Span → Span) : Lives :=
  { lives with spans := lives.spans.set value (some (f (((lives.spans[value]?).getD none).getD new))) }

def Lives.widen (lives : Lives) (value : ValueId) (mask : ClassSet) : Lives :=
  { lives with liveIn := lives.liveIn.set value ((lives.liveIn.getD value ClassSet.empty).union mask) }

def touch (placements : List Placement) (lives : Lives) (value : ValueId) (node : Nat) (mask : ClassSet) : Carve Lives := do
  let r ← root placements value
  if isArena placements r then
    .ok ((lives.span r ⟨node, node⟩ (fun span => ⟨Nat.min span.first node, Nat.max span.last node⟩)).widen r mask)
  else .ok lives

/-- One node touches what it reads and writes. -/
def touchNode (classes : ClassTable) (placements : List Placement) (lives : Lives) (node : Node × Nat) : Carve Lives :=
  match classes.nodeMask[node.2]? with
  | none => .error .panic
  | some mask =>
    (node.1.op.inputs ++ node.1.op.outputs).foldlM (fun lives value => touch placements lives value node.2 mask) lives

/-- An exported value lives to the end. -/
def exportOne (classes : ClassTable) (placements : List Placement) (stop : Nat) (lives : Lives)
    (value : Readers × ValueId) : Carve Lives := do
  let r ← root placements value.2
  if isArena placements r then
    let lives := lives.span r ⟨0, stop⟩ (fun span => { span with last := stop })
    .ok (if value.1 = .everyClass then lives.widen r classes.everywhere else lives)
  else .ok lives

/-- The values of the exported seams, with who reads them. -/
def exported (trace : Trace) : List (Readers × ValueId) :=
  EXPORTS.flatMap (fun e =>
    (trace.seams.filter (fun seam => seam.seam == e.1)).flatMap (fun seam => seam.values.map (fun v => (e.2, v))))

/-- The merges that an input of the model feeds. -/
def fed (trace : Trace) : List ValueId :=
  (trace.values.zipIdx.filter (fun decl =>
    match decl.1.defn with
    | .merge arms => arms.any (fun arm =>
      match trace.defn arm.1 with
      | some (.input _) => true
      | _ => false)
    | _ => false)).map Prod.snd

/-- A fed merge lives from the start. -/
def feed (placements : List Placement) (stop : Nat) (lives : Lives) (merge : ValueId) : Carve Lives := do
  let r ← root placements merge
  if isArena placements r then .ok (lives.span r ⟨0, stop⟩ (fun span => { span with first := 0 })) else .ok lives

/-- A slot that nothing touches is live throughout, and one in no class is in all of them. -/
def rest (classes : ClassTable) (placements : List Placement) (stop : Nat) (lives : Lives) (id : Nat) : Lives :=
  if isArena placements id then
    let lives := lives.span id ⟨0, stop⟩ (fun span => span)
    if (lives.liveIn.getD id ClassSet.empty).isEmpty then lives.widen id classes.everywhere else lives
  else lives

def lives (trace : Trace) (placements : List Placement) (classes : ClassTable) : Carve Lives := do
  let stop := trace.nodes.length
  let init : Lives := ⟨placements.map (fun _ => none), placements.map (fun _ => ClassSet.empty)⟩
  let touched ← trace.nodes.zipIdx.foldlM (touchNode classes placements) init
  let exported ← (exported trace).foldlM (exportOne classes placements stop) touched
  let fed ← (fed trace).foldlM (feed placements stop) exported
  .ok ((List.range placements.length).foldl (rest classes placements stop) fed)

def ROUTERS : List String :=
  ["linear.moe_topk_softmax", "linear.moe_topk_softmax_scaled", "linear.moe_topk_sigmoid",
    "linear.moe_topk_sigmoid_sink", "linear.moe_topk_sqrt_softplus", "linear.moe_hash_route"]

def isRouter (node : Node) : Bool := ROUTERS.any (· == node.op.name)

/-- The last node of a region. -/
def regionEnd (conc : Concurrency) (stop region : Nat) : Option Nat :=
  ((List.range stop).filter (fun node => conc.region node == region)).getLast?

/-- `outlive_the_region`. -/
def outlive (trace : Trace) (conc : Concurrency) (span : Span) : Span :=
  let stop := trace.nodes.length
  if stop ≤ span.last then span
  else
    let born := conc.region span.first
    let read := conc.region span.last
    if born ≠ read then
      match regionEnd conc stop read with
      | some last => { span with last := Nat.max span.last last }
      | none => span
    else if trace.nodes.zipIdx.any (fun node => isRouter node.1 && conc.region node.2 + 1 == born) then
      match regionEnd conc stop born with
      | some last => { span with last := Nat.max span.last last }
      | none => span
    else span

/-! ## Packing -/

def BIND_ALIGN : Nat := 256

/-- `align`. -/
def aligned (bytes : Nat) : Nat := (bytes + (BIND_ALIGN - 1)) / BIND_ALIGN * BIND_ALIGN

inductive Columns where
  | perValue
  | shared
deriving DecidableEq, Repr

/-- What every member of a column has in common. -/
abbrev Pitch := RowExpr × Nat × Dtype

structure Column where
  size : Nat
  span : Span
  classes : ClassSet
  pitch : Option Pitch
  members : List Nat

def pitchOf (slot : Slot) : Option Pitch :=
  if slot.rows.cutPerClass then some (slot.rows, slot.width, slot.dtype) else none

/-- A slot to be placed. -/
structure Item where
  size : Nat
  span : Span
  id : Nat
  slot : Slot

/-- The arena slots with their spans; `none` is the panic of a slot without one. -/
def items (placements : List Placement) (spans : List (Option Span)) : Option (List Item) :=
  (placements.zipIdx.filterMap (fun p =>
    match p.1 with
    | .arena slot => some (slot, p.2)
    | _ => none)).mapM (fun p => do
      let span ← (spans[p.2]?).getD none
      some { size := aligned p.1.bytes, span := span, id := p.2, slot := p.1 })

/-- The order of placing: readouts last, then the largest first, the earliest first. -/
def before (a b : Item) : Bool :=
  let readsOut := fun (item : Item) => if item.slot.rows = .readouts then 1 else 0
  match ((((compare (readsOut a) (readsOut b)).then (compare b.size a.size)).then
      (compare a.span.first b.span.first)).then (compare a.id b.id)) with
  | .gt => false
  | _ => true

/-- The first column that takes the item, with the item in it. -/
def joinFirst (fits : Column → Bool) (add : Column → Column) : List Column → Option (List Column)
  | [] => none
  | column :: columns =>
    if fits column then some (add column :: columns) else (joinFirst fits add columns).map (column :: ·)

def Column.add (classes : ClassSet) (item : Item) (column : Column) : Column :=
  { column with
    span := ⟨Nat.min column.span.first item.span.first, Nat.max column.span.last item.span.last⟩
    classes := column.classes.union classes
    members := column.members ++ [item.id] }

def gatherOne (liveIn : List ClassSet) (mode : Columns) (columns : List Column) (item : Item) : List Column :=
  let pitch := pitchOf item.slot
  let classes := liveIn.getD item.id ClassSet.empty
  let fits := fun (column : Column) =>
    decide (mode = .shared) && pitch.isSome && !classes.isEmpty && decide (column.pitch = pitch)
      && decide (column.size = item.size) && touching column.span item.span && column.classes.disjoint classes
  match joinFirst fits (Column.add classes item) columns with
  | some columns => columns
  | none => columns ++ [{ size := item.size, span := item.span, classes := classes, pitch := pitch, members := [item.id] }]

def gather (liveIn : List ClassSet) (mode : Columns) (order : List Item) : List Column :=
  order.foldl (gatherOne liveIn mode) []

/-- The lowest offset that the blockers, in order, leave free. -/
def firstFit (size : Nat) : List (Nat × Nat) → Nat → Nat
  | [], offset => offset
  | (lo, hi) :: blockers, offset =>
    if offset + size ≤ lo then offset else firstFit size blockers (Nat.max offset hi)

/-- A column in its place. -/
structure Placed where
  offset : Nat
  column : Column

/-- One column is placed below, between or above those that it must not overlap. -/
def placeOne (conc : Concurrency) (placed : List Placed) (column : Column) : List Placed :=
  let reach := conc.reach column.span
  let blockers := (placed.filter (fun p => (conc.reach p.column.span).overlaps reach)).map
    (fun p => (p.offset, p.offset + p.column.size))
  let blockers := blockers.insertionSort pairLe
  placed ++ [⟨firstFit column.size blockers 0, column⟩]

/-- A slot gets its offset. -/
def settleAt (offset : Nat) (placements : List Placement) (id : Nat) : List Placement :=
  match placements[id]? with
  | some (.arena slot) => placements.set id (.arena { slot with offset := offset })
  | _ => placements

/-- Every member of a column gets the offset of the column. -/
def settle (placements : List Placement) (placed : Placed) : List Placement :=
  placed.column.members.foldl (settleAt placed.offset) placements

/-- `place`: the slots in their places, and how far they reach. -/
def pack (placements : List Placement) (lives : Lives) (conc : Concurrency) (mode : Columns) :
    Carve (List Placement × Nat) :=
  match items placements lives.spans with
  | none => .error .panic
  | some items =>
    let columns := gather lives.liveIn mode (items.insertionSort (fun a b => before a b = true))
    let placed := columns.foldl (placeOne conc) []
    .ok (placed.foldl settle placements, placed.foldl (fun bytes p => Nat.max bytes (p.offset + p.column.size)) 0)

structure ArenaMap where
  placements : List Placement
  spans : List (Option Span)
  liveIn : List ClassSet
  bytes : Nat

def carve (trace : Trace) (budgets : Budgets) (classes : ClassTable) (conc : Concurrency) : Carve ArenaMap := do
  let placements ← rectangles trace budgets
  let placements ← foldInPlace trace placements
  let placements ← foldMerges trace placements
  let placements ← flatten placements
  let held ← lives trace placements classes
  let held : Lives := { held with spans := held.spans.map (fun span => span.map (outlive trace conc)) }
  let blind ← pack placements held conc .perValue
  let shared ← pack placements held conc .shared
  let best := if shared.2 < blind.2 then shared else blind
  .ok { placements := best.1, spans := held.spans, liveIn := held.liveIn, bytes := best.2 }

/-! ## Reading the map -/

structure Extent where
  offset : Nat
  bytes : Nat
deriving DecidableEq, Repr

namespace ArenaMap

def root (map : ArenaMap) (value : ValueId) : Carve ValueId := Arena.root map.placements value

def window (map : ArenaMap) (value : ValueId) (fire : FireRows) : Carve (Option Extent) := do
  let r : ValueId ← map.root value
  match (map.placements[r]? : Option Placement) with
  | some (.arena slot) =>
    .ok (some ⟨slot.offset,
      saturatingMul (saturatingMul (slot.rows.rows fire) slot.width) ((elemBytes slot.dtype).getD 0)⟩)
  | _ => .ok none

def coTenants (map : ArenaMap) (a b : ValueId) : Bool :=
  match map.placements[a]?, map.placements[b]? with
  | some (.arena x), some (.arena y) =>
    if !x.rows.cutPerClass || decide (x ≠ y) then false
    else
      match map.liveIn[a]?, map.liveIn[b]? with
      | some aIn, some bIn => !aIn.isEmpty && !bIn.isEmpty && aIn.disjoint bIn
      | _, _ => false
  | _, _ => false

/-- The arena slots with their spans; `none` is the panic of a slot without one. -/
def live (map : ArenaMap) : Option (List Item) := items map.placements map.spans

/-- The pairs of a list, each element with those after it. -/
def pairsOf {α : Type} : List α → List (α × α)
  | [] => []
  | a :: l => l.map (fun b => (a, b)) ++ pairsOf l

def clashesBlind (map : ArenaMap) (conc : Concurrency) : Option (List (ValueId × ValueId)) :=
  map.live.map (fun live =>
    ((pairsOf live).filter (fun p =>
      decide (p.1.slot.offset < p.2.slot.offset + p.2.slot.bytes)
        && decide (p.2.slot.offset < p.1.slot.offset + p.1.slot.bytes)
        && (conc.reach p.1.span).overlaps (conc.reach p.2.span))).map (fun p => (p.1.id, p.2.id)))

def clashes (map : ArenaMap) (conc : Concurrency) : Option (List (ValueId × ValueId)) :=
  (map.clashesBlind conc).map (fun found => found.filter (fun p => !map.coTenants p.1 p.2))

/-- The rows one fire may read out through a value's plane. -/
def readoutCeilingOf (map : ArenaMap) (value : ValueId) : Carve (Option Nat) := do
  let r : ValueId ← map.root value
  match (map.placements[r]? : Option Placement) with
  | some (.arena slot) =>
    match slot.rows, elemBytes slot.dtype with
    | .readouts, some elem => .ok (some (slot.bytes / Nat.max (saturatingMul slot.width elem) 1))
    | _, _ => .ok none
  | _ => .ok none

end ArenaMap

end Arena

end Pie.Poem
