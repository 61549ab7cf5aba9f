import Mathlib.Tactic

/-!
# Paging

Where the rows of a fire are stored: the pages of its lanes, and the pages of
their windows. Names follow `kv.rs`; `have` is a word of Lean, and is `had` here.
Numbers of 32 bits are plain numbers, and where the code adds two of them in 32
bits the sum wraps.
-/

namespace Pie.Exec.Kv

inductive Fault
  | ceiling (what : String) (need had : Nat)
  | unbound (what : String)
deriving DecidableEq, Repr

/-- The most that 32 bits hold. -/
def U32_MAX : Nat := 2 ^ 32 - 1

def I32_MAX : Nat := 2 ^ 31 - 1

def divCeil (n d : Nat) : Nat := (n + d - 1) / d

structure Windowed where
  tokens : Nat
  firePages : Nat
deriving DecidableEq, Repr

structure Paging where
  pageSize : Nat
  pagesPerSlot : Nat
  slots : Nat
  pages : Nat
  window : Option Windowed
deriving DecidableEq, Repr

namespace Paging

def of (pageSize context slots pages : Nat) : Except Fault Paging :=
  if pageSize = 0 then .error (.ceiling "tokens per page" 1 0)
  else .ok ⟨pageSize, max (divCeil context pageSize) 1, slots, max pages 1, none⟩

variable (p : Paging)

/-- The tokens of a slot; the product saturates. -/
def context : Nat := min (p.pagesPerSlot * p.pageSize) U32_MAX

/-- A window as wide as the context is none. -/
def windowed (tokens : Option Nat) (maxTokens : Nat) : Paging :=
  { p with
    window := (tokens.filter fun tokens => decide (tokens < p.context)).map fun tokens =>
      ⟨tokens, (divCeil maxTokens p.pageSize + 1) % 2 ^ 32⟩ }

def windowHeld : Nat :=
  match p.window with
  | none => p.pagesPerSlot
  | some w => min ((divCeil w.tokens p.pageSize + 1) % 2 ^ 32) p.pagesPerSlot

def windowRing : Nat :=
  match p.window with
  | none => p.pagesPerSlot
  | some w => min ((p.windowHeld + w.firePages) % 2 ^ 32) p.pagesPerSlot

def windowPagesAt (pages : Nat) : Nat :=
  match p.window with
  | none => pages
  | some _ => 1 + min pages (p.windowRing + (pages - p.pagesPerSlot) / 2)

def windowPages : Nat := p.windowPagesAt p.pages

def base (slot : Nat) : Nat := slot * p.pagesPerSlot

end Paging

structure Seat where
  slot : Nat
  had : Nat
  rows : Nat
deriving DecidableEq, Repr

namespace Seat

variable (s : Seat)

/-- The tokens of the lane once its rows are stored. -/
def after : Nat := s.had + s.rows

/-- The pages of these tokens. -/
def pages (p : Paging) : Nat := max (divCeil s.after p.pageSize) 1

end Seat

structure Geometry where
  indptr : List Nat
  indices : List Nat
  lastPageLen : List Nat
  kvLen : List Nat
  writePage : List Nat
  writeOffset : List Nat
deriving DecidableEq, Repr

def narrow (n : Nat) (what : String) : Except Fault Nat := if n ≤ I32_MAX then .ok n else .error (.ceiling what n I32_MAX)

/-- Where the rows of a lane are written: a page and an offset for each. -/
def writesOf (paging : Paging) (seat : Seat) (pageOf : Nat → Nat) : Except Fault (List (Nat × Nat)) :=
  (List.range seat.rows).mapM fun token => do
    let at' := seat.had + token
    let page ← narrow (pageOf (at' / paging.pageSize)) "page indices"
    let offset ← narrow (at' % paging.pageSize) "write offsets"
    pure (page, offset)

/-- The pages of a lane, and where its rows are written. A lane without a table has the pages of its slot. -/
def laneOf (paging : Paging) (seat : Seat) (table : List Nat) : Except Fault (List Nat × List (Nat × Nat)) :=
  let pages := seat.pages paging
  if table = [] then
    if paging.slots ≤ seat.slot then .error (.ceiling "kv slots" (seat.slot + 1) paging.slots)
    else if paging.context < seat.after then .error (.ceiling "kv tokens in one slot" seat.after paging.context)
    else do
      let indices ← (List.range pages).mapM fun page => narrow (paging.base seat.slot + page) "page indices"
      let writes ← writesOf paging seat (paging.base seat.slot + ·)
      pure (indices, writes)
  else if table.length < pages then .error (.ceiling "kv pages this lane stated" pages table.length)
  else do
    let indices ← (table.take pages).mapM fun page => narrow page "page indices"
    let writes ← writesOf paging seat (table.getD · 0)
    pure (indices, writes)

/-- One lane more. -/
def pushLane (paging : Paging) (tables : List (List Nat)) (out : Geometry) (seat : Seat × Nat) : Except Fault Geometry := do
  let pages := seat.1.pages paging
  let (indices, writes) ← laneOf paging seat.1 (tables.getD seat.2 [])
  let indptr ← narrow (out.indices.length + indices.length) "kv indptr"
  let lastPageLen ← narrow (seat.1.after - (pages - 1) * paging.pageSize) "last page length"
  let kvLen ← narrow seat.1.after "kv length"
  pure {
    indptr := out.indptr ++ [indptr]
    indices := out.indices ++ indices
    lastPageLen := out.lastPageLen ++ [lastPageLen]
    kvLen := out.kvLen ++ [kvLen]
    writePage := out.writePage ++ writes.map Prod.fst
    writeOffset := out.writeOffset ++ writes.map Prod.snd }

def geometryWith (paging : Paging) (seats : List Seat) (tables : List (List Nat)) : Except Fault Geometry :=
  seats.zipIdx.foldlM (pushLane paging tables) ⟨[0], [], [], [], [], []⟩

/-- The page in the windowed pool that a lane has at a place of its table. -/
def windowPage (paging : Paging) (window : Windowed) (seat : Seat) (table ids : List Nat) (page : Nat) : Except Fault Nat :=
  let first := (seat.had - window.tokens) / paging.pageSize
  if page < first then .ok 0
  else do
    let id ←
      if ids ≠ [] then
        match ids[page]? with
        | some id => pure id
        | none => .error (.ceiling "windowed pages this lane stated" (page + 1) ids.length)
      else if table = [] then pure (1 + seat.slot * paging.windowRing + page % paging.windowRing)
      else pure (table.getD page U32_MAX + 1)
    if id = 0 then
      .error (.unbound (s!"windowed page {page} of a lane holding {seat.had} tokens, which its window still reads and "
        ++ "the runtime has released"))
    else if paging.windowPages ≤ id then .error (.ceiling "windowed kv pages" (id + 1) paging.windowPages)
    else narrow id "windowed page indices"

/-- The table of a lane in the windowed pool. -/
def windowTable (paging : Paging) (seat : Seat) (table ids : List Nat) : Except Fault (List Nat) :=
  match paging.window with
  | none => .ok table
  | some window => (List.range (seat.pages paging)).mapM (windowPage paging window seat table ids)

/-! ## Fires of a lane -/

/-- A fire that was accepted, as it is for one of its lanes, which was handed no windowed pages. -/
structure Fired (paging : Paging) where
  seats : List Seat
  tables : List (List Nat)
  geometry : Geometry
  lane : Nat
  seat : Seat
  window : List Nat
  lane_eq : seats[lane]? = some seat
  accepted : geometryWith paging seats tables = .ok geometry
  windowed : windowTable paging seat (tables.getD lane []) [] = .ok window

namespace Fired

variable {paging : Paging} (f : Fired paging)

/-- The table of the lane. -/
def table : List Nat := f.tables.getD f.lane []

/-- Where the rows of the lane begin among those of the fire. -/
def start : Nat := ((f.seats.take f.lane).map Seat.rows).sum

/-- The page of a row of the lane in the windowed pool. -/
def pageAt (token : Nat) : Nat := f.window.getD ((f.seat.had + token) / paging.pageSize) 0

/-- The cell of a row of the lane. -/
def cellAt (token : Nat) : Nat × Nat := (f.pageAt token, f.geometry.writeOffset.getD (f.start + token) 0)

end Fired

/-- The row that each cell of the windowed pool holds, as its position in the lane. -/
abbrev Pool := Nat × Nat → Option Nat

/-- The rows of a fire are stored one after the other. -/
def store {paging : Paging} (pool : Pool) (f : Fired paging) : Pool :=
  (List.range f.seat.rows).foldl (fun pool token c => if c = f.cellAt token then some (f.seat.had + token) else pool c) pool

end Pie.Exec.Kv
