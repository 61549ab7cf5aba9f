import Pie.Lib.Reading
import Std.Data.TreeMap.Basic
import Mathlib.Data.Fintype.Lattice
import Mathlib.Order.PiLex
import Mathlib.Data.Fin.Basic
import Mathlib.Algebra.Order.Group.Unbundled.Abs
import Mathlib.Data.Fintype.Pi

/-!
# Launch laws

How a launch parameter varies with a fire, and how its law is read off the probed
walks. Names follow `law.rs` and `law/fit.rs`. The 128-bit numbers of the code are
integers here, and `i128::MIN` and `i128::MAX` stand for no bound at all.
-/

namespace Pie.Poem

open Lib

structure Axis where
  name : String
  step : List (Int × Int)

structure Recipe where
  konst : Int
  rows : List Int
  lanes : List Int
deriving DecidableEq

/-- `Recipe::at`. -/
def Recipe.at_ (recipe : Recipe) (classes : List (Nat × Nat)) : Int :=
  classes.zipIdx.foldl (fun sum p => sum + recipe.rows.getD p.2 0 * p.1.1 + recipe.lanes.getD p.2 0 * p.1.2) recipe.konst

inductive Law where
  | const (v : Int)
  | affine (base : Int) (slope : List Int)
  | ceil (mul alpha beta div : Int)
  | slot (id : Nat)
deriving DecidableEq

def Law.atIn (law : Law) (coords : List Int) (rows : Int) (slots : List Int) : Option Int :=
  match law with
  | .const v => some v
  | .affine base slope => some ((slope.zip coords).foldl (fun sum p => sum + p.1 * p.2) base)
  | .ceil mul alpha beta div =>
    let numerator := alpha * rows + beta
    some (mul * (numerator / div) + mul * (if numerator % div ≠ 0 then 1 else 0))
  | .slot id => slots[id]?

/-- `Law::at`. -/
def Law.at_ (law : Law) (coords : List Int) (rows : Int) : Option Int := law.atIn coords rows []

inductive Refuse where
  | opaque_
  | ambiguous
  | unaffine
  | unstructured
  | unwritable
deriving DecidableEq

structure Refusal where
  reason : Refuse
  why : String
deriving DecidableEq

namespace Fit

abbrev Fitted (α : Type) := Except (Stop Refusal) α

def refuse {α : Type} (reason : Refuse) (why : String) : Fitted α := .error (.error ⟨reason, why⟩)

/-- `xs[i]`. -/
def index {α : Type} (xs : List α) (i : Nat) : Fitted α :=
  match xs[i]? with
  | some x => .ok x
  | none => .error .panic

def MAX_TILE : Int := 512

def MAX_NUMERATOR_SCALE : Int := 32

/-- The coordinates of a walk, its rows, and what was seen there. -/
structure Observed where
  coords : List Int
  rows : Int
  value : Int

/-! ## Lines -/

/-- Each sample with each of those after it. -/
def pairs {α : Type} : List α → List (α × α)
  | [] => []
  | a :: rest => rest.map (a, ·) ++ pairs rest

/-- Where two samples differ. -/
def moved (xa xb : List Int) : List Nat := ((xa.zip xb).zipIdx.filter fun p => p.1.1 != p.1.2).map Prod.snd

/-- What two samples say of the slope along an axis, after what the samples before them said. -/
def stepped (axis : Axis) (k : Nat) (seen : Option Int) (pair : (List Int × Int) × List Int × Int) : Fitted (Option Int) :=
  if moved pair.1.1 pair.2.1 ≠ [k] then .ok seen
  else do
    let run := (← index pair.2.1 k) - (← index pair.1.1 k)
    let rise := pair.2.2 - pair.1.2
    if rise.tmod run ≠ 0 then
      refuse .unaffine s!"stepping `{axis.name}` by {run} moved it by {rise}, which is not a whole multiple"
    else
      let b := rise.tdiv run
      match seen with
      | none => .ok (some b)
      | some had =>
        if had = b then .ok seen
        else refuse .unaffine s!"`{axis.name}` moves it by {had} per step at one place and {b} at another"

def slopeOf (points : List (List Int × Int)) (axis : Axis × Nat) : Fitted Int := do
  match ← (pairs points).foldlM (stepped axis.1 axis.2) none with
  | some b => .ok b
  | none => refuse .unaffine s!"no two samples of this arm differ only in `{axis.1.name}`, so its slope is unwitnessed"

def checkPoint (law : Law) (point : List Int × Int) : Fitted Unit :=
  match law.at_ point.1 0 with
  | none => .error .panic
  | some got =>
    if got = point.2 then .ok ()
    else refuse .unaffine
      s!"the line fitted from the ladders predicts {got} at {point.1} and the walk produced {point.2}"

def affine (axes : List Axis) (points : List (List Int × Int)) : Fitted Law := do
  let here ← index points 0
  let slope ← axes.zipIdx.mapM (slopeOf points)
  let law := .affine (here.2 - ((slope.zip here.1).map fun p => p.1 * p.2).sum) slope
  points.forM (checkPoint law)
  .ok law

/-! ## Staircases -/

/-- `by_rows`: the last sample at a number of rows counts. -/
def byRows (observed : List Observed) : Std.TreeMap Int Int := observed.foldl (fun m o => m.insert o.rows o.value) ∅

def crossings (observed : List Observed) : Nat :=
  ((byRows observed).toList.filter fun p => (byRows observed)[p.1 + 1]?.any (· != p.2)).length

def gcd (a b : Int) : Int := if b = 0 then a else gcd b (a.tmod b)
termination_by b.natAbs
decreasing_by rw [Int.natAbs_tmod]; exact Nat.mod_lt _ (Int.natAbs_pos.mpr ‹_›)

/-- The widest offset that the samples leave, checked against them. -/
def tile (observed : List Observed) (mul div alpha : Int) : Option Law :=
  let lo := (observed.map fun o => div * (o.value.tdiv mul - 1) - alpha * o.rows).max?
  let hi := (observed.map fun o => div * o.value.tdiv mul - alpha * o.rows).min?
  match lo, hi with
  | some lo, some hi =>
    if (observed.any fun o => o.value.tmod mul ≠ 0) || lo ≥ hi then none
    else
      let law := .ceil mul alpha hi div
      if observed.all fun o => law.at_ o.coords o.rows = some o.value then some law else none
  | _, _ => none

/-- `lo..=hi`. -/
def upTo (lo hi : Int) : List Int := (List.range (hi + 1 - lo).toNat).map fun i : Nat => lo + (i : Int)

/-- The scales ascend as they are, so sorting them does nothing. -/
def ceiling (observed : List Observed) : Option Law :=
  if crossings observed < 2 then none
  else
    let common := observed.foldl (fun common o => gcd common |o.value|) 0
    if common = 0 then none
    else
      let scales := (upTo 1 common).filter fun m => common.tmod m = 0
      scales.findSome? fun mul => (upTo 2 MAX_TILE).findSome? fun div => (upTo 1 MAX_NUMERATOR_SCALE).findSome? fun alpha =>
        tile observed mul div alpha

def component (axes : List Axis) (observed : List Observed) : Fitted (Option Law) := do
  let first ← index observed 0
  if observed.all fun o => o.value = first.value then .ok none
  else
    match affine axes (observed.map fun o => (o.coords, o.value)) with
    | .ok law => .ok (some law)
    | .error .panic => .error .panic
    | .error (.error affineWhy) =>
      match ceiling observed with
      | some law => .ok (some law)
      | none => refuse .unaffine (s!"{affineWhy.why}; and no tiling law `mul·ceil((α·rows + β)/div)` with div ≤ {MAX_TILE} " ++
        s!"and α ≤ {MAX_NUMERATOR_SCALE} fits it either — the samples catch the staircase crossing " ++
        s!"{crossings observed} time(s), and two is what pins the period")

/-! ## Reading coordinates back -/

/-- `Vec<Vec<i128>>`, as many columns as rows. -/
abbrev Square (n : Nat) := Fin n → Fin n → Int

def determinant : (n : Nat) → Square n → Int
  | 0, _ => 1
  | 1, a => a 0 0
  | 2, a => a 0 0 * a 1 1 - a 0 1 * a 1 0
  | n + 3, a => (List.finRange (n + 3)).foldl (fun sum col =>
      let minor : Square (n + 2) := fun row place => a row.succ (col.succAbove place)
      let sign := if col.val % 2 = 0 then 1 else -1
      sum + sign * a 0 col * determinant (n + 2) minor) 0

def transpose {n : Nat} (a : Square n) : Square n := fun row col => a col row

/-- Axes that step over the classes of the origin, which have two numbers each. -/
structure Basis where
  axes : List Axis
  classes : List (Nat × Nat)
  steps : ∀ axis ∈ axes, axis.step.length = classes.length

namespace Basis

variable (b : Basis)

abbrev k : Nat := b.axes.length

abbrev width : Nat := 2 * b.classes.length

def column (row : Fin b.width) (axis : Fin b.k) : Int :=
  let step := (b.axes.get axis).step.get ⟨row / 2, (b.steps _ (List.get_mem ..)).symm ▸ Nat.div_lt_of_lt_mul row.2⟩
  if row.val % 2 = 0 then step.1 else step.2

variable (pivots : Fin b.k → Fin b.width)

def table : Square b.k := fun row axis => b.column (pivots row) axis

/-- The equations of an axis, the unit in place of the column of a pivot. -/
def numerator (axis pivot : Fin b.k) : Int :=
  determinant b.k fun row => Function.update (transpose (b.table pivots) row) pivot (if row = axis then 1 else 0)

/-- A pivot's weight, put to the number it stands for. -/
def weigh (coefficients : Fin b.k → Int) (recipe : Recipe) (pivot : Fin b.k) : Recipe :=
  let weight := coefficients pivot
  let class_ := b.classes.get ⟨pivots pivot / 2, Nat.div_lt_of_lt_mul (pivots pivot).2⟩
  if (pivots pivot).val % 2 = 0 then
    ⟨recipe.konst - weight * class_.1, recipe.rows.modify (pivots pivot / 2) (· + weight), recipe.lanes⟩
  else ⟨recipe.konst - weight * class_.2, recipe.rows, recipe.lanes.modify (pivots pivot / 2) (· + weight)⟩

def recipes (origin : List Int) : List (Fin b.k) → Fitted (Option (List Recipe))
  | [] => .ok (some [])
  | axis :: rest => do
    let det := determinant b.k (b.table pivots)
    if (List.finRange b.k).any fun pivot => (b.numerator pivots axis pivot).tmod det ≠ 0 then return none
    let zeros := List.replicate b.classes.length 0
    let konst ← index origin axis
    let recipe := (List.finRange b.k).foldl (b.weigh pivots fun pivot => (b.numerator pivots axis pivot).tdiv det)
      ⟨konst, zeros, zeros⟩
    return (← recipes origin rest).map (recipe :: ·)

def tryPivots (origin : List Int) : Fitted (Option (List Recipe)) :=
  if determinant b.k (b.table pivots) = 0 then .ok none else b.recipes pivots origin (List.finRange b.k)

/-- The last pivot before `at_` that has room to move. -/
def movable : (at_ : Nat) → at_ ≤ b.k → Option {i : Fin b.k // pivots i + (b.k - i) < b.width}
  | 0, _ => none
  | at_ + 1, h =>
    if hm : pivots ⟨at_, h⟩ + (b.k - at_) < b.width then some ⟨⟨at_, h⟩, hm⟩ else movable at_ (Nat.le_of_succ_le h)

/-- It moves by one, and those after it follow it closely. -/
def advance : Option (Fin b.k → Fin b.width) :=
  (b.movable pivots b.k le_rfl).map fun i next =>
    if next < i.1 then pivots next else ⟨pivots i.1 + 1 + (next - i.1), by have := i.2; omega⟩

def checkSites (recipe : List Recipe) (every : List (List (Nat × Nat) × List Int)) : Fitted (List Recipe) :=
  match every.find? fun site => recipe.map (·.at_ site.1) ≠ site.2 with
  | some site => refuse .unstructured (s!"the basis inverts to a recipe that reads {recipe.map (·.at_ site.1)} out of the " ++
      s!"class table {site.1}, and the harness placed that walk at {site.2} — the directions are not independent in " ++
      "the descriptor's own numbers")
  | none => .ok recipe

def noPivots : Refusal := ⟨.unstructured, s!"no {b.k} of the class table's {b.width} numbers invert this basis over " ++
  "the integers, so a fire's composition cannot be read back into the coordinates the laws are written in"⟩

theorem advance_gt {pivots pivots' : Fin b.k → Fin b.width} (h : b.advance pivots = some pivots') :
    toLex pivots < toLex pivots' := by
  rcases Option.map_eq_some_iff.mp h with ⟨⟨i, hi⟩, -, rfl⟩
  refine ⟨i, fun j hj => (if_pos hj).symm, ?_⟩
  show pivots i < if i < i then pivots i else _
  rw [if_neg (lt_irrefl i)]
  exact Fin.lt_def.mpr (by dsimp only; omega)

/-- The pivots go up in the order of the first that differs, so the loop ends. -/
def search (origin : List Int) (every : List (List (Nat × Nat) × List Int)) (pivots : Fin b.k → Fin b.width) :
    Fitted (List Recipe) :=
  match b.tryPivots pivots origin with
  | .error e => .error e
  | .ok (some recipe) => checkSites recipe every
  | .ok none =>
    match h : b.advance pivots with
    | none => .error (.error b.noPivots)
    | some pivots' => search origin every pivots'
termination_by wellFounded_gt.wrap (toLex pivots)
decreasing_by exact b.advance_gt h

end Basis

def invert (axes : List Axis) (originClasses : List (Nat × Nat)) (origin : List Int)
    (every : List (List (Nat × Nat) × List Int)) : Fitted (List Recipe) :=
  match h : axes.find? fun axis => axis.step.length ≠ originClasses.length with
  | some axis => refuse .unstructured (s!"direction `{axis.name}` states a step over {axis.step.length} classes and " ++
      s!"the base composition has {originClasses.length}")
  | none =>
    let b : Basis := ⟨axes, originClasses, by simpa using h⟩
    -- without that many numbers the first pivots reach past the steps
    if hk : b.k ≤ b.width then b.search origin every (Fin.castLE hk) else .error .panic

end Fit

end Pie.Poem
