import Pie.Store.Rs

/-!
# A fire's recurrent state

The groups of a fire, each of lanes that share a working set, are prepared one
after another and published together; if one cannot be prepared, those before it
are cancelled. On a model whose state is a window, each row moves a ring instead.

Names follow `pipeline/fire/rs.rs`.
-/

namespace Pie.Store.Rs

open Lib

inductive GroupFold
  | none
  | host (count : Nat)
  | device
deriving DecidableEq, Repr

/-- The first lane carries its fold; `writes` are the slots its lanes' rows land on. -/
structure GroupPlan where
  lanes : List Nat
  writes : Option (Nat × Nat)
  fold : GroupFold
  snapshots : List Nat

structure RingRow where
  pages : List Nat
  translate : List Nat
  advance : RingAdvance

inductive RsPlan
  | groups (groups : List GroupPlan)
  | ring (rows : List RingRow)

inductive PrepareError
  | store (error : RsError)
  | sharesNothing (lanes : List Nat)
  | lanes (lanes : List Nat) (error : PrepareError)
  | row (index : Nat) (error : RsError)
  | rows (rows sets : Nat)
  | earlierSet (lane : Nat)

def RsUnits.text (u : RsUnits) : String := s!"{u.slots} state slot(s) and {u.pages} buffer page(s)"

def RsError.text : RsError → String
  | .unknownWorkingSet => "unknown rs working set"
  | .belowFrozen slot frozen => s!"a fire writes slot {slot}, which its state already holds (it holds {frozen})"
  | .duplicateWorkingSet => "rs batch contains the same working set more than once"
  | .outOfSlots requested available => s!"rs pools exhausted: requested {requested.text}, available {available.text}"
  | .grantMismatch required granted => s!"rs grant mismatch: required {required.text}, granted {granted.text}"

def PrepareError.text : PrepareError → String
  | .store error => error.text
  | .sharesNothing group => s!"lanes {group} share a working set whose recurrent state holds nothing yet and fold it in the same fire; fold a pass of one lane into it first"
  | .lanes group error => s!"lanes {group}: {error.text}"
  | .row index error => s!"request row {index}: {error.text}"
  | .rows count sets => s!"a ring plan of {count} row(s) for {sets} recurrent state(s)"
  | .earlierSet lane => s!"lane {lane} names an earlier lane's working set; on a model whose state is a window each lane needs a working set of its own"

/-- What a fire writes of a working set's state. -/
structure GroupWrite where
  writeState : Bool
  fresh : Bool
  fold : Option Nat
  writes : Option (Nat × Nat)

def orFail {α : Type} (x : Except RsError α) : Except (Stop PrepareError) α := x.mapError fun e => .error (.store e)

/-- An error of the store as one of the preparation. -/
def asStore : Stop RsError → Stop PrepareError
  | .error e => .error (.store e)
  | .panic => .panic

namespace GroupPlan

variable (group : GroupPlan)

def write (s : RsStore) (ws : RsWorkingSetId) : Except (Stop PrepareError) GroupWrite := do
  let held ← orFail (s.foldedSlot ws)
  let fold := match group.fold with
    | .host count => if 0 < count then some count else none
    | _ => none
  let folds := fold.isSome || group.fold = .device
  if held.isNone && folds && 1 < group.lanes.length then .error (.error (.sharesNothing group.lanes))
  else return {
    writeState := folds || held.isNone
    fresh := folds && held.isSome && 1 < group.lanes.length
    fold
    writes := group.writes }

end GroupPlan

/-- `working_sets[group.lanes[0]]`. -/
def setOf (workingSets : List RsWorkingSetId) (group : GroupPlan) : Except (Stop PrepareError) RsWorkingSetId :=
  match group.lanes.head?.bind (workingSets[·]?) with
  | some ws => .ok ws
  | none => .error .panic

/-- What one group takes. -/
def groupUnits (s : RsStore) (workingSets : List RsWorkingSetId) (group : GroupPlan) :
    Except (Stop PrepareError) RsUnits := do
  let ws ← setOf workingSets group
  let write ← group.write s ws
  let units ← (s.groupDemand ws write.writeState write.fresh write.writes).mapError asStore
  return { units with slots := units.slots + group.snapshots.length }

def demand (s : RsStore) (workingSets : List RsWorkingSetId) : RsPlan → Except (Stop PrepareError) RsUnits
  | .ring rows => (workingSets.zip rows).foldlM (fun total e => do
    return total.add (← orFail (s.ringDemand e.1 e.2.pages))) ⟨0, 0⟩
  | .groups groups => groups.foldlM (fun total group => do return total.add (← groupUnits s workingSets group)) ⟨0, 0⟩

/-! ## What is handed to the engine -/

inductive FoldLen
  | host (count : Nat)
  | device

inductive RsVerb
  | fold
  | buffer (pages : List Nat) (base folded : Nat) (fold : FoldLen)

def RS_FLAG_RESET : Nat := 1

structure PreparedRs where
  slotIds : List Nat
  slotFlags : List Nat
  copies : List (Nat × Nat)
  pageCopies : List (Nat × Nat)
  bufferSlotIds : List Nat
  verbs : List RsVerb
  window : List (List Nat)
  windowCopies : List (Nat × Nat)
  snapshots : List RsSnapshot
  txn : Option RsPublished

def PreparedRs.default : PreparedRs := ⟨[], [], [], [], [], [], [], [], [], none⟩

/-- `list[index] = value`. -/
def assign {α : Type} (list : List α) (index : Nat) (value : α) : Except (Stop PrepareError) (List α) :=
  if index < list.length then .ok (list.set index value) else .error .panic

/-- The slot of one of a group's lanes: the first writes the state, the others
read what it held, or the zeros it starts from. -/
def laneSlot (state : Option RsStateTarget) (held : Option RsSlotId) (out : PreparedRs) (lane : Nat × Nat) :
    Except (Stop PrepareError) PreparedRs :=
  match lane.2, state, held with
  | 0, some state, _ => do
    let slotIds ← assign out.slotIds lane.1 state.slot.index
    let slotFlags ← if state.reset then assign out.slotFlags lane.1 RS_FLAG_RESET else .ok out.slotFlags
    let copies := out.copies ++ (state.copyFrom.map fun src => (src.index, state.slot.index)).toList
    return { out with slotIds, slotFlags, copies }
  | _ + 1, some state, none => do
    let slotIds ← assign out.slotIds lane.1 state.slot.index
    return { out with slotIds, slotFlags := ← assign out.slotFlags lane.1 RS_FLAG_RESET }
  | _, _, some slot => do
    return { out with slotIds := ← assign out.slotIds lane.1 slot.index }
  | _, _, none => .ok out

/-- Records what the batch hands the engine as read by its last fire. -/
def noteReads (s : RsStore) (published : RsPublished) (out : PreparedRs) : RsStore :=
  match published.seqs.getLast? with
  | none => s
  | some seq =>
    let verbPages := out.verbs.flatMap fun verb => match verb with
      | .buffer pages _ _ _ => pages
      | .fold => []
    let live (id : Nat) : Bool := id ≠ 0 && id ≠ RsStore.RS_TRANSLATION_UNMAPPED
    let slots := (out.slotIds ++ out.bufferSlotIds ++ out.copies.map Prod.fst).filter live
    let pages := (out.window.flatten ++ out.pageCopies.map Prod.fst ++ verbPages).filter live
    s.noteReads seq (slots.map RsSlotId.mk ++ pages.map s.pageId)

/-! ## Preparing -/

/-- A program of the store, with its errors as those of the preparation. -/
def onStore {α : Type} (x : Act RsError α) : Act PrepareError α := fun held =>
  match x held with
  | .ok a held => .ok a held
  | .error e held => .error (asStore e) held

def liftP {α : Type} (x : Except (Stop PrepareError) α) : Act PrepareError α := RsStore.lift x

/-- `x`, and where it fails what the store is then. -/
def orElseCancel {ε α : Type} (x : Act ε α) (cancel : RsStore → RsStore) : Act ε α := fun held =>
  match x held with
  | .ok a held => .ok a held
  | .error (.error e) held => .error (.error e) { held with store := cancel held.store }
  | .error .panic held => .error .panic held

/-- A group, and the slots its snapshots land in. -/
def prepareWrite (group : GroupPlan) (ws : RsWorkingSetId) : Act PrepareError RsPreparedWrite := do
  let plan ← liftP (group.write (← get).store ws)
  let write ← onStore (RsStore.prepareGroup ws plan.writeState plan.fresh plan.fold plan.writes)
  orElseCancel (onStore (RsStore.prepareSnapshots write group.snapshots)) fun s => s.cancelPrepared write

/-- Errors of a group name its lanes. -/
def nameLanes {α : Type} (lanes : List Nat) (x : Act PrepareError α) : Act PrepareError α := fun held =>
  match x held with
  | .ok a held => .ok a held
  | .error (.error e) held => .error (.error (.lanes lanes e)) held
  | .error .panic held => .error .panic held

/-- What the loop over the groups carries. -/
structure Preparing where
  out : PreparedRs
  prepared : List RsPreparedWrite

def prepareOne (workingSets : List RsWorkingSetId) (p : Preparing) (group : GroupPlan) : Act PrepareError Preparing := do
  let ws ← liftP (setOf workingSets group)
  let held ← liftP (orFail ((← get).store.foldedSlot ws))
  let write ← nameLanes group.lanes
    (orElseCancel (prepareWrite group ws) fun s => s.cancelBatch p.prepared)
  let out ← liftP (group.lanes.zipIdx.foldlM (laneSlot write.state held) p.out)
  let s := (← get).store
  return {
    out := { out with
      bufferSlotIds := out.bufferSlotIds ++ write.buffers.map fun target => target.dst.index
      pageCopies := out.pageCopies ++ write.buffers.filterMap fun target =>
        target.src.map fun src => (s.engineId src, s.engineId target.dst) }
    prepared := p.prepared ++ [write] }

/-- The lanes of a group read the buffer as the fire found it. -/
def readBuffer (workingSets : List RsWorkingSetId) (s : RsStore) (verbs : List RsVerb) (group : GroupPlan) :
    Except (Stop PrepareError) (List RsVerb) :=
  if group.writes.isNone then .ok verbs
  else do
    let ws ← setOf workingSets group
    let pages ← orFail (s.bufferTranslation ws)
    let base ← orFail (s.base ws)
    let folded ← orFail (s.frozen ws)
    group.lanes.zipIdx.foldlM (fun verbs lane =>
      let fold := match lane.2, group.fold with
        | 0, .host count => .host count
        | 0, .device => .device
        | _, _ => .host 0
      assign verbs lane.1 (.buffer pages base folded fold)) verbs

def prepareGroups (workingSets : List RsWorkingSetId) (groups : List GroupPlan) : Act PrepareError PreparedRs := do
  let lanes := workingSets.length
  let out := { PreparedRs.default with
    verbs := List.replicate lanes .fold, slotIds := List.replicate lanes 0, slotFlags := List.replicate lanes 0 }
  let p ← groups.foldlM (prepareOne workingSets) ⟨out, []⟩
  let (published, folds) ← onStore (RsStore.publishBatch p.prepared)
  let s := (← get).store
  let verbs ← orElseCancel (liftP (groups.foldlM (readBuffer workingSets s) p.out.verbs))
    fun s => (s.commitFolds folds).settle published
  let out := { p.out with verbs }
  modify fun held => { held with store := (noteReads held.store published out).commitFolds folds }
  return { out with snapshots := published.snapshots, txn := some published }

def prepareRow (prepared : List RsPreparedWrite) (row : Nat × RsWorkingSetId × RingRow) :
    Act PrepareError (List RsPreparedWrite) := fun held =>
  match RsStore.prepareRing row.2.1 row.2.2.pages held with
  | .ok write held => .ok (prepared ++ [write]) held
  | .error (.error e) held => .error (.error (.row row.1 e)) { held with store := held.store.cancelBatch prepared }
  | .error .panic held => .error .panic held

def prepareRingRows (workingSets : List RsWorkingSetId) (rows : List RingRow) : Act PrepareError PreparedRs := do
  if rows.length ≠ workingSets.length then throw (.error (.rows rows.length workingSets.length))
  let sets := workingSets.zip rows
  let prepared ← (sets.zipIdx.map fun e => (e.2, e.1)).foldlM prepareRow []
  let s := (← get).store
  let windowCopies := prepared.flatMap fun write => write.buffers.filterMap fun target =>
    target.src.map fun src => (s.engineId src, s.engineId target.dst)
  let (published, folds) ← onStore (RsStore.publishBatch prepared)
  modify fun held => { held with store := held.store.commitFolds folds }
  let s := (← get).store
  let window ← liftP (sets.mapM fun e => orFail (s.ringTranslation e.1 e.2.translate))
  let out := { PreparedRs.default with window, windowCopies }
  let moved := sets.foldlM (fun (s : RsStore) e => s.ringAdvance e.1 e.2.advance e.2.translate) (noteReads s published out)
  match moved with
  | some s =>
    modify fun held => { held with store := s }
    return { out with txn := some published }
  | none => throw .panic

/-- The first lane that names an earlier lane's working set. -/
def repeatedSet (workingSets : List RsWorkingSetId) : Option Nat :=
  (workingSets.zipIdx.find? fun e => (workingSets.take e.2).contains e.1).map Prod.snd

def prepareMany (workingSets : List RsWorkingSetId) (plan : RsPlan) : Act PrepareError PreparedRs :=
  if workingSets.isEmpty then return .default
  else match plan with
    | .ring rows =>
      match repeatedSet workingSets with
      | some lane => throw (.error (.earlierSet lane))
      | none => prepareRingRows workingSets rows
    | .groups groups => prepareGroups workingSets groups

end Pie.Store.Rs
