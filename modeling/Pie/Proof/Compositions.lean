import Pie.Exec.Compose
import Pie.Lib.Tallies
import Pie.Proof.ArenaLives
import Pie.Proof.Seriation

/-!
# Composed fires hold together

The windows of an axis follow each other in the order of the classes and hold all
of its rows, every lane is in the composition once, and an axis that has no rows
says nothing of any lane. So the order of the classes can be told from the
windows, and the totals from the lanes.
-/

namespace Pie.Proof.Compositions

open List Pie.Exec Poem Layout Lib Lib.Fallible Lib.Tallies UInt32

/-! ## Tallies -/

variable {compiled : CompiledModel} {ladder voxelLadder : Option Ladder} (axis : RowAxis)

/-- The rows of a lane on an axis. -/
def rowsOn (lane : Lane) : Nat := (lane.on axis).1.toNat

def itemsOn (lane : Lane) : Nat := (lane.on axis).2.toNat

/-- The rows of the lanes of one class. -/
def rowsIn (lanes : List Classed) (c : Nat) : Nat :=
  ((labelled Prod.snd c lanes).map fun l => rowsOn axis l.1).sum

def itemsIn (lanes : List Classed) (c : Nat) : Nat :=
  ((labelled Prod.snd c lanes).map fun l => itemsOn axis l.1).sum

/-- All rows that the lanes have. -/
def rowsAll (lanes : List Classed) : Nat := (lanes.map fun l => rowsOn axis l.1).sum

def itemsAll (lanes : List Classed) : Nat := (lanes.map fun l => itemsOn axis l.1).sum

/-- What is checked of the lanes of a fire: their classes are there, and they have rows where they have items. -/
structure Fed (axis : RowAxis) (count : Nat) (lanes : List Classed) : Prop where
  below : ∀ l ∈ lanes, l.2 < count
  paired : ∀ l ∈ lanes, rowsOn axis l.1 = 0 ↔ itemsOn axis l.1 = 0

section

variable {axis : RowAxis} {count c : Nat} {lanes : List Classed}

theorem foldl_pair {α : Type} {f g : α → Nat} {xs : List α} {z : Nat × Nat} :
    xs.foldl (fun t x => (t.1 + f x, t.2 + g x)) z = (z.1 + (xs.map f).sum, z.2 + (xs.map g).sum) := by
  induction xs generalizing z with
  | nil => rfl
  | cons x xs ih =>
    rw [foldl_cons, ih, map_cons, sum_cons, map_cons, sum_cons, add_assoc, add_assoc]

theorem totalled_eq : totalled axis (lanes.map Prod.fst) = (rowsAll axis lanes, itemsAll axis lanes) := by
  rw [totalled, foldl_map]
  refine (foldl_pair (f := fun l : Classed => rowsOn axis l.1) (g := fun l => itemsOn axis l.1)).trans ?_
  rw [zero_add, zero_add]
  rfl

theorem tallied_eq :
    tallied axis count lanes = (range count).map fun c => (rowsIn axis lanes c, itemsIn axis lanes c) := by
  refine (foldl_modify (fun t (l : Classed) => (t.1 + rowsOn axis l.1, t.2 + itemsOn axis l.1)) (0, 0) count lanes).trans ?_
  refine map_congr_left fun c _ => ?_
  rw [foldl_pair, zero_add, zero_add]
  rfl

theorem tallied_length : (tallied axis count lanes).length = count := by
  rw [tallied_eq, length_map, length_range]

theorem tallied_getD (h : c < count) :
    (tallied axis count lanes).getD c (0, 0) = (rowsIn axis lanes c, itemsIn axis lanes c) := by
  rw [tallied_eq, getD_eq_getElem?_getD, getElem?_map, getElem?_range h, Option.map_some, Option.getD_some]

theorem rowsIn_eq_zero (h : Fed axis count lanes) : rowsIn axis lanes c = 0 ↔ itemsIn axis lanes c = 0 := by
  rw [rowsIn, itemsIn, sum_eq_zero_iff, sum_eq_zero_iff, forall_mem_map, forall_mem_map]
  have hmem (l : Classed) (hl : l ∈ labelled Prod.snd c lanes) : l ∈ lanes := (mem_filter.mp hl).1
  exact ⟨fun hz l hl => (h.paired l (hmem l hl)).mp (hz l hl), fun hz l hl => (h.paired l (hmem l hl)).mpr (hz l hl)⟩

/-- The rows of all classes are those of all lanes. -/
theorem sum_rowsIn (h : Fed axis count lanes) : ((range count).map (rowsIn axis lanes)).sum = rowsAll axis lanes :=
  sum_labelled nodup_range (fun l hl => mem_range.mpr (h.below l hl)) fun l => rowsOn axis l.1

end

/-- The classes with a property, in the order of the plan. -/
theorem classOrder_of {count : Nat} {plan : ClassOrder} {p : Nat → Bool} (hcount : count ≤ 256) (horders : Orders count plan) :
    (plan.classOrder (ClassSet.of ((range count).filter p))).Nodup
      ∧ ∀ c, c ∈ plan.classOrder (ClassSet.of ((range count).filter p)) ↔ c < count ∧ p c = true := by
  have hmem (c : Nat) : (ClassSet.of ((range count).filter p)).contains c = true ↔ c < count ∧ p c = true := by
    rw [Lifetimes.contains_of, mem_filter, mem_range]
  cases plan with
  | identity =>
    have hid : (classesOf (ClassSet.of ((range count).filter p))).map (· % 256)
        = classesOf (ClassSet.of ((range count).filter p)) := by
      refine (map_congr_left fun c hc => ?_).trans (map_id _)
      have hlt := ((hmem c).mp (Seriation.mem_classesOf.mp hc)).1
      exact Nat.mod_eq_of_lt (lt_of_lt_of_le hlt hcount)
    show (_ : List Nat).Nodup ∧ ∀ c, c ∈ map (· % 256) _ ↔ _
    rw [ClassOrder.classOrder, hid]
    exact ⟨Seriation.nodup_classesOf _, fun c => Seriation.mem_classesOf.trans (hmem c)⟩
  | seriated tree =>
    have hnd : tree.frontier.Nodup := horders.nodup_iff.mpr nodup_range
    refine ⟨hnd.filter _, fun c => ?_⟩
    rw [ClassOrder.classOrder, mem_filter, hmem, horders.mem_iff, mem_range]
    exact ⟨And.right, fun h => ⟨h.1, h⟩⟩

/-! ## Windows -/

open WindowTable (cls)

/-- The rows of an axis that the classes of an order take. -/
def rowsOver (lanes : List Classed) (order : List Nat) : Nat := (order.map (rowsIn axis lanes)).sum

section

variable {axis : RowAxis} {count : Nat} {lanes : List Classed} {order : List Nat} {st : Placing} {c : Nat}

/-- Every class in turn is given its window. -/
def place (axis : RowAxis) (count : Nat) (lanes : List Classed) (st : Placing) (order : List Nat) : Placing :=
  order.foldl (placeClass axis (tallied axis count lanes) lanes) st

theorem placeClass_rowAt (hc : c < count) :
    (placeClass axis (tallied axis count lanes) lanes st c).rowAt = st.rowAt + .ofNat (rowsIn axis lanes c) := by
  unfold placeClass
  rw [tallied_getD hc]

theorem placeClass_classes (hc : c < count) : (placeClass axis (tallied axis count lanes) lanes st c).classes
      = st.classes.set c ⟨st.rowAt, .ofNat (rowsIn axis lanes c), st.laneAt, .ofNat (itemsIn axis lanes c)⟩ := by
  unfold placeClass
  rw [tallied_getD hc]

theorem place_cons : place axis count lanes st (c :: order)
    = place axis count lanes (placeClass axis (tallied axis count lanes) lanes st c) order := rfl

theorem place_length (hbelow : ∀ c ∈ order, c < count) :
    (place axis count lanes st order).classes.length = st.classes.length := by
  induction order generalizing st with
  | nil => rfl
  | cons c order ih =>
    obtain ⟨hc, hbelow⟩ := forall_mem_cons.mp hbelow
    rw [place_cons, ih hbelow, placeClass_classes hc, length_set]

theorem place_keep (hbelow : ∀ c ∈ order, c < count) (hnot : c ∉ order) :
    cls (place axis count lanes st order).classes c = cls st.classes c := by
  induction order generalizing st with
  | nil => rfl
  | cons c' order ih =>
    obtain ⟨hc', hbelow⟩ := forall_mem_cons.mp hbelow
    rw [mem_cons, not_or] at hnot
    rw [place_cons, ih hbelow hnot.2, placeClass_classes hc', cls, cls, getD_eq_getElem?_getD,
      getElem?_set_ne (Ne.symm hnot.1), ← getD_eq_getElem?_getD]

/-- What is placed first begins where the state stands. -/
theorem place_head (hbelow : ∀ b ∈ c :: order, b < count) (hnd : (c :: order).Nodup) (hlen : st.classes.length = count) :
    cls (place axis count lanes st (c :: order)).classes c
      = ⟨st.rowAt, .ofNat (rowsIn axis lanes c), st.laneAt, .ofNat (itemsIn axis lanes c)⟩ := by
  obtain ⟨hc, hbelow⟩ := forall_mem_cons.mp hbelow
  rw [place_cons, place_keep hbelow (nodup_cons.mp hnd).1, placeClass_classes hc, cls, getD_eq_getElem?_getD,
    getElem?_set_self (hlen.symm ▸ hc), Option.getD_some]

theorem place_rows (hbelow : ∀ c ∈ order, c < count) (hnd : order.Nodup) (hlen : st.classes.length = count) (hmem : c ∈ order) :
    (cls (place axis count lanes st order).classes c).rows = .ofNat (rowsIn axis lanes c) := by
  induction order generalizing st with
  | nil => exact absurd hmem not_mem_nil
  | cons c' order ih =>
    rcases mem_cons.mp hmem with rfl | hmem
    · rw [place_head hbelow hnd hlen]
    · obtain ⟨hc', hbelow⟩ := forall_mem_cons.mp hbelow
      rw [place_cons]
      exact ih hbelow (nodup_cons.mp hnd).2 (by rw [placeClass_classes hc', length_set, hlen]) hmem

/-- Windows follow each other in the order in which the classes are placed. -/
theorem place_sorted (hbelow : ∀ c ∈ order, c < count) (hnd : order.Nodup) (hlen : st.classes.length = count)
    (hpos : ∀ c ∈ order, 0 < rowsIn axis lanes c) (hfits : st.rowAt.toNat + rowsOver axis lanes order < 2 ^ 32) :
    (∀ c ∈ order, st.rowAt.toNat ≤ (cls (place axis count lanes st order).classes c).rowOffset.toNat)
      ∧ order.Pairwise fun a b => (cls (place axis count lanes st order).classes a).rowOffset.toNat
          < (cls (place axis count lanes st order).classes b).rowOffset.toNat := by
  induction order generalizing st with
  | nil => exact ⟨fun c hc => absurd hc not_mem_nil, Pairwise.nil⟩
  | cons c order ih =>
    have hhead : cls (place axis count lanes st (c :: order)).classes c = _ := place_head hbelow hnd hlen
    obtain ⟨hc, hbelow⟩ := forall_mem_cons.mp hbelow
    obtain ⟨hfirst, hpos⟩ := forall_mem_cons.mp hpos
    rw [rowsOver, map_cons, sum_cons] at hfits
    have hat : (placeClass axis (tallied axis count lanes) lanes st c).rowAt.toNat = st.rowAt.toNat + rowsIn axis lanes c := by
      have hrows : rowsIn axis lanes c < size := by
        show _ < 2 ^ 32
        omega
      rw [placeClass_rowAt hc, UInt32.toNat_add, UInt32.toNat_ofNat_of_lt' hrows, Nat.mod_eq_of_lt (by omega)]
    have hlen' : (placeClass axis (tallied axis count lanes) lanes st c).classes.length = count := by
      rw [placeClass_classes hc, length_set, hlen]
    obtain ⟨hfrom, hsorted⟩ := ih hbelow (nodup_cons.mp hnd).2 hlen' hpos (by rw [hat, rowsOver]; omega)
    rw [← place_cons] at hfrom hsorted
    refine ⟨forall_mem_cons.mpr ⟨by rw [hhead], fun b hb => ?_⟩, pairwise_cons.mpr ⟨fun b hb => ?_, hsorted⟩⟩
    · have := hfrom b hb
      omega
    · have := hfrom b hb
      rw [hhead]
      show st.rowAt.toNat < _
      omega

end

/-! ## Axes -/

/-- An axis of a composed fire: its windows hold its rows, and tell the order of its classes. -/
structure Seriated (axis : RowAxis) (count : Nat) (lanes : List Classed)
    (result : AxisComposition × List (UInt32 × UInt32)) : Prop where
  length : result.1.classes.classes.length = count
  rows : result.1.rows = .ofNat (rowsAll axis lanes)
  items : result.1.lanes = .ofNat (itemsAll axis lanes)
  table : WindowTable.new result.1.classes.classes = result.1.classes
  nodup : result.1.classes.order.Nodup
  present : ∀ c < count, 0 < rowsIn axis lanes c → c ∈ result.1.classes.order
  counted : (result.1.classes.classes.map fun w => w.rows.toNat).sum = rowsAll axis lanes
  blank : rowsAll axis lanes = 0 → result.1.classes.classes = List.replicate count default
    ∧ result.2 = List.replicate lanes.length (0, 0)

theorem new_eq {classes : List ClassWindow} {order : List Nat} (hnd : order.Nodup)
    (hmem : ∀ c, c ∈ order ↔ c < classes.length ∧ 0 < (cls classes c).rows)
    (hsorted : order.Pairwise fun a b => (cls classes a).rowOffset.toNat < (cls classes b).rowOffset.toNat) :
    WindowTable.new classes = ⟨classes, order⟩ := by
  unfold WindowTable.new
  congr 1
  let before := fun a b : Nat => (cls classes a).rowOffset ≤ (cls classes b).rowOffset
  have hperm : (((range classes.length).filter fun c => decide (0 < (cls classes c).rows)).insertionSort before).Perm order := by
    refine (perm_insertionSort _ _).trans ((perm_ext_iff_of_nodup (nodup_range.filter _) hnd).mpr fun c => ?_)
    rw [mem_filter, mem_range, decide_eq_true_eq, hmem]
  refine hperm.eq_of_pairwise (fun a b ha hb hab hba => ?_) (pairwise_insertionSort before _)
    (hsorted.imp fun h => le_iff_toNat_le.mpr (le_of_lt h))
  -- two classes of the order begin apart
  by_contra hne
  have hsymm : Std.Symm fun a b => (cls classes a).rowOffset ≠ (cls classes b).rowOffset := ⟨fun a b => Ne.symm⟩
  have happart : order.Pairwise fun a b => (cls classes a).rowOffset ≠ (cls classes b).rowOffset :=
    hsorted.imp fun h he => ne_of_lt h (congrArg toNat he)
  exact happart.forall (hperm.mem_iff.mp ha) hb hne (UInt32.le_antisymm hab hba)

/-- Without items on an axis nothing is placed on it. -/
theorem seriateAxis_blank {axis : RowAxis} {count : Nat} {lanes : List Classed} {plan : Option ClassOrder}
    {totals : UInt32 × UInt32} {bucket : UInt32} (hcount : count ≤ 256) (horders : ∀ order ∈ plan, Orders count order)
    (hnone : ∀ c, itemsIn axis lanes c = 0) :
    seriateAxis plan axis (tallied axis count lanes) lanes totals bucket
      = (⟨⟨replicate count default, []⟩, totals.1, totals.2, bucket⟩, replicate lanes.length (0, 0)) := by
  unfold seriateAxis
  cases plan with
  | none => rw [tallied_length]
  | some plan =>
    have horder : plan.classOrder (ClassSet.of ((range count).filter fun c =>
        decide (0 < ((tallied axis count lanes).getD c (0, 0)).2))) = [] := by
      refine eq_nil_iff_forall_not_mem.mpr fun c hc => ?_
      obtain ⟨hlt, hpos⟩ := ((classOrder_of hcount (horders plan rfl)).2 c).mp hc
      rw [tallied_getD hlt, hnone c] at hpos
      exact absurd (of_decide_eq_true hpos) (lt_irrefl 0)
    rw [tallied_length]
    dsimp only
    rw [horder]
    rfl

section

variable {axis : RowAxis} {count : Nat} {lanes : List Classed} {order : List Nat}

section

variable (hfed : Fed axis count lanes)
include hfed

theorem rowsIn_le {c : Nat} (hc : c < count) : rowsIn axis lanes c ≤ rowsAll axis lanes := by
  rw [← sum_rowsIn hfed]
  exact single_le_sum (fun _ _ => Nat.zero_le _) _ (mem_map_of_mem (mem_range.mpr hc))

theorem rowsOver_le (hnd : order.Nodup) (hbelow : ∀ c ∈ order, c < count) :
    rowsOver axis lanes order ≤ rowsAll axis lanes := by
  have hsub : order.toFinset ⊆ (range count).toFinset := fun c hc =>
    mem_toFinset.mpr (mem_range.mpr (hbelow c (mem_toFinset.mp hc)))
  rw [rowsOver, ← sum_toFinset _ hnd, ← sum_rowsIn hfed, ← sum_toFinset _ nodup_range]
  exact Finset.sum_le_sum_of_subset hsub

theorem rowsAll_eq_zero : rowsAll axis lanes = 0 ↔ ∀ c, itemsIn axis lanes c = 0 := by
  constructor
  · intro hzero c
    rw [rowsAll, sum_eq_zero_iff, forall_mem_map] at hzero
    rw [← rowsIn_eq_zero hfed, rowsIn, sum_eq_zero_iff, forall_mem_map]
    exact fun l hl => hzero l (mem_filter.mp hl).1
  · intro hzero
    rw [← sum_rowsIn hfed, sum_eq_zero_iff, forall_mem_map]
    exact fun c _ => (rowsIn_eq_zero hfed).mpr (hzero c)

/-- What placing the classes that have rows gives. -/
theorem place_seriated (hfits : rowsAll axis lanes < 2 ^ 32) (hnd : order.Nodup)
    (hmem : ∀ c, c ∈ order ↔ c < count ∧ 0 < itemsIn axis lanes c) {st : Placing} {bucket : UInt32}
    (hst : st = place axis count lanes ⟨0, 0, replicate count default, replicate lanes.length (0, 0)⟩ order)
    (hsome : rowsAll axis lanes ≠ 0) :
    Seriated axis count lanes
      (⟨⟨st.classes, order⟩, .ofNat (rowsAll axis lanes), .ofNat (itemsAll axis lanes), bucket⟩, st.placed) := by
  have hbelow : ∀ c ∈ order, c < count := fun c hc => ((hmem c).mp hc).1
  have hpos : ∀ c ∈ order, 0 < rowsIn axis lanes c := fun c hc =>
    Nat.pos_of_ne_zero fun h => ne_of_gt ((hmem c).mp hc).2 ((rowsIn_eq_zero hfed).mp h)
  have hlen : st.classes.length = count := by
    rw [hst, place_length hbelow, length_replicate]
  have hrows (c : Nat) (hc : c < count) : (cls st.classes c).rows.toNat = rowsIn axis lanes c := by
    have hsmall : rowsIn axis lanes c < size := lt_of_le_of_lt (rowsIn_le hfed hc) hfits
    by_cases hin : c ∈ order
    · rw [hst, place_rows hbelow hnd length_replicate hin, toNat_ofNat_of_lt' hsmall]
    · -- a class that is not placed keeps the empty window
      have hnone : rowsIn axis lanes c = 0 := (rowsIn_eq_zero hfed).mpr (by
        rw [hmem] at hin
        omega)
      rw [hst, place_keep hbelow hin, hnone, cls, getD_eq_getElem?_getD, getElem?_replicate, if_pos hc]
      rfl
  have hsorted : order.Pairwise fun a b => (cls st.classes a).rowOffset.toNat < (cls st.classes b).rowOffset.toNat := by
    rw [hst]
    refine (place_sorted hbelow hnd length_replicate hpos (lt_of_le_of_lt ?_ hfits)).2
    rw [UInt32.toNat_zero, zero_add]
    exact rowsOver_le hfed hnd hbelow
  refine ⟨hlen, rfl, rfl, new_eq hnd (fun c => ?_) hsorted, hnd, fun c hc hr => (hmem c).mpr ⟨hc, ?_⟩, ?_,
    fun hzero => absurd hzero hsome⟩
  · rw [hmem, hlen]
    refine and_congr_right fun hc => ?_
    rw [UInt32.lt_iff_toNat_lt, UInt32.toNat_zero, hrows c hc, Nat.pos_iff_ne_zero, Nat.pos_iff_ne_zero, ne_eq, ne_eq,
      rowsIn_eq_zero hfed]
  · exact Nat.pos_of_ne_zero fun h => ne_of_gt hr ((rowsIn_eq_zero hfed).mpr h)
  · rw [← sum_rowsIn hfed]
    refine congrArg sum (ext_getElem (by simp [hlen]) fun c hc _ => ?_)
    rw [length_map] at hc
    rw [getElem_map, getElem_map, getElem_range, ← hrows c (hlen ▸ hc), cls, getD_eq_getElem?_getD,
      getElem?_eq_getElem hc, Option.getD_some]

end

/-- **Every axis of a fire is seriated.** -/
theorem seriateAxis_spec {plan : Option ClassOrder} {bucket : UInt32} (hcount : count ≤ 256)
    (horders : ∀ order ∈ plan, Orders count order) (hfed : Fed axis count lanes)
    (hplan : plan = none → ∀ l ∈ lanes, itemsOn axis l.1 = 0) (hfits : rowsAll axis lanes < 2 ^ 32) :
    Seriated axis count lanes (seriateAxis plan axis (tallied axis count lanes) lanes
      (.ofNat (rowsAll axis lanes), .ofNat (itemsAll axis lanes)) bucket) := by
  by_cases hzero : rowsAll axis lanes = 0
  · rw [seriateAxis_blank hcount horders ((rowsAll_eq_zero hfed).mp hzero)]
    refine ⟨length_replicate, rfl, rfl, ?_, nodup_nil, fun c hc hr => ?_, ?_, fun _ => ⟨rfl, rfl⟩⟩
    · refine new_eq nodup_nil (fun c => ?_) Pairwise.nil
      refine iff_of_false not_mem_nil fun h => ?_
      rw [cls, getD_eq_getElem?_getD, getElem?_replicate] at h
      split at h <;> exact absurd h.2 (by decide)
    · exact absurd ((rowsIn_eq_zero hfed).mpr ((rowsAll_eq_zero hfed).mp hzero c)) (ne_of_gt hr)
    · rw [hzero, map_replicate]
      exact sum_eq_zero fun n hn => (mem_replicate.mp hn).2
  · cases plan with
    | none =>
      refine absurd ((rowsAll_eq_zero hfed).mpr fun c => ?_) hzero
      rw [itemsIn, sum_eq_zero_iff, forall_mem_map]
      exact fun l hl => hplan rfl l (mem_filter.mp hl).1
    | some plan =>
      have horder := classOrder_of (p := fun c => decide (0 < ((tallied axis count lanes).getD c (0, 0)).2)) hcount
        (horders plan rfl)
      have hmem (c : Nat) := (horder.2 c).trans (and_congr_right fun hc : c < count => by
        rw [decide_eq_true_eq, tallied_getD hc])
      unfold seriateAxis
      dsimp only
      rw [tallied_length]
      exact place_seriated hfed hfits horder.1 hmem rfl hzero

end

/-! ## Lanes -/

section

variable {compiled : CompiledModel} {ladder voxelLadder : Option Ladder} {i cl : Nat} {lane : Lane}

/-- What is checked of a lane whose class is found. -/
theorem laneClass_cases (h : laneClass compiled ladder voxelLadder i lane = .ok cl) :
    cl < compiled.classes.classes.length
      ∧ (∀ axis, rowsOn axis lane = 0 ↔ itemsOn axis lane = 0)
      ∧ (∀ axis, compiled.orderFor axis = none → itemsOn axis lane = 0)
      ∧ itemsOn .tokens lane = 1 := by
  unfold laneClass at h
  split at h
  · cases h
  split at h
  · cases h
  split at h
  · cases h
  split at h
  · cases h
  split at h
  · cases h
  split at h
  · cases h
  split at h
  · cases h
  rename_i hrows hpatches hpatchPlan _ hvoxels hvoxelPlan _
  split at h
  · rename_i cl' hclass
    cases h
    have hzero (a : UInt32) : a.toNat = 0 ↔ a = 0 := @UInt32.toNat_inj a 0
    have hpair {a b : UInt32} (hne : ¬(decide (a = 0) ≠ decide (b = 0))) : b.toNat = 0 ↔ a.toNat = 0 := by
      rw [hzero, hzero]
      exact (decide_eq_decide.mp (not_not.mp hne)).symm
    have hplan {a : UInt32} {plan : Option ClassOrder} (hno : ¬(0 < a ∧ plan.isNone = true)) (hnone : plan = none) : a.toNat = 0 := by
      rw [hnone] at hno
      have := lt_iff_toNat_lt.not.mp fun hlt => hno ⟨hlt, rfl⟩
      exact Nat.eq_zero_of_not_pos this
    refine ⟨(findIdx?_eq_some_iff_getElem.mp hclass).1, fun axis => ?_, fun axis hnone => ?_, rfl⟩
    · cases axis with
      | tokens => exact iff_of_false (fun h => hrows ((hzero _).mp h)) Nat.one_ne_zero
      | patches => exact hpair hpatches
      | voxels => exact hpair hvoxels
    · cases axis with
      | tokens => cases hnone
      | patches => exact hplan hpatchPlan hnone
      | voxels => exact hplan hvoxelPlan hnone
  · cases h

end

/-- A composed fire: its axes, and its lanes taken class by class. -/
structure Composed (count : Nat) (lanes : List Classed) (placed : PerAxis (List (UInt32 × UInt32))) (c : Composition) : Prop where
  few : lanes.length < 2 ^ 32
  counted : count ≤ 256
  fed : ∀ axis, Fed axis count lanes
  fits : ∀ axis, rowsAll axis lanes < 2 ^ 32
  axes : ∀ axis, Seriated axis count lanes (c.axes.get axis, placed.get axis)
  onTokens : ∀ l ∈ lanes, itemsOn .tokens l.1 = 1
  lanes : c.lanes = c.axes.tokens.classes.order.flatMap fun k =>
    (labelled (fun l : Classed × Nat => l.1.2) k lanes.zipIdx).map fun l => laneRow placed l.2 l.1

theorem of_guard {ε α : Type} {p : Prop} [Decidable p] {e : ε} {f : Unit → Except ε α} {a : α}
    (h : (if p then Except.error e >>= f else f ()) = .ok a) : ¬p ∧ f () = .ok a := by
  split at h
  · cases h
  · exact ⟨‹¬p›, h⟩

/-- The lanes that were given, each with the class that was found for it. -/
theorem classed_spec {lanes : List Lane} {ofLane : List Nat}
    (h : (lanes.zipIdx.mapM fun l => laneClass compiled ladder voxelLadder l.2 l.1) = .ok ofLane) :
    (lanes.zip ofLane).map Prod.fst = lanes
      ∧ ∀ l ∈ lanes.zip ofLane, ∃ i, laneClass compiled ladder voxelLadder i l.1 = .ok l.2 := by
  have hall := mapM_eq_ok.mp h
  have hlen : ofLane.length = lanes.length := (mapM_length h).trans length_zipIdx
  refine ⟨map_fst_zip hlen.ge, fun l hl => ?_⟩
  obtain ⟨i, hi, he⟩ := getElem_of_mem hl
  have hi' : i < lanes.zipIdx.length := by
    rw [length_zip] at hi
    rw [length_zipIdx]
    omega
  have hat := forall₂_iff_get.mp hall |>.2 i hi' (by rw [length_zip] at hi; omega)
  rw [getElem_zip] at he
  rw [get_eq_getElem, get_eq_getElem, getElem_zipIdx] at hat
  exact ⟨0 + i, he ▸ hat⟩

theorem seriate_composed {budget : Exec.Budget} {lanes : List Lane}
    {c : Composition} (h : Exec.seriate compiled budget ladder voxelLadder lanes = .ok c) :
    ∃ classed placed, Composed compiled.classes.classes.length classed placed c := by
  unfold Exec.seriate at h
  obtain ⟨hfew, h⟩ := of_guard h
  obtain ⟨ofLane, hclassed, h⟩ := bind_eq_ok.mp h
  obtain ⟨hrows, h⟩ := of_guard h
  obtain ⟨hpatches, h⟩ := of_guard h
  obtain ⟨-, h⟩ := of_guard h
  obtain ⟨hvoxels, h⟩ := of_guard h
  obtain ⟨-, h⟩ := of_guard h
  obtain ⟨tokenBucket, -, h⟩ := bind_eq_ok.mp h
  obtain ⟨patchBucket, -, h⟩ := bind_eq_ok.mp h
  obtain ⟨voxelBucket, -, h⟩ := bind_eq_ok.mp h
  obtain ⟨hfst, hlanes⟩ := classed_spec hclassed
  have hlane (l : Classed) (hl : l ∈ lanes.zip ofLane) := laneClass_cases (hlanes l hl).choose_spec
  have hfed (axis : RowAxis) : Fed axis compiled.classes.classes.length (lanes.zip ofLane) :=
    ⟨fun l hl => (hlane l hl).1, fun l hl => (hlane l hl).2.1 axis⟩
  have horders (axis : RowAxis) : ∀ order ∈ compiled.orderFor axis, Orders compiled.classes.classes.length order := by
    cases axis with
    | tokens => exact fun order ho => Option.some.inj ho ▸ compiled.order_orders
    | patches => exact compiled.patches_orders
    | voxels => exact compiled.voxels_orders
  have htotal (axis : RowAxis) : totalled axis lanes = (rowsAll axis (lanes.zip ofLane), itemsAll axis (lanes.zip ofLane)) :=
    (congrArg (totalled axis) hfst.symm).trans totalled_eq
  have hlt (a : UInt32) {n : Nat} (hle : ¬a.toNat < n) : n < 2 ^ 32 := lt_of_le_of_lt (not_lt.mp hle) a.toNat_lt
  rw [htotal] at hrows hpatches hvoxels
  have hfits (axis : RowAxis) : rowsAll axis (lanes.zip ofLane) < 2 ^ 32 := by
    cases axis with
    | tokens => exact hlt _ hrows
    | patches => exact hlt _ hpatches
    | voxels => exact hlt _ hvoxels
  have hseriated (axis : RowAxis) (bucket : UInt32) : Seriated axis _ _ (_, _) :=
    @seriateAxis_spec _ _ _ _ bucket compiled.count_le (horders axis) (hfed axis)
      (fun hnone l hl => (hlane l hl).2.2.1 axis hnone) (hfits axis)
  dsimp only at h
  rw [htotal, htotal, htotal] at h
  cases h
  refine ⟨lanes.zip ofLane, ⟨_, _, _⟩, ?_, compiled.count_le, hfed, hfits, fun axis => ?_, fun l hl => (hlane l hl).2.2.2, rfl⟩
  · have := hlt _ hfew
    rw [length_zip]
    omega
  · cases axis with
    | tokens => exact hseriated .tokens tokenBucket
    | patches => exact hseriated .patches patchBucket
    | voxels => exact hseriated .voxels voxelBucket

namespace Composed

variable {count : Nat} {lanes : List Classed} {placed : PerAxis (List (UInt32 × UInt32))} {c : Composition}

section

variable (h : Composed count lanes placed c)
include h

theorem perm : c.lanes.Perm (lanes.zipIdx.map fun l => laneRow placed l.2 l.1) := by
  have hpresent (l : Classed × Nat) (hl : l ∈ lanes.zipIdx) : l.1.2 ∈ c.axes.tokens.classes.order := by
    have hmem : l.1 ∈ lanes := mem_of_getElem? (mem_zipIdx_iff_getElem?.mp hl)
    refine (h.axes .tokens).present _ ((h.fed .tokens).below l.1 hmem) (Nat.pos_of_ne_zero fun hzero => ?_)
    -- a lane has rows wherever it is
    rw [rowsIn_eq_zero (h.fed .tokens), itemsIn, sum_eq_zero_iff, forall_mem_map] at hzero
    have := hzero l.1 (mem_filter.mpr ⟨hmem, decide_eq_true rfl⟩)
    rw [h.onTokens l.1 hmem] at this
    exact Nat.one_ne_zero this
  rw [h.lanes, ← map_flatMap]
  exact (perm_flatMap_labelled (h.axes .tokens).nodup hpresent).map _

theorem length : c.lanes.length = lanes.length := by
  rw [h.perm.length_eq, length_map, length_zipIdx]

theorem sum_eq {f : LaneRow → Nat} {g : Lane → Nat}
    (hfg : ∀ i l, f (laneRow placed i l) = g l.1) : (c.lanes.map f).sum = (lanes.map fun l => g l.1).sum := by
  have hcomp : (f ∘ fun l : Classed × Nat => laneRow placed l.2 l.1) = (fun l : Classed => g l.1) ∘ Prod.fst :=
    funext fun l => hfg _ _
  rw [(h.perm.map f).sum_eq, map_map, hcomp, ← map_map, zipIdx_map_fst]

/-- A lane of the composition, where it was given. -/
theorem mem {lane : LaneRow} (hl : lane ∈ c.lanes) :
    ∃ l ∈ lanes, ∃ i < lanes.length, lane = laneRow placed i l := by
  obtain ⟨l, hgiven, rfl⟩ := mem_map.mp (h.perm.mem_iff.mp hl)
  have hat := mem_zipIdx_iff_getElem?.mp hgiven
  exact ⟨l.1, mem_of_getElem? hat, l.2, (List.getElem?_eq_some_iff.mp hat).1, rfl⟩

/-- Without rows on an axis nothing of it is said of a lane. -/
theorem blank {axis : RowAxis} (hzero : rowsAll axis lanes = 0) {l : Classed}
    (hl : l ∈ lanes) {i : Nat} (hi : i < lanes.length) :
    (l.1.on axis).1 = 0 ∧ (l.1.on axis).2 = 0 ∧ (placed.get axis).getD i (0, 0) = (0, 0) := by
  have hrows : rowsOn axis l.1 = 0 := by
    rw [rowsAll, sum_eq_zero_iff, forall_mem_map] at hzero
    exact hzero l hl
  refine ⟨UInt32.toNat_inj.mp hrows, UInt32.toNat_inj.mp (((h.fed axis).paired l hl).mp hrows), ?_⟩
  have hplaced : placed.get axis = _ := ((h.axes axis).blank hzero).2
  rw [hplaced, getD_eq_getElem?_getD, getElem?_replicate, if_pos hi, Option.getD_some]

end

end Composed

end Pie.Proof.Compositions
