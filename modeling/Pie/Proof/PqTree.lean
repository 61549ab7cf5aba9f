import Pie.Proof.PqAdmits
import Pie.Proof.PqReduce

/-!
# The orders a tree has been reduced to

After any reductions the tree stands for the orders of its leaves in which every
set that was accepted is a block. A set is accepted when there is such an order
in which it is one too.
-/

namespace Pie.Proof.PqTrees

open List Pie.Poem.Pq Lib.Blocks

theorem runsFrom_eq_zero {set : List Leaf} : ∀ {order : List Leaf} {inside : Bool},
    (runsFrom set inside order = 0 ↔ if inside then Starts set order else Clear set order) := by
  intro order
  induction order with
  | nil =>
    intro inside
    cases inside with
    | true => exact iff_of_true rfl clear_nil.starts
    | false => exact iff_of_true rfl clear_nil
  | cons a order ih =>
    intro inside
    have hsplit : a :: order = [a] ++ order := rfl
    unfold runsFrom
    rw [hsplit, starts_append, clear_append, Nat.add_eq_zero_iff, ih]
    by_cases ha : a ∈ set
    · have hclear : ¬Clear set [a] := fun h => h a mem_cons_self ha
      have hsolid : Solid set [a] := fun b hb => by rw [mem_singleton.mp hb]; exact ha
      cases inside <;> simp [ha, hclear, hsolid]
      exact fun _ hc => hc.starts
    · have hclear : Clear set [a] := fun b hb => by rw [mem_singleton.mp hb]; exact ha
      have hsolid : ¬Solid set [a] := fun h => ha (h a mem_cons_self)
      cases inside <;> simp [ha, hclear, hsolid, hclear.starts]

theorem runsFrom_le_one {set : List Leaf} : ∀ {order : List Leaf}, (runsFrom set false order ≤ 1 ↔ Block set order) := by
  intro order
  induction order with
  | nil => exact iff_of_true (Nat.zero_le _) clear_nil.block
  | cons a order ih =>
    have hsplit : a :: order = [a] ++ order := rfl
    unfold runsFrom
    rw [hsplit]
    by_cases ha : a ∈ set
    · have hclear : ¬Clear set [a] := fun h => h a mem_cons_self ha
      have hsolid : Solid set [a] := fun b hb => by rw [mem_singleton.mp hb]; exact ha
      have hzero := @runsFrom_eq_zero set order true
      rw [if_pos rfl] at hzero
      rw [block_append]
      simp only [ha, hclear, hsolid.block, hsolid.ends, decide_true, Bool.not_false, Bool.and_self, if_true,
        false_and, true_and, false_or]
      constructor
      · intro h
        exact .inr (hzero.mp (by omega))
      · rintro (h | h)
        · rw [hzero.mpr h.starts]
        · rw [hzero.mpr h]
    · have hclear : Clear set [a] := fun b hb => by rw [mem_singleton.mp hb]; exact ha
      rw [block_clear_append hclear, ← ih]
      simp [ha]

/-- **An interval of an order** is a set that is a block of it. -/
theorem isInterval_iff {order set : List Leaf} : isInterval order set = true ↔ Block set order := by
  unfold isInterval runs
  rw [decide_eq_true_eq, runsFrom_le_one]

theorem mem_seq_leaves {o : List Leaf} : ∀ {l : List Leaf}, o ∈ seq (l.map .leaf) ↔ o = l := by
  intro l
  induction l generalizing o with
  | nil => exact mem_seq_nil
  | cons a l ih =>
    rw [map_cons, mem_seq_cons]
    constructor
    · rintro ⟨x, hx, y, hy, rfl⟩
      rw [mem_orders_leaf.mp hx, ih.mp hy]
      rfl
    · rintro rfl
      exact ⟨[a], mem_orders_leaf.mpr rfl, l, ih.mpr rfl, rfl⟩

theorem mem_universe {n : Nat} {o : List Leaf} : o ∈ orders (.p ((range n).map .leaf)) ↔ o.Perm (range n) := by
  rw [mem_orders_p]
  constructor
  · rintro ⟨l, hl, ho⟩
    obtain ⟨l', hl', rfl⟩ := exists_perm_map hl
    rw [mem_seq_leaves.mp ho]
    exact hl'
  · exact fun h => ⟨o.map .leaf, h.map _, mem_seq_leaves.mpr rfl⟩

/-! ## Runs -/

/-- A set of leaves of the tree, each named once. -/
def Below (n : Nat) (set : List Leaf) : Prop := set.Nodup ∧ ∀ l ∈ set, l < n

/-- The trees that reductions reach, with the sets they accepted. -/
inductive Reached (n : Nat) : List (List Leaf) → PqTree → Prop
  | start {tree : PqTree} (h : universeOf n = some tree) : Reached n [] tree
  | accept {sets : List (List Leaf)} {tree tree' : PqTree} {set : List Leaf} (h : Reached n sets tree)
      (hset : Below n set) (hr : reduce tree set = (true, tree')) : Reached n (set :: sets) tree'
  | refuse {sets : List (List Leaf)} {tree tree' : PqTree} {set : List Leaf} (h : Reached n sets tree)
      (hset : Below n set) (hr : reduce tree set = (false, tree')) : Reached n sets tree'

/-- The orders in which each set is a block. -/
def Agrees (n : Nat) (sets : List (List Leaf)) (o : List Leaf) : Prop :=
  o.Perm (List.range n) ∧ ∀ set ∈ sets, Block set o

/-- What holds of a tree after reductions. -/
structure Represents (n : Nat) (sets : List (List Leaf)) (tree : PqTree) : Prop where
  frontier : tree.frontier = leaves tree.root
  grown : n ≠ 0 → Grown tree.root
  zero : n = 0 → tree.root = .p []
  orders : ∀ o, o ∈ orders tree.root ↔ Agrees n sets o

section

variable {n : Nat} {sets : List (List Leaf)} {tree : PqTree} {set o : List Leaf}

section

variable (h : Represents n sets tree)
include h

theorem Represents.perm : (leaves tree.root).Perm (range n) :=
  ((h.orders _).mp (leaves_mem tree.root)).1

theorem Represents.length : tree.frontier.length = n := by
  rw [h.frontier, h.perm.length_eq, length_range]

theorem Represents.congr {sets' : List (List Leaf)} (hsame : ∀ s, s ∈ sets ↔ s ∈ sets') :
    Represents n sets' tree := by
  refine ⟨h.frontier, h.grown, h.zero, fun o => (h.orders o).trans ?_⟩
  unfold Agrees
  simp only [hsame]

/-- The frontier keeps every set together that was accepted. -/
theorem Represents.block {set : List Leaf} (hset : set ∈ sets) : Block set tree.frontier := by
  rw [h.frontier]
  exact ((h.orders _).mp (leaves_mem tree.root)).2 set hset

theorem Represents.frontier_perm : tree.frontier.Perm (range n) := by
  rw [h.frontier]
  exact h.perm

end

theorem represents_universe (h : universeOf n = some tree) : Represents n [] tree := by
  unfold universeOf at h
  split at h
  · cases h
    have hc := rebuild_spec (.p ((range n).map .leaf))
    refine ⟨hc.frontier, fun hn => hc.grown (.p ?_ ?_), ?_, fun o => ?_⟩
    · rw [Ne, map_eq_nil_iff, range_eq_nil]
      exact hn
    · intro k hk
      obtain ⟨l, -, rfl⟩ := mem_map.mp hk
      exact .leaf l
    · rintro rfl
      rfl
    · show o ∈ PqTrees.orders (rebuild (.p ((range n).map .leaf))).1 ↔ _
      rw [hc.orders, mem_universe]
      exact ⟨fun ho => ⟨ho, nofun⟩, fun ho => ho.1⟩
  · cases h

theorem block_of_short (hnd : o.Nodup) (h : set.length < 2) : Block set o := by
  cases set with
  | nil => exact Clear.block (fun _ _ => not_mem_nil)
  | cons a l =>
    cases l with
    | cons b l => rw [length_cons, length_cons] at h; omega
    | nil =>
      by_cases ha : a ∈ o
      · obtain ⟨x, y, rfl⟩ := append_of_mem ha
        rw [nodup_middle, nodup_cons, mem_append, not_or] at hnd
        refine ⟨x, [a], y, by simp, fun b hb hba => ?_, fun b hb => hb, fun b hb hba => ?_⟩
        · rw [mem_singleton.mp hba] at hb
          exact hnd.1.1 hb
        · rw [mem_singleton.mp hba] at hb
          exact hnd.1.2 hb
      · exact Clear.block (fun b hb hba => ha (by rw [← mem_singleton.mp hba]; exact hb))

theorem Below.perm_filter (h : Below n set) : ((range n).filter (· ∈ set)).Perm set := by
  refine (perm_ext_iff_of_nodup (nodup_range.filter _) h.1).mpr (fun l => ?_)
  rw [mem_filter, mem_range, decide_eq_true_eq]
  exact ⟨fun hl => hl.2, fun hl => ⟨h.2 l hl, hl⟩⟩

theorem block_of_long (hset : Below n set) (hperm : o.Perm (range n)) (h : n ≤ set.length) : Block set o := by
  have hle : ((range n).filter (· ∈ set)).length = (range n).length := by
    refine le_antisymm (length_filter_le _ _) ?_
    rw [hset.perm_filter.length_eq, length_range]
    exact h
  have hall := length_filter_eq_length_iff.mp hle
  exact Solid.block (fun l hl => by simpa using hall l (hperm.mem_iff.mp hl))

theorem Represents.full (h : Represents n sets tree) (hset : Below n set) : full set tree.root = set.length := by
  rw [full_eq, h.perm.countP_eq, countP_eq_length_filter, hset.perm_filter.length_eq]

/-- **One reduction**: it accepts a set that is a block of some order left, and then keeps just these orders. -/
theorem reduce_spec (h : Represents n sets tree) (hset : Below n set) :
    (∃ tree', reduce tree set = (true, tree') ∧ Represents n (set :: sets) tree')
      ∨ (reduce tree set = (false, tree) ∧ ∀ o, ¬Agrees n (set :: sets) o) := by
  unfold reduce
  have hcons : ∀ {o}, Agrees n (set :: sets) o ↔ Agrees n sets o ∧ Block set o := by
    intro o
    unfold Agrees
    rw [forall_mem_cons]
    tauto
  split
  · rename_i hshort
    refine .inl ⟨tree, rfl, h.frontier, h.grown, h.zero, fun o => ?_⟩
    rw [h.orders, hcons]
    refine (and_iff_left_of_imp (fun ho => ?_)).symm
    rcases hshort with hlt | hge
    · exact block_of_short (ho.1.nodup_iff.mpr nodup_range) hlt
    · rw [h.length] at hge
      exact block_of_long hset ho.1 hge
  · rename_i hlong
    push Not at hlong
    have hn : n ≠ 0 := by
      have := hlong.2
      rw [h.length] at this
      omega
    have hroot := reducePertinent_rooted hlong.1 tree.root (h.grown hn) (h.full hset)
    rw [if_neg (not_not_intro (h.full hset))]
    cases hr : reducePertinent set tree.root with
    | some root =>
      rw [hr] at hroot
      have hc := rebuild_spec root
      refine .inl ⟨_, rfl, hc.frontier, fun _ => hc.grown hroot.grown, fun h0 => absurd h0 hn, fun o => ?_⟩
      show o ∈ PqTrees.orders (rebuild root).1 ↔ _
      rw [hc.orders, hroot.orders, h.orders, hcons]
    | none =>
      rw [hr] at hroot
      refine .inr ⟨rfl, fun o ho => ?_⟩
      obtain ⟨hold, hblock⟩ := hcons.mp ho
      exact hroot o ((h.orders o).mpr hold) hblock

theorem Reached.represents (h : Reached n sets tree) : Represents n sets tree := by
  induction h with
  | start h => exact represents_universe h
  | accept _ hset hr ih =>
    rcases reduce_spec ih hset with ⟨tree', heq, hrep⟩ | ⟨heq, -⟩
    · rw [hr] at heq
      rwa [(Prod.mk.inj heq).2]
    · rw [hr] at heq
      cases heq
  | refuse _ hset hr ih =>
    rcases reduce_spec ih hset with ⟨tree', heq, -⟩ | ⟨heq, -⟩
    · rw [hr] at heq
      cases heq
    · rw [hr] at heq
      rwa [(Prod.mk.inj heq).2]

theorem admits_iff (h : Represents n sets tree) : admits tree o = true ↔ o ∈ orders tree.root := by
  unfold admits
  have hmem : o ∈ orders tree.root → o.length = tree.frontier.length ∧ o.Nodup := by
    intro ho
    have hp := ((h.orders o).mp ho).1
    exact ⟨by rw [h.length, hp.length_eq, length_range], hp.nodup_iff.mpr nodup_range⟩
  have hexact : admitsAt tree.root o = true ↔ o ∈ orders tree.root := by
    by_cases hn : n = 0
    · rw [h.zero hn, mem_orders_p_nil]
      cases o with
      | nil => exact iff_of_true rfl rfl
      | cons a o => exact iff_of_false (show ¬false = true from Bool.false_ne_true) nofun
    · exact admitsAt_exact _ (h.grown hn) (h.perm.nodup_iff.mpr nodup_range) o
  rw [Bool.and_eq_true, Bool.and_eq_true, decide_eq_true_eq, decide_eq_true_eq, hexact]
  exact ⟨fun ho => ho.2, fun ho => ⟨hmem ho, ho⟩⟩

end

/-- **The tree represents exactly the consistent orders.** Whatever sets have been reduced, it admits the orders of
its leaves in which every set that was accepted stands side by side; the next set is accepted when one of these
orders has it side by side too, and a set that is refused leaves the tree as it is. The frontier is admitted. -/
theorem reduce_represents {n : Nat} {sets : List (List Leaf)} {tree : PqTree} (h : Reached n sets tree) :
    (∀ order, admits tree order = true ↔ order.Perm (List.range n) ∧ ∀ set ∈ sets, Block set order)
      ∧ (∀ set, set.Nodup → (∀ l ∈ set, l < n) →
          ((reduce tree set).1 = true ↔ ∃ order : List Leaf, order.Perm (List.range n)
            ∧ (∀ other ∈ sets, Block other order) ∧ Block set order)
          ∧ ((reduce tree set).1 = false → (reduce tree set).2 = tree))
      ∧ admits tree tree.frontier = true := by
  have hrep := h.represents
  refine ⟨fun order => (admits_iff hrep).trans (hrep.orders order), fun set hnd hlt => ?_, ?_⟩
  · rcases reduce_spec hrep ⟨hnd, hlt⟩ with ⟨tree', heq, hnew⟩ | ⟨heq, hnone⟩
    · rw [heq]
      refine ⟨iff_of_true rfl ⟨leaves tree'.root, hnew.perm, ?_⟩, nofun⟩
      have hall := ((hnew.orders _).mp (leaves_mem tree'.root)).2
      exact ⟨fun other ho => hall other (mem_cons_of_mem _ ho), hall set mem_cons_self⟩
    · rw [heq]
      refine ⟨iff_of_false Bool.false_ne_true ?_, fun _ => rfl⟩
      rintro ⟨order, hperm, hold, hblock⟩
      exact hnone order ⟨hperm, List.forall_mem_cons.mpr ⟨hblock, hold⟩⟩
  · rw [admits_iff hrep, hrep.frontier]
    exact leaves_mem tree.root

/-- Three leaves after two sets: the leaf they share is in the middle, and the ends are no set to accept. -/
theorem reduce_represents_three : ∃ tree, Reached 3 [[0, 2], [0, 1]] tree ∧ admits tree [1, 0, 2] = true
    ∧ admits tree [0, 1, 2] = false ∧ reduce tree [1, 2] = (false, tree) := by
  have hreach : Reached 3 [[0, 2], [0, 1]] ⟨.q [.leaf 1, .leaf 0, .leaf 2], [1, 0, 2]⟩ :=
    .accept (.accept (.start rfl) ⟨by decide, by decide⟩ rfl) ⟨by decide, by decide⟩ rfl
  obtain ⟨hadmits, hreduce, hfrontier⟩ := reduce_represents hreach
  refine ⟨_, hreach, hfrontier, ?_, Prod.ext rfl ((hreduce [1, 2] (by decide) (by decide)).2 rfl)⟩
  rw [← Bool.not_eq_true, hadmits]
  rintro ⟨-, hall⟩
  have hblock := isInterval_iff.mpr (hall [0, 2] (by decide))
  exact absurd hblock (by decide)

end Pie.Proof.PqTrees
