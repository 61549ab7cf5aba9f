import Pie.Lib.Blocks
import Pie.Poem.Pq

/-!
# The orders of a tree

A tree stands for the orders of its leaves that its nodes allow: the words of a
node are those of its children one after another, in any order of the children
of a P node, in one order or its reverse for a Q node. With an order a tree
stands for its reverse.
-/

namespace Pie.Proof.PqTrees

open List Pie.Poem.Pq Lib.Blocks

theorem Node.induct {P : Node → Prop} (leaf : ∀ l, P (.leaf l)) (p : ∀ kids, (∀ k ∈ kids, P k) → P (.p kids))
    (q : ∀ kids, (∀ k ∈ kids, P k) → P (.q kids)) (t : Node) : P t :=
  @Node.rec P (fun kids => ∀ k ∈ kids, P k) leaf p q nofun
    (fun _ _ hc hk => forall_mem_cons.mpr ⟨hc, hk⟩) t

mutual

/-- The orders a tree stands for. -/
def orders : Node → Language Leaf
  | .leaf l => ({[l]} : Set (List Leaf))
  | .p kids => ({o | ∃ ls : List (Language Leaf), ls.Perm (ordersEach kids) ∧ o ∈ ls.prod} : Set (List Leaf))
  | .q kids => (ordersEach kids).prod + (ordersEach kids).reverse.prod

def ordersEach : List Node → List (Language Leaf)
  | [] => []
  | c :: kids => orders c :: ordersEach kids

end

/-- The words of the children, one after another. -/
def seq (kids : List Node) : Language Leaf := (kids.map orders).prod

mutual

def leaves : Node → List Leaf
  | .leaf l => [l]
  | .p kids => leavesAll kids
  | .q kids => leavesAll kids

def leavesAll : List Node → List Leaf
  | [] => []
  | c :: kids => leaves c ++ leavesAll kids

end

theorem leavesAll_eq (kids : List Node) : leavesAll kids = kids.flatMap leaves := by
  induction kids with
  | nil => rfl
  | cons c kids ih => rw [leavesAll, ih, flatMap_cons]

theorem ordersEach_eq (kids : List Node) : ordersEach kids = kids.map orders := by
  induction kids with
  | nil => rfl
  | cons c kids ih => rw [ordersEach, ih, map_cons]

/-! ## Words in a row -/

section Seq

variable {c : Node} {kids l l' : List Node} {o x y : List Leaf}

theorem mem_seq_nil : o ∈ seq [] ↔ o = [] := Language.mem_one o

theorem mem_seq_cons : o ∈ seq (c :: kids) ↔ ∃ x ∈ orders c, ∃ y ∈ seq kids, x ++ y = o := by
  unfold seq
  rw [map_cons, prod_cons, Language.mem_mul]

theorem mem_seq_append : o ∈ seq (l ++ l') ↔ ∃ x ∈ seq l, ∃ y ∈ seq l', x ++ y = o := by
  unfold seq
  rw [map_append, prod_append, Language.mem_mul]

theorem append_mem_seq (hx : x ∈ seq l) (hy : y ∈ seq l') : x ++ y ∈ seq (l ++ l') :=
  mem_seq_append.mpr ⟨x, hx, y, hy, rfl⟩

theorem mem_seq_singleton : o ∈ seq [c] ↔ o ∈ orders c := by
  unfold seq
  rw [map_singleton, prod_singleton]

theorem mem_orders_leaf {leaf : Leaf} : o ∈ orders (.leaf leaf) ↔ o = [leaf] := Iff.rfl

theorem exists_perm_map {α β : Type} {f : α → β} {ls : List β} {l : List α} (h : ls.Perm (l.map f)) :
    ∃ l' : List α, l'.Perm l ∧ l'.map f = ls := by
  obtain ⟨l', hl, hp⟩ : Relation.Comp (fun ls l => ls = l.map f) Perm ls l := by
    rw [eq_map_comp_perm]
    exact h
  exact ⟨l', hp, hl.symm⟩

theorem mem_orders_p : o ∈ orders (.p kids) ↔ ∃ l, l.Perm kids ∧ o ∈ seq l := by
  show (∃ ls : List (Language Leaf), ls.Perm (ordersEach kids) ∧ o ∈ ls.prod) ↔ _
  rw [ordersEach_eq]
  constructor
  · rintro ⟨ls, hls, ho⟩
    obtain ⟨l, hl, rfl⟩ := exists_perm_map hls
    exact ⟨l, hl, ho⟩
  · rintro ⟨l, hl, ho⟩
    exact ⟨l.map orders, hl.map _, ho⟩

theorem mem_orders_q : o ∈ orders (.q kids) ↔ o ∈ seq kids ∨ o ∈ seq kids.reverse := by
  show o ∈ (ordersEach kids).prod + (ordersEach kids).reverse.prod ↔ _
  rw [ordersEach_eq, Language.mem_add, ← map_reverse]
  rfl

theorem orders_p_perm (h : l.Perm l') : orders (.p l) = orders (.p l') := by
  ext o
  rw [mem_orders_p, mem_orders_p]
  exact ⟨fun ⟨k, hk, ho⟩ => ⟨k, hk.trans h, ho⟩, fun ⟨k, hk, ho⟩ => ⟨k, hk.trans h.symm, ho⟩⟩

theorem mem_orders_p_singleton : o ∈ orders (.p [c]) ↔ o ∈ orders c := by
  rw [mem_orders_p]
  constructor
  · rintro ⟨l, hl, ho⟩
    rw [perm_singleton.mp hl] at ho
    exact mem_seq_singleton.mp ho
  · exact fun ho => ⟨[c], Perm.refl _, mem_seq_singleton.mpr ho⟩

theorem mem_orders_p_nil : o ∈ orders (.p []) ↔ o = [] := by
  rw [mem_orders_p]
  constructor
  · rintro ⟨l, hl, ho⟩
    rw [perm_nil.mp hl] at ho
    exact mem_seq_nil.mp ho
  · exact fun ho => ⟨[], Perm.refl _, mem_seq_nil.mpr ho⟩

/-- The words of what is gathered in one node are those of a P node. -/
theorem orders_group (block : List Node) : orders (group block) = orders (.p block) := by
  unfold group
  split
  · ext o
    exact mem_orders_p_singleton.symm
  · rfl

theorem mem_seq_grouped {block : List Node} : o ∈ seq (grouped block) ↔ o ∈ orders (.p block) := by
  unfold grouped
  split
  · rename_i h
    rw [List.isEmpty_iff.mp h, mem_seq_nil, mem_orders_p_nil]
  · rw [mem_seq_singleton, orders_group]

/-! ## Every word is an order of the leaves -/

theorem mem_seq_perm (h : ∀ k ∈ kids, ∀ o ∈ orders k, o.Perm (leaves k)) : ∀ {o : List Leaf}, o ∈ seq kids →
    o.Perm (leavesAll kids) := by
  induction kids with
  | nil =>
    intro o ho
    rw [mem_seq_nil.mp ho]
    exact .nil
  | cons c kids ih =>
    intro o ho
    obtain ⟨x, hx, y, hy, rfl⟩ := mem_seq_cons.mp ho
    exact (h c mem_cons_self x hx).append (ih (fun k hk => h k (mem_cons_of_mem _ hk)) hy)

theorem leavesAll_perm (h : l.Perm l') : (leavesAll l).Perm (leavesAll l') := by
  rw [leavesAll_eq, leavesAll_eq]
  exact h.flatMap_right _

theorem perm_leaves (t : Node) : ∀ o ∈ orders t, o.Perm (leaves t) := by
  induction t using Node.induct with
  | leaf l => intro o ho; rw [mem_orders_leaf.mp ho]; exact Perm.refl _
  | p kids ih =>
    intro o ho
    obtain ⟨l, hl, ho⟩ := mem_orders_p.mp ho
    exact (mem_seq_perm (fun k hk => ih k (hl.mem_iff.mp hk)) ho).trans (leavesAll_perm hl)
  | q kids ih =>
    intro o ho
    rcases mem_orders_q.mp ho with ho | ho
    · exact mem_seq_perm ih ho
    · exact (mem_seq_perm (fun k hk => ih k (mem_reverse.mp hk)) ho).trans
        (leavesAll_perm (reverse_perm kids))

theorem leavesAll_mem_seq (h : ∀ k ∈ kids, leaves k ∈ orders k) : leavesAll kids ∈ seq kids := by
  induction kids with
  | nil => exact mem_seq_nil.mpr rfl
  | cons c kids ih =>
    exact mem_seq_cons.mpr ⟨_, h c mem_cons_self, _, ih (fun k hk => h k (mem_cons_of_mem _ hk)), rfl⟩

theorem leaves_mem (t : Node) : leaves t ∈ orders t := by
  induction t using Node.induct with
  | leaf l => exact mem_orders_leaf.mpr rfl
  | p kids ih => exact mem_orders_p.mpr ⟨kids, Perm.refl _, leavesAll_mem_seq ih⟩
  | q kids ih => exact mem_orders_q.mpr (.inl (leavesAll_mem_seq ih))

/-! ## Reversal -/

theorem reverse_mem_seq_of (h : ∀ k ∈ kids, ∀ o ∈ orders k, o.reverse ∈ orders k) : ∀ {o : List Leaf}, o ∈ seq kids →
    o.reverse ∈ seq kids.reverse := by
  induction kids with
  | nil =>
    intro o ho
    rw [mem_seq_nil.mp ho]
    exact mem_seq_nil.mpr rfl
  | cons c kids ih =>
    intro o ho
    obtain ⟨x, hx, y, hy, rfl⟩ := mem_seq_cons.mp ho
    rw [reverse_append, reverse_cons]
    exact append_mem_seq (ih (fun k hk => h k (mem_cons_of_mem _ hk)) hy)
      (mem_seq_singleton.mpr (h c mem_cons_self x hx))

theorem reverse_mem (t : Node) : ∀ o ∈ orders t, o.reverse ∈ orders t := by
  induction t using Node.induct with
  | leaf l => intro o ho; rw [mem_orders_leaf.mp ho]; exact mem_orders_leaf.mpr rfl
  | p kids ih =>
    intro o ho
    obtain ⟨l, hl, ho⟩ := mem_orders_p.mp ho
    exact mem_orders_p.mpr ⟨l.reverse, (reverse_perm l).trans hl,
      reverse_mem_seq_of (fun k hk => ih k (hl.mem_iff.mp hk)) ho⟩
  | q kids ih =>
    intro o ho
    rcases mem_orders_q.mp ho with ho | ho
    · exact mem_orders_q.mpr (.inr (reverse_mem_seq_of ih ho))
    · refine mem_orders_q.mpr (.inl ?_)
      have h := reverse_mem_seq_of (fun k hk => ih k (mem_reverse.mp hk)) ho
      rwa [reverse_reverse] at h

theorem reverse_mem_seq (h : o ∈ seq kids) : o.reverse ∈ seq kids.reverse :=
  reverse_mem_seq_of (fun k _ => reverse_mem k) h

theorem mem_seq_reverse : o ∈ seq kids.reverse ↔ o.reverse ∈ seq kids := by
  constructor
  · intro h
    have h := reverse_mem_seq h
    rwa [reverse_reverse] at h
  · intro h
    have h := reverse_mem_seq h
    rwa [reverse_reverse] at h

end Seq

/-! ## How much of a set a word holds -/

section Set

variable {set : List Leaf} {t : Node} {o : List Leaf}

theorem fullAll_eq (kids : List Node) (h : ∀ k ∈ kids, full set k = (leaves k).countP (· ∈ set)) :
    fullAll set kids = (leavesAll kids).countP (· ∈ set) := by
  induction kids with
  | nil => rfl
  | cons c kids ih =>
    rw [fullAll, leavesAll, countP_append, h c mem_cons_self, ih (fun k hk => h k (mem_cons_of_mem _ hk))]

theorem full_eq (t : Node) : full set t = (leaves t).countP (· ∈ set) := by
  induction t using Node.induct with
  | leaf l =>
    rw [full, leaves, countP_singleton]
    simp
  | p kids ih => exact fullAll_eq kids ih
  | q kids ih => exact fullAll_eq kids ih

theorem sizeAll_eq (kids : List Node) (h : ∀ k ∈ kids, size k = (leaves k).length) :
    sizeAll kids = (leavesAll kids).length := by
  induction kids with
  | nil => rfl
  | cons c kids ih =>
    rw [sizeAll, leavesAll, length_append, h c mem_cons_self, ih (fun k hk => h k (mem_cons_of_mem _ hk))]

theorem size_eq (t : Node) : size t = (leaves t).length := by
  induction t using Node.induct with
  | leaf l => rfl
  | p kids ih => exact sizeAll_eq kids ih
  | q kids ih => exact sizeAll_eq kids ih

theorem full_eq_zero (ho : o ∈ orders t) : full set t = 0 ↔ Clear set o := by
  rw [full_eq, countP_eq_zero]
  unfold Clear
  simp only [decide_eq_true_eq, (perm_leaves t o ho).mem_iff]

theorem full_eq_size (ho : o ∈ orders t) : full set t = size t ↔ Solid set o := by
  rw [full_eq, size_eq, countP_eq_length]
  unfold Solid
  simp only [decide_eq_true_eq, (perm_leaves t o ho).mem_iff]

end Set

end Pie.Proof.PqTrees
