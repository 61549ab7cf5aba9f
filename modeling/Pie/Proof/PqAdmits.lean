import Pie.Proof.PqMarks

/-!
# The canonical form and admission

The canonical form of a tree stands for the same orders, and its frontier is its
leaves from left to right. The test of an order says whether the tree stands for
it: the child of a P node that comes next is the one that holds the next leaf.
-/

namespace Pie.Proof.PqTrees

open List Pie.Poem.Pq Lib.Blocks

/-! ## The canonical form -/

theorem orders_p_congr {l l' : List Node} (h : l.map orders = l'.map orders) : orders (.p l) = orders (.p l') := by
  show ({o | ∃ ls : List (Language Leaf), ls.Perm (ordersEach l) ∧ o ∈ ls.prod} : Set (List Leaf)) = {o | _}
  rw [ordersEach_eq, ordersEach_eq, h]
  rfl

theorem orders_q_congr {l l' : List Node} (h : l.map orders = l'.map orders) : orders (.q l) = orders (.q l') := by
  show (ordersEach l).prod + (ordersEach l).reverse.prod = (ordersEach l').prod + (ordersEach l').reverse.prod
  rw [ordersEach_eq, ordersEach_eq, h]

theorem orders_q_reverse (l : List Node) : orders (.q l.reverse) = orders (.q l) := by
  ext o
  rw [mem_orders_q, mem_orders_q, reverse_reverse, or_comm]

theorem orders_p_one (c : Node) : orders (.p [c]) = orders c := by
  ext o
  exact mem_orders_p_singleton

theorem orders_q_one (c : Node) : orders (.q [c]) = orders c := by
  ext o
  rw [mem_orders_q, reverse_singleton, or_self, mem_seq_singleton]

/-- Two children in any order are two in one order or its reverse. -/
theorem orders_makeQ (kids : List Node) : orders (makeQ kids) = orders (.q kids) := by
  unfold makeQ
  split
  · rename_i hlen
    obtain ⟨a, b, rfl⟩ := length_eq_two.mp hlen
    ext o
    rw [mem_orders_p, mem_orders_q]
    constructor
    · rintro ⟨l, hl, ho⟩
      obtain ⟨c, d, rfl⟩ := length_eq_two.mp hl.length_eq
      rcases mem_pair.mp (hl.mem_iff.mp mem_cons_self) with rfl | rfl
      · rw [singleton_perm_singleton.mp hl.cons_inv] at ho
        exact .inl ho
      · rw [singleton_perm_singleton.mp (hl.trans (Perm.swap _ _ _)).cons_inv] at ho
        exact .inr ho
    · rintro (ho | ho)
      · exact ⟨_, Perm.refl _, ho⟩
      · exact ⟨_, reverse_perm _, ho⟩
  · rfl

/-- What a canonical form keeps of a node. -/
structure Canonical (c : Node) (node : Node) (frontier : List Leaf) : Prop where
  orders : PqTrees.orders node = PqTrees.orders c
  frontier : frontier = leaves node
  grown : Grown c → Grown node

theorem rebuildAll_spec {kids : List Node} (h : ∀ k ∈ kids, Canonical k (rebuild k).1 (rebuild k).2) :
    Forall₂ (fun k f => Canonical k f.node f.frontier) kids (rebuildAll kids) := by
  induction kids with
  | nil => exact .nil
  | cons c kids ih => exact .cons (h c mem_cons_self) (ih (fun k hk => h k (mem_cons_of_mem _ hk)))

section Fresh

variable {kids : List Node} {fs : List Fresh}

section

variable (h : Forall₂ (fun k f => Canonical k f.node f.frontier) kids fs)
include h

theorem fresh_orders :
    (fs.map (·.node)).map orders = kids.map orders := by
  induction h with
  | nil => rfl
  | cons hc _ ih => rw [map_cons, map_cons, map_cons, ih, hc.orders]

theorem fresh_frontier :
    ∀ f ∈ fs, f.frontier = leaves f.node := by
  induction h with
  | nil => exact nofun
  | cons hc _ ih => exact forall_mem_cons.mpr ⟨hc.frontier, ih⟩

theorem fresh_grown (hg : ∀ k ∈ kids, Grown k) :
    ∀ f ∈ fs, Grown f.node := by
  induction h with
  | nil => exact nofun
  | cons hc _ ih =>
    exact forall_mem_cons.mpr ⟨hc.grown (hg _ mem_cons_self), ih (fun k hk => hg k (mem_cons_of_mem _ hk))⟩

end

theorem gathered_spec {make : List Node → Node} {c : Node}
    (hone : ∀ k, orders (make [k]) = orders k) (hleaves : ∀ l, leaves (make l) = leavesAll l)
    (hgrown : ∀ l, l ≠ [] → (∀ k ∈ l, Grown k) → Grown (make l))
    (horders : orders (make (fs.map (·.node))) = orders c) (hfrontier : ∀ f ∈ fs, f.frontier = leaves f.node)
    (hg : Grown c → fs ≠ [] ∧ ∀ f ∈ fs, Grown f.node) : Canonical c (gathered make fs).1 (gathered make fs).2 := by
  unfold gathered
  split
  · rename_i f
    exact ⟨(hone f.node).symm.trans horders, hfrontier f mem_cons_self, fun h => (hg h).2 f mem_cons_self⟩
  · refine ⟨horders, ?_, fun h => hgrown _ (fun hnil => (hg h).1 (map_eq_nil_iff.mp hnil)) (fun k hk => ?_)⟩
    · show fs.flatMap (·.frontier) = _
      rw [hleaves, leavesAll_eq, flatMap_map]
      exact flatMap_congr hfrontier
    · obtain ⟨f, hf, rfl⟩ := mem_map.mp hk
      exact (hg h).2 f hf

theorem turned_cases (fs : List Fresh) : turned fs = fs ∨ turned fs = fs.reverse := by
  unfold turned
  split
  · split
    · exact .inr rfl
    · exact .inl rfl
  · exact .inl rfl

end Fresh

theorem rebuild_spec (t : Node) : Canonical t (rebuild t).1 (rebuild t).2 := by
  induction t using Node.induct with
  | leaf l => exact ⟨rfl, rfl, id⟩
  | p kids ih =>
    have hall := rebuildAll_spec ih
    have hperm : ((rebuildAll kids).insertionSort byLeast).Perm (rebuildAll kids) := perm_insertionSort _ _
    refine gathered_spec orders_p_one (fun _ => rfl) (fun _ hne h => .p hne h) ?_ ?_ (fun hg => ⟨?_, ?_⟩)
    · rw [orders_p_perm (hperm.map (·.node))]
      exact orders_p_congr (fresh_orders hall)
    · exact fun f hf => fresh_frontier hall f (hperm.mem_iff.mp hf)
    · intro hnil
      rw [hnil] at hperm
      rw [nil_perm.mp hperm] at hall
      exact hg.kids_p.1 (forall₂_nil_right_iff.mp hall)
    · exact fun f hf => fresh_grown hall hg.kids_p.2 f (hperm.mem_iff.mp hf)
  | q kids ih =>
    have hall := rebuildAll_spec ih
    have hmem : ∀ f, f ∈ turned (rebuildAll kids) ↔ f ∈ rebuildAll kids := by
      intro f
      rcases turned_cases (rebuildAll kids) with h | h
      · rw [h]
      · rw [h, mem_reverse]
    refine @gathered_spec _ makeQ _ (fun k => ?_) (fun l => ?_) (fun l hne h => ?_) ?_ ?_ (fun hg => ⟨?_, ?_⟩)
    · rw [orders_makeQ, orders_q_one]
    · unfold makeQ
      split <;> rfl
    · unfold makeQ
      split
      · exact .p hne h
      · exact .q hne h
    · rw [orders_makeQ]
      rcases turned_cases (rebuildAll kids) with h | h
      · rw [h]
        exact orders_q_congr (fresh_orders hall)
      · rw [h, map_reverse, orders_q_reverse]
        exact orders_q_congr (fresh_orders hall)
    · exact fun f hf => fresh_frontier hall f ((hmem f).mp hf)
    · intro hnil
      have hnone : rebuildAll kids = [] := eq_nil_iff_forall_not_mem.mpr (fun f hf => by
        have := (hmem f).mpr hf
        rw [hnil] at this
        cases this)
      rw [hnone] at hall
      exact hg.kids_q.1 (forall₂_nil_right_iff.mp hall)
    · exact fun f hf => fresh_grown hall hg.kids_q.2 f ((hmem f).mp hf)

/-! ## Admission -/

theorem ownsAny_iff {leaf : Leaf} {kids : List Node} (h : ∀ k ∈ kids, (owns leaf k = true ↔ leaf ∈ leaves k)) :
    ownsAny leaf kids = true ↔ leaf ∈ leavesAll kids := by
  induction kids with
  | nil => exact iff_of_false Bool.false_ne_true not_mem_nil
  | cons c kids ih =>
    rw [ownsAny, leavesAll, Bool.or_eq_true, mem_append, h c mem_cons_self,
      ih (fun k hk => h k (mem_cons_of_mem _ hk))]

theorem owns_iff {leaf : Leaf} (t : Node) : owns leaf t = true ↔ leaf ∈ leaves t := by
  induction t using Node.induct with
  | leaf l =>
    rw [owns, decide_eq_true_eq, leaves, mem_singleton]
    exact eq_comm
  | p kids ih => exact ownsAny_iff ih
  | q kids ih => exact ownsAny_iff ih

theorem checks_eq (kids : List Node) : checks kids = kids.map (fun c => (c, admitsAt c)) := by
  induction kids with
  | nil => rfl
  | cons c kids ih => rw [checks, ih, map_cons]

/-- The check of a child says whether the child stands for an order. -/
def Exact (c : Node) : Prop := ∀ o, admitsAt c o = true ↔ o ∈ orders c

theorem length_of_mem {c : Node} {x : List Leaf} (hx : x ∈ orders c) : x.length = size c := by
  rw [size_eq]
  exact (perm_leaves c x hx).length_eq

theorem admitsSeq_iff {kids : List Node} (h : ∀ k ∈ kids, Exact k) : ∀ {o : List Leaf},
    admitsSeq (checks kids) o = true ↔ o ∈ seq kids := by
  induction kids with
  | nil =>
    intro o
    rw [mem_seq_nil]
    exact isEmpty_iff
  | cons c kids ih =>
    intro o
    rw [mem_seq_cons]
    show (if o.length < size c then false else admitsAt c (o.take (size c)) && admitsSeq (checks kids) (o.drop (size c)))
      = true ↔ _
    constructor
    · intro ho
      split at ho
      · cases ho
      · rw [Bool.and_eq_true, h c mem_cons_self, ih (fun k hk => h k (mem_cons_of_mem _ hk))] at ho
        exact ⟨_, ho.1, _, ho.2, take_append_drop _ _⟩
    · rintro ⟨x, hx, y, hy, rfl⟩
      rw [if_neg (by rw [length_append, length_of_mem hx]; omega), ← length_of_mem hx, take_left,
        drop_left, Bool.and_eq_true, h c mem_cons_self, ih (fun k hk => h k (mem_cons_of_mem _ hk))]
      exact ⟨hx, hy⟩

/-- The children that are not used. -/
def unused : List Node → List Bool → List Node
  | c :: kids, u :: used => if u then unused kids used else c :: unused kids used
  | _, _ => []

theorem unused_set {c : Node} : ∀ {kids : List Node} {used : List Bool} {i : Nat}, kids[i]? = some c →
    used[i]? = some false → (unused kids used).Perm (c :: unused kids (used.set i true)) := by
  intro kids
  induction kids with
  | nil => exact nofun
  | cons d kids ih =>
    intro used i hc hu
    cases used with
    | nil => cases hu
    | cons u used =>
      cases i with
      | zero =>
        cases hc
        cases hu
        exact Perm.refl _
      | succ i =>
        have hperm := @ih used i hc hu
        cases u with
        | true => exact hperm
        | false => exact (hperm.cons d).trans (Perm.swap _ _ _)

theorem mem_unused {c : Node} : ∀ {kids : List Node} {used : List Bool}, c ∈ unused kids used →
    ∃ i : Nat, kids[i]? = some c ∧ used[i]? = some false := by
  intro kids
  induction kids with
  | nil => exact nofun
  | cons d kids ih =>
    intro used h
    cases used with
    | nil => cases h
    | cons u used =>
      cases u with
      | true =>
        obtain ⟨i, hc, hu⟩ := @ih used h
        exact ⟨i + 1, hc, hu⟩
      | false =>
        rcases mem_cons.mp h with rfl | h
        · exact ⟨0, rfl, rfl⟩
        · obtain ⟨i, hc, hu⟩ := @ih used h
          exact ⟨i + 1, hc, hu⟩

theorem unused_none (kids : List Node) : unused kids (replicate kids.length false) = kids := by
  induction kids with
  | nil => rfl
  | cons c kids ih =>
    show c :: unused kids (replicate kids.length false) = _
    rw [ih]

theorem unused_eq_nil : ∀ {kids : List Node} {used : List Bool}, used.length = kids.length →
    (unused kids used = [] ↔ used.all (· == true) = true) := by
  intro kids
  induction kids with
  | nil =>
    intro used h
    rw [length_eq_zero_iff.mp h]
    exact iff_of_true rfl rfl
  | cons c kids ih =>
    intro used h
    cases used with
    | nil => cases h
    | cons u used =>
      have hrest := @ih used (Nat.succ.inj h)
      cases u with
      | true => exact hrest.trans (by simp)
      | false => exact iff_of_false nofun (by simp)

section Any

variable {kids : List Node} {used : List Bool} {head : Leaf}

/-- What the search for the owner of a leaf finds. -/
theorem owner_spec {i : Nat} (h : owner (checks kids) used head = some i) :
    used.getD i false = false ∧ ∃ c, kids[i]? = some c ∧ head ∈ leaves c := by
  have hp := find?_some h
  rw [Bool.and_eq_true, Bool.not_eq_true', checks_eq, getElem?_map] at hp
  refine ⟨hp.1, ?_⟩
  cases hk : kids[i]? with
  | none => rw [hk] at hp; exact absurd hp.2 Bool.false_ne_true
  | some c => rw [hk] at hp; exact ⟨c, rfl, (owns_iff c).mp hp.2⟩

theorem owner_exists {c : Node} {i : Nat} (hc : kids[i]? = some c) (hu : used[i]? = some false)
    (hl : head ∈ leaves c) : ∃ j, owner (checks kids) used head = some j := by
  rw [← Option.isSome_iff_exists]
  refine find?_isSome.mpr ⟨i, mem_range.mpr ?_, ?_⟩
  · rw [checks_eq, length_map]
    exact (List.getElem?_eq_some_iff.mp hc).1
  · rw [Bool.and_eq_true, Bool.not_eq_true', checks_eq, getElem?_map, hc, getD_eq_getElem?_getD, hu]
    exact ⟨rfl, (owns_iff c).mpr hl⟩

theorem owner_unique (hnd : (leavesAll kids).Nodup) {c d : Node} {i j : Nat} (hc : kids[i]? = some c)
    (hd : kids[j]? = some d) (hlc : head ∈ leaves c) (hld : head ∈ leaves d) : i = j := by
  rw [leavesAll_eq, nodup_flatMap] at hnd
  have hpair := pairwise_iff_getElem.mp hnd.2
  obtain ⟨hi, rfl⟩ := List.getElem?_eq_some_iff.mp hc
  obtain ⟨hj, rfl⟩ := List.getElem?_eq_some_iff.mp hd
  rcases lt_trichotomy i j with h | h | h
  · exact absurd hld (hpair i j hi hj h hlc)
  · exact h
  · exact absurd hlc (hpair j i hj hi h hld)

theorem admitsAny_iff (hnd : (leavesAll kids).Nodup) (hg : ∀ k ∈ kids, Grown k) (hex : ∀ k ∈ kids, Exact k) :
    ∀ {fuel : Nat} {used : List Bool} {o : List Leaf}, used.length = kids.length → o.length ≤ fuel →
      (admitsAny (checks kids) fuel used o = true ↔ o ∈ orders (.p (unused kids used))) := by
  have hne : ∀ c ∈ kids, ∀ x ∈ orders c, x ≠ [] := by
    intro c hc x hx hnil
    rw [hnil] at hx
    exact (hg c hc).leaves_ne c (nil_perm.mp (perm_leaves c _ hx))
  have hnil : ∀ {fuel : Nat} {used : List Bool}, used.length = kids.length →
      (admitsAny (checks kids) fuel used [] = true ↔ [] ∈ orders (.p (unused kids used))) := by
    intro fuel used hlen
    have hall : admitsAny (checks kids) fuel used [] = used.all (· == true) := by
      cases fuel <;> rfl
    rw [hall, ← unused_eq_nil hlen]
    constructor
    · intro h
      rw [h]
      exact mem_orders_p_nil.mpr rfl
    · intro h
      -- a child has words, and none of them is empty
      cases hu : unused kids used with
      | nil => rfl
      | cons c l =>
        have hmem : c ∈ unused kids used := by rw [hu]; exact mem_cons_self
        obtain ⟨i, hc, -⟩ := mem_unused hmem
        have hck := mem_of_getElem? hc
        have hperm := perm_leaves _ _ h
        have hzero := nil_perm.mp hperm
        rw [hu] at hzero
        exact absurd (append_eq_nil_iff.mp (show leaves c ++ leavesAll l = [] from hzero)).1
          ((hg c hck).leaves_ne c)
  intro fuel
  induction fuel with
  | zero =>
    intro used o hlen hfuel
    rw [length_eq_zero_iff.mp (Nat.le_zero.mp hfuel)]
    exact hnil hlen
  | succ fuel ih =>
    intro used o hlen hfuel
    cases o with
    | nil => exact hnil hlen
    | cons head rest =>
      unfold admitsAny
      constructor
      · intro h
        split at h
        · cases h
        · rename_i i hi
          obtain ⟨hu, c, hc, hl⟩ := owner_spec hi
          have hlt : i < used.length := by rw [hlen]; exact (List.getElem?_eq_some_iff.mp hc).1
          rw [getD_eq_getElem?_getD, getElem?_eq_getElem hlt, Option.getD_some] at hu
          have hget : used[i]? = some false := by rw [getElem?_eq_getElem hlt, hu]
          have hcheck : (checks kids)[i]? = some (c, admitsAt c) := by rw [checks_eq, getElem?_map, hc]; rfl
          rw [hcheck] at h
          dsimp only at h
          split at h
          · cases h
          · split at h
            · rename_i hadm
              have hword := (hex c (mem_of_getElem? hc) _).mp hadm
              have hpos : 0 < size c := by
                rw [size_eq]
                exact length_pos_of_mem hl
              have hrest := (@ih (used.set i true) ((head :: rest).drop (size c)) (by rw [length_set]; exact hlen)
                (by rw [length_drop]; rw [length_cons] at hfuel ⊢; omega)).mp h
              obtain ⟨l, hl, ho⟩ := mem_orders_p.mp hrest
              refine mem_orders_p.mpr ⟨c :: l, (hl.cons c).trans (unused_set hc hget).symm, ?_⟩
              exact mem_seq_cons.mpr ⟨_, hword, _, ho, take_append_drop _ _⟩
            · cases h
      · intro h
        obtain ⟨l, hl, ho⟩ := mem_orders_p.mp h
        cases l with
        | nil => cases mem_seq_nil.mp ho
        | cons c l =>
          obtain ⟨x, hx, y, hy, hxy⟩ := mem_seq_cons.mp ho
          obtain ⟨j, hc, hget⟩ := mem_unused (hl.mem_iff.mp mem_cons_self)
          have hck := mem_of_getElem? hc
          -- the next leaf is the first of the word of this child
          have hhead : head ∈ leaves c := by
            cases x with
            | nil => exact absurd rfl (hne c hck [] hx)
            | cons a x =>
              obtain rfl : a = head := (cons.inj hxy).1
              exact (perm_leaves c _ hx).mem_iff.mp mem_cons_self
          obtain ⟨i, hi⟩ := owner_exists hc hget hhead
          obtain ⟨-, d, hd, hld⟩ := owner_spec hi
          obtain rfl := owner_unique hnd hd hc hld hhead
          obtain rfl : d = c := Option.some.inj (hd.symm.trans hc)
          have hcheck : (checks kids)[i]? = some (d, admitsAt d) := by rw [checks_eq, getElem?_map, hc]; rfl
          have hlenx := length_of_mem hx
          rw [hi]
          dsimp only
          rw [hcheck]
          dsimp only
          rw [← hxy, if_neg (by rw [length_append]; omega), ← hlenx, take_left, drop_left,
            if_pos ((hex d hck x).mpr hx)]
          refine (ih (by rw [length_set]; exact hlen) ?_).mpr (mem_orders_p.mpr ⟨l, ?_, hy⟩)
          · have hpos : 0 < x.length := length_pos_of_ne_nil (hne d hck x hx)
            rw [← hxy, length_append] at hfuel
            omega
          · exact (hl.trans (unused_set hc hget)).cons_inv

end Any

theorem admitsAt_exact (t : Node) : Grown t → (leaves t).Nodup → Exact t := by
  induction t using Node.induct with
  | leaf l =>
    intro _ _ o
    rw [mem_orders_leaf, admitsAt, decide_eq_true_eq]
  | p kids ih =>
    intro hg hnd o
    have hkids : ∀ k ∈ kids, Exact k := fun k hk => ih k hk (hg.kids_p.2 k hk) (by
      have hnd' : (leavesAll kids).Nodup := hnd
      rw [leavesAll_eq, nodup_flatMap] at hnd'
      exact hnd'.1 k hk)
    rw [← unused_none kids]
    show admitsAny (checks (unused kids (replicate kids.length false))) o.length
      (replicate (unused kids (replicate kids.length false)).length false) o = true ↔ _
    rw [unused_none, admitsAny_iff hnd hg.kids_p.2 hkids length_replicate le_rfl, unused_none]
  | q kids ih =>
    intro hg hnd o
    have hkids : ∀ k ∈ kids, Exact k := fun k hk => ih k hk (hg.kids_q.2 k hk) (by
      have hnd' : (leavesAll kids).Nodup := hnd
      rw [leavesAll_eq, nodup_flatMap] at hnd'
      exact hnd'.1 k hk)
    have hrev : (checks kids).reverse = checks kids.reverse := by rw [checks_eq, checks_eq, map_reverse]
    show (admitsSeq (checks kids) o || admitsSeq (checks kids).reverse o) = true ↔ _
    rw [Bool.or_eq_true, hrev, admitsSeq_iff hkids,
      admitsSeq_iff (fun k hk => hkids k (mem_reverse.mp hk)), mem_orders_q]

end Pie.Proof.PqTrees
