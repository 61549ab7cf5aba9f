import Pie.Poem.Layout
import Pie.Proof.PqTree
import Pie.Lib.Loops

/-!
# Seriation serves every mask

The frontier of the tree keeps every mask together that was not withdrawn, also
when only some classes are present. For a mask that was withdrawn each node has
one row for every bucket. A search withdraws the cheapest set of masks that
leaves the others together in some order.
-/

namespace Pie.Proof.Seriation

open Pie.Poem Layout Pq PqTrees Lib Lib.Blocks

variable {region : Region} {mask : List Leaf} {start : PqTree} {costs : List Rat} {node : Nat}

/-! ## Masks -/

theorem mem_classesOf {set : ClassSet} {c : Nat} : c ∈ classesOf set ↔ set.contains c = true := by
  unfold classesOf
  rw [List.mem_filter, List.mem_range]
  refine and_iff_right_of_imp (fun h => ?_)
  exact Nat.lt_size.mpr (Nat.ge_two_pow_of_testBit h)

theorem nodup_classesOf (set : ClassSet) : (classesOf set).Nodup := List.nodup_range.filter _

/-- Masks name classes of the table, of which there are no more than a byte counts. -/
def Fits (regions : List Region) (count : Nat) : Prop :=
  ∀ region ∈ regions, ∀ c, region.mask.contains c = true → c < count

section

variable {regions : List Region} {count : Nat}

theorem maskOf_eq (hfits : Fits regions count) (hcount : count ≤ 256) (hr : region ∈ regions) :
    maskOf region = classesOf region.mask := by
  unfold maskOf
  refine (List.map_congr_left (fun c hc => ?_)).trans (List.map_id _)
  exact Nat.mod_eq_of_lt (lt_of_lt_of_le (hfits region hr c (mem_classesOf.mp hc)) hcount)

theorem below_maskOf (hfits : Fits regions count) (hcount : count ≤ 256) (hr : region ∈ regions) :
    Below count (maskOf region) := by
  rw [maskOf_eq hfits hcount hr]
  exact ⟨nodup_classesOf _, fun c hc => hfits region hr c (mem_classesOf.mp hc)⟩

theorem mem_masksOf :
    mask ∈ masksOf regions count ↔ ∃ region ∈ regions, constrains region count = true ∧ maskOf region = mask := by
  unfold masksOf
  rw [List.mem_dedup, List.mem_insertionSort, List.mem_map]
  constructor
  · rintro ⟨region, hr, rfl⟩
    exact ⟨region, (List.mem_filter.mp hr).1, (List.mem_filter.mp hr).2, rfl⟩
  · rintro ⟨region, hr, hc, rfl⟩
    exact ⟨region, List.mem_filter.mpr ⟨hr, hc⟩, rfl⟩

theorem nodup_masksOf : (masksOf regions count).Nodup := List.nodup_dedup _

theorem mem_statedBy :
    region ∈ statedBy regions count mask ↔ region ∈ regions ∧ constrains region count = true ∧ maskOf region = mask := by
  unfold statedBy
  rw [List.mem_filter, Bool.and_eq_true, decide_eq_true_eq]

end

/-- A region is captured, for some of the classes and not for all. -/
structure Captured (region : Region) (count : Nat) : Prop where
  phase : region.phase = .capture
  some : ∃ c, region.mask.contains c = true
  proper : ∃ c < count, region.mask.contains c = false

theorem constrains_iff {count : Nat} (hfits : ∀ c, region.mask.contains c = true → c < count) :
    constrains region count = true ↔ Captured region count := by
  have hempty : region.mask.isEmpty = false ↔ ∃ c, region.mask.contains c = true := by
    unfold ClassSet.isEmpty
    rw [decide_eq_false_iff_not]
    constructor
    · exact fun h => Nat.exists_testBit_of_ne_zero h
    · rintro ⟨c, hc⟩ h0
      unfold ClassSet.contains at hc
      rw [h0, Bits.has_zero] at hc
      cases hc
  have hproper : (classesOf region.mask).length < count ↔ ∃ c < count, region.mask.contains c = false := by
    have hperm : (classesOf region.mask).Perm ((List.range count).filter region.mask.contains) := by
      refine (List.perm_ext_iff_of_nodup (nodup_classesOf _) (List.nodup_range.filter _)).mpr (fun c => ?_)
      rw [mem_classesOf, List.mem_filter, List.mem_range]
      exact (and_iff_right_of_imp (hfits c)).symm
    rw [hperm.length_eq]
    conv_lhs => rhs; rw [← List.length_range (n := count)]
    rw [List.length_filter_lt_length_iff_exists]
    simp
  unfold constrains
  rw [Bool.and_eq_true, Bool.and_eq_true, decide_eq_true_eq, decide_eq_true_eq, Bool.not_eq_true', hempty, hproper]
  exact ⟨fun h => ⟨h.1.1, h.1.2, h.2⟩, fun h => ⟨⟨h.phase, h.some⟩, h.proper⟩⟩

section

variable {n : Nat} {sets : List (List Leaf)} {tree : PqTree}

/-- One mask after another: all are accepted when some order keeps all of them together. -/
theorem reduceAll_spec : ∀ {masks sets : List (List Leaf)} {tree : PqTree}, Represents n sets tree →
    (∀ m ∈ masks, Below n m) →
      (∃ tree', reduceAll tree masks = some tree' ∧ Represents n (masks ++ sets) tree')
        ∨ (reduceAll tree masks = none ∧ ∀ o, ¬PqTrees.Agrees n (masks ++ sets) o) := by
  intro masks
  induction masks with
  | nil => exact fun h _ => .inl ⟨_, rfl, h⟩
  | cons mask masks ih =>
    intro sets tree h hbelow
    rw [List.forall_mem_cons] at hbelow
    have hsame : ∀ s, s ∈ masks ++ mask :: sets ↔ s ∈ mask :: masks ++ sets := by
      intro s
      simp only [List.mem_append, List.mem_cons]
      tauto
    unfold reduceAll
    rcases reduce_spec h hbelow.1 with ⟨tree', heq, hnew⟩ | ⟨heq, hnone⟩
    · rw [heq]
      rcases ih hnew hbelow.2 with ⟨tree'', hrun, hrep⟩ | ⟨hrun, hnone⟩
      · exact .inl ⟨tree'', hrun, hrep.congr hsame⟩
      · refine .inr ⟨hrun, fun o ho => hnone o ⟨ho.1, fun s hs => ho.2 s ((hsame s).mp hs)⟩⟩
    · rw [heq]
      refine .inr ⟨rfl, fun o ho => hnone o ⟨ho.1, fun s hs => ho.2 s ?_⟩⟩
      rcases List.mem_cons.mp hs with rfl | hs
      · exact List.mem_cons_self
      · exact List.mem_append_right _ hs

end

/-! ## The search -/

section

variable {masks : List (List Leaf)}

theorem mem_chosen {p : Nat → Bool} {m : List Leaf} : m ∈ chosen masks p ↔ ∃ i, masks[i]? = some m ∧ p i = true := by
  unfold chosen
  rw [List.mem_filterMap]
  constructor
  · rintro ⟨i, hi, hm⟩
    exact ⟨i, hm, (List.mem_filter.mp hi).2⟩
  · rintro ⟨i, hm, hp⟩
    exact ⟨i, List.mem_filter.mpr ⟨List.mem_range.mpr (List.getElem?_eq_some_iff.mp hm).1, hp⟩, hm⟩

theorem nodup_chosen (hnd : masks.Nodup) (p : Nat → Bool) : (chosen masks p).Nodup := by
  refine List.Nodup.filterMap (fun i j m hi hj => ?_) (List.nodup_range.filter _)
  rw [Option.mem_def] at hi hj
  exact (List.getElem?_inj (List.getElem?_eq_some_iff.mp hi).1 hnd).mp (hi.trans hj.symm)

theorem costOf_eq (cost : List Leaf → Rat) (drop : Nat) :
    costOf (masks.map cost) drop = ((chosen masks (Bits.has drop)).map cost).sum := by
  unfold costOf chosen
  rw [List.length_map, List.map_filterMap]
  congr 1
  have hall : ∀ i ∈ (List.range masks.length).filter (Bits.has drop), i < masks.length :=
    fun i hi => List.mem_range.mp (List.mem_filter.mp hi).1
  generalize (List.range masks.length).filter (Bits.has drop) = l at hall
  induction l with
  | nil => rfl
  | cons i l ih =>
    rw [List.forall_mem_cons] at hall
    rw [List.map_cons, ih hall.2, List.getD_eq_getElem?_getD, List.getElem?_map, List.getElem?_eq_getElem hall.1,
      List.filterMap_cons, List.getElem?_eq_getElem hall.1]
    rfl

/-- What the search holds after the first `k` sets. -/
structure Held (masks : List (List Leaf)) (costs : List Rat) (start : PqTree) (k : Nat) (best : Option (Rat × Nat × PqTree)) : Prop where
  found : ∀ cost drop tree, best = some (cost, drop, tree) → drop < k ∧ cost = costOf costs drop
    ∧ reduceAll start (chosen masks (fun i => !Bits.has drop i)) = some tree
  least : ∀ drop < k, (reduceAll start (chosen masks (fun i => !Bits.has drop i))).isSome →
    ∃ held, best = some held ∧ held.1 ≤ costOf costs drop

theorem tryDrop_held {k : Nat} {best : Option (Rat × Nat × PqTree)}
    (h : Held masks costs start k best) : Held masks costs start (k + 1) (tryDrop masks costs start best k) := by
  unfold tryDrop
  dsimp only
  split
  · rename_i hheld
    rw [Option.any_eq_true] at hheld
    obtain ⟨held, hbest, hle⟩ := hheld
    refine ⟨fun cost drop tree hb => ?_, fun drop hd hsome => ?_⟩
    · obtain ⟨h1, h2, h3⟩ := h.found cost drop tree hb
      exact ⟨by omega, h2, h3⟩
    · rcases Nat.lt_succ_iff_lt_or_eq.mp hd with hd | rfl
      · exact h.least drop hd hsome
      · exact ⟨held, hbest, of_decide_eq_true hle⟩
  · rename_i hheld
    have hless : ∀ held, best = some held → costOf costs k < held.1 := by
      rintro held rfl
      rw [Option.any_some, decide_eq_true_eq, not_le] at hheld
      exact hheld
    split
    · rename_i tree htree
      refine ⟨fun cost drop tree' hb => ?_, fun drop hd hsome => ⟨_, rfl, ?_⟩⟩
      · obtain ⟨rfl, rfl, rfl⟩ : _ ∧ _ ∧ _ := by simpa using hb
        exact ⟨Nat.lt_succ_self _, rfl, htree⟩
      · rcases Nat.lt_succ_iff_lt_or_eq.mp hd with hd | rfl
        · obtain ⟨held, hbest, hle⟩ := h.least drop hd hsome
          exact le_of_lt (lt_of_lt_of_le (hless held hbest) hle)
        · exact le_refl _
    · rename_i hnone
      refine ⟨fun cost drop tree hb => ?_, fun drop hd hsome => ?_⟩
      · obtain ⟨h1, h2, h3⟩ := h.found cost drop tree hb
        exact ⟨by omega, h2, h3⟩
      · rcases Nat.lt_succ_iff_lt_or_eq.mp hd with hd | rfl
        · exact h.least drop hd hsome
        · rw [hnone] at hsome
          cases hsome

theorem exists_drop (hnd : masks.Nodup) {taken : List (List Leaf)} (htaken : taken.Nodup) (hsub : taken ⊆ masks) :
    ∃ drop < 2 ^ masks.length, (chosen masks (Bits.has drop)).Perm taken
      ∧ ∀ m, m ∈ chosen masks (fun i => !Bits.has drop i) ↔ m ∈ masks ∧ m ∉ taken := by
  have hbit : ∀ i m, masks[i]? = some m →
      Bits.has (Nat.ofBits fun i : Fin masks.length => decide (masks[i] ∈ taken)) i = decide (m ∈ taken) := by
    intro i m hm
    obtain ⟨hlt, rfl⟩ := List.getElem?_eq_some_iff.mp hm
    exact Nat.testBit_ofBits_lt _ i hlt
  refine ⟨Nat.ofBits fun i : Fin masks.length => decide (masks[i] ∈ taken), Nat.ofBits_lt_two_pow _, ?_, fun m => ?_⟩
  · refine (List.perm_ext_iff_of_nodup (nodup_chosen hnd _) htaken).mpr (fun m => ?_)
    rw [mem_chosen]
    constructor
    · rintro ⟨i, hm, hb⟩
      rw [hbit i m hm] at hb
      exact of_decide_eq_true hb
    · intro hm
      obtain ⟨i, hi⟩ := List.mem_iff_getElem?.mp (hsub hm)
      exact ⟨i, hi, by rw [hbit i m hi]; exact decide_eq_true hm⟩
  · rw [mem_chosen]
    constructor
    · rintro ⟨i, hm, hb⟩
      rw [hbit i m hm, Bool.not_eq_true', decide_eq_false_iff_not] at hb
      exact ⟨List.mem_of_getElem? hm, hb⟩
    · rintro ⟨hm, hnot⟩
      obtain ⟨i, hi⟩ := List.mem_iff_getElem?.mp hm
      exact ⟨i, hi, by rw [hbit i m hi, Bool.not_eq_true', decide_eq_false_iff_not]; exact hnot⟩

/-- What a choice of masks to withdraw has to be. -/
structure Serves (n : Nat) (masks : List (List Leaf)) (tree : PqTree) (withdrawn : List (List Leaf)) : Prop where
  nodup : withdrawn.Nodup
  sub : withdrawn ⊆ masks
  perm : tree.frontier.Perm (List.range n)
  block : ∀ m ∈ masks, m ∉ withdrawn → Block m tree.frontier

/-- **The search** withdraws the cheapest set that leaves the others together in some order. -/
theorem search_spec {n : Nat} (hstart : Represents n [] start) (hnd : masks.Nodup)
    (hbelow : ∀ m ∈ masks, Below n m) (cost : List Leaf → Rat) :
    ∃ held drop tree, (List.range (2 ^ masks.length)).foldl (tryDrop masks (masks.map cost) start) none
        = some (held, drop, tree)
      ∧ Serves n masks tree (chosen masks (Bits.has drop))
      ∧ ∀ taken : List (List Leaf), taken.Nodup → taken ⊆ masks →
          (∃ o : List Leaf, o.Perm (List.range n) ∧ ∀ m ∈ masks, m ∉ taken → Block m o) →
          ((chosen masks (Bits.has drop)).map cost).sum ≤ (taken.map cost).sum := by
  have hheld := foldl_range_rule (f := tryDrop masks (masks.map cost) start) 
    (fun k best => Held masks (masks.map cost) start k best) (s := none) ⟨fun _ _ _ h => (nomatch h), fun _ h => absurd h (Nat.not_lt_zero _)⟩ (n := 2 ^ masks.length)
    (fun k _ best h => tryDrop_held h)
  generalize (List.range (2 ^ masks.length)).foldl (tryDrop masks (masks.map cost) start) none = best at hheld
  -- a set that leaves an order is found to do so
  have hfeasible : ∀ taken : List (List Leaf), taken.Nodup → taken ⊆ masks →
      (∃ o : List Leaf, o.Perm (List.range n) ∧ ∀ m ∈ masks, m ∉ taken → Block m o) →
      ∃ held, best = some held ∧ held.1 ≤ (taken.map cost).sum := by
    intro taken htaken hsub ⟨o, hperm, ho⟩
    obtain ⟨drop, hlt, hchosen, hkept⟩ := exists_drop hnd htaken hsub
    have hsome : (reduceAll start (chosen masks (fun i => !Bits.has drop i))).isSome := by
      rcases reduceAll_spec hstart (fun m hm => hbelow m ((hkept m).mp hm).1) with ⟨tree, heq, -⟩ | ⟨-, hnone⟩
      · rw [heq]
        rfl
      · refine absurd ⟨hperm, fun m hm => ?_⟩ (hnone o)
        rw [List.append_nil] at hm
        exact ho m ((hkept m).mp hm).1 ((hkept m).mp hm).2
    obtain ⟨held, hbest, hle⟩ := hheld.least drop hlt hsome
    refine ⟨held, hbest, hle.trans (le_of_eq ?_)⟩
    rw [costOf_eq, (hchosen.map cost).sum_eq]
  obtain ⟨⟨held, drop, tree⟩, hbest, -⟩ := hfeasible masks hnd (List.Subset.refl _)
    ⟨List.range n, List.Perm.refl _, fun m hm hnot => absurd hm hnot⟩
  obtain ⟨-, hcost, htree⟩ := hheld.found held drop tree hbest
  have hkept : ∀ m ∈ chosen masks (fun i => !Bits.has drop i), Below n m := by
    intro m hm
    obtain ⟨i, hi, -⟩ := mem_chosen.mp hm
    exact hbelow m (List.mem_of_getElem? hi)
  rcases reduceAll_spec hstart hkept with ⟨tree', heq, hrep⟩ | ⟨heq, -⟩
  · rw [htree] at heq
    cases heq
    refine ⟨held, drop, tree, hbest, ⟨nodup_chosen hnd _, fun m hm => ?_, hrep.frontier_perm, fun m hm hnot => ?_⟩,
      fun taken htaken hsub ho => ?_⟩
    · obtain ⟨i, hi, -⟩ := mem_chosen.mp hm
      exact List.mem_of_getElem? hi
    · obtain ⟨i, hi⟩ := List.mem_iff_getElem?.mp hm
      refine hrep.block (List.mem_append_left _ (mem_chosen.mpr ⟨i, hi, ?_⟩))
      rw [Bool.not_eq_true']
      exact Bool.eq_false_iff.mpr (fun hb => hnot (mem_chosen.mpr ⟨i, hi, hb⟩))
    · obtain ⟨held', hbest', hle⟩ := hfeasible taken htaken hsub ho
      cases hbest.symm.trans hbest'
      rw [← costOf_eq, ← hcost]
      exact hle
  · rw [htree] at heq
    cases heq

/-- One mask conceded: the tree takes it, or it is withdrawn. -/
def concedeOne (st : PqTree × List (List Leaf)) (entry : List Leaf × Rat) : PqTree × List (List Leaf) :=
  match reduce st.1 entry.1 with
  | (true, tree) => (tree, st.2)
  | (false, tree) => (tree, st.2 ++ [entry.1])

/-- After some masks each of them was taken or withdrawn. -/
structure Conceded (n : Nat) (seen : List (List Leaf × Rat)) (st : PqTree × List (List Leaf)) : Prop where
  taken : ∃ sets, Represents n sets st.1 ∧ ∀ m ∈ seen.map Prod.fst, m ∈ sets ∨ m ∈ st.2
  nodup : st.2.Nodup
  sub : st.2 ⊆ seen.map Prod.fst

theorem concedeOne_conceded {n : Nat} {seen : List (List Leaf × Rat)} {st : PqTree × List (List Leaf)}
    {a : List Leaf × Rat} (hnew : a.1 ∉ seen.map Prod.fst) (hbelow : Below n a.1) (h : Conceded n seen st) :
    Conceded n (seen ++ [a]) (concedeOne st a) := by
  obtain ⟨⟨sets, hrep, hmem⟩, hnodup, hsub⟩ := h
  unfold concedeOne
  rcases reduce_spec hrep hbelow with ⟨tree', heq, htree⟩ | ⟨heq, -⟩
  · rw [heq]
    refine ⟨⟨a.1 :: sets, htree, fun m hm => ?_⟩, hnodup, fun m hm => ?_⟩
    · rw [List.map_append, List.map_singleton] at hm
      rcases List.mem_append.mp hm with hm | hm
      · exact (hmem m hm).imp_left (List.mem_cons_of_mem _)
      · exact .inl (List.mem_singleton.mp hm ▸ List.mem_cons_self)
    · rw [List.map_append]
      exact List.mem_append_left _ (hsub hm)
  · rw [heq]
    refine ⟨⟨sets, hrep, fun m hm => ?_⟩, ?_, fun m hm => ?_⟩
    · rw [List.map_append, List.map_singleton] at hm
      rcases List.mem_append.mp hm with hm | hm
      · exact (hmem m hm).imp_right (List.mem_append_left _)
      · exact .inr (List.mem_append_right _ hm)
    · refine List.nodup_append.mpr ⟨hnodup, List.nodup_singleton _, fun x hx y hy heq => ?_⟩
      rw [heq, List.mem_singleton.mp hy] at hx
      exact hnew (hsub hx)
    · rw [List.map_append]
      rcases List.mem_append.mp hm with hm | hm
      · exact List.mem_append_left _ (hsub hm)
      · exact List.mem_append_right _ hm

theorem foldl_conceded {n : Nat} : ∀ {entries seen : List (List Leaf × Rat)} {st : PqTree × List (List Leaf)},
    ((seen ++ entries).map Prod.fst).Nodup → (∀ a ∈ entries, Below n a.1) → Conceded n seen st →
      Conceded n (seen ++ entries) (entries.foldl concedeOne st) := by
  intro entries
  induction entries with
  | nil =>
    intro seen st _ _ h
    rwa [List.append_nil]
  | cons a entries ih =>
    intro seen st hnd hbelow h
    rw [List.forall_mem_cons] at hbelow
    have hsplit : seen ++ a :: entries = (seen ++ [a]) ++ entries := by simp
    have hnew : a.1 ∉ seen.map Prod.fst := by
      rw [List.map_append, List.nodup_append] at hnd
      exact fun hmem => hnd.2.2 _ hmem _ List.mem_cons_self rfl
    rw [hsplit] at hnd ⊢
    exact ih hnd hbelow.2 (concedeOne_conceded hnew hbelow.1 h)

/-- **Conceding** keeps every mask together that it does not withdraw. -/
theorem concede_spec {n : Nat} (hstart : Represents n [] start) (hnd : masks.Nodup)
    (hbelow : ∀ m ∈ masks, Below n m) (hlen : costs.length = masks.length) :
    Serves n masks (concede masks costs start).1 (concede masks costs start).2 := by
  have hperm : (((masks.zip costs).insertionSort (fun a b => b.2 < a.2 ∨ a.2 = b.2 ∧ a.1 ≤ b.1)).map Prod.fst).Perm masks := by
    refine ((List.perm_insertionSort _ _).map Prod.fst).trans ?_
    rw [List.map_fst_zip (le_of_eq hlen.symm)]
  show Serves n masks (((masks.zip costs).insertionSort _).foldl concedeOne (start, [])).1
    (((masks.zip costs).insertionSort _).foldl concedeOne (start, [])).2
  generalize (masks.zip costs).insertionSort (fun a b => b.2 < a.2 ∨ a.2 = b.2 ∧ a.1 ≤ b.1) = entries at hperm
  obtain ⟨⟨sets, hrep, hmem⟩, hnodup, hsub⟩ := @foldl_conceded n entries [] (start, []) (hperm.nodup_iff.mpr hnd)
    (fun a ha => hbelow a.1 (hperm.mem_iff.mp (List.mem_map_of_mem ha)))
    ⟨⟨[], hstart, fun _ h => (nomatch h)⟩, List.nodup_nil, fun _ h => (nomatch h)⟩
  rw [List.nil_append] at hmem hsub
  exact ⟨hnodup, fun m hm => hperm.mem_iff.mp (hsub hm), hrep.frontier_perm,
    fun m hm hnot => hrep.block ((hmem m (hperm.mem_iff.mpr hm)).resolve_right hnot)⟩

theorem choose_spec {n : Nat} (hn : n ≤ 256) (hnd : masks.Nodup) (hbelow : ∀ m ∈ masks, Below n m) (cost : List Leaf → Rat) :
    ∃ tree withdrawn, choose masks (masks.map cost) n = some (tree, withdrawn) ∧ Serves n masks tree withdrawn
      ∧ (masks.length ≤ MAX_SEARCH_MASKS → ∀ taken : List (List Leaf), taken.Nodup → taken ⊆ masks →
          (∃ o : List Leaf, o.Perm (List.range n) ∧ ∀ m ∈ masks, m ∉ taken → Block m o) →
          (withdrawn.map cost).sum ≤ (taken.map cost).sum) := by
  obtain ⟨start, hstart⟩ : ∃ start, universeOf n = some start := ⟨_, if_pos hn⟩
  unfold choose
  rw [hstart]
  show ∃ tree withdrawn, (if MAX_SEARCH_MASKS < masks.length then _ else _) = _ ∧ _
  by_cases hmany : MAX_SEARCH_MASKS < masks.length
  · rw [if_pos hmany]
    exact ⟨_, _, rfl, concede_spec (represents_universe hstart) hnd hbelow (List.length_map _), fun hle => absurd hmany (by omega)⟩
  · rw [if_neg hmany]
    obtain ⟨held, drop, tree, hbest, hserves, hleast⟩ := search_spec (represents_universe hstart) hnd hbelow cost
    rw [hbest]
    exact ⟨tree, _, rfl, hserves, fun _ => hleast⟩

end

/-! ## Rows -/

theorem countP_flatMap_unique {α β : Type} {P : α → Prop} {f : α → List β} {q : β → Bool} {a : α} (hP : P a) :
    ∀ {l : List α}, l.Pairwise (fun x y => ¬(P x ∧ P y)) → a ∈ l → (∀ x ∈ l, ¬P x → (f x).countP q = 0) →
      (l.flatMap f).countP q = (f a).countP q := by
  intro l
  induction l with
  | nil => exact fun _ h => (nomatch h)
  | cons x l ih =>
    intro hl ha hzero
    rw [List.pairwise_cons] at hl
    rw [List.forall_mem_cons] at hzero
    rw [List.flatMap_cons, List.countP_append]
    rcases List.mem_cons.mp ha with rfl | ha
    · have hrest : (l.flatMap f).countP q = 0 := by
        refine List.countP_eq_zero.mpr (fun y hy => ?_)
        obtain ⟨z, hz, hy⟩ := List.mem_flatMap.mp hy
        exact List.countP_eq_zero.mp (hzero.2 z hz (fun hPz => hl.1 z hz ⟨hP, hPz⟩)) y hy
      rw [hrest, add_zero]
    · rw [ih hl.2 ha hzero.2, hzero.1 (fun hPx => hl.1 a ha ⟨hPx, hP⟩), zero_add]

/-- Each bucket of the lattice is in one range of the menu. -/
theorem menu_count (runs : Nat) (groupable : Bool) (lattice : List Nat) (ceiling : Nat) (profile : Prices) (bucket : Nat) :
    (menu runs groupable lattice ceiling profile).countP (fun entry => decide (entry.1.1 ≤ bucket ∧ bucket < entry.1.2))
      = if bucket < max 1 lattice.length then 1 else 0 := by
  unfold menu
  have hlen : (if lattice.isEmpty then [ceiling] else lattice).length = max 1 lattice.length := by
    cases lattice with
    | nil => rfl
    | cons rows lattice =>
      rw [if_neg (by simp), List.length_cons]
      omega
  have hcut := @List.findIdx_le_length _ (fun rows => decide (profile.crossover ≤ ((rows : Nat) : Rat)))
    (if lattice.isEmpty then [ceiling] else lattice)
  dsimp only
  generalize (if lattice.isEmpty then [ceiling] else lattice).findIdx _ = cut at hcut ⊢
  generalize (if lattice.isEmpty then [ceiling] else lattice).length = stop at hlen hcut ⊢
  rw [← hlen]
  cases groupable with
  | true =>
    rw [if_pos rfl, List.countP_singleton]
    simp
  | false =>
    rw [if_neg Bool.false_ne_true, List.countP_append]
    by_cases h0 : 0 < cut
    · by_cases h1 : cut < stop
      · rw [if_pos h0, if_pos h1, List.countP_singleton, List.countP_singleton]
        simp only [decide_eq_true_eq]
        split <;> split <;> split <;> omega
      · rw [if_pos h0, if_neg h1, List.countP_singleton, List.countP_nil]
        simp only [decide_eq_true_eq]
        split <;> split <;> omega
    · rw [if_neg h0, if_pos (by omega), List.countP_singleton, List.countP_nil]
      simp only [decide_eq_true_eq]
      split <;> split <;> omega

/-- A split names the runs that it was made for. -/
theorem menu_split {runs : Nat} {groupable : Bool} {lattice : List Nat} {ceiling : Nat} {profile : Prices}
    {entry : (Nat × Nat) × Fallback} (h : entry ∈ menu runs groupable lattice ceiling profile) {r : Nat}
    (hr : entry.2 = .split r) : r = runs := by
  unfold menu at h
  dsimp only at h
  generalize (if lattice.isEmpty then [ceiling] else lattice) = lattice at h
  split at h
  · rw [List.mem_singleton.mp h] at hr
    cases hr
  · rcases List.mem_append.mp h with h | h
    · split at h
      · rw [List.mem_singleton.mp h] at hr
        cases hr
      · cases h
    · split at h
      · rw [List.mem_singleton.mp h] at hr
        exact (Fallback.split.inj hr).symm
      · cases h

/-- No node is in two regions. -/
def Apart (regions : List Region) : Prop := regions.Pairwise (fun a b => ∀ node ∈ a.nodes, node ∉ b.nodes)

theorem eq_of_node {regions : List Region} (hapart : Apart regions) {a b : Region} (ha : a ∈ regions) (hb : b ∈ regions) (hna : node ∈ a.nodes) (hnb : node ∈ b.nodes) : a = b := by
  let R (a b : Region) := ∀ node, node ∈ a.nodes → node ∈ b.nodes → a = b
  refine List.Pairwise.forall_of_forall_of_flip (R := R) (fun _ _ _ _ _ => rfl) (hapart.imp (fun h n h1 h2 => ?_))
    (hapart.imp (fun h n h1 h2 => ?_)) ha hb node hna hnb
  · exact absurd h2 (h n h1)
  · exact absurd h1 (h n h2)

section

variable {trace : Trace} {regions : List Region} {count : Nat} {lattice : List Nat} {ceiling : Nat} {profile : Prices}
  {tree : PqTree}

theorem mem_rowsOf {row : FallbackRow} (h : row ∈ rowsOf trace regions count lattice ceiling profile tree mask) :
    ∃ region ∈ regions, constrains region count = true ∧ maskOf region = mask ∧ row.node ∈ region.nodes
      ∧ ∀ r, row.fallback = .split r → r = runs tree.frontier mask := by
  unfold rowsOf at h
  obtain ⟨region, hregion, h⟩ := List.mem_flatMap.mp h
  obtain ⟨node, hnode, h⟩ := List.mem_flatMap.mp h
  obtain ⟨entry, hentry, rfl⟩ := List.mem_map.mp h
  obtain ⟨hr, hc, hm⟩ := mem_statedBy.mp hregion
  exact ⟨region, hr, hc, hm, hnode, fun r hr => menu_split hentry hr⟩

/-- **A node of a withdrawn mask** has one row for each bucket. -/
theorem count_rows (hapart : Apart regions) {withdrawn : List (List Leaf)} (hnd : withdrawn.Nodup)
    (hr : region ∈ regions) (hc : constrains region count = true) (hw : maskOf region ∈ withdrawn)
    (hnode : node ∈ region.nodes) (bucket : Nat) :
    (withdrawn.flatMap (rowsOf trace regions count lattice ceiling profile tree)).countP
        (fun row => decide (row.node = node ∧ row.buckets.1 ≤ bucket ∧ bucket < row.buckets.2))
      = if bucket < max 1 lattice.length then 1 else 0 := by
  have hzero : ∀ {rows : List FallbackRow}, (∀ row ∈ rows, row.node ≠ node) →
      rows.countP (fun row => decide (row.node = node ∧ row.buckets.1 ≤ bucket ∧ bucket < row.buckets.2)) = 0 := by
    intro rows h
    refine List.countP_eq_zero.mpr (fun row hrow => ?_)
    rw [decide_eq_true_eq]
    exact fun hand => h row hrow hand.1
  -- no other mask has a region with the node
  have hmask : ∀ x ∈ withdrawn, ¬maskOf region = x →
      (rowsOf trace regions count lattice ceiling profile tree x).countP
        (fun row => decide (row.node = node ∧ row.buckets.1 ≤ bucket ∧ bucket < row.buckets.2)) = 0 := by
    intro x _ hne
    refine hzero (fun row hrow heq => hne ?_)
    obtain ⟨other, ho, -, hmo, hno, -⟩ := mem_rowsOf hrow
    rw [heq] at hno
    rw [eq_of_node hapart hr ho hnode hno, hmo]
  rw [countP_flatMap_unique (P := fun mask => maskOf region = mask) rfl
    (hnd.imp (fun hne hand => hne (hand.1.symm.trans hand.2))) hw hmask]
  unfold rowsOf
  dsimp only
  -- nor has another region of the mask, nor another node of the region
  have hstated : (statedBy regions count (maskOf region)).Pairwise (fun a b => ¬(node ∈ a.nodes ∧ node ∈ b.nodes)) :=
    (List.Pairwise.sublist List.filter_sublist hapart).imp (fun h hand => h node hand.1 hand.2)
  rw [countP_flatMap_unique (P := fun other => node ∈ Region.nodes other) hnode hstated
    (mem_statedBy.mpr ⟨hr, hc, rfl⟩) (fun other _ hno => by
      refine hzero (fun row hrow heq => hno ?_)
      obtain ⟨n, hn, hrow⟩ := List.mem_flatMap.mp hrow
      obtain ⟨entry, -, rfl⟩ := List.mem_map.mp hrow
      rw [← heq]
      exact hn)]
  rw [countP_flatMap_unique (P := fun n => n = node) rfl
    ((show region.nodes.Nodup from List.nodup_range').imp (fun hne hand => hne (hand.1.trans hand.2.symm))) hnode
    (fun n _ hne => by
      refine hzero (fun row hrow heq => hne ?_)
      obtain ⟨entry, -, rfl⟩ := List.mem_map.mp hrow
      exact heq)]
  rw [List.countP_map, ← menu_count (runs tree.frontier (maskOf region))
    (composedOf trace (statedBy regions count (maskOf region)) profile.grouped) lattice ceiling profile bucket]
  refine List.countP_congr (fun entry _ => ?_)
  simp

end

/-! ## The whole -/

/-- What a mask costs when it is withdrawn. -/
def priceOf (trace : Trace) (regions : List Region) (count : Nat) (profile : Prices) (mask : List Leaf) : Rat :=
  withdrawalCost trace (statedBy regions count mask) (composedOf trace (statedBy regions count mask) profile.grouped) profile

theorem classOrder_everywhere {classes : ClassTable} {tree : PqTree}
    (hperm : tree.frontier.Perm (List.range classes.classes.length)) :
    (ClassOrder.seriated tree).classOrder classes.everywhere = tree.frontier := by
  have hmem : ∀ (l : List Nat) (set : ClassSet) (c : Nat), (l.foldl ClassSet.insert set).contains c = true ↔
      set.contains c = true ∨ c ∈ l := by
    intro l
    induction l with
    | nil => simp
    | cons x l ih =>
      intro set c
      rw [List.foldl_cons, ih]
      unfold ClassSet.insert ClassSet.contains
      rw [Bits.has_add, Bool.or_eq_true, decide_eq_true_eq, List.mem_cons, or_assoc, @eq_comm _ x c]
  refine List.filter_eq_self.mpr (fun c hc => ?_)
  unfold ClassTable.everywhere ClassSet.of
  exact (hmem _ _ _).mpr (.inr (hperm.mem_iff.mp hc))

/-- **Seriation serves every mask.** The classes of a region that is captured for some of them and not for all
stand side by side, whichever are present, unless its mask was withdrawn. Then each of its nodes has one row for
each bucket, a split in as many parts as the mask has runs; no other node has rows. Up to twelve masks the ones
withdrawn cost the least of those that leave the others together. -/
theorem seriate_serves (trace : Trace) (regions : List Region) (classes : ClassTable) (lattice : List Nat) (ceiling : Nat)
    (profile : Prices) (hcount : classes.classes.length ≤ 256) (hfits : Fits regions classes.classes.length)
    (hapart : Apart regions) :
    ∃ (order : ClassOrder) (rows : List FallbackRow) (withdrawn : List (List Leaf)),
      seriate trace regions classes lattice ceiling profile = some (order, rows)
      ∧ (∀ mask ∈ withdrawn, ∃ region ∈ regions, Captured region classes.classes.length ∧ classesOf region.mask = mask)
      ∧ (∀ region ∈ regions, Captured region classes.classes.length → classesOf region.mask ∉ withdrawn →
          ∀ present, Block (classesOf region.mask) (order.classOrder present))
      ∧ (∀ region ∈ regions, Captured region classes.classes.length → classesOf region.mask ∈ withdrawn →
          ∀ node ∈ region.nodes,
            (∀ bucket, rows.countP (fun row => decide (row.node = node ∧ row.buckets.1 ≤ bucket ∧ bucket < row.buckets.2))
              = if bucket < max 1 lattice.length then 1 else 0)
            ∧ ∀ row ∈ rows, row.node = node → ∀ r, row.fallback = .split r →
              r = runs (order.classOrder classes.everywhere) (classesOf region.mask))
      ∧ (∀ row ∈ rows, ∃ region ∈ regions, Captured region classes.classes.length ∧ classesOf region.mask ∈ withdrawn
          ∧ row.node ∈ region.nodes)
      ∧ ((masksOf regions classes.classes.length).length ≤ 12 →
          ∀ taken : List (List Leaf), taken.Nodup → taken ⊆ masksOf regions classes.classes.length →
            (∃ o : List Leaf, o.Perm (List.range classes.classes.length)
              ∧ ∀ mask ∈ masksOf regions classes.classes.length, mask ∉ taken → Block mask o) →
            (withdrawn.map (priceOf trace regions classes.classes.length profile)).sum
              ≤ (taken.map (priceOf trace regions classes.classes.length profile)).sum) := by
  have hcap : ∀ {region : Region}, region ∈ regions →
      (constrains region classes.classes.length = true ↔ Captured region classes.classes.length) :=
    fun hr => constrains_iff (hfits _ hr)
  unfold seriate
  dsimp only
  by_cases h0 : classes.classes.length = 0
  · -- without classes no region has any
    rw [if_pos h0]
    have hnone : ∀ {region : Region}, region ∈ regions → ¬Captured region classes.classes.length := by
      intro region hr hcaptured
      obtain ⟨c, hc, -⟩ := hcaptured.proper
      omega
    refine ⟨.identity, [], [], rfl, nofun, fun _ hr h => absurd h (hnone hr), fun _ hr h => absurd h (hnone hr), nofun,
      fun _ taken _ hsub _ => ?_⟩
    have hnil : taken = [] := by
      refine List.eq_nil_iff_forall_not_mem.mpr (fun m hm => ?_)
      obtain ⟨region, hr, hc, -⟩ := mem_masksOf.mp (hsub hm)
      exact hnone hr ((hcap hr).mp hc)
    rw [hnil]
  · rw [if_neg h0]
    have hbelow : ∀ m ∈ masksOf regions classes.classes.length, Below classes.classes.length m := by
      intro m hm
      obtain ⟨region, hr, -, rfl⟩ := mem_masksOf.mp hm
      exact below_maskOf hfits hcount hr
    obtain ⟨tree, withdrawn, hchoose, hserves, hleast⟩ := choose_spec hcount nodup_masksOf hbelow
      (priceOf trace regions classes.classes.length profile)
    have hrun : choose (masksOf regions classes.classes.length) (costsOf trace regions classes.classes.length profile)
        classes.classes.length = some (tree, withdrawn) := hchoose
    have hmask : ∀ {region : Region}, region ∈ regions → maskOf region = classesOf region.mask := maskOf_eq hfits hcount
    rw [hrun]
    refine ⟨_, _, withdrawn, rfl, fun m hm => ?_, fun region hr h hnot present => ?_, fun region hr h hw node hnode => ⟨fun bucket => ?_,
      fun row hrow heq r hsplit => ?_⟩, fun row hrow => ?_, fun hle => hleast hle⟩
    · obtain ⟨region, hr, hc, rfl⟩ := mem_masksOf.mp (hserves.sub hm)
      exact ⟨region, hr, (hcap hr).mp hc, (hmask hr).symm⟩
    · refine (hserves.block _ (mem_masksOf.mpr ⟨region, hr, (hcap hr).mpr h, hmask hr⟩) hnot).filter _
    · rw [(List.perm_insertionSort _ _).countP_eq]
      exact count_rows hapart hserves.nodup hr ((hcap hr).mpr h) ((hmask hr).symm ▸ hw) hnode bucket
    · rw [List.mem_insertionSort] at hrow
      obtain ⟨m, -, hrow⟩ := List.mem_flatMap.mp hrow
      obtain ⟨other, ho, -, hmo, hno, hruns⟩ := mem_rowsOf hrow
      rw [heq] at hno
      rw [classOrder_everywhere hserves.perm, eq_of_node hapart hr ho hnode hno, ← hmask ho, hmo]
      exact hruns r hsplit
    · rw [List.mem_insertionSort] at hrow
      obtain ⟨m, hm, hrow⟩ := List.mem_flatMap.mp hrow
      obtain ⟨region, hr, hc, hmr, hnode, -⟩ := mem_rowsOf hrow
      exact ⟨region, hr, (hcap hr).mp hc, by rw [← hmask hr, hmr]; exact hm, hnode⟩

/-- Three regions, each of two of three classes. -/
def threePairs : List Region := ([3, 6, 5].zipIdx).map (fun p =>
  { start := p.2, stop := p.2 + 1, mask := ⟨p.1⟩, phase := .capture, lowering := .alwaysLaunch, stream := 0, wait := [],
    opens := none, close := none, collective := false })

def threeTable : ClassTable where
  classes := List.replicate 3 ⟨[], []⟩
  nodeMask := []
  merges := []
  mergeArm := []
  mask := 0
  dead := []
  mask_lt := nofun

/-- No order keeps all three together, so one is withdrawn and its node has a row for each of two buckets. -/
theorem seriate_serves_threePairs : ∃ (order : ClassOrder) (rows : List FallbackRow),
      seriate ⟨[], [], [], []⟩ threePairs threeTable [4, 2000] 4 ⟨82, fun _ => 1, []⟩ = some (order, rows)
        ∧ ∃ row ∈ rows, row.node < 3 ∧ ∀ bucket, (rows.countP (fun other => decide (other.node = row.node
          ∧ other.buckets.1 ≤ bucket ∧ bucket < other.buckets.2))) = if bucket < 2 then 1 else 0 := by
  have hfits : Fits threePairs threeTable.classes.length := by
    have hall : ∀ region ∈ threePairs, ∀ c ∈ classesOf region.mask, c < 3 := by decide
    exact fun region hr c hc => hall region hr c (mem_classesOf.mpr hc)
  have hapart : Apart threePairs := by
    unfold Apart
    decide
  obtain ⟨order, rows, withdrawn, hrun, -, -, hrows, hnode, -⟩ := seriate_serves ⟨[], [], [], []⟩ threePairs threeTable
    [4, 2000] 4 ⟨82, fun _ => 1, []⟩ (by decide) hfits hapart
  have heval : (seriate ⟨[], [], [], []⟩ threePairs threeTable [4, 2000] 4 ⟨82, fun _ => 1, []⟩).map Prod.snd
      = some [⟨0, (0, 1), .copy⟩, ⟨0, (1, 2), .split 2⟩] := by decide +kernel
  rw [hrun, Option.map_some, Option.some.injEq] at heval
  have hrow : (⟨0, (0, 1), .copy⟩ : FallbackRow) ∈ rows := by
    rw [show rows = _ from heval]
    exact List.mem_cons_self
  obtain ⟨region, hr, hcaptured, hw, hmem⟩ := hnode _ hrow
  exact ⟨order, rows, hrun, _, hrow, by decide, fun bucket => (hrows region hr hcaptured hw _ hmem).1 bucket⟩

end Pie.Proof.Seriation
