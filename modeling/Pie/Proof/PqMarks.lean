import Pie.Proof.PqOrders

/-!
# Marks

What a marked child stands for: an empty or a full child for all its words, a
part for those of its words that end in letters of the set. Of the words of
marked children in a row, those that end in the set are the ones whose marks are
empties, at most one part, and fulls; those in which the set is a block come
apart into one that ends in the set and one that starts with it.
-/

namespace Pie.Proof.PqTrees

open List Pie.Poem.Pq Lib.Blocks

/-- Every node has leaves. -/
inductive Grown : Node → Prop
  | leaf (l : Leaf) : Grown (.leaf l)
  | p {kids : List Node} (hne : kids ≠ []) (h : ∀ k ∈ kids, Grown k) : Grown (.p kids)
  | q {kids : List Node} (hne : kids ≠ []) (h : ∀ k ∈ kids, Grown k) : Grown (.q kids)

variable {kids : List Node} {c : Node} {o : List Leaf}

theorem leavesAll_ne_nil (hne : kids ≠ []) (h : ∀ k ∈ kids, leaves k ≠ []) : leavesAll kids ≠ [] := by
  cases kids with
  | nil => exact absurd rfl hne
  | cons c kids =>
    intro hnil
    exact h c mem_cons_self (append_eq_nil_iff.mp hnil).1

theorem Grown.leaves_ne (t : Node) : Grown t → leaves t ≠ [] := by
  induction t using Node.induct with
  | leaf l => exact fun _ h => (nomatch h)
  | p kids ih =>
    intro h
    cases h with
    | p hne h => exact leavesAll_ne_nil hne (fun k hk => ih k hk (h k hk))
  | q kids ih =>
    intro h
    cases h with
    | q hne h => exact leavesAll_ne_nil hne (fun k hk => ih k hk (h k hk))

theorem Grown.kids_p (h : Grown (.p kids)) : kids ≠ [] ∧ ∀ k ∈ kids, Grown k := by
  cases h with
  | p hne h => exact ⟨hne, h⟩

theorem Grown.kids_q (h : Grown (.q kids)) : kids ≠ [] ∧ ∀ k ∈ kids, Grown k := by
  cases h with
  | q hne h => exact ⟨hne, h⟩

theorem grown_group {block : List Node} (hne : block ≠ []) (h : ∀ k ∈ block, Grown k) : Grown (group block) := by
  unfold group
  split
  · exact h _ mem_cons_self
  · exact .p hne h

theorem grown_grouped {block : List Node} (h : ∀ k ∈ block, Grown k) : ∀ k ∈ grouped block, Grown k := by
  unfold grouped
  split
  · exact nofun
  · rename_i hne
    intro k hk
    obtain rfl := mem_singleton.mp hk
    exact grown_group (fun h => hne (List.isEmpty_iff.mpr h)) h

variable {set : List Leaf}

/-- A child with its mark: as it was when it holds nothing of the set or all of it, else as a Q node. -/
inductive Marked (set : List Leaf) (c : Node) : Node × Mark → Prop
  | empty (hg : Grown c) (h : full set c = 0) : Marked set c (c, .empty)
  | full (hg : Grown c) (h0 : full set c ≠ 0) (h : full set c = size c) : Marked set c (c, .full)
  | part {inner : List Node} {split : Nat} (hg : Grown c) (h0 : full set c ≠ 0) (h : full set c ≠ size c)
      (hq : Grown (.q inner)) (hends : ∀ o, o ∈ seq inner ↔ o ∈ orders c ∧ Ends set o) :
      Marked set c (.q inner, .part split)

/-- The nodes that a marked child brings into a row. -/
def flat (e : Node × Mark) : List Node :=
  match e.2 with
  | .part _ => (detach e.1).getD []
  | _ => [e.1]

def flats (ms : List (Node × Mark)) : List Node := ms.flatMap flat

theorem flats_cons (e : Node × Mark) (ms : List (Node × Mark)) : flats (e :: ms) = flat e ++ flats ms :=
  flatMap_cons

theorem flats_append (ms ls : List (Node × Mark)) : flats (ms ++ ls) = flats ms ++ flats ls := flatMap_append

section One

variable {c : Node} {e : Node × Mark} {x : List Leaf}

section

variable (h : Marked set c e)
include h

theorem Marked.grown : Grown c := by
  cases h <;> assumption

theorem Marked.word_ne (hx : x ∈ orders c) : x ≠ [] := by
  intro hnil
  rw [hnil] at hx
  exact h.grown.leaves_ne c (nil_perm.mp (perm_leaves c _ hx))

theorem Marked.clear_iff (hx : x ∈ orders c) : Clear set x ↔ e.2 = .empty := by
  rw [← full_eq_zero hx]
  cases h with
  | empty _ h => exact iff_of_true h rfl
  | full _ h0 _ => exact iff_of_false h0 nofun
  | part _ h0 _ _ _ => exact iff_of_false h0 nofun

theorem Marked.solid_iff (hx : x ∈ orders c) : Solid set x ↔ e.2 = .full := by
  cases h with
  | empty hg h =>
    refine iff_of_false (fun hf => ?_) nofun
    -- a word that is clear and solid is empty
    obtain ⟨a, l, rfl⟩ := exists_cons_of_ne_nil (Marked.word_ne (.empty hg h) hx)
    exact (full_eq_zero hx).mp h a mem_cons_self (hf a mem_cons_self)
  | full _ _ h => exact iff_of_true ((full_eq_size hx).mp h) rfl
  | part _ _ h _ _ => exact iff_of_false (fun hf => h ((full_eq_size hx).mpr hf)) nofun

theorem Marked.mem_flat : x ∈ seq (flat e) ↔ x ∈ orders c ∧ Ends set x := by
  cases h with
  | empty hg h =>
    show x ∈ seq [c] ↔ _
    rw [mem_seq_singleton]
    exact ⟨fun hx => ⟨hx, ((full_eq_zero hx).mp h).ends⟩, fun hx => hx.1⟩
  | full hg _ h =>
    show x ∈ seq [c] ↔ _
    rw [mem_seq_singleton]
    exact ⟨fun hx => ⟨hx, ((full_eq_size hx).mp h).ends⟩, fun hx => hx.1⟩
  | part _ _ _ _ hends => exact hends x

end

end One

/-! ## A row of marked children -/

/-- Empties, then at most one part, then fulls. -/
def Side : List (Node × Mark) → Prop
  | [] => True
  | e :: ms => (e.2 = .empty ∧ Side ms) ∨ (e.2 ≠ .empty ∧ ∀ d ∈ ms, d.2 = .full)

theorem Side.of_full : ∀ {ms : List (Node × Mark)}, (∀ d ∈ ms, d.2 = .full) → Side ms
  | [], _ => trivial
  | e :: _, h => .inr ⟨by rw [h e mem_cons_self]; exact nofun, fun d hd => h d (mem_cons_of_mem _ hd)⟩

section Row

variable {kids : List Node} {ms : List (Node × Mark)} {o : List Leaf}

section

variable (h : Forall₂ (Marked set) kids ms)
include h

theorem clear_seq : ∀ {o : List Leaf}, o ∈ seq kids →
    (Clear set o ↔ ∀ e ∈ ms, e.2 = .empty) := by
  induction h with
  | nil =>
    intro o ho
    rw [mem_seq_nil.mp ho]
    exact iff_of_true clear_nil nofun
  | cons hm _ ih =>
    intro o ho
    obtain ⟨x, hx, y, hy, rfl⟩ := mem_seq_cons.mp ho
    rw [clear_append, hm.clear_iff hx, ih hy, forall_mem_cons]

theorem solid_seq : ∀ {o : List Leaf}, o ∈ seq kids →
    (Solid set o ↔ ∀ e ∈ ms, e.2 = .full) := by
  induction h with
  | nil =>
    intro o ho
    rw [mem_seq_nil.mp ho]
    exact iff_of_true solid_nil nofun
  | cons hm _ ih =>
    intro o ho
    obtain ⟨x, hx, y, hy, rfl⟩ := mem_seq_cons.mp ho
    rw [solid_append, hm.solid_iff hx, ih hy, forall_mem_cons]

/-- **The words that end in the set** are those of the nodes the marks bring, when the marks are on one side. -/
theorem ends_seq : ∀ {o : List Leaf},
    (o ∈ seq kids ∧ Ends set o) ↔ Side ms ∧ o ∈ seq (flats ms) := by
  induction h with
  | nil =>
    intro o
    exact ⟨fun ho => ⟨trivial, ho.1⟩, fun ho => ⟨ho.2, by rw [mem_seq_nil.mp ho.2]; exact clear_nil.ends⟩⟩
  | @cons c e kids ms hm hrest ih =>
    intro o
    rw [flats_cons, mem_seq_cons]
    constructor
    · rintro ⟨⟨x, hx, y, hy, rfl⟩, ho⟩
      rcases ends_append.mp ho with ⟨hcx, hey⟩ | ⟨hex, hfy⟩
      · obtain ⟨hside, hflat⟩ := ih.mp ⟨hy, hey⟩
        exact ⟨.inl ⟨(hm.clear_iff hx).mp hcx, hside⟩, append_mem_seq (hm.mem_flat.mpr ⟨hx, hcx.ends⟩) hflat⟩
      · obtain ⟨hside, hflat⟩ := ih.mp ⟨hy, hfy.ends⟩
        refine ⟨?_, append_mem_seq (hm.mem_flat.mpr ⟨hx, hex⟩) hflat⟩
        by_cases he : e.2 = .empty
        · exact .inl ⟨he, hside⟩
        · exact .inr ⟨he, (solid_seq hrest hy).mp hfy⟩
    · rintro ⟨hside, ho⟩
      obtain ⟨x, hx, y, hy, rfl⟩ := mem_seq_append.mp ho
      obtain ⟨hxc, hxe⟩ := hm.mem_flat.mp hx
      rcases hside with ⟨he, hside⟩ | ⟨he, hall⟩
      · obtain ⟨hyk, hye⟩ := ih.mpr ⟨hside, hy⟩
        exact ⟨⟨x, hxc, y, hyk, rfl⟩, ends_append.mpr (.inl ⟨(hm.clear_iff hxc).mpr he, hye⟩)⟩
      · obtain ⟨hyk, -⟩ := ih.mpr ⟨Side.of_full hall, hy⟩
        exact ⟨⟨x, hxc, y, hyk, rfl⟩, ends_append.mpr (.inr ⟨hxe, (solid_seq hrest hyk).mpr hall⟩)⟩

/-- The words that start with the set, read from the other end. -/
theorem starts_seq :
    (o ∈ seq kids ∧ Starts set o) ↔ Side ms.reverse ∧ o.reverse ∈ seq (flats ms.reverse) := by
  rw [← ends_seq (rel_reverse h), mem_seq_reverse, reverse_reverse, ends_reverse]

end

/-- The marks that are not empty, counted. -/
def hits (ms : List (Node × Mark)) : Nat := ms.countP (fun e => e.2 ≠ .empty)

theorem hits_cons (e : Node × Mark) (ms : List (Node × Mark)) :
    hits (e :: ms) = hits ms + (if e.2 ≠ .empty then 1 else 0) := by
  unfold hits
  rw [countP_cons]
  simp

/-- A row cut in two, the set at the end of the one side and at the start of the other. -/
structure Cut (ms a b : List (Node × Mark)) : Prop where
  eq : ms = a ++ b
  left : Side a
  right : Side b.reverse

/-- **The words in which the set is a block**, where more than one child holds of it. -/
theorem block_seq (h : Forall₂ (Marked set) kids ms) : ∀ {o : List Leaf}, 2 ≤ hits ms →
    ((o ∈ seq kids ∧ Block set o) ↔ ∃ a b, Cut ms a b ∧ ∃ x y, x ++ y = o ∧ x ∈ seq (flats a)
      ∧ y.reverse ∈ seq (flats b.reverse)) := by
  intro o hhits
  constructor
  · rintro ⟨ho, hblock⟩
    clear * - h hhits ho hblock
    induction h generalizing o with
    | nil => exact absurd hhits (by decide)
    | @cons c e kids ms hm hrest ih =>
      obtain ⟨x, hx, y, hy, rfl⟩ := mem_seq_cons.mp ho
      rw [hits_cons] at hhits
      rcases block_append.mp hblock with ⟨hcx, hby⟩ | ⟨-, hcy⟩ | ⟨hex, hsy⟩
      · -- the child is empty, the set is a block of the rest
        have he := (hm.clear_iff hx).mp hcx
        rw [he, if_neg (by simp)] at hhits
        obtain ⟨a, b, hcut, u, v, rfl, hu, hv⟩ := ih hhits hy hby
        refine ⟨e :: a, b, ⟨by rw [hcut.eq, cons_append], .inl ⟨he, hcut.left⟩, hcut.right⟩,
          x ++ u, v, append_assoc _ _ _, ?_, hv⟩
        rw [flats_cons]
        exact append_mem_seq (hm.mem_flat.mpr ⟨hx, hcx.ends⟩) hu
      · -- the rest is empty, and one child is not two
        have hzero : hits ms = 0 := by
          refine countP_eq_zero.mpr (fun d hd => ?_)
          rw [(clear_seq hrest hy).mp hcy d hd]
          simp
        rw [hzero] at hhits
        split at hhits <;> omega
      · obtain ⟨hside, hflat⟩ := (starts_seq hrest).mp ⟨hy, hsy⟩
        refine ⟨[e], ms, ⟨rfl, ?_, hside⟩, x, y, rfl, ?_, hflat⟩
        · by_cases he : e.2 = .empty
          · exact .inl ⟨he, trivial⟩
          · exact .inr ⟨he, nofun⟩
        · rw [flats_cons]
          exact mem_seq_append.mpr ⟨x, hm.mem_flat.mpr ⟨hx, hex⟩, [], mem_seq_nil.mpr rfl, append_nil x⟩
  · rintro ⟨a, b, ⟨rfl, hleft, hright⟩, x, y, rfl, hx, hy⟩
    obtain ⟨hxk, hxe⟩ := (ends_seq (forall₂_take_append _ _ _ h)).mpr ⟨hleft, hx⟩
    obtain ⟨hyk, hys⟩ := (starts_seq (forall₂_drop_append _ _ _ h)).mpr ⟨hright, hy⟩
    refine ⟨?_, block_append.mpr (.inr (.inr ⟨hxe, hys⟩))⟩
    rw [← take_append_drop a.length kids]
    exact append_mem_seq hxk hyk

end Row

/-! ## A child whose words never end in the set -/

/-- The child holds some of the set and not all of itself, and no word of it ends in the set. -/
structure Stuck (set : List Leaf) (c : Node) : Prop where
  some : full set c ≠ 0
  none : ∀ o ∈ orders c, ¬Ends set o

theorem Stuck.starts (h : Stuck set c) (ho : o ∈ orders c) : ¬Starts set o := by
  rw [← ends_reverse]
  exact h.none _ (reverse_mem c o ho)

theorem ends_left {x y : List Leaf} (h : Ends set (x ++ y)) : Ends set x := by
  rcases ends_append.mp h with ⟨hx, -⟩ | ⟨hx, -⟩
  · exact hx.ends
  · exact hx

theorem ends_right {x y : List Leaf} (h : Ends set (x ++ y)) : Ends set y := by
  rcases ends_append.mp h with ⟨-, hy⟩ | ⟨-, hy⟩
  · exact hy
  · exact hy.ends

theorem mem_seq_split (hc : c ∈ kids) (ho : o ∈ seq kids) :
    ∃ l l', kids = l ++ c :: l' ∧ ∃ x ∈ seq l, ∃ w ∈ orders c, ∃ z ∈ seq l', o = x ++ w ++ z := by
  obtain ⟨l, l', rfl⟩ := append_of_mem hc
  obtain ⟨x, hx, y, hy, rfl⟩ := mem_seq_append.mp ho
  obtain ⟨w, hw, z, hz, rfl⟩ := mem_seq_cons.mp hy
  exact ⟨l, l', rfl, x, hx, w, hw, z, hz, (append_assoc _ _ _).symm⟩

theorem Stuck.not_ends (h : Stuck set c) (hc : c ∈ kids) (ho : o ∈ seq kids) : ¬Ends set o := by
  obtain ⟨l, l', -, x, -, w, hw, z, -, rfl⟩ := mem_seq_split hc ho
  exact fun he => h.none w hw (ends_right (ends_left he))

/-- The children that hold leaves of the set, counted. -/
def holders (set : List Leaf) (kids : List Node) : Nat := kids.countP (fun c => decide (0 < full set c))

theorem clear_of_holders (h : holders set kids = 0) : ∀ {o : List Leaf}, o ∈ seq kids → Clear set o := by
  induction kids with
  | nil =>
    intro o ho
    rw [mem_seq_nil.mp ho]
    exact clear_nil
  | cons c kids ih =>
    intro o ho
    obtain ⟨x, hx, y, hy, rfl⟩ := mem_seq_cons.mp ho
    have hall := countP_eq_zero.mp h
    refine clear_append.mpr ⟨(full_eq_zero hx).mp ?_, ih (countP_eq_zero.mpr fun k hk =>
      hall k (mem_cons_of_mem _ hk)) hy⟩
    have := hall c mem_cons_self
    simpa using this

theorem not_clear_of_holders (h : holders set kids ≠ 0) (ho : o ∈ seq kids) : ¬Clear set o := by
  intro hclear
  refine h (countP_eq_zero.mpr fun c hc => ?_)
  obtain ⟨l, l', -, x, -, w, hw, z, -, rfl⟩ := mem_seq_split hc ho
  have := (full_eq_zero hw).mpr (clear_append.mp (clear_append.mp hclear).1).2
  simp [this]

/-- A child that is stuck stands in no block that others have a part in. -/
theorem Stuck.not_block (h : Stuck set c) (hc : c ∈ kids) (hk : 2 ≤ holders set kids) (ho : o ∈ seq kids) : ¬Block set o := by
  obtain ⟨l, l', rfl, x, hx, w, hw, z, hz, rfl⟩ := mem_seq_split hc ho
  have hw0 : ¬Clear set w := fun hclear => h.some ((full_eq_zero hw).mpr hclear)
  intro hblock
  -- another child holds of the set, before this one or after it
  have hother : holders set l ≠ 0 ∨ holders set l' ≠ 0 := by
    unfold holders at hk ⊢
    rw [countP_append, countP_cons] at hk
    split at hk <;> omega
  rcases hother with hl | hl
  · rw [append_assoc] at hblock
    rcases block_append.mp hblock with ⟨hcx, -⟩ | ⟨-, hcwz⟩ | ⟨-, hs⟩
    · exact not_clear_of_holders hl hx hcx
    · exact hw0 (clear_append.mp hcwz).1
    · refine h.starts hw ?_
      rcases starts_append.mp hs with ⟨hf, -⟩ | ⟨hf, -⟩
      · exact hf.starts
      · exact hf
  · rcases block_append.mp hblock with ⟨hcxw, -⟩ | ⟨-, hcz⟩ | ⟨he, -⟩
    · exact hw0 (clear_append.mp hcxw).2
    · exact not_clear_of_holders hl hz hcz
    · exact h.none w hw (ends_right he)

theorem hits_eq {ms : List (Node × Mark)} (h : Forall₂ (Marked set) kids ms) : hits ms = holders set kids := by
  induction h with
  | nil => rfl
  | @cons c e kids ms hm _ ih =>
    rw [hits_cons, ih]
    unfold holders
    rw [countP_cons]
    congr 1
    cases hm with
    | empty _ h => simp [h]
    | full _ h0 _ => simp [Nat.pos_of_ne_zero h0]
    | part _ h0 _ _ _ => simp [Nat.pos_of_ne_zero h0]

end Pie.Proof.PqTrees
