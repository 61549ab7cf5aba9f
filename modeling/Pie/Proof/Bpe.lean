import Pie.Tokenizer.Bpe

/-!
# Merging pairs

The nodes that are still linked are a list of indices and ids, and a node's links
and rank follow from its place in the list. A merge takes one entry out of the
list. Both ways of merging take the entry whose rank is lowest, and of those the
first, so both make the same merges in the same order.
-/

namespace Pie.Proof.Bpe

open List Pie.Tokenizer Relation

/-! ## The linked nodes -/

abbrev Entry := Nat × TokenId

variable {bpe : BpeTable}

/-- The rank of a node with the entries after it. -/
def rankOf (bpe : BpeTable) (id : TokenId) : List Entry → Nat
  | [] => rankMax
  | next :: _ => bpe.pairRank id next.2

def nextOf : List Entry → Nat
  | [] => noNode
  | next :: _ => next.1

def predOf (before : List Entry) : Nat := (before.getLast?.map Prod.fst).getD noNode

/-- The node of an entry, from the entries before it and after it. -/
def nodeOf (bpe : BpeTable) (before : List Entry) (e : Entry) (after : List Entry) : Node :=
  ⟨e.2, rankOf bpe e.2 after, predOf before, nextOf after⟩

/-- The entries with their ranks, the rank first. -/
def ranked (bpe : BpeTable) : List Entry → List (Nat × Nat)
  | [] => []
  | e :: rest => (rankOf bpe e.2 rest, e.1) :: ranked bpe rest

/-- The entries are what the nodes link. The ranks of the `stale` nodes may be others. -/
structure Live (bpe : BpeTable) (stale : Nat → Prop) (nodes : List Node) (entries : List Entry) : Prop where
  node : ∀ before e after, entries = before ++ e :: after →
    ∃ rank, nodes[e.1]? = some { nodeOf bpe before e after with rank } ∧ (¬stale e.1 → rank = rankOf bpe e.2 after)
  sorted : entries.Pairwise fun e f => e.1 < f.1
  bound : ∀ e ∈ entries, e.1 < noNode

variable {entries : List Entry} {x : Nat × Nat} {nodes : List Node} (ids : List TokenId)

theorem mem_ranked : x ∈ ranked bpe entries ↔
    ∃ before e after, entries = before ++ e :: after ∧ x = (rankOf bpe e.2 after, e.1) := by
  induction entries with
  | nil => exact ⟨nofun, fun ⟨_, _, _, he, _⟩ => by simp at he⟩
  | cons e rest ih =>
    rw [ranked, mem_cons, ih]
    constructor
    · rintro (rfl | ⟨before, f, after, rfl, rfl⟩)
      · exact ⟨[], e, rest, rfl, rfl⟩
      · exact ⟨e :: before, f, after, rfl, rfl⟩
    · rintro ⟨before, f, after, he, rfl⟩
      cases before with
      | nil =>
        cases he
        exact .inl rfl
      | cons g before =>
        cases he
        exact .inr ⟨before, f, after, rfl, rfl⟩

theorem pairRank_le (a b : TokenId) : bpe.pairRank a b ≤ rankMax := by
  unfold BpeTable.pairRank BpeTable.pairMerge
  cases bpe.merges.lookup (a, b) with
  | none => exact le_rfl
  | some m => exact Nat.le_sub_one_of_lt m.1.isLt

theorem rankOf_le (a : TokenId) (after : List Entry) : rankOf bpe a after ≤ rankMax := by
  cases after with
  | nil => exact le_rfl
  | cons next after => exact pairRank_le _ _

theorem pairRank_of {a b : TokenId} {m : Nat × TokenId} (h : bpe.pairMerge a b = some m) : bpe.pairRank a b = m.1 := by
  unfold BpeTable.pairRank
  rw [h]
  rfl

theorem exists_of_rankOf {a : TokenId} {after : List Entry} (h : rankOf bpe a after ≠ rankMax) :
    ∃ j b rest m, after = (j, b) :: rest ∧ bpe.pairMerge a b = some (rankOf bpe a after, m) := by
  cases after with
  | nil => exact absurd rfl h
  | cons next rest =>
    cases hm : bpe.pairMerge a next.2 with
    | none =>
      refine absurd ?_ h
      show bpe.pairRank a next.2 = rankMax
      unfold BpeTable.pairRank
      rw [hm]
      rfl
    | some m => exact ⟨next.1, next.2, rest, m.2, rfl, by rw [hm, rankOf, pairRank_of hm]⟩

/-! ## What a merge does to them -/

section Update

variable {nodes nodes' : List Node} {i j x : Nat} {node next : Node} {f : Node → Node}

theorem modify_self (h : nodes[i]? = some node) : (nodes.modify i f)[i]? = some (f node) := by
  rw [getElem?_modify, h]
  simp

theorem modify_ne (h : x ≠ i) : (nodes.modify i f)[x]? = nodes[x]? := by
  rw [getElem?_modify]
  simp only [if_neg h.symm]
  exact id_map _

theorem update_eq (h : nodes[i]? = some node) : update nodes i f = some (nodes.modify i f) :=
  if_pos (List.getElem?_eq_some_iff.mp h).1

theorem rerank_eq (h : nodes[i]? = some node) {rank : Nat} (hr : nodeRank nodes i bpe = some rank) :
    rerank nodes i bpe = some (rank, nodes.modify i ({ · with rank })) := by
  unfold rerank
  rw [hr]
  show (update nodes i _ >>= _) = _
  rw [update_eq h]
  rfl

end Update

theorem predOf_concat (before : List Entry) (e : Entry) : predOf (before ++ [e]) = e.1 := by
  unfold predOf
  rw [getLast?_concat]
  rfl

theorem predOf_append_cons (before : List Entry) (e : Entry) (rest : List Entry) :
    predOf (before ++ e :: rest) = predOf (e :: rest) := by
  unfold predOf
  rw [getLast?_append, getLast?_cons]
  rfl

theorem place_unique {entries before before' after after' : List Entry} {e f : Entry}
    (hs : entries.Pairwise fun e f => e.1 < f.1) (he : entries = before ++ e :: after) (hf : entries = before' ++ f :: after')
    (h : e.1 = f.1) : before = before' ∧ e = f ∧ after = after' := by
  have hlt : ∀ {b c d : List Entry} {e f : Entry}, entries = b ++ e :: (c ++ f :: d) → e.1 < f.1 := by
    intro b c d e f he
    rw [he] at hs
    exact rel_of_pairwise_cons (pairwise_append.mp hs).2.1 mem_append_cons_self
  rcases append_eq_append_iff.mp (he.symm.trans hf) with ⟨c, rfl, hc⟩ | ⟨c, rfl, hc⟩
  · cases c with
    | nil =>
      cases hc
      exact ⟨(append_nil _).symm, rfl, rfl⟩
    | cons g c =>
      cases hc
      exact absurd h (hlt he).ne
  · cases c with
    | nil =>
      cases hc
      exact ⟨append_nil _, rfl, rfl⟩
    | cons g c =>
      cases hc
      exact absurd h.symm (hlt hf).ne

section Live

variable {stale : Nat → Prop} {nodes nodes' : List Node} {entries before after : List Entry} {e : Entry}

section

variable (h : Live bpe stale nodes entries)
include h

theorem Live.congr (hn : ∀ e ∈ entries, nodes'[e.1]? = nodes[e.1]?) :
    Live bpe stale nodes' entries := by
  refine ⟨fun before e after he => ?_, h.sorted, h.bound⟩
  obtain ⟨rank, hr⟩ := h.node before e after he
  exact ⟨rank, by rw [hn e (he ▸ mem_append_cons_self)]; exact hr.1, hr.2⟩

theorem Live.mono {stale' : Nat → Prop} (hs : ∀ e ∈ entries, stale e.1 → stale' e.1) :
    Live bpe stale' nodes entries := by
  refine ⟨fun before e after he => ?_, h.sorted, h.bound⟩
  obtain ⟨rank, hr⟩ := h.node before e after he
  exact ⟨rank, hr.1, fun hn => hr.2 fun hst => hn (hs e (he ▸ mem_append_cons_self) hst)⟩

theorem Live.nodeRank (he : entries = before ++ e :: after) :
    nodeRank nodes e.1 bpe = some (rankOf bpe e.2 after) := by
  obtain ⟨rank, hn, -⟩ := h.node before e after he
  unfold Pie.Tokenizer.nodeRank
  rw [hn]
  show (if nextOf after = noNode then _ else _) = _
  cases after with
  | nil => exact if_pos rfl
  | cons f rest =>
    obtain ⟨rank', hn', -⟩ := h.node (before ++ [e]) f rest (by rw [he, append_assoc]; rfl)
    have hne : nextOf (f :: rest) ≠ noNode :=
      (h.bound f (he ▸ mem_append_right _ (mem_cons_of_mem _ mem_cons_self))).ne
    rw [if_neg hne]
    show (nodes[f.1]? >>= _) = _
    rw [hn']
    rfl

theorem Live.rerank (he : entries = before ++ e :: after) :
    ∃ nodes', rerank nodes e.1 bpe = some (rankOf bpe e.2 after, nodes')
      ∧ Live bpe (fun x => stale x ∧ x ≠ e.1) nodes' entries ∧ ∀ x, x ≠ e.1 → nodes'[x]? = nodes[x]? := by
  obtain ⟨rank, hn, -⟩ := h.node before e after he
  refine ⟨_, rerank_eq hn (h.nodeRank he), ⟨fun before' f after' hf => ?_, h.sorted, h.bound⟩, fun x hx => modify_ne hx⟩
  by_cases hfe : f.1 = e.1
  · obtain ⟨rfl, rfl, rfl⟩ := place_unique h.sorted hf he hfe
    exact ⟨rankOf bpe f.2 after', by rw [modify_self hn], fun _ => rfl⟩
  · obtain ⟨rank', hn', hr'⟩ := h.node before' f after' hf
    exact ⟨rank', by rw [modify_ne hfe]; exact hn', fun hs => hr' fun hst => hs ⟨hst, hfe⟩⟩

end

end Live

section Merge

variable {nodes : List Node} {before after : List Entry} {i j : Nat} {a b m : TokenId} {rank : Nat}

/-- The entries after a merge: all but one, the ids the same but for one. -/
theorem merged_place {before' after' : List Entry} {e : Entry} (h : before ++ (i, m) :: after = before' ++ e :: after') :
    (∃ rest, before = before' ++ e :: rest ∧ after' = rest ++ (i, m) :: after)
      ∨ (before' = before ∧ e = (i, m) ∧ after' = after)
      ∨ ∃ rest, before' = before ++ (i, m) :: rest ∧ after = rest ++ e :: after' := by
  rcases append_eq_append_iff.mp h with ⟨c, rfl, hc⟩ | ⟨c, rfl, hc⟩
  · cases c with
    | nil =>
      cases hc
      exact .inr (.inl ⟨append_nil _, rfl, rfl⟩)
    | cons g c =>
      cases hc
      exact .inr (.inr ⟨c, rfl, rfl⟩)
  · cases c with
    | nil =>
      cases hc
      exact .inr (.inl ⟨(append_nil _).symm, rfl, rfl⟩)
    | cons g c =>
      cases hc
      exact .inl ⟨c, rfl, rfl⟩

/-- **A merge takes one entry out.** Two ranks are stale after it. -/
theorem mergeNext_live (h : Live bpe (fun _ => False) nodes (before ++ (i, a) :: (j, b) :: after))
    (hm : bpe.pairMerge a b = some (rank, m)) :
    ∃ nodes', mergeNext nodes i bpe = some (j, nodes')
      ∧ Live bpe (fun x => x = i ∨ x = predOf before) nodes' (before ++ (i, m) :: after)
      ∧ (∀ x, (∀ e ∈ before ++ (i, m) :: after, e.1 ≠ x) → nodes'[x]? = nodes[x]?) ∧ nodes'.length = nodes.length := by
  obtain ⟨_, hi, hri⟩ := h.node before (i, a) ((j, b) :: after) rfl
  obtain ⟨_, hj, hrj⟩ := h.node (before ++ [(i, a)]) (j, b) after (by rw [append_assoc]; rfl)
  obtain rfl := hri id
  obtain rfl := hrj id
  obtain ⟨hsb, hsa, hcross⟩ := pairwise_append.mp h.sorted
  obtain ⟨hia, hsa⟩ := pairwise_cons.mp hsa
  obtain ⟨hja, hsa⟩ := pairwise_cons.mp hsa
  have hij : i < j := hia (j, b) mem_cons_self
  have hbi : ∀ e ∈ before, e.1 < i := fun e he => hcross e he (i, a) mem_cons_self
  have haj : ∀ e ∈ after, j < e.1 := hja
  have hsorted : (before ++ (i, m) :: after).Pairwise fun e f => e.1 < f.1 := by
    refine pairwise_append.mpr ⟨hsb, pairwise_cons.mpr ⟨fun e he => hij.trans (haj e he), hsa⟩, fun e he f hf => ?_⟩
    rcases mem_cons.mp hf with rfl | hf
    · exact hbi e he
    · exact (hbi e he).trans (hij.trans (haj f hf))
  have hbound : ∀ e ∈ before ++ (i, m) :: after, e.1 < noNode := by
    intro e he
    rcases mem_append.mp he with he | he
    · exact h.bound e (mem_append_left _ he)
    · rcases mem_cons.mp he with rfl | he
      · exact h.bound (i, a) mem_append_cons_self
      · exact h.bound e (mem_append_right _ (mem_cons_of_mem _ (mem_cons_of_mem _ he)))
  -- what the nodes are after the merge
  obtain ⟨nodes', he, hlen, hni, hnk, hnx⟩ : ∃ nodes', mergeNext nodes i bpe = some (j, nodes')
      ∧ nodes'.length = nodes.length
      ∧ nodes'[i]? = some ⟨m, rankOf bpe a ((j, b) :: after), predOf before, nextOf after⟩
      ∧ (∀ e rest, after = e :: rest → nodes'[e.1]? = some ⟨e.2, rankOf bpe e.2 rest, i, nextOf rest⟩)
      ∧ ∀ x, x ≠ i → (∀ e rest, after = e :: rest → x ≠ e.1) → nodes'[x]? = nodes[x]? := by
    have hbind : ∀ nodes', (if nextOf after ≠ noNode then
          update (nodes.modify i ({ · with tokenId := m, next := nextOf after })) (nextOf after) ({ · with prev := i })
        else some (nodes.modify i ({ · with tokenId := m, next := nextOf after }))) = some nodes' →
        mergeNext nodes i bpe = some (j, nodes') := fun nodes' hu =>
      Option.bind_eq_some_iff.mpr ⟨_, hi, Option.bind_eq_some_iff.mpr ⟨_, hj, Option.bind_eq_some_iff.mpr ⟨_, hm,
        Option.bind_eq_some_iff.mpr ⟨_, update_eq hi, Option.bind_eq_some_iff.mpr ⟨_, hu, rfl⟩⟩⟩⟩⟩
    cases after with
    | nil =>
      exact ⟨_, hbind _ (if_neg fun hn => hn rfl), length_modify .., modify_self hi, nofun, fun x hx _ => modify_ne hx⟩
    | cons e rest =>
      obtain ⟨_, hk, hrk⟩ := h.node (before ++ [(i, a), (j, b)]) e rest (by rw [append_assoc]; rfl)
      obtain rfl := hrk id
      have hki : e.1 ≠ i := (hij.trans (haj e mem_cons_self)).ne'
      have hk' : (nodes.modify i ({ · with tokenId := m, next := nextOf (e :: rest) }))[e.1]? = _ := (modify_ne hki).trans hk
      have hne : nextOf (e :: rest) ≠ noNode :=
        (hbound e (mem_append_right _ (mem_cons_of_mem _ mem_cons_self))).ne
      refine ⟨_, hbind _ ((if_pos hne).trans (update_eq hk')), by rw [length_modify, length_modify], ?_, ?_, ?_⟩
      · exact (modify_ne hki.symm).trans (modify_self hi)
      · intro f rest' hf
        cases hf
        exact modify_self hk'
      · intro x hx hxk
        exact (modify_ne (hxk e rest rfl)).trans (modify_ne hx)
  refine ⟨nodes', he, ⟨fun before' e after' hp => ?_, hsorted, hbound⟩, fun x hx => ?_, hlen⟩
  · rcases merged_place hp with ⟨rest, rfl, rfl⟩ | ⟨rfl, rfl, rfl⟩ | ⟨rest, rfl, rfl⟩
    · -- an entry before: its next entry keeps its index
      obtain ⟨_, hn, hr⟩ := h.node before' e (rest ++ (i, a) :: (j, b) :: after) (by rw [append_assoc]; rfl)
      obtain rfl := hr id
      have hei : e.1 < i := hbi e mem_append_cons_self
      have hold : nodes'[e.1]? = nodes[e.1]? := hnx e.1 hei.ne fun f rest' hf =>
        (hei.trans (hij.trans (haj f (hf ▸ mem_cons_self)))).ne
      rw [hold, hn]
      cases rest with
      | nil => exact ⟨_, rfl, fun hs => absurd (.inr (predOf_concat before' e).symm) hs⟩
      | cons g rest => exact ⟨_, rfl, fun _ => rfl⟩
    · exact ⟨_, hni, fun hs => absurd (.inl rfl) hs⟩
    · cases rest with
      | nil =>
        refine ⟨rankOf bpe e.2 after', (hnk e after' rfl).trans ?_, fun _ => rfl⟩
        show some (Node.mk e.2 _ i _) = some (Node.mk e.2 _ (predOf (before ++ [(i, m)])) _)
        rw [predOf_concat]
        rfl
      | cons g rest =>
        -- an entry after the next: nothing of it changed
        obtain ⟨_, hn, hr⟩ := h.node (before ++ (i, a) :: (j, b) :: g :: rest) e after' (by
          rw [append_assoc]; rfl)
        obtain rfl := hr id
        have hge : g.1 < e.1 := rel_of_pairwise_cons hsa mem_append_cons_self
        have hie : i < e.1 := hij.trans (haj e mem_append_cons_self)
        have hold : nodes'[e.1]? = nodes[e.1]? := by
          refine hnx e.1 hie.ne' fun f rest' hf => ?_
          cases hf
          exact hge.ne'
        refine ⟨rankOf bpe e.2 after', hold.trans (hn.trans ?_), fun _ => rfl⟩
        have hpred : predOf (before ++ (i, a) :: (j, b) :: g :: rest) = predOf (before ++ (i, m) :: g :: rest) := by
          have h1 := predOf_append_cons (before ++ [(i, a), (j, b)]) g rest
          have h2 := predOf_append_cons (before ++ [(i, m)]) g rest
          rw [append_assoc] at h1 h2
          exact h1.trans h2.symm
        show some (Node.mk _ _ (predOf (before ++ (i, a) :: (j, b) :: g :: rest)) _) = some (Node.mk _ _ _ _)
        rw [hpred]
        rfl
  · exact hnx x (fun hxi => hx (i, m) mem_append_cons_self hxi.symm) fun e rest hr hxe =>
      hx e (mem_append_right _ (mem_cons_of_mem _ (hr ▸ mem_cons_self))) hxe.symm

theorem rerank_both (h : Live bpe (fun x => x = i ∨ x = predOf before) nodes (before ++ (i, m) :: after)) :
    ∃ n₁ node, rerank nodes i bpe = some (rankOf bpe m after, n₁) ∧ n₁[i]? = some node ∧ node.prev = predOf before
      ∧ (∀ x, x ≠ i → n₁[x]? = nodes[x]?)
      ∧ (before = [] ∧ node.prev = noNode ∧ Live bpe (fun _ => False) n₁ (before ++ (i, m) :: after)
        ∨ ∃ rest e n₂, before = rest ++ [e] ∧ node.prev = e.1 ∧ node.prev ≠ noNode
          ∧ rerank n₁ e.1 bpe = some (rankOf bpe e.2 ((i, m) :: after), n₂)
          ∧ Live bpe (fun _ => False) n₂ (before ++ (i, m) :: after) ∧ ∀ x, x ≠ e.1 → n₂[x]? = n₁[x]?) := by
  obtain ⟨n₁, h₁, hlive₁, hframe₁⟩ := h.rerank rfl
  obtain ⟨_, hi, -⟩ := hlive₁.node before (i, m) after rfl
  refine ⟨n₁, _, h₁, hi, rfl, hframe₁, ?_⟩
  rcases eq_nil_or_concat before with rfl | ⟨rest, e, rfl⟩
  · refine .inl ⟨rfl, rfl, hlive₁.mono ?_⟩
    rintro f hf ⟨hfi | hfp, hne⟩
    · exact hne hfi
    · exact (hlive₁.bound f hf).ne hfp
  · rw [concat_eq_append] at hlive₁ ⊢
    have hpred : predOf (rest ++ [e]) = e.1 := predOf_concat rest e
    obtain ⟨n₂, h₂, hlive₂, hframe₂⟩ := @Live.rerank bpe _ _ _ rest ((i, m) :: after) e hlive₁ (by
      rw [append_assoc]; rfl)
    refine .inr ⟨rest, e, n₂, rfl, hpred, ?_, h₂, hlive₂.mono ?_, hframe₂⟩
    · show predOf (rest ++ [e]) ≠ noNode
      rw [hpred]
      exact (hlive₁.bound e (mem_append_left _ mem_append_cons_self)).ne
    · rintro f hf ⟨⟨hfi | hfp, hne⟩, hne'⟩
      · exact hne hfi
      · exact hne' (hfp.trans hpred)

end Merge

/-! ## The lowest rank -/

/-- The ids of the entries. -/
def tokens (entries : List Entry) : List TokenId := entries.map Prod.snd

theorem entries_of_infix {c d : TokenId} (h : [c, d] <:+: tokens entries) :
    ∃ before k l after, entries = before ++ (k, c) :: (l, d) :: after := by
  obtain ⟨s, t, h⟩ := h
  obtain ⟨xs, ys, rfl, hxs, -⟩ := map_eq_append_iff.mp h.symm
  obtain ⟨before, ys', rfl, -, hys⟩ := map_eq_append_iff.mp hxs
  obtain ⟨e, zs, rfl, rfl, hzs⟩ := map_eq_cons_iff.mp hys
  obtain ⟨f, zs, rfl, rfl, -⟩ := map_eq_cons_iff.mp hzs
  exact ⟨before, e.1, f.1, zs ++ ys, by rw [append_assoc]; rfl⟩

theorem ranked_sorted (h : entries.Pairwise fun e f => e.1 < f.1) :
    (ranked bpe entries).Pairwise fun x y => x.2 < y.2 := by
  induction entries with
  | nil => exact .nil
  | cons e rest ih =>
    obtain ⟨he, hrest⟩ := pairwise_cons.mp h
    refine pairwise_cons.mpr ⟨fun x hx => ?_, ih hrest⟩
    obtain ⟨before, f, after, rfl, rfl⟩ := mem_ranked.mp hx
    exact he f mem_append_cons_self

theorem length_ranked (entries : List Entry) : (ranked bpe entries).length = entries.length := by
  induction entries with
  | nil => rfl
  | cons e rest ih => exact congrArg (· + 1) ih

theorem ranked_le (hx : x ∈ ranked bpe entries) : x.1 ≤ rankMax := by
  obtain ⟨before, f, after, rfl, rfl⟩ := mem_ranked.mp hx
  exact rankOf_le _ _

/-- The lowest rank and the first place that has it; the greatest word where there is no rank. -/
def Least (bpe : BpeTable) (entries : List Entry) (min : Nat × Nat) : Prop :=
  (min.1 = rankMax → ∀ x ∈ ranked bpe entries, x.1 = rankMax)
    ∧ (min.1 ≠ rankMax → min ∈ ranked bpe entries ∧ ∀ x ∈ ranked bpe entries, x.1 ≠ rankMax → Before min x)

theorem before_refl (x : Nat × Nat) : Before x x := .inr ⟨rfl, le_rfl⟩

theorem before_trans {x y z : Nat × Nat} (h : Before x y) (h' : Before y z) : Before x z := by
  unfold Before at *
  omega

/-- Scanning keeps the lowest rank, and the first of equal ones. -/
theorem foldl_lower : ∀ {l : List (Nat × Nat)} {min : Nat × Nat}, (l.Pairwise fun x y => x.2 < y.2) →
    (min.1 = rankMax ∨ ∀ x ∈ l, min.2 < x.2) → (∀ x ∈ l, x.1 ≤ rankMax) → min.1 ≤ rankMax →
    (l.foldl (fun min x => lower min x.1 x.2) min = min ∨ l.foldl (fun min x => lower min x.1 x.2) min ∈ l)
      ∧ (l.foldl (fun min x => lower min x.1 x.2) min).1 ≤ rankMax
      ∧ (min.1 ≠ rankMax → Before (l.foldl (fun min x => lower min x.1 x.2) min) min)
      ∧ ∀ x ∈ l, x.1 ≠ rankMax → Before (l.foldl (fun min x => lower min x.1 x.2) min) x := by
  intro l
  induction l with
  | nil => exact fun _ _ _ h => ⟨.inl rfl, h, fun _ => before_refl _, nofun⟩
  | cons y l ih =>
    intro min hs hmin hle hmax
    obtain ⟨hy, hs⟩ := pairwise_cons.mp hs
    have hle' : ∀ x ∈ l, x.1 ≤ rankMax := fun x hx => hle x (mem_cons_of_mem _ hx)
    have hymax := hle y mem_cons_self
    rw [foldl_cons]
    by_cases hlt : y.1 < min.1
    · have he : lower min y.1 y.2 = y := if_pos hlt
      rw [he]
      obtain ⟨h1, h2, h3, h4⟩ := ih hs (.inr hy) hle' hymax
      have hy' := h3 (by omega)
      refine ⟨.inr ?_, h2, fun _ => before_trans hy' (.inl hlt), fun x hx hne => ?_⟩
      · rcases h1 with h1 | h1
        · rw [h1]
          exact mem_cons_self
        · exact mem_cons_of_mem _ h1
      · rcases mem_cons.mp hx with rfl | hx
        · exact hy'
        · exact h4 x hx hne
    · have he : lower min y.1 y.2 = min := if_neg hlt
      rw [he]
      obtain ⟨h1, h2, h3, h4⟩ := ih hs (hmin.imp id fun h x hx => h x (mem_cons_of_mem _ hx)) hle' hmax
      refine ⟨h1.imp id (mem_cons_of_mem _), h2, h3, fun x hx hne => ?_⟩
      rcases mem_cons.mp hx with rfl | hx
      · have hminne : min.1 ≠ rankMax := by omega
        have hbefore : min.2 < x.2 := (hmin.resolve_left hminne) x mem_cons_self
        refine before_trans (h3 hminne) ?_
        unfold Before
        omega
      · exact h4 x hx hne

theorem least_foldl (h : entries.Pairwise fun e f => e.1 < f.1) :
    Least bpe entries ((ranked bpe entries).foldl (fun min x => lower min x.1 x.2) (rankMax, noNode)) := by
  obtain ⟨h1, h2, -, h4⟩ := @foldl_lower (ranked bpe entries) (rankMax, noNode) (ranked_sorted h) (.inl rfl)
    (fun x hx => ranked_le hx) le_rfl
  refine ⟨fun he x hx => ?_, fun hne => ⟨h1.resolve_left fun he => hne (by rw [he]), h4⟩⟩
  by_contra hx'
  have hb := h4 x hx hx'
  have hle := ranked_le hx
  unfold Before at hb
  omega

section Step

variable {entries before after : List Entry} {i j : Nat} {a b m : TokenId} {rank : Nat} {min : Nat × Nat}

theorem merged_of_ranked (hr : Ranked bpe) (h : ∀ x ∈ ranked bpe entries, x.1 = rankMax) : Merged bpe (tokens entries) := by
  intro c d hcd
  obtain ⟨before, k, l, after, rfl⟩ := entries_of_infix hcd
  have hmax : rankOf bpe c ((l, d) :: after) = rankMax := h (_, k) (mem_ranked.mpr ⟨before, (k, c), _, rfl, rfl⟩)
  cases hm : bpe.pairMerge c d with
  | none => rfl
  | some m => exact absurd ((pairRank_of hm).symm.trans hmax) (hr c d m hm).ne

/-- **The lowest rank is merged, the leftmost of equal ones.** -/
theorem mergeStep_of_least (hr : Ranked bpe) (hs : (before ++ (i, a) :: (j, b) :: after).Pairwise fun e f => e.1 < f.1)
    (hm : bpe.pairMerge a b = some (rank, m))
    (hleast : ∀ x ∈ ranked bpe (before ++ (i, a) :: (j, b) :: after), x.1 ≠ rankMax → Before (rank, i) x) :
    MergeStep bpe (tokens (before ++ (i, a) :: (j, b) :: after)) (tokens (before ++ (i, m) :: after)) := by
  have hpair : ∀ {before' after' : List Entry} {k l : Nat} {c d : TokenId} {m' : Nat × TokenId},
      before ++ (i, a) :: (j, b) :: after = before' ++ (k, c) :: (l, d) :: after' → bpe.pairMerge c d = some m' →
      Before (rank, i) (m'.1, k) := by
    intro before' after' k l c d m' he hm'
    have hrank : rankOf bpe c ((l, d) :: after') = m'.1 := pairRank_of hm'
    refine hleast _ (mem_ranked.mpr ⟨before', (k, c), _, he, ?_⟩) (hr c d m' hm').ne
    rw [hrank]
  unfold tokens
  rw [map_append, map_append]
  refine .mk hm (fun c d hcd m' hm' => ?_) (fun c d hcd m' hm' => ?_)
  · have hcd' : [c, d] <:+: tokens (before ++ (i, a) :: (j, b) :: after) := by
      unfold tokens
      rw [map_append]
      exact hcd
    obtain ⟨before', k, l, after', he⟩ := entries_of_infix hcd'
    have := hpair he hm'
    unfold Before at this
    omega
  · have hcd' : [c, d] <:+: tokens (before ++ [(i, a)]) := by
      unfold tokens
      rw [map_append]
      exact hcd
    obtain ⟨before', k, l, after', he⟩ := entries_of_infix hcd'
    have hsplit : before ++ (i, a) :: (j, b) :: after = before' ++ (k, c) :: (l, d) :: (after' ++ (j, b) :: after) := by
      have := congrArg (· ++ (j, b) :: after) he
      simpa using this
    have hki : k < i := by
      have hlast := congrArg getLast? he
      rw [getLast?_concat, getLast?_append, getLast?_cons_cons, getLast?_cons, Option.some_or,
        ← getLast?_cons] at hlast
      rw [hsplit] at hs
      exact rel_of_pairwise_cons (pairwise_append.mp hs).2.1
        (mem_append_left _ (mem_of_getLast? hlast.symm))
    have := hpair hsplit hm'
    unfold Before at this
    omega

end Step

/-! ## Scanning -/

section Linear

variable {stale : Nat → Prop} {nodes : List Node} {entries : List Entry}

/-- The links from an entry on lead to the ids from there on. -/
theorem collectIds_live (h : Live bpe stale nodes entries) : ∀ {rest before : List Entry} {rounds : Nat},
    entries = before ++ rest → rest.length < rounds → collectIds nodes rounds (nextOf rest) = some (tokens rest) := by
  intro rest
  induction rest with
  | nil =>
    intro before rounds _ hlt
    obtain ⟨rounds, rfl⟩ := Nat.exists_eq_succ_of_ne_zero (ne_of_gt hlt)
    exact if_pos rfl
  | cons e rest ih =>
    intro before rounds he hlt
    obtain ⟨rounds, rfl⟩ := Nat.exists_eq_succ_of_ne_zero (ne_of_gt (Nat.zero_lt_of_lt hlt))
    obtain ⟨_, hn, -⟩ := h.node before e rest he
    have hne : nextOf (e :: rest) ≠ noNode := (h.bound e (he ▸ mem_append_cons_self)).ne
    rw [collectIds, if_neg hne]
    exact Option.bind_eq_some_iff.mpr ⟨_, hn, Option.bind_eq_some_iff.mpr
      ⟨_, @ih (before ++ [e]) _ (by rw [he, append_assoc]; rfl) (Nat.lt_of_succ_lt_succ hlt), rfl⟩⟩

theorem scanRanks_live (h : Live bpe (fun _ => False) nodes entries) : ∀ {rest before : List Entry} {e : Entry} {rounds : Nat}
    {min : Nat × Nat}, entries = before ++ e :: rest → rest.length < rounds →
    scanRanks nodes rounds min e.1 = some ((ranked bpe (e :: rest)).foldl (fun min x => lower min x.1 x.2) min) := by
  intro rest
  induction rest with
  | nil =>
    intro before e rounds min he hlt
    obtain ⟨rounds, rfl⟩ := Nat.exists_eq_succ_of_ne_zero (ne_of_gt hlt)
    obtain ⟨_, hn, hr⟩ := h.node before e [] he
    obtain rfl := hr id
    exact Option.bind_eq_some_iff.mpr ⟨_, hn, if_pos rfl⟩
  | cons f rest ih =>
    intro before e rounds min he hlt
    obtain ⟨rounds, rfl⟩ := Nat.exists_eq_succ_of_ne_zero (ne_of_gt (Nat.zero_lt_of_lt hlt))
    obtain ⟨_, hn, hr⟩ := h.node before e (f :: rest) he
    obtain rfl := hr id
    have hne : nextOf (f :: rest) ≠ noNode :=
      (h.bound f (he ▸ mem_append_right _ (mem_cons_of_mem _ mem_cons_self))).ne
    refine Option.bind_eq_some_iff.mpr ⟨_, hn, (if_neg hne).trans ?_⟩
    exact @ih (before ++ [e]) f _ _ (by rw [he, append_assoc]; rfl) (Nat.lt_of_succ_lt_succ hlt)

/-- The first entry is the first node. -/
def Starts (entries : List Entry) : Prop := ∃ id rest, entries = (0, id) :: rest

theorem starts_merge {before after : List Entry} {i j : Nat} {a b m : TokenId}
    (h : Starts (before ++ (i, a) :: (j, b) :: after)) : Starts (before ++ (i, m) :: after) := by
  obtain ⟨id, rest, h⟩ := h
  cases before with
  | nil =>
    obtain ⟨he, -⟩ := cons.inj h
    cases he
    exact ⟨m, after, rfl⟩
  | cons e before =>
    cases h
    exact ⟨id, before ++ (i, m) :: after, rfl⟩

/-- Where there is a lowest rank, there is a pair to merge. -/
theorem Least.split {min : Nat × Nat} (h : Least bpe entries min) (hmin : min.1 ≠ rankMax) :
    ∃ before a j b after m, entries = before ++ (min.2, a) :: (j, b) :: after ∧ bpe.pairMerge a b = some (min.1, m) := by
  obtain ⟨before, e, after, he, hr⟩ := mem_ranked.mp (h.2 hmin).1
  obtain ⟨rank, i⟩ := min
  cases hr
  obtain ⟨j, b, rest, m, rfl, hm⟩ := exists_of_rankOf hmin
  exact ⟨before, e.2, j, b, rest, m, he, hm⟩

/-- **The scanning loop merges until no pair has a rank.** -/
theorem linearLoop_live (hranked : Ranked bpe) {rounds : Nat} : ∀ {left : Nat} {entries : List Entry} {nodes : List Node}
    {min : Nat × Nat}, Live bpe (fun _ => False) nodes entries → Starts entries → entries.length ≤ left →
    entries.length ≤ rounds → Least bpe entries min →
    ∃ nodes' entries', linearLoop bpe rounds left min nodes = some nodes' ∧ Live bpe (fun _ => False) nodes' entries'
      ∧ Starts entries' ∧ entries'.length ≤ entries.length
      ∧ ReflTransGen (MergeStep bpe) (tokens entries) (tokens entries') ∧ Merged bpe (tokens entries') := by
  intro left
  induction left with
  | zero =>
    intro entries nodes min _ hstart hlen _ _
    obtain ⟨id, rest, rfl⟩ := hstart
    cases hlen
  | succ left ih =>
    intro entries nodes min h hstart hlen hrounds hleast
    rw [linearLoop]
    by_cases hmin : min.1 = rankMax
    · rw [if_pos hmin]
      exact ⟨nodes, entries, rfl, h, hstart, le_rfl, .refl, merged_of_ranked hranked (hleast.1 hmin)⟩
    · rw [if_neg hmin]
      obtain ⟨before, a, j, b, after, m, rfl, hm⟩ := hleast.split hmin
      have hlen' : (before ++ (min.2, m) :: after).length + 1 = (before ++ (min.2, a) :: (j, b) :: after).length := by
        simp only [length_append, length_cons]
        omega
      obtain ⟨n₁, h₁, hlive₁, -, -⟩ := mergeNext_live h hm
      obtain ⟨n₂, node, h₂, hnode, hprev, -, hboth⟩ := rerank_both hlive₁
      obtain ⟨n₃, h₃, hlive₃⟩ : ∃ n₃, (if node.prev ≠ noNode then (rerank n₂ node.prev bpe).map Prod.snd else some n₂) = some n₃
          ∧ Live bpe (fun _ => False) n₃ (before ++ (min.2, m) :: after) := by
        rcases hboth with ⟨-, hnone, hlive⟩ | ⟨rest, e, n₃, -, hpe, hne, h₃, hlive, -⟩
        · exact ⟨n₂, if_neg fun hn => hn hnone, hlive⟩
        · exact ⟨n₃, by rw [if_pos hne, hpe, h₃]; rfl, hlive⟩
      have hstart' := starts_merge (m := m) hstart
      obtain ⟨id, rest, hs⟩ := hstart'
      have hscan := @scanRanks_live bpe _ _ hlive₃ rest [] (0, id) rounds (rankMax, noNode) hs (by rw [hs, length_cons] at hlen'; omega)
      rw [← hs] at hscan
      obtain ⟨nodes', entries', h', hlive', hstart', hle, hsteps, hmerged⟩ := ih hlive₃ ⟨id, rest, hs⟩ (by omega) (by omega)
        (least_foldl hlive₃.sorted)
      refine ⟨nodes', entries', ?_, hlive', hstart', by omega, .head ?_ hsteps, hmerged⟩
      · exact Option.bind_eq_some_iff.mpr ⟨_, h₁, Option.bind_eq_some_iff.mpr ⟨_, h₂, Option.bind_eq_some_iff.mpr
          ⟨_, hnode, Option.bind_eq_some_iff.mpr ⟨_, h₃, Option.bind_eq_some_iff.mpr ⟨_, hscan, h'⟩⟩⟩⟩⟩
      · exact mergeStep_of_least hranked h.sorted hm (hleast.2 hmin).2

end Linear

/-! ## The first ranks -/

/-- The entries of some ids, the first with index `k`. -/
def entriesFrom : Nat → List TokenId → List Entry
  | _, [] => []
  | k, id :: ids => (k, id) :: entriesFrom (k + 1) ids

theorem tokens_entriesFrom (k : Nat) : tokens (entriesFrom k ids) = ids := by
  induction ids generalizing k with
  | nil => rfl
  | cons id ids ih => exact congrArg (id :: ·) (ih (k + 1))

theorem length_entriesFrom (k : Nat) : (entriesFrom k ids).length = ids.length := by
  induction ids generalizing k with
  | nil => rfl
  | cons id ids ih => exact congrArg (· + 1) (ih (k + 1))

theorem getElem?_entriesFrom (k n : Nat) : (entriesFrom k ids)[n]? = ids[n]?.map (k + n, ·) := by
  induction ids generalizing k n with
  | nil => rfl
  | cons id ids ih =>
    cases n with
    | zero => rfl
    | succ n =>
      show (entriesFrom (k + 1) ids)[n]? = ids[n]?.map _
      rw [ih, add_right_comm]
      rfl

theorem sorted_entriesFrom (k : Nat) : (entriesFrom k ids).Pairwise fun e f => e.1 < f.1 := by
  induction ids generalizing k with
  | nil => exact .nil
  | cons id ids ih =>
    refine pairwise_cons.mpr ⟨fun e he => ?_, ih (k + 1)⟩
    obtain ⟨n, hn⟩ := mem_iff_getElem?.mp he
    rw [getElem?_entriesFrom, Option.map_eq_some_iff] at hn
    obtain ⟨_, -, rfl⟩ := hn
    show k < k + 1 + n
    omega

section Initial

variable {ids : List TokenId} (hlen : ids.length ≤ noNode)
include hlen

/-- Before the first loop all ranks but the last are stale. -/
theorem live_buildNodes : Live bpe (fun i => i + 1 < ids.length) (buildNodes ids) (entriesFrom 0 ids) := by
  refine ⟨fun before e after he => ?_, sorted_entriesFrom ids 0, fun e he => ?_⟩
  · have hat : ∀ n : Nat, (before ++ e :: after)[n]? = ids[n]?.map (n, ·) := by
      intro n
      rw [← he, getElem?_entriesFrom, zero_add]
    have he' := hat before.length
    rw [getElem?_append_right le_rfl, Nat.sub_self, getElem?_cons_zero] at he'
    obtain ⟨id, hid, rfl⟩ := Option.map_eq_some_iff.mp he'.symm
    have hlt := (List.getElem?_eq_some_iff.mp hid).1
    have hlength : before.length + 1 + after.length = ids.length := by
      have := congrArg length he
      rw [length_entriesFrom, length_append, length_cons] at this
      omega
    have hmod : ∀ n : Nat, n < noNode → n % 2 ^ 32 = n := fun n hn => Nat.mod_eq_of_lt (hn.trans (by decide))
    refine ⟨rankMax, ?_, fun hs => ?_⟩
    · have hnode : (buildNodes ids)[before.length]? = some ⟨id, rankMax,
          if 0 < before.length then (before.length - 1) % 2 ^ 32 else noNode,
          if before.length + 1 < ids.length then (before.length + 1) % 2 ^ 32 else noNode⟩ := by
        unfold buildNodes
        rw [getElem?_map, getElem?_zipIdx, hid, zero_add]
        rfl
      refine hnode.trans (congrArg some ?_)
      have hprev : (if 0 < before.length then (before.length - 1) % 2 ^ 32 else noNode) = predOf before := by
        rcases eq_nil_or_concat before with rfl | ⟨rest, f, rfl⟩
        · rfl
        · rw [concat_eq_append] at *
          rw [predOf_concat, length_append, length_singleton, if_pos (Nat.succ_pos _), Nat.add_sub_cancel]
          have hf := hat rest.length
          rw [append_assoc, getElem?_append_right le_rfl, Nat.sub_self] at hf
          obtain ⟨_, -, rfl⟩ := Option.map_eq_some_iff.mp hf.symm
          rw [length_append, length_singleton] at hlt
          exact hmod _ (by omega)
      have hnext : (if before.length + 1 < ids.length then (before.length + 1) % 2 ^ 32 else noNode) = nextOf after := by
        cases after with
        | nil => exact if_neg (by rw [length_nil] at hlength; omega)
        | cons f rest =>
          have hf := hat (before.length + 1)
          rw [getElem?_append_right (Nat.le_add_right _ 1), Nat.add_sub_cancel_left] at hf
          obtain ⟨_, -, rfl⟩ := Option.map_eq_some_iff.mp hf.symm
          rw [length_cons] at hlength
          rw [if_pos (by omega)]
          exact hmod _ (by omega)
      rw [hprev, hnext]
      rfl
    · cases after with
      | nil => rfl
      | cons f rest =>
        rw [length_cons] at hlength
        exact absurd (show before.length + 1 < ids.length by omega) hs
  · obtain ⟨n, hn⟩ := mem_iff_getElem?.mp he
    rw [getElem?_entriesFrom, zero_add, Option.map_eq_some_iff] at hn
    obtain ⟨_, hid, rfl⟩ := hn
    exact (List.getElem?_eq_some_iff.mp hid).1.trans_le hlen

omit hlen in
theorem getElem?_ranked (before : List Entry) (e : Entry) (after : List Entry) :
    (ranked bpe (before ++ e :: after))[before.length]? = some (rankOf bpe e.2 after, e.1) := by
  induction before with
  | nil => rfl
  | cons f before ih => exact ih

omit hlen in
theorem entry_at {k : Nat} (hk : k < ids.length) :
    ∃ before e after, entriesFrom 0 ids = before ++ e :: after ∧ e.1 = k ∧ before.length = k := by
  have hlt : k < (entriesFrom 0 ids).length := by rwa [length_entriesFrom]
  have hat := getElem?_eq_getElem hlt
  refine ⟨(entriesFrom 0 ids).take k, (entriesFrom 0 ids)[k], (entriesFrom 0 ids).drop (k + 1), ?_, ?_, ?_⟩
  · rw [← drop_eq_getElem_cons hlt, take_append_drop]
  · rw [getElem?_entriesFrom, zero_add] at hat
    obtain ⟨_, -, he⟩ := Option.map_eq_some_iff.mp hat
    rw [← he]
  · rw [length_take, min_eq_left hlt.le]

/-- A loop that ranks the nodes but the last; `f` is what it keeps of the ranks. -/
theorem ranks_live {α : Type} (f : α → Nat → Nat → α) (acc : α) : ∀ {k : Nat}, k + 1 ≤ ids.length →
    ∃ nodes, (range k).foldlM (fun (acc, nodes) i => do
        let (rank, nodes) ← rerank nodes i bpe
        some (f acc rank i, nodes)) (acc, buildNodes ids)
      = some (((ranked bpe (entriesFrom 0 ids)).take k).foldl (fun acc x => f acc x.1 x.2) acc, nodes)
      ∧ Live bpe (fun i => k ≤ i ∧ i + 1 < ids.length) nodes (entriesFrom 0 ids)
      ∧ ∀ x, ids.length ≤ x → nodes[x]? = none := by
  intro k
  induction k with
  | zero =>
    intro _
    refine ⟨buildNodes ids, rfl, (live_buildNodes hlen).mono fun e _ h => ⟨Nat.zero_le _, h⟩, fun x hx => ?_⟩
    exact getElem?_eq_none (by unfold buildNodes; rwa [length_map, length_zipIdx])
  | succ k ih =>
    intro hk
    obtain ⟨nodes, hfold, hlive, hnone⟩ := ih (Nat.le_of_succ_le hk)
    obtain ⟨before, e, after, he, rfl, hb⟩ := @entry_at ids _ (Nat.lt_of_succ_lt hk)
    obtain ⟨nodes', hrerank, hlive', hframe⟩ := hlive.rerank he
    refine ⟨nodes', ?_, hlive'.mono ?_, fun x hx => ?_⟩
    · have hat := @getElem?_ranked bpe before e after
      rw [← he, hb] at hat
      rw [range_succ, List.foldlM_append, hfold, take_add_one, hat, foldl_append]
      show (rerank nodes e.1 bpe >>= _) >>= _ = _
      rw [hrerank]
      rfl
    · rintro g _ ⟨⟨h1, h2⟩, h3⟩
      exact ⟨lt_of_le_of_ne h1 (Ne.symm h3), h2⟩
    · rw [hframe x (by omega)]
      exact hnone x hx

theorem ranks_done {α : Type} (f : α → Nat → Nat → α) (acc : α) (hpos : 0 < ids.length)
    (hlast : ∀ (l : List (Nat × Nat)) (i : Nat),
      f (l.foldl (fun acc x => f acc x.1 x.2) acc) rankMax i = l.foldl (fun acc x => f acc x.1 x.2) acc) :
    ∃ nodes, (range ((buildNodes ids).length - 1)).foldlM (fun (acc, nodes) i => do
        let (rank, nodes) ← rerank nodes i bpe
        some (f acc rank i, nodes)) (acc, buildNodes ids)
      = some ((ranked bpe (entriesFrom 0 ids)).foldl (fun acc x => f acc x.1 x.2) acc, nodes)
      ∧ Live bpe (fun _ => False) nodes (entriesFrom 0 ids) ∧ ∀ x, ids.length ≤ x → nodes[x]? = none := by
  have hlength : (buildNodes ids).length = ids.length := by
    unfold buildNodes
    rw [length_map, length_zipIdx]
  obtain ⟨nodes, hfold, hlive, hnone⟩ := @ranks_live bpe ids hlen _ f acc (ids.length - 1) (by omega)
  refine ⟨nodes, ?_, hlive.mono (fun e _ h => by omega), hnone⟩
  obtain ⟨before, e, after, he, hek, hb⟩ := @entry_at ids (ids.length - 1) (by omega)
  have hafter : after = [] := by
    have := congrArg length he
    rw [length_entriesFrom, length_append, length_cons] at this
    exact length_eq_zero_iff.mp (by omega)
  subst hafter
  have hat := @getElem?_ranked bpe before e []
  rw [← he, hb] at hat
  have hall : ranked bpe (entriesFrom 0 ids) = (ranked bpe (entriesFrom 0 ids)).take (ids.length - 1) ++ [(rankMax, e.1)] := by
    have htake := take_add_one (l := ranked bpe (entriesFrom 0 ids)) (i := ids.length - 1)
    rw [hat, take_of_length_le (by rw [length_ranked, length_entriesFrom]; omega)] at htake
    exact htake
  have hfoldl : (ranked bpe (entriesFrom 0 ids)).foldl (fun acc x => f acc x.1 x.2) acc
      = ((ranked bpe (entriesFrom 0 ids)).take (ids.length - 1)).foldl (fun acc x => f acc x.1 x.2) acc := by
    conv_lhs => rw [hall]
    rw [foldl_append]
    exact hlast _ _
  rw [hlength, hfold, hfoldl]

end Initial

/-! ## The heap -/

section Heap

variable {nodes : List Node} {entries : List Entry} {heap : List (Nat × Nat)}

instance : IsTrans (Nat × Nat) Before := ⟨fun _ _ _ => before_trans⟩

instance : Std.Total Before := ⟨fun a b => by unfold Before; omega⟩

variable {i rank : Nat}

theorem mem_push {x : Nat × Nat} : x ∈ push heap rank i ↔ (rank ≠ rankMax ∧ x = (rank, i)) ∨ x ∈ heap := by
  unfold push
  split
  · next h => rw [mem_orderedInsert, and_iff_right h]
  · next h => exact (or_iff_right fun hx => h hx.1).symm

theorem push_sorted (h : heap.Pairwise Before) (rank i : Nat) : (push heap rank i).Pairwise Before := by
  unfold push
  split
  · exact h.orderedInsert _ _
  · exact h

theorem length_push_le (rank i : Nat) : (push heap rank i).length ≤ heap.length + 1 := by
  unfold push
  split
  · rw [orderedInsert_length]
  · exact Nat.le_succ _

/-- A loop round of the heap finds the nodes so: each rank of a linked node is in the heap, and a node that
is not linked has none. -/
structure Heaped (bpe : BpeTable) (nodes : List Node) (entries : List Entry) (heap : List (Nat × Nat)) : Prop where
  live : Live bpe (fun _ => False) nodes entries
  starts : Starts entries
  dead : ∀ (x : Nat) node, nodes[x]? = some node → (∀ e ∈ entries, e.1 ≠ x) → node.rank = rankMax
  sorted : heap.Pairwise Before
  ranks : ∀ x ∈ heap, x.1 ≠ rankMax
  places : ∀ x ∈ heap, ∃ node, nodes[x.2]? = some node
  all : ∀ x ∈ ranked bpe entries, x.1 ≠ rankMax → x ∈ heap

/-- The ranks after a merge: two new ones, and some of those before. -/
theorem ranked_merge {before after : List Entry} {i j : Nat} {a b m : TokenId} {x : Nat × Nat}
    (hs : (before ++ (i, a) :: (j, b) :: after).Pairwise fun e f => e.1 < f.1)
    (hx : x ∈ ranked bpe (before ++ (i, m) :: after)) :
    x = (rankOf bpe m after, i) ∨ (∃ rest e, before = rest ++ [e] ∧ x = (rankOf bpe e.2 ((i, m) :: after), e.1))
      ∨ (x ∈ ranked bpe (before ++ (i, a) :: (j, b) :: after) ∧ x.2 ≠ i) := by
  obtain ⟨before', e, after', hp, rfl⟩ := mem_ranked.mp hx
  obtain ⟨-, hsa, hcross⟩ := pairwise_append.mp hs
  rcases merged_place hp with ⟨rest, rfl, rfl⟩ | ⟨rfl, rfl, rfl⟩ | ⟨rest, rfl, rfl⟩
  · cases rest with
    | nil => exact .inr (.inl ⟨before', e, rfl, rfl⟩)
    | cons f rest =>
      refine .inr (.inr ⟨mem_ranked.mpr ⟨before', e, f :: rest ++ (i, a) :: (j, b) :: after, ?_, rfl⟩, ?_⟩)
      · rw [append_assoc]
        rfl
      · exact (hcross e mem_append_cons_self (i, a) mem_cons_self).ne
  · exact .inl rfl
  · refine .inr (.inr ⟨mem_ranked.mpr ⟨before ++ (i, a) :: (j, b) :: rest, e, after', ?_, rfl⟩, ?_⟩)
    · rw [append_assoc]
      rfl
    · exact (rel_of_pairwise_cons hsa (mem_cons_of_mem _ mem_append_cons_self)).ne'

/-- An entry of the heap that is not its node's rank is passed over. -/
theorem Heaped.skip {node : Node} (h : Heaped bpe nodes entries ((rank, i) :: heap))
    (hn : nodes[i]? = some node) (hne : node.rank ≠ rank) : Heaped bpe nodes entries heap where
  live := h.live
  starts := h.starts
  dead := h.dead
  sorted := (pairwise_cons.mp h.sorted).2
  ranks x hx := h.ranks x (mem_cons_of_mem _ hx)
  places x hx := h.places x (mem_cons_of_mem _ hx)
  all x hx hx' := by
    refine (mem_cons.mp (h.all x hx hx')).resolve_left fun he => hne ?_
    obtain ⟨before, e, after, hp, rfl⟩ := mem_ranked.mp hx
    cases he
    obtain ⟨_, hn', hr⟩ := h.live.node before e after hp
    rw [hn] at hn'
    rw [Option.some.inj hn', hr id]

theorem Heaped.split {node : Node} (h : Heaped bpe nodes entries ((rank, i) :: heap))
    (hn : nodes[i]? = some node) (he : node.rank = rank) :
    ∃ before a j b after m, entries = before ++ (i, a) :: (j, b) :: after ∧ bpe.pairMerge a b = some (rank, m)
      ∧ ∀ x ∈ ranked bpe entries, x.1 ≠ rankMax → Before (rank, i) x := by
  have hrank : rank ≠ rankMax := h.ranks _ mem_cons_self
  obtain ⟨e, hmem, rfl⟩ : ∃ e ∈ entries, e.1 = i := by
    by_contra hc
    push Not at hc
    exact hrank (he ▸ h.dead i node hn hc)
  obtain ⟨before, after, rfl⟩ := append_of_mem hmem
  obtain ⟨_, hn', hr⟩ := h.live.node before e after rfl
  rw [hn] at hn'
  have hrank' : rank = rankOf bpe e.2 after := by
    rw [← he, Option.some.inj hn', hr id]
  obtain ⟨j, b, rest, m, rfl, hm⟩ := exists_of_rankOf (hrank' ▸ hrank)
  refine ⟨before, e.2, j, b, rest, m, rfl, hrank' ▸ hm, fun x hx hx' => ?_⟩
  rcases mem_cons.mp (h.all x hx hx') with rfl | hx
  · exact before_refl _
  · exact (pairwise_cons.mp h.sorted).1 x hx

/-- An entry of the heap that is its node's rank is merged, and new ranks are pushed. -/
theorem Heaped.merge {before after : List Entry} {i j : Nat} {a b m : TokenId}
    (h : Heaped bpe nodes (before ++ (i, a) :: (j, b) :: after) ((rank, i) :: heap)) (hm : bpe.pairMerge a b = some (rank, m)) :
    ∃ nodes' heap', (∀ left, heapLoop bpe (left + 1) ((rank, i) :: heap) nodes = heapLoop bpe left heap' nodes')
      ∧ Heaped bpe nodes' (before ++ (i, m) :: after) heap' ∧ heap'.length ≤ heap.length + 2 := by
  obtain ⟨_, hni, hri⟩ := h.live.node before (i, a) ((j, b) :: after) rfl
  obtain ⟨_, hnj, -⟩ := h.live.node (before ++ [(i, a)]) (j, b) after (by rw [append_assoc]; rfl)
  have hrank' : rankOf bpe a ((j, b) :: after) = rank := pairRank_of hm
  obtain rfl := hri id
  rw [hrank'] at hni
  obtain ⟨-, hsa, hcross⟩ := pairwise_append.mp h.live.sorted
  have hij : i < j := rel_of_pairwise_cons hsa mem_cons_self
  have hj : ∀ e ∈ before ++ (i, m) :: after, e.1 ≠ j := by
    intro e he
    rcases mem_append.mp he with he | he
    · exact (hcross e he (j, b) (mem_cons_of_mem _ mem_cons_self)).ne
    · rcases mem_cons.mp he with rfl | he
      · exact hij.ne
      · exact (rel_of_pairwise_cons (pairwise_cons.mp hsa).2 he).ne'
  obtain ⟨n₁, h₁, hlive₁, hframe₁, -⟩ := mergeNext_live h.live hm
  have hnj₁ : n₁[j]? = _ := (hframe₁ j hj).trans hnj
  have hlive₂ : Live bpe (fun x => x = i ∨ x = predOf before) (n₁.modify j ({ · with rank := rankMax }))
      (before ++ (i, m) :: after) := hlive₁.congr fun e he => modify_ne (hj e he)
  obtain ⟨n₃, node, h₃, hnode, -, hframe₃, hboth⟩ := rerank_both hlive₂
  have hheap : heap.Pairwise Before := (pairwise_cons.mp h.sorted).2
  have hout : ∀ x, (∀ e ∈ before ++ (i, m) :: after, e.1 ≠ x) →
      n₃[x]? = if x = j then some { nodeOf bpe (before ++ [(i, a)]) (j, b) after with rank := rankMax } else nodes[x]? := by
    intro x hx
    rw [hframe₃ x fun he => hx (i, m) mem_append_cons_self he.symm]
    split
    · next hxj => rw [hxj, modify_self hnj₁]
    · next hxj => rw [modify_ne hxj, hframe₁ x hx]
  have hheaped : ∀ (n' : List Node) (heap' : List (Nat × Nat)), Live bpe (fun _ => False) n' (before ++ (i, m) :: after) →
      (∀ x, (∀ e ∈ before ++ (i, m) :: after, e.1 ≠ x) → n'[x]? = n₃[x]?) → heap'.Pairwise Before →
      (∀ x ∈ heap', x ∈ heap ∨ x.1 ≠ rankMax ∧ ∃ e ∈ before ++ (i, m) :: after, e.1 = x.2) →
      (∀ x ∈ ranked bpe (before ++ (i, m) :: after), x.1 ≠ rankMax → x ∈ heap') →
      Heaped bpe n' (before ++ (i, m) :: after) heap' := by
    intro n' heap' hlive hframe hsorted hfrom hall
    have hplace : ∀ x, (∃ e ∈ before ++ (i, m) :: after, e.1 = x) → ∃ node, n'[x]? = some node := by
      rintro x ⟨e, he, rfl⟩
      obtain ⟨before', after', hp⟩ := append_of_mem he
      obtain ⟨_, hn, -⟩ := hlive.node before' e after' hp
      exact ⟨_, hn⟩
    refine ⟨hlive, starts_merge h.starts, fun x node hx hx' => ?_, hsorted, fun x hx => ?_, fun x hx => ?_, hall⟩
    · -- a node that is not linked was not before, or was taken out
      rw [hframe x hx', hout x hx'] at hx
      split at hx
      · rw [← Option.some.inj hx]
      · next hxj =>
          refine h.dead x node hx fun e he => ?_
          rcases mem_append.mp he with he | he
          · exact hx' e (mem_append_left _ he)
          · rcases mem_cons.mp he with rfl | he
            · exact hx' (i, m) mem_append_cons_self
            · rcases mem_cons.mp he with rfl | he
              · exact Ne.symm hxj
              · exact hx' e (mem_append_right _ (mem_cons_of_mem _ he))
    · rcases hfrom x hx with hx | ⟨hx, -⟩
      · exact h.ranks x (mem_cons_of_mem _ hx)
      · exact hx
    · rcases hfrom x hx with hx | ⟨-, hx⟩
      · by_cases hlinked : ∃ e ∈ before ++ (i, m) :: after, e.1 = x.2
        · exact hplace x.2 hlinked
        · push Not at hlinked
          rw [hframe x.2 hlinked, hout x.2 hlinked]
          split
          · exact ⟨_, rfl⟩
          · exact h.places x (mem_cons_of_mem _ hx)
      · exact hplace x.2 hx
  have hold : ∀ x ∈ ranked bpe (before ++ (i, a) :: (j, b) :: after), x.2 ≠ i → x.1 ≠ rankMax → x ∈ heap := by
    intro x hx hxi hne
    refine (mem_cons.mp (h.all x hx hne)).resolve_left fun he => hxi ?_
    rw [he]
  have hself : ∃ e ∈ before ++ (i, m) :: after, e.1 = i := ⟨_, mem_append_cons_self, rfl⟩
  have hloop : ∀ left, heapLoop bpe (left + 1) ((rank, i) :: heap) nodes
      = if node.prev ≠ noNode then
          rerank n₃ node.prev bpe >>= fun r => heapLoop bpe left (push (push heap (rankOf bpe m after) i) r.1 node.prev) r.2
        else heapLoop bpe left (push heap (rankOf bpe m after) i) n₃ := by
    intro left
    rw [heapLoop, hni]
    show (if rank ≠ rank then _ else mergeNext nodes i bpe >>= _) = _
    rw [if_neg fun hn => hn rfl, h₁]
    show (update n₁ j _ >>= _) = _
    rw [update_eq hnj₁]
    show (rerank _ i bpe >>= _) = _
    rw [h₃]
    show (n₃[i]? >>= _) = _
    rw [hnode]
    rfl
  rcases hboth with ⟨rfl, hnone, hlive⟩ | ⟨rest, e, n₄, rfl, hpe, hne, h₄, hlive, hframe₄⟩
  · refine ⟨n₃, push heap (rankOf bpe m after) i, fun left => (hloop left).trans (if_neg fun hn => hn hnone),
      hheaped n₃ _ hlive (fun _ _ => rfl) (push_sorted hheap _ _) (fun x hx => ?_) (fun x hx hne => ?_),
      (length_push_le _ _).trans (Nat.le_succ _)⟩
    · rcases mem_push.mp hx with ⟨hne, rfl⟩ | hx
      · exact .inr ⟨hne, hself⟩
      · exact .inl hx
    · rcases ranked_merge h.live.sorted hx with rfl | ⟨rest, e, he, -⟩ | ⟨hx, hxi⟩
      · exact mem_push.mpr (.inl ⟨hne, rfl⟩)
      · simp at he
      · exact mem_push.mpr (.inr (hold x hx hxi hne))
  · refine ⟨n₄, push (push heap (rankOf bpe m after) i) (rankOf bpe e.2 ((i, m) :: after)) e.1, fun left => ?_,
      hheaped n₄ _ hlive (fun x hx => hframe₄ x fun he => ?_) (push_sorted (push_sorted hheap _ _) _ _) (fun x hx => ?_)
        (fun x hx hne => ?_), (length_push_le _ _).trans (Nat.succ_le_succ (length_push_le _ _))⟩
    · rw [hloop left, if_pos hne, hpe, h₄]
      rfl
    · exact hx e (mem_append_left _ mem_append_cons_self) he.symm
    · rcases mem_push.mp hx with ⟨hne, rfl⟩ | hx
      · exact .inr ⟨hne, e, mem_append_left _ mem_append_cons_self, rfl⟩
      · rcases mem_push.mp hx with ⟨hne, rfl⟩ | hx
        · exact .inr ⟨hne, hself⟩
        · exact .inl hx
    · rcases ranked_merge h.live.sorted hx with rfl | ⟨rest', e', he, rfl⟩ | ⟨hx, hxi⟩
      · exact mem_push.mpr (.inr (mem_push.mpr (.inl ⟨hne, rfl⟩)))
      · obtain ⟨rfl, hee⟩ := append_inj' he rfl
        obtain rfl := singleton_inj.mp hee
        exact mem_push.mpr (.inl ⟨hne, rfl⟩)
      · exact mem_push.mpr (.inr (mem_push.mpr (.inr (hold x hx hxi hne))))

/-- **The loop of the heap merges until no pair has a rank.** -/
theorem heapLoop_live (hranked : Ranked bpe) : ∀ {left : Nat} {nodes : List Node} {entries : List Entry}
    {heap : List (Nat × Nat)}, Heaped bpe nodes entries heap → heap.length + 2 * entries.length < left →
    ∃ nodes' entries', heapLoop bpe left heap nodes = some nodes' ∧ Live bpe (fun _ => False) nodes' entries'
      ∧ Starts entries' ∧ entries'.length ≤ entries.length
      ∧ ReflTransGen (MergeStep bpe) (tokens entries) (tokens entries') ∧ Merged bpe (tokens entries') := by
  intro left
  induction left with
  | zero => exact fun _ h => absurd h (Nat.not_lt_zero _)
  | succ left ih =>
    intro nodes entries heap h hlen
    cases heap with
    | nil =>
      refine ⟨nodes, entries, rfl, h.live, h.starts, le_rfl, .refl, merged_of_ranked hranked fun x hx => ?_⟩
      by_contra hne
      exact absurd (h.all x hx hne) not_mem_nil
    | cons top heap =>
      obtain ⟨rank, i⟩ := top
      obtain ⟨node, hn⟩ := h.places _ mem_cons_self
      rw [length_cons] at hlen
      by_cases hne : node.rank ≠ rank
      · obtain ⟨nodes', entries', h', hrest⟩ := ih (h.skip hn hne) (by omega)
        exact ⟨nodes', entries', Option.bind_eq_some_iff.mpr ⟨node, hn, (if_pos hne).trans h'⟩, hrest⟩
      · obtain ⟨before, a, j, b, after, m, rfl, hm, hleast⟩ := h.split hn (not_not.mp hne)
        obtain ⟨n', heap', hloop, hheaped, hle⟩ := h.merge hm
        have hlen' : (before ++ (i, m) :: after).length + 1 = (before ++ (i, a) :: (j, b) :: after).length := by
          simp only [length_append, length_cons]
          omega
        obtain ⟨nodes', entries', h', hlive', hstarts', hlen'', hsteps, hmerged⟩ := ih hheaped (by omega)
        exact ⟨nodes', entries', (hloop left).trans h', hlive', hstarts', by omega,
          .head (mergeStep_of_least hranked h.live.sorted hm hleast) hsteps, hmerged⟩

end Heap

/-! ## Both ways agree -/

theorem mergeStep_unique {ids out out' : List TokenId} (h : MergeStep bpe ids out) (h' : MergeStep bpe ids out') :
    out = out' := by
  -- of two places, the later one would have a higher rank and a rank that is no higher
  have hlater : ∀ {before before' after after' : List TokenId} {a b a' b' m m' : TokenId} {rank rank' : Nat},
      before ++ a :: b :: after = before' ++ a' :: b' :: after' → bpe.pairMerge a b = some (rank, m) →
      bpe.pairMerge a' b' = some (rank', m') →
      (∀ c d, [c, d] <:+: before ++ a :: b :: after → ∀ m, bpe.pairMerge c d = some m → rank ≤ m.1) →
      (∀ c d, [c, d] <:+: before' ++ [a'] → ∀ m, bpe.pairMerge c d = some m → rank' < m.1) →
      ¬before.length < before'.length := by
    intro before before' after after' a b a' b' m m' rank rank' he hm hm' hlow hleft hlt
    obtain ⟨c, rfl⟩ : before <+: before' :=
      prefix_of_prefix_length_le (prefix_append before _) (he ▸ prefix_append before' _) hlt.le
    rw [append_assoc, append_cancel_left_eq] at he
    have hab : [a, b] <:+: before ++ c ++ [a'] := by
      cases c with
      | nil => simp at hlt
      | cons x c =>
        obtain ⟨rfl, hbc⟩ := cons.inj he
        cases c with
        | nil =>
          cases hbc
          exact ⟨before, [], by simp⟩
        | cons y c =>
          cases hbc
          exact ⟨before, c ++ [a'], by simp⟩
    have h1 := hleft a b hab _ hm
    have h2 := hlow a' b' ⟨before ++ c, after', by rw [he]; simp⟩ _ hm'
    exact absurd h1 (not_lt.mpr h2)
  generalize hids : ids = ids' at h'
  obtain ⟨hm, hlow, hleft⟩ := h
  obtain ⟨hm', hlow', hleft'⟩ := h'
  have hlen := le_antisymm (not_lt.mp (hlater hids.symm hm' hm hlow' hleft))
    (not_lt.mp (hlater hids hm hm' hlow hleft'))
  obtain ⟨rfl, htail⟩ := append_inj hids hlen
  obtain ⟨rfl, hrest⟩ := cons.inj htail
  cases hrest
  rw [hm] at hm'
  cases hm'
  rfl

theorem not_step_of_merged {ids out : List TokenId} (h : Merged bpe ids) : ¬MergeStep bpe ids out := by
  rintro @⟨before, after, a, b, _, _, hm, -, -⟩
  have hnone := h a b ⟨before, after, by simp⟩
  rw [hnone] at hm
  cases hm

/-- **There is one list that merging comes to.** -/
theorem merged_unique {ids out out' : List TokenId} (h : ReflTransGen (MergeStep bpe) ids out) (hm : Merged bpe out)
    (h' : ReflTransGen (MergeStep bpe) ids out') (hm' : Merged bpe out') : out = out' := by
  have hend : ∀ {a b : List TokenId}, Merged bpe a → ReflTransGen (MergeStep bpe) a b → a = b := by
    intro a b ha hab
    rcases ReflTransGen.cases_head hab with he | ⟨c, hc, -⟩
    · exact he
    · exact absurd hc (not_step_of_merged ha)
  have hunique : Relator.RightUnique (MergeStep bpe) := fun _ _ _ hb hc => mergeStep_unique hb hc
  rcases ReflTransGen.total_of_right_unique hunique h h' with hab | hab
  · exact hend hm hab
  · exact (hend hm' hab).symm

theorem collectIds_starts {rounds : Nat} (h : Live bpe (fun _ => False) nodes entries)
    (hs : Starts entries) (hr : entries.length < rounds) : collectIds nodes rounds 0 = some (tokens entries) := by
  have hcollect := @collectIds_live bpe _ _ _ h entries [] _ rfl hr
  obtain ⟨id, rest, rfl⟩ := hs
  exact hcollect

theorem lower_le (min : Nat × Nat) (rank i : Nat) : (lower min rank i).1 ≤ min.1 := by
  unfold lower
  split
  · next h => exact h.le
  · exact le_rfl

theorem foldl_lower_le (l : List (Nat × Nat)) (min : Nat × Nat) :
    (l.foldl (fun min x => lower min x.1 x.2) min).1 ≤ min.1 := by
  induction l generalizing min with
  | nil => exact le_rfl
  | cons x l ih => exact (ih _).trans (lower_le min x.1 x.2)

theorem foldl_push : ∀ {l heap : List (Nat × Nat)}, heap.Pairwise Before →
    (l.foldl (fun heap x => push heap x.1 x.2) heap).Pairwise Before
      ∧ (∀ x, x ∈ l.foldl (fun heap x => push heap x.1 x.2) heap ↔ (x.1 ≠ rankMax ∧ x ∈ l) ∨ x ∈ heap)
      ∧ (l.foldl (fun heap x => push heap x.1 x.2) heap).length ≤ l.length + heap.length := by
  intro l
  induction l with
  | nil => exact fun h => ⟨h, fun x => (or_iff_right fun hx => absurd hx.2 not_mem_nil).symm, by simp⟩
  | cons y l ih =>
    intro heap h
    obtain ⟨h1, h2, h3⟩ := ih (push_sorted h y.1 y.2)
    refine ⟨h1, fun x => ?_, ?_⟩
    · rw [foldl_cons, h2, mem_push, mem_cons, ← or_assoc]
      refine or_congr ⟨?_, ?_⟩ Iff.rfl
      · rintro (⟨hx, hm⟩ | ⟨hy, rfl⟩)
        · exact ⟨hx, .inr hm⟩
        · exact ⟨hy, .inl rfl⟩
      · rintro ⟨hx, rfl | hm⟩
        · exact .inr ⟨hx, rfl⟩
        · exact .inl ⟨hx, hm⟩
    · have := @length_push_le heap y.1 y.2
      rw [foldl_cons, length_cons]
      omega

section Agree

variable {ids : List TokenId} {rounds : Nat} (hranked : Ranked bpe) (hpos : 0 < ids.length) (hlen : ids.length < 2 ^ 32)

include hpos in
theorem starts_entriesFrom : Starts (entriesFrom 0 ids) := by
  cases ids with
  | nil => cases hpos
  | cons id ids => exact ⟨id, entriesFrom 1 ids, rfl⟩

include hranked hpos hlen

theorem bpeMergeLinear_merges (hr : ids.length < rounds) :
    ∃ out, bpeMergeLinear rounds ids bpe = some out ∧ ReflTransGen (MergeStep bpe) ids out ∧ Merged bpe out := by
  obtain ⟨nodes, hfold, hlive, -⟩ := @ranks_done bpe ids (Nat.le_sub_one_of_lt hlen) _ lower (rankMax, noNode) hpos
    fun l i => if_neg (not_lt.mpr (foldl_lower_le l (rankMax, noNode)))
  obtain ⟨nodes', entries', hloop, hlive', hstarts, hle, hsteps, hmerged⟩ := @linearLoop_live bpe hranked rounds rounds _ _ _
    hlive (starts_entriesFrom hpos) (by rw [length_entriesFrom]; omega) (by rw [length_entriesFrom]; omega)
    (least_foldl hlive.sorted)
  rw [length_entriesFrom] at hle
  rw [tokens_entriesFrom] at hsteps
  refine ⟨tokens entries', ?_, hsteps, hmerged⟩
  exact Option.bind_eq_some_iff.mpr ⟨_, hfold, Option.bind_eq_some_iff.mpr
    ⟨_, hloop, collectIds_starts hlive' hstarts (by omega)⟩⟩

theorem bpeMergeHeap_merges (hr : 3 * ids.length < rounds) :
    ∃ out, bpeMergeHeap rounds ids bpe = some out ∧ ReflTransGen (MergeStep bpe) ids out ∧ Merged bpe out := by
  obtain ⟨nodes, hfold, hlive, hnone⟩ := @ranks_done bpe ids (Nat.le_sub_one_of_lt hlen) _ push [] hpos
    fun l i => if_neg fun hn => hn rfl
  obtain ⟨hsorted, hmem, hlength⟩ := foldl_push (l := ranked bpe (entriesFrom 0 ids)) .nil
  rw [length_ranked, length_entriesFrom, length_nil] at hlength
  have hheaped : Heaped bpe nodes (entriesFrom 0 ids)
      ((ranked bpe (entriesFrom 0 ids)).foldl (fun heap x => push heap x.1 x.2) []) := by
    refine ⟨hlive, starts_entriesFrom hpos, fun x node hx hout => ?_, hsorted, fun x hx => ?_, fun x hx => ?_, fun x hx hne => ?_⟩
    · by_cases hxn : x < ids.length
      · obtain ⟨before, e, after, he, hex, -⟩ := @entry_at ids _ hxn
        exact absurd hex (hout e (he ▸ mem_append_cons_self))
      · rw [hnone x (not_lt.mp hxn)] at hx
        cases hx
    · exact (((hmem x).mp hx).resolve_right not_mem_nil).1
    · obtain ⟨before, e, after, he, rfl⟩ := mem_ranked.mp (((hmem x).mp hx).resolve_right not_mem_nil).2
      obtain ⟨_, hn, -⟩ := hlive.node before e after he
      exact ⟨_, hn⟩
    · exact (hmem x).mpr (.inl ⟨hne, hx⟩)
  obtain ⟨nodes', entries', hloop, hlive', hstarts, hle, hsteps, hmerged⟩ := @heapLoop_live bpe hranked rounds _ _ _ hheaped
    (by rw [length_entriesFrom]; omega)
  rw [length_entriesFrom] at hle
  rw [tokens_entriesFrom] at hsteps
  refine ⟨tokens entries', ?_, hsteps, hmerged⟩
  exact Option.bind_eq_some_iff.mpr ⟨_, hfold, Option.bind_eq_some_iff.mpr
    ⟨_, hloop, collectIds_starts hlive' hstarts (by omega)⟩⟩

end Agree

/-- **Both ways of merging compute BPE.** For at least two ids, and fewer than a 32-bit link can count,
both come to the one list that merging the leftmost pair of lowest rank comes to. -/
theorem bpe_mergers_agree (bpe : BpeTable) (ids : List TokenId) (hranked : Ranked bpe) (htwo : 2 ≤ ids.length)
    (hlen : ids.length < 2 ^ 32) :
    ∃ out, (∀ rounds, 3 * ids.length < rounds →
        bpeMergeLinear rounds ids bpe = some out ∧ bpeMergeHeap rounds ids bpe = some out)
      ∧ Relation.ReflTransGen (MergeStep bpe) ids out ∧ Merged bpe out := by
  have hpos : 0 < ids.length := Nat.zero_lt_of_lt htwo
  obtain ⟨out, -, hsteps, hmerged⟩ := bpeMergeHeap_merges hranked hpos hlen (Nat.lt_succ_self _)
  refine ⟨out, fun rounds hr => ?_, hsteps, hmerged⟩
  obtain ⟨out₁, h₁, hsteps₁, hmerged₁⟩ := @bpeMergeLinear_merges bpe ids rounds hranked hpos hlen (by omega)
  obtain ⟨out₂, h₂, hsteps₂, hmerged₂⟩ := bpeMergeHeap_merges hranked hpos hlen hr
  rw [h₁, h₂, merged_unique hsteps₁ hmerged₁ hsteps hmerged, merged_unique hsteps₂ hmerged₂ hsteps hmerged]
  exact ⟨rfl, rfl⟩

/-! ## Links -/

/-- A table with one merge. -/
def pairTable : BpeTable := ⟨∅, Finmap.insert (1, 2) (0, 3) ∅, [], []⟩

theorem ranked_pairTable : Ranked pairTable := by
  intro a b m hm
  unfold BpeTable.pairMerge at hm
  obtain ⟨merge, hlookup, rfl⟩ := Option.map_eq_some_iff.mp hm
  by_cases hab : (a, b) = (1, 2)
  · have hself : pairTable.merges.lookup (1, 2) = some (0, 3) := Finmap.lookup_insert _
    rw [hab, hself] at hlookup
    rw [← Option.some.inj hlookup]
    exact Nat.zero_lt_of_lt (show 0 < 2 ^ 32 - 1 by decide)
  · have hother : pairTable.merges.lookup (a, b) = none := (Finmap.lookup_insert_of_ne _ hab).trans (Finmap.lookup_empty _)
    rw [hother] at hlookup
    cases hlookup

/-- The same pair twice, with one rank. -/
theorem bpe_mergers_agree_twice :
    ∃ out, (∀ rounds, 3 * 4 < rounds → bpeMergeLinear rounds [1, 2, 1, 2] pairTable = some out
        ∧ bpeMergeHeap rounds [1, 2, 1, 2] pairTable = some out)
      ∧ Relation.ReflTransGen (MergeStep pairTable) [1, 2, 1, 2] out ∧ Merged pairTable out :=
  bpe_mergers_agree pairTable [1, 2, 1, 2] ranked_pairTable (by decide) (by decide)

/-- A link leads to the next node or to none. -/
def Linear (nodes : List Node) : Prop := ∀ i node, nodes[i]? = some node → node.next = noNode ∨ node.next = i + 1

theorem linear_buildNodes (hlen : ids.length ≤ 2 ^ 32) : Linear (buildNodes ids) := by
  intro i node hn
  unfold buildNodes at hn
  rw [getElem?_map, getElem?_zipIdx, zero_add] at hn
  obtain ⟨⟨_, _⟩, hi, rfl⟩ := Option.map_eq_some_iff.mp hn
  obtain ⟨_, hid, he⟩ := Option.map_eq_some_iff.mp hi
  cases he
  dsimp only
  split
  · exact .inr (Nat.mod_eq_of_lt (by omega))
  · exact .inl rfl

theorem Linear.rerank {nodes nodes' : List Node} {i rank : Nat} (h : Linear nodes) (hr : rerank nodes i bpe = some (rank, nodes')) :
    Linear nodes' := by
  obtain ⟨r, -, hr⟩ := Option.bind_eq_some_iff.mp hr
  obtain ⟨nodes₁, hu, he⟩ := Option.bind_eq_some_iff.mp hr
  cases he
  unfold update at hu
  split at hu
  · cases hu
    intro x node hx
    by_cases hxi : x = i
    · subst hxi
      cases hold : nodes[x]? with
      | none => rw [getElem?_modify, hold] at hx; cases hx
      | some old =>
        rw [modify_self hold] at hx
        rw [← Option.some.inj hx]
        exact h x old hold
    · exact h x node (by rwa [modify_ne hxi] at hx)
  · cases hu

theorem length_collectIds (h : Linear nodes) : ∀ {rounds cur : Nat} {out : List TokenId},
    cur ≤ noNode → collectIds nodes rounds cur = some out → out.length ≤ noNode - cur := by
  intro rounds
  induction rounds with
  | zero => exact fun _ hc => nomatch hc
  | succ rounds ih =>
    intro cur out hcur hc
    rw [collectIds] at hc
    split at hc
    · rw [← Option.some.inj hc]
      exact Nat.zero_le _
    · next hne =>
        obtain ⟨node, hn, hc⟩ := Option.bind_eq_some_iff.mp hc
        obtain ⟨rest, hr, he⟩ := Option.bind_eq_some_iff.mp hc
        rw [← Option.some.inj he, length_cons]
        rcases h cur node hn with hnext | hnext
        · rw [hnext] at hr
          have := ih le_rfl hr
          omega
        · rw [hnext] at hr
          have := ih (by omega) hr
          omega

theorem linear_ranks {α : Type} (f : α → Nat → Nat → α) : ∀ {l : List Nat} {acc acc' : α} {nodes nodes' : List Node},
    Linear nodes → l.foldlM (fun (acc, nodes) i => do
        let (rank, nodes) ← rerank nodes i bpe
        some (f acc rank i, nodes)) (acc, nodes) = some (acc', nodes') → Linear nodes' := by
  intro l
  induction l with
  | nil =>
    intro acc acc' nodes nodes' h hf
    cases hf
    exact h
  | cons i l ih =>
    intro acc acc' nodes nodes' h hf
    rw [foldlM_cons] at hf
    obtain ⟨⟨acc₁, nodes₁⟩, h₁, hf⟩ := Option.bind_eq_some_iff.mp hf
    obtain ⟨⟨rank, nodes₂⟩, h₂, he⟩ := Option.bind_eq_some_iff.mp h₁
    cases he
    exact ih (h.rerank h₂) hf

/-- A table without merges. -/
def emptyTable : BpeTable := ⟨∅, ∅, [], []⟩

theorem mergeNext_emptyTable (nodes : List Node) (i : Nat) : mergeNext nodes i emptyTable = none := by
  unfold mergeNext
  cases nodes[i]? with
  | none => rfl
  | some node =>
    show (nodes[node.next]? >>= _) = none
    cases nodes[node.next]? <;> rfl

theorem linearLoop_emptyTable {rounds left : Nat} {min : Nat × Nat} {nodes nodes' : List Node}
    (h : linearLoop emptyTable rounds left min nodes = some nodes') : nodes' = nodes := by
  cases left with
  | zero => cases h
  | succ left =>
    rw [linearLoop] at h
    split at h
    · exact (Option.some.inj h).symm
    · obtain ⟨_, hm, -⟩ := Option.bind_eq_some_iff.mp h
      rw [mergeNext_emptyTable] at hm
      cases hm

theorem heapLoop_emptyTable : ∀ {left : Nat} {heap : List (Nat × Nat)} {nodes nodes' : List Node},
    heapLoop emptyTable left heap nodes = some nodes' → nodes' = nodes := by
  intro left
  induction left with
  | zero => exact fun h => nomatch h
  | succ left ih =>
    intro heap nodes nodes' h
    match heap with
    | [] => exact (Option.some.inj h).symm
    | (rank, i) :: heap =>
      rw [heapLoop] at h
      obtain ⟨node, -, h⟩ := Option.bind_eq_some_iff.mp h
      split at h
      · exact ih h
      · rw [mergeNext_emptyTable] at h
        cases h

/-- **Of 2^32 ids the last is lost.** Nothing is to be merged, and yet neither way returns the ids: the
link to the last node is the link to nothing. -/
theorem bpe_links_wrap : Ranked emptyTable ∧ 2 ≤ (List.replicate (2 ^ 32) (0 : TokenId)).length
    ∧ Merged emptyTable (List.replicate (2 ^ 32) 0)
    ∧ ∀ rounds, bpeMergeLinear rounds (List.replicate (2 ^ 32) 0) emptyTable ≠ some (List.replicate (2 ^ 32) 0)
      ∧ bpeMergeHeap rounds (List.replicate (2 ^ 32) 0) emptyTable ≠ some (List.replicate (2 ^ 32) 0) := by
  generalize hids : replicate (2 ^ 32) (0 : TokenId) = ids
  have hlen : ids.length = 2 ^ 32 := by rw [← hids, length_replicate]
  have hlost : ∀ {nodes : List Node} {rounds : Nat}, Linear nodes → collectIds nodes rounds 0 ≠ some ids := by
    intro nodes rounds h hc
    have hle := length_collectIds h (Nat.zero_le _) hc
    rw [hlen] at hle
    exact absurd hle (by decide)
  have hstart := linear_buildNodes ids hlen.le
  refine ⟨fun a b m hm => (nomatch hm), by rw [hlen]; decide, fun c d _ => rfl, fun rounds => ⟨fun h => ?_, fun h => ?_⟩⟩
  · obtain ⟨⟨min, nodes⟩, hfold, h⟩ := Option.bind_eq_some_iff.mp h
    obtain ⟨nodes', hloop, hc⟩ := Option.bind_eq_some_iff.mp h
    obtain rfl := linearLoop_emptyTable hloop
    exact hlost (linear_ranks lower hstart hfold) hc
  · obtain ⟨⟨heap, nodes⟩, hfold, h⟩ := Option.bind_eq_some_iff.mp h
    obtain ⟨nodes', hloop, hc⟩ := Option.bind_eq_some_iff.mp h
    obtain rfl := heapLoop_emptyTable hloop
    exact hlost (linear_ranks push hstart hfold) hc

end Pie.Proof.Bpe
