import Pie.Proof.Compact
import Pie.Proof.Grow

/-!
# The invariant of the page table

The anchors of a table are the terminals of its working sets, its cache roots
and its pins. `TableInv` ties the node-level facts to that list, and says that
every working set maps the whole path to its terminal.
-/

namespace Pie.Proof

open List Store Kv Lib Table AList

variable {K : NodeId → Prop} {a k : NodeId} {c : Nat} {l : TriePageLocation}

namespace Table

variable (t : KvPageTable)

def terms : List NodeId := t.workingSets.entries.filterMap (fun e => e.2.terminal)

/-- Every anchor, a node as often as it is one. -/
def anchors : List NodeId := terms t ++ (t.cacheRoots.keys ++ t.pins.keys)

/-- The anchors apart from the working set `ws`. -/
def others (ws : WorkingSetId) : List NodeId :=
  (t.workingSets.entries.filter (fun e => e.1 ≠ ws)).filterMap (fun e => e.2.terminal)
    ++ (t.cacheRoots.keys ++ t.pins.keys)

end Table

/-- The nodes of a table, in order for the anchors `A`. -/
structure Nodes (A : List NodeId) (t : KvPageTable) : Prop where
  trie : Trie t
  counted : Counted t A
  anchored : Anchored t A
  tight : Tight t A

structure TableInv (t : KvPageTable) : Prop where
  nodes : Nodes (anchors t) t
  mapped : ∀ {ws e}, t.workingSets.get ws = some e →
    (termLocs t e.terminal).length = e.mappedLen ∧ e.mappedLen ≤ e.pageLen
  roots : ∀ {n c}, t.cacheRoots.lookup n = some c → 0 < c
  pins : ∀ {n c}, t.pins.lookup n = some c → 0 < c
  /-- A page in a move is there for as long as its node is. -/
  swap : ∀ {l}, l ∈ t.swapLocations → t.nodes.Issued l.node
    ∧ ∀ {nd}, t.nodes.get l.node = some nd → ∃ p, backing t l = some p

/-! ## Facts about the nodes alone -/

section OfNodes

variable {t t' : KvPageTable} {A : List NodeId}

section

variable (h : t'.nodes = t.nodes)
include h

theorem locs_of_nodes : locs t' = locs t := by
  cases t; cases t'; cases h; rfl

theorem termLocs_of_nodes : termLocs t' = termLocs t := by
  cases t; cases t'; cases h; rfl

theorem backing_of_nodes : backing t' = backing t := by
  cases t; cases t'; cases h; rfl

theorem held_of_nodes : held t' = held t := by
  cases t; cases t'; cases h; rfl

end

theorem Trie.of_nodes (ht : Trie t) (h : t'.nodes = t.nodes) : Trie t' := by
  cases t; cases t'; cases h
  exact ⟨ht.parent, ht.children, ht.nodup, ht.pages, ht.grounded⟩

theorem Counted.of_nodes (hc : Counted t A) (h : t'.nodes = t.nodes) : Counted t' A := by
  cases t; cases t'; cases h
  exact ⟨hc.live, hc.exact, hc.path⟩

theorem Nodes.of_nodes (hn : Nodes A t) (h : t'.nodes = t.nodes)
    (hs : t'.swapLocations = t.swapLocations) : Nodes A t' := by
  refine ⟨hn.trie.of_nodes h, hn.counted.of_nodes h, ?_, ?_⟩
  · cases t; cases t'; cases h; exact hn.anchored
  · cases t; cases t'; cases h; cases hs; exact hn.tight

theorem Nodes.perm {B : List NodeId} (hn : Nodes A t) (hp : A.Perm B) : Nodes B t where
  trie := hn.trie
  counted := hn.counted.perm hp
  anchored hx := by
    obtain ⟨a, ha, hxa⟩ := hn.anchored hx
    exact ⟨a, hp.mem_iff.mp ha, hxa⟩
  tight hx hp' hs i hi := by
    obtain ⟨a, ha, hl⟩ := hn.tight hx hp' hs i hi
    exact ⟨a, hp.mem_iff.mp ha, hl⟩

theorem Frame.of_nodes {s s' : KvPageTable} (hf : Frame K t t')
    (h : s.nodes = t.nodes) (hs : s.swapLocations = t.swapLocations) (h' : s'.nodes = t'.nodes)
    (hs' : s'.swapLocations = t'.swapLocations) : Frame K s s' := by
  cases t; cases t'; cases s; cases s'; cases h; cases h'; cases hs; cases hs'
  exact ⟨hf.issued, hf.stale, hf.live, hf.up, hf.locs, hf.backing, hf.swap, hf.moved⟩

theorem Settled.nodes {s : List KvPageBacking × KvPageTable} (h : Settled A t s) : Nodes A s.2 :=
  ⟨h.trie, h.counted, h.anchored, h.tight⟩

end OfNodes

/-! ## Anchors under changes of the working sets -/

section Terms

variable {t t' : KvPageTable} {ws : WorkingSetId} {e : WorkingSetEntry}

theorem mem_terms : a ∈ terms t ↔ ∃ ws e, t.workingSets.get ws = some e ∧ e.terminal = some a := by
  simp only [terms, mem_filterMap, Prod.exists, GenMap.mem_entries]

theorem mem_others : a ∈ others t ws ↔ (∃ B e, B ≠ ws ∧ t.workingSets.get B = some e ∧ e.terminal = some a)
      ∨ a ∈ t.cacheRoots.keys ∨ a ∈ t.pins.keys := by
  simp only [others, mem_append, mem_filterMap, mem_filter, Prod.exists, GenMap.mem_entries, decide_eq_true_eq]
  constructor
  · rintro (⟨B, e, ⟨hB, hne⟩, he⟩ | h)
    · exact .inl ⟨B, e, hne, hB, he⟩
    · exact .inr h
  · rintro (⟨B, e, hne, hB, he⟩ | h)
    · exact .inl ⟨B, e, ⟨hB, hne⟩, he⟩
    · exact .inr h

theorem anchors_split (h : t.workingSets.get ws = some e) : (anchors t).Perm (e.terminal.toList ++ others t ws) := by
  obtain ⟨l₁, l₂, he, _, _⟩ := GenMap.entries_split h
  have hnd := t.workingSets.keys_nodup
  rw [GenMap.keys, he, map_append, map_cons] at hnd
  have hne : ∀ x, x ∈ l₁ ∨ x ∈ l₂ → x.1 ≠ ws := by
    rintro x (hx | hx) heq
    · exact (nodup_append.mp hnd).2.2 x.1 (mem_map_of_mem hx) ws mem_cons_self heq
    · exact (nodup_cons.mp (nodup_append.mp hnd).2.1).1
        (mem_map.mpr ⟨x, hx, heq⟩)
  have hfilter : ∀ l : List (WorkingSetId × WorkingSetEntry), (∀ x ∈ l, x.1 ≠ ws) →
      l.filter (fun e => e.1 ≠ ws) = l := by
    intro l hl
    rw [filter_eq_self]
    intro x hx
    simpa using hl x hx
  have hoth : t.workingSets.entries.filter (fun e => e.1 ≠ ws) = l₁ ++ l₂ := by
    rw [he, filter_append, filter_cons, if_neg (by simp),
      hfilter l₁ (fun x hx => hne x (.inl hx)), hfilter l₂ (fun x hx => hne x (.inr hx))]
  have hterms : (terms t).Perm (e.terminal.toList ++ (l₁ ++ l₂).filterMap (fun e => e.2.terminal)) := by
    unfold terms
    rw [he, filterMap_append, filterMap_append, filterMap_cons]
    cases e.terminal with
    | none => simp
    | some a => exact perm_middle
  unfold anchors others
  rw [hoth, ← append_assoc e.terminal.toList]
  exact hterms.append_right _

theorem anchors_dead (h : t.workingSets.get ws = none) : anchors t = others t ws := by
  unfold anchors others terms
  rw [filter_eq_self.mpr]
  rintro ⟨B, e⟩ hB
  rw [decide_eq_true_eq]
  rintro rfl
  rw [GenMap.mem_entries.mp hB] at h
  simp at h

theorem others_perm (hw : ∀ B, B ≠ ws → t'.workingSets.get B = t.workingSets.get B)
    (hr : t'.cacheRoots.keys.Perm t.cacheRoots.keys) (hp : t'.pins.keys.Perm t.pins.keys) :
    (others t' ws).Perm (others t ws) := by
  unfold others
  refine Perm.append ?_ (hr.append hp)
  refine Perm.filterMap _ ?_
  have hnd : ∀ t : KvPageTable, t.workingSets.entries.Nodup := fun t => t.workingSets.keys_nodup.of_map _
  rw [perm_ext_iff_of_nodup ((hnd t').filter _) ((hnd t).filter _)]
  rintro ⟨B, e⟩
  simp only [mem_filter, GenMap.mem_entries, decide_eq_true_eq]
  constructor
  · rintro ⟨h, hne⟩; exact ⟨by rw [← hw B hne]; exact h, hne⟩
  · rintro ⟨h, hne⟩; exact ⟨by rw [hw B hne]; exact h, hne⟩

end Terms

theorem inSwap_of_mem {t : KvPageTable} (hl : l ∈ t.swapLocations) :
    t.inSwap l.node = true := decide_eq_true ⟨l, hl, rfl⟩

namespace TableInv

variable {t t' : KvPageTable} {ws : WorkingSetId} {e : WorkingSetEntry}

variable {n : NodeId}

theorem live_term (h : TableInv t) (he : t.workingSets.get ws = some e)
    (hn : e.terminal = some n) : ∃ nd, t.nodes.get n = some nd := by
  refine h.nodes.counted.live ?_
  exact mem_append_left _ (mem_terms.mpr ⟨ws, e, he, hn⟩)

theorem live_root (h : TableInv t) (hn : n ∈ t.cacheRoots.keys) : ∃ nd, t.nodes.get n = some nd :=
  h.nodes.counted.live (mem_append_right _ (mem_append_left _ hn))

theorem live_pin (h : TableInv t) (hn : n ∈ t.pins.keys) : ∃ nd, t.nodes.get n = some nd :=
  h.nodes.counted.live (mem_append_right _ (mem_append_right _ hn))

theorem live_others (h : TableInv t) (hn : n ∈ others t ws) : ∃ nd, t.nodes.get n = some nd := by
  rcases mem_others.mp hn with ⟨B, e, _, hB, he⟩ | hr | hp
  · exact h.live_term hB he
  · exact h.live_root hr
  · exact h.live_pin hp

theorem swap_frame (h : TableInv t) (hf : Frame K t t') (hl : l ∈ t'.swapLocations) : t'.nodes.Issued l.node
      ∧ ∀ {nd}, t'.nodes.get l.node = some nd → ∃ p, backing t' l = some p := by
  rw [hf.swap] at hl
  obtain ⟨hiss, hb⟩ := h.swap hl
  refine ⟨hf.issued hiss, ?_⟩
  intro nd' hn'
  obtain ⟨nd, hn⟩ := hf.stale hiss hn'
  obtain ⟨p, hp⟩ := hb hn
  exact ⟨p, hf.moved (inSwap_of_mem hl) hiss hn' hp⟩

end TableInv

/-- A change of one working set, of the nodes below it, and of nothing else; `none` is a release. -/
structure Changed (t : KvPageTable) (ws : WorkingSetId) (e' : Option WorkingSetEntry)
    (t' : KvPageTable) : Prop where
  inv : TableInv t'
  entry : ∀ B, t'.workingSets.get B = if B = ws then e' else t.workingSets.get B
  roots : t'.cacheRoots = t.cacheRoots
  pins : t'.pins = t.pins
  frame : Frame (· ∈ others t ws) t t'

namespace Changed

variable {t t' : KvPageTable} {ws : WorkingSetId} {e' : Option WorkingSetEntry}

theorem mk' (h : TableInv t) (hn : Nodes ((e'.bind WorkingSetEntry.terminal).toList ++ others t ws) t')
    (hf : Frame (· ∈ others t ws) t t')
    (hw : ∀ B, t'.workingSets.get B = if B = ws then e' else t.workingSets.get B)
    (hr : t'.cacheRoots = t.cacheRoots) (hp : t'.pins = t.pins)
    (hlen : ∀ {e}, e' = some e → (termLocs t' e.terminal).length = e.mappedLen
      ∧ e.mappedLen ≤ e.pageLen) : Changed t ws e' t' := by
  refine ⟨?_, hw, hr, hp, hf⟩
  have hoth : (others t' ws).Perm (others t ws) := by
    refine others_perm ?_ (by rw [hr]) (by rw [hp])
    intro B hB
    rw [hw, if_neg hB]
  refine ⟨?_, ?_, fun hn => h.roots (by rw [← hr]; exact hn), fun hn => h.pins (by rw [← hp]; exact hn),
    fun hl => h.swap_frame hf hl⟩
  · refine hn.perm ?_
    have hws : t'.workingSets.get ws = e' := by rw [hw, if_pos rfl]
    cases he : e' with
    | none =>
      rw [he] at hws
      rw [anchors_dead hws]
      exact hoth.symm
    | some e =>
      rw [he] at hws
      exact (hoth.symm.append_left _).trans (anchors_split hws).symm
  · intro B eB hB
    rw [hw] at hB
    split at hB
    · exact hlen hB
    · rename_i hne
      obtain ⟨h1, h2⟩ := h.mapped hB
      refine ⟨?_, h2⟩
      rw [← h1]
      cases ht : eB.terminal with
      | none => rfl
      | some a =>
        show (locs t' a).length = (locs t a).length
        rw [hf.locs (mem_others.mpr (.inl ⟨B, eB, hne, hB, ht⟩))]

end Changed

/-! ## Holds -/

section Holds

variable {holds : HashMap NodeId Nat} {n : NodeId}

theorem hold_keys (hpos : ∀ {k c}, holds.lookup k = some c → 0 < c) :
    (hold holds n).1.keys.Perm (if (hold holds n).2 then n :: holds.keys else holds.keys) := by
  by_cases hn : n ∈ holds.keys
  · obtain ⟨c, hc⟩ : ∃ c, holds.lookup n = some c :=
      Option.isSome_iff_exists.mp (lookup_isSome.mpr (mem_keys.mpr hn))
    have hpos := hpos hc
    have hne : ¬ (c + 1 = 1) := by omega
    simp only [hold, keys_insert, hc, Option.getD_some, beq_iff_eq, hne, if_false]
    exact (perm_cons_erase hn).symm
  · have hl : holds.lookup n = none :=
      lookup_eq_none.mpr (fun h => hn (mem_keys.mp h))
    simp [hold, keys_insert, hl, erase_of_not_mem hn]

theorem hold_pos (hpos : ∀ {k c}, holds.lookup k = some c → 0 < c)
    (h : (hold holds n).1.lookup k = some c) : 0 < c := by
  simp only [hold] at h
  by_cases hk : k = n
  · subst hk
    rw [lookup_insert] at h
    cases h
    omega
  · rw [lookup_insert_ne hk] at h
    exact hpos h

theorem letGo_keys (holds : HashMap NodeId Nat) (n : NodeId) : holds.keys.Perm
    (if (letGo holds n).2 then n :: (letGo holds n).1.keys else (letGo holds n).1.keys) := by
  unfold letGo
  cases hl : holds.lookup n with
  | none => simp
  | some c =>
    have hn : n ∈ holds.keys := by
      rw [← AList.mem_keys, ← AList.lookup_isSome, hl]; rfl
    simp only []
    split
    · simp only [keys_insert, Bool.false_eq_true, if_false]
      exact perm_cons_erase hn
    · simp only [keys_erase, if_true]
      exact perm_cons_erase hn

theorem letGo_pos (hpos : ∀ {k c}, holds.lookup k = some c → 0 < c)
    (h : (letGo holds n).1.lookup k = some c) : 0 < c := by
  unfold letGo at h
  cases hl : holds.lookup n with
  | none => rw [hl] at h; exact hpos h
  | some d =>
    rw [hl] at h
    simp only [] at h
    split at h
    · by_cases hk : k = n
      · subst hk
        rw [lookup_insert] at h
        cases h
        assumption
      · rw [lookup_insert_ne hk] at h
        exact hpos h
    · by_cases hk : k = n
      · subst hk
        rw [lookup_erase] at h
        simp at h
      · rw [lookup_erase_ne hk] at h
        exact hpos h

end Holds

end Pie.Proof
