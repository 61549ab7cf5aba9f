import Pie.Proof.TableWrites

/-!
# Cache roots, pins and moves

Leasing a root and pinning a node add an anchor the first time, letting go
removes it the last time. Keeping a prefix or importing pages first makes a node
that nothing anchors, so the two steps are one: `Awaiting` is the table between.
-/

namespace Pie.Proof

open List Store Kv Lib Table

variable {t t₁ t' : KvPageTable} {ws : WorkingSetId} {e : WorkingSetEntry} {m n : NodeId}

/-- A table in order but for `m`, which waits for its first anchor. -/
structure Awaiting (m : NodeId) (t : KvPageTable) : Prop where
  trie : Trie t
  counted : Counted t (anchors t)
  anchored : Anchored t (m :: anchors t)
  tight : Tight t (m :: anchors t)
  live : ∃ md, t.nodes.get m = some md
  mapped : ∀ {ws e}, t.workingSets.get ws = some e →
    (termLocs t e.terminal).length = e.mappedLen ∧ e.mappedLen ≤ e.pageLen
  roots : ∀ {n c}, t.cacheRoots.lookup n = some c → 0 < c
  pins : ∀ {n c}, t.pins.lookup n = some c → 0 < c
  swap : ∀ {l}, l ∈ t.swapLocations → t.nodes.Issued l.node
    ∧ ∀ {nd}, t.nodes.get l.node = some nd → ∃ p, backing t l = some p

theorem TableInv.awaiting (h : TableInv t) (hm : ∃ md, t.nodes.get m = some md) : Awaiting m t where
  trie := h.nodes.trie
  counted := h.nodes.counted
  anchored hx := by
    obtain ⟨a, ha, hxa⟩ := h.nodes.anchored hx
    exact ⟨a, mem_cons_of_mem _ ha, hxa⟩
  tight hx hp hs i hi := by
    obtain ⟨a, ha, hl⟩ := h.nodes.tight hx hp hs i hi
    exact ⟨a, mem_cons_of_mem _ ha, hl⟩
  live := hm
  mapped := h.mapped
  roots := h.roots
  pins := h.pins
  swap := h.swap

/-- What a change of the nodes below anchors that all stay leaves in order. -/
theorem TableInv.awaiting_of (h : TableInv t) (hr : SameRest t t')
    (hf : Frame (fun a => ∃ ad, t.nodes.get a = some ad) t t') (ht : Trie t')
    (hc : Counted t' (anchors t)) (ha : Anchored t' (m :: anchors t))
    (htight : Tight t' (m :: anchors t)) (hm : ∃ md, t'.nodes.get m = some md) : Awaiting m t' := by
  have hA : anchors t' = anchors t := by
    rw [anchors, terms, hr.workingSets, hr.cacheRoots, hr.pins, anchors, terms]
  refine ⟨ht, by rw [hA]; exact hc, by rw [hA]; exact ha, by rw [hA]; exact htight, hm, ?_,
    fun hn => h.roots (by rw [← hr.cacheRoots]; exact hn),
    fun hn => h.pins (by rw [← hr.pins]; exact hn), fun hl => h.swap_frame hf hl⟩
  intro ws e he
  rw [hr.workingSets] at he
  obtain ⟨h1, h2⟩ := h.mapped he
  refine ⟨?_, h2⟩
  rw [← h1]
  cases hterm : e.terminal with
  | none => rfl
  | some a =>
    show (locs t' a).length = (locs t a).length
    rw [hf.locs (h.live_term he hterm)]

theorem Bounded.awaiting {want : List TriePageLocation} (h : TableInv t) (hb : Bounded t want m t') : Awaiting m t' :=
  h.awaiting_of hb.rest hb.frame hb.trie (hb.counted h.nodes.counted)
    (hb.anchored h.nodes.counted h.nodes.anchored) (hb.tight h.nodes.counted h.nodes.tight) hb.live

theorem Grown.awaiting {new : KvTrieNode} (h : TableInv t) (hg : Grown t m new t')
    (hok : PagesOk t new) : Awaiting m t' :=
  h.awaiting_of hg.rest (hg.frame h.nodes.trie) (hg.trie h.nodes.trie hok)
    (hg.counted h.nodes.trie h.nodes.counted)
    (hg.anchored h.nodes.trie h.nodes.counted.live hok h.nodes.anchored)
    (hg.tight h.nodes.trie h.nodes.counted.live hok h.nodes.tight) ⟨_, hg.get_self⟩

theorem Awaiting.quiet (h : Awaiting m t) (hq : Quiet t t') : Awaiting m t' where
  trie := hq.trie h.trie
  counted := by rw [hq.anchors_eq]; exact hq.counted h.counted
  anchored := by rw [hq.anchors_eq]; exact hq.anchored h.anchored
  tight := by rw [hq.anchors_eq]; exact hq.tight h.tight
  live := hq.frame.live h.live
  mapped he := by
    rw [hq.rest.workingSets] at he
    rw [hq.termLocs]
    exact h.mapped he
  roots hn := h.roots (by rw [← hq.rest.cacheRoots]; exact hn)
  pins hn := h.pins (by rw [← hq.rest.pins]; exact hn)
  swap hl := by
    rw [hq.frame.swap] at hl
    obtain ⟨hiss, hb⟩ := h.swap hl
    refine ⟨hq.frame.issued hiss, ?_⟩
    intro nd' hn'
    obtain ⟨nd, hn⟩ := hq.frame.stale hiss hn'
    rw [hq.backing]
    exact hb hn

/-! ## Adding and removing a hold -/

/-- The hold `m` waits for: its first makes it an anchor. -/
theorem Awaiting.hold_spec (h : Awaiting m t) {first : Bool} (t₁ : KvPageTable) (hn : t₁.nodes = t.nodes)
    (hw : t₁.workingSets = t.workingSets) (hs : t₁.swapLocations = t.swapLocations)
    (hA : (anchors t₁).Perm (if first = true then m :: anchors t else anchors t))
    (hmem : first = false → m ∈ anchors t)
    (hroots : ∀ {n c}, t₁.cacheRoots.lookup n = some c → 0 < c)
    (hpins : ∀ {n c}, t₁.pins.lookup n = some c → 0 < c) :
    ∃ t', (if first = true then t₁.addAnchor m else some t₁) = some t' ∧ TableInv t' ∧ SameRest t₁ t'
      ∧ Frame (fun a => ∃ ad, t.nodes.get a = some ad) t t' ∧ locs t' = locs t
      ∧ backing t' = backing t ∧ (held t').Perm (held t) := by
  have hswap : ∀ {l}, l ∈ t₁.swapLocations → t₁.nodes.Issued l.node
      ∧ ∀ {nd}, t₁.nodes.get l.node = some nd → ∃ p, backing t₁ l = some p := by
    intro l hl
    rw [hs] at hl
    rw [backing_of_nodes hn, hn]
    exact h.swap hl
  have hmapped : ∀ {ws e}, t₁.workingSets.get ws = some e →
      (termLocs t₁ e.terminal).length = e.mappedLen ∧ e.mappedLen ≤ e.pageLen := by
    intro ws e he
    rw [hw] at he
    rw [termLocs_of_nodes hn]
    exact h.mapped he
  have hf₀ : Frame (fun a => ∃ ad, t.nodes.get a = some ad) t t₁ :=
    (Frame.refl (t := t) id).of_nodes rfl rfl hn hs
  cases first with
  | false =>
    have hm := hmem rfl
    have hnodes : Nodes (anchors t) t := by
      refine ⟨h.trie, h.counted, ?_, ?_⟩
      · intro x xd hx
        obtain ⟨a, ha, hxa⟩ := h.anchored hx
        rcases mem_cons.mp ha with rfl | ha
        · exact ⟨a, hm, hxa⟩
        · exact ⟨a, ha, hxa⟩
      · intro x xd b tk hs' hx hp hsw i hi
        obtain ⟨a, ha, hl⟩ := h.tight hx hp hsw i hi
        rcases mem_cons.mp ha with rfl | ha
        · exact ⟨a, hm, hl⟩
        · exact ⟨a, ha, hl⟩
    refine ⟨t₁, by simp, ⟨?_, hmapped, hroots, hpins, hswap⟩, .refl t₁, hf₀, locs_of_nodes hn,
      backing_of_nodes hn, by rw [held_of_nodes hn]⟩
    exact (hnodes.of_nodes hn hs).perm (by simpa using hA.symm)
  | true =>
    obtain ⟨md, hmd⟩ := h.live
    have hc₁ : Counted t₁ (anchors t) := h.counted.of_nodes hn
    obtain ⟨t', hadd, hshape, hcount⟩ := addAnchor_spec (h.trie.of_nodes hn) (by rw [hn]; exact hmd) hc₁
    have hr := hshape.rest_eq
    have hlocs : locs t' = locs t := by rw [hshape.locs_eq, locs_of_nodes hn]
    have hback : backing t' = backing t := by rw [hshape.backing_eq, backing_of_nodes hn]
    have hf : Frame (fun a => ∃ ad, t.nodes.get a = some ad) t t' := by
      refine hf₀.trans (hshape.frame.mono ?_)
      rintro a ⟨ad, had⟩
      exact ⟨ad, by rw [hn]; exact had⟩
    have hA' : (m :: anchors t).Perm (anchors t') := by
      have : anchors t' = anchors t₁ := by
        rw [anchors, terms, hr.workingSets, hr.cacheRoots, hr.pins, anchors, terms]
      rw [this]
      simpa using hA.symm
    refine ⟨t', by simpa using hadd, ⟨?_, ?_, ?_, ?_, ?_⟩, hr, hf, hlocs, hback, ?_⟩
    · refine Nodes.perm ⟨hshape.trie (h.trie.of_nodes hn), hcount, ?_, ?_⟩ hA'
      · intro x xd hx
        obtain ⟨xd₀, hx₀, _⟩ := hshape.of_get hx
        rw [hn] at hx₀
        obtain ⟨a, ha, hxa⟩ := h.anchored hx₀
        refine ⟨a, ha, ?_⟩
        obtain ⟨ad, had⟩ : ∃ ad, t.nodes.get a = some ad := by
          rcases mem_cons.mp ha with rfl | ha
          · exact h.live
          · exact h.counted.live ha
        rw [hf.up ⟨ad, had⟩]
        exact hxa
      · intro x xd b tk hs' hx hp hsw i hi
        obtain ⟨xd₀, hx₀, _, _, hp₀⟩ := hshape.of_get hx
        rw [hn] at hx₀
        obtain ⟨a, ha, hl⟩ := h.tight hx₀ (by rw [hp₀]; exact hp) (by
          rw [← hsw]
          simp only [KvPageTable.inSwap, hr.swap, hs]) i hi
        exact ⟨a, ha, by rw [hlocs]; exact hl⟩
    · intro ws e he
      rw [hr.workingSets] at he
      have := hmapped he
      rw [termLocs_of_nodes hn] at this
      cases hterm : e.terminal with
      | none => rw [hterm] at this; exact this
      | some a =>
        rw [hterm] at this
        show (locs t' a).length = _ ∧ _
        rw [hlocs]
        exact this
    · intro n c hc
      exact hroots (by rw [← hr.cacheRoots]; exact hc)
    · intro n c hc
      exact hpins (by rw [← hr.pins]; exact hc)
    · intro l hl
      rw [hr.swap] at hl
      obtain ⟨hiss, hb⟩ := hswap hl
      refine ⟨hshape.issued hiss, ?_⟩
      intro nd' hn'
      obtain ⟨nd₁, hn₁, _⟩ := hshape.of_get hn'
      rw [hshape.backing_eq]
      exact hb hn₁
    · rw [← held_of_nodes hn]
      exact hshape.held_perm

/-- A hold let go: the last takes the anchor away. -/
theorem TableInv.letGo_spec (h : TableInv t) {last : Bool} (t₁ : KvPageTable) (hn : t₁.nodes = t.nodes)
    (hw : t₁.workingSets = t.workingSets) (hs : t₁.swapLocations = t.swapLocations)
    (hA : (anchors t).Perm (if last = true then m :: anchors t₁ else anchors t₁))
    (hroots : ∀ {n c}, t₁.cacheRoots.lookup n = some c → 0 < c)
    (hpins : ∀ {n c}, t₁.pins.lookup n = some c → 0 < c) :
    ∃ freed t', (if last = true then t₁.removeAnchor m else some ([], t₁)) = some (freed, t')
      ∧ TableInv t' ∧ SameRest t₁ t' ∧ Frame (· ∈ anchors t₁) t t'
      ∧ (held t).Perm (freed ++ held t') := by
  have hsw₁ : ∀ {l}, l ∈ t₁.swapLocations → t₁.nodes.Issued l.node
      ∧ ∀ {nd}, t₁.nodes.get l.node = some nd → ∃ p, backing t₁ l = some p := by
    intro l hl
    rw [hs] at hl
    rw [backing_of_nodes hn, hn]
    exact h.swap hl
  have hmapped : ∀ {ws e}, t₁.workingSets.get ws = some e →
      (termLocs t₁ e.terminal).length = e.mappedLen ∧ e.mappedLen ≤ e.pageLen := by
    intro ws e he
    rw [hw] at he
    rw [termLocs_of_nodes hn]
    exact h.mapped he
  have hn₁ : Nodes (anchors t) t₁ := h.nodes.of_nodes hn hs
  have hsub : ∀ {a}, a ∈ anchors t₁ → ∃ ad, t.nodes.get a = some ad := by
    intro a ha
    refine h.nodes.counted.live (hA.mem_iff.mpr ?_)
    cases last
    · exact ha
    · exact mem_cons_of_mem _ ha
  have hf₀ : Frame (· ∈ anchors t₁) t t₁ := (Frame.refl (t := t) hsub).of_nodes rfl rfl hn hs
  cases last with
  | false =>
    exact ⟨[], t₁, by simp, ⟨hn₁.perm hA, hmapped, hroots, hpins, hsw₁⟩, .refl t₁, hf₀, by
      rw [held_of_nodes hn]; simp⟩
  | true =>
    have hn₂ : Nodes (m :: anchors t₁) t₁ := hn₁.perm (by simpa using hA)
    obtain ⟨freed, t', hrem, hset⟩ := removeAnchor_spec hn₂.trie hn₂.counted hn₂.anchored hn₂.tight
    have hr := hset.rest
    have hA' : anchors t' = anchors t₁ := by
      rw [anchors, terms, hr.workingSets, hr.cacheRoots, hr.pins, anchors, terms]
    refine ⟨freed, t', by simpa using hrem, ⟨?_, ?_, ?_, ?_, ?_⟩, hr, hf₀.trans hset.frame, ?_⟩
    · rw [hA']
      exact hset.nodes
    · intro ws e he
      rw [hr.workingSets] at he
      obtain ⟨h1, h2⟩ := hmapped he
      refine ⟨?_, h2⟩
      rw [← h1]
      cases hterm : e.terminal with
      | none => rfl
      | some a =>
        show (locs t' a).length = (locs t₁ a).length
        rw [hset.frame.locs (mem_append_left _ (mem_terms.mpr ⟨ws, e, he, hterm⟩))]
    · intro n c hc
      exact hroots (by rw [← hr.cacheRoots]; exact hc)
    · intro n c hc
      exact hpins (by rw [← hr.pins]; exact hc)
    · intro l hl
      rw [hr.swap] at hl
      obtain ⟨hiss, hb⟩ := hsw₁ hl
      refine ⟨hset.frame.issued hiss, ?_⟩
      intro nd' hn'
      obtain ⟨nd, hnd⟩ := hset.frame.stale hiss hn'
      obtain ⟨p, hp⟩ := hb hnd
      exact ⟨p, hset.frame.moved (inSwap_of_mem hl) hiss hn' hp⟩
    · rw [← held_of_nodes hn]
      exact hset.held

/-- **Leasing a cache root.** -/
theorem leaseCacheRoot_spec (h : Awaiting m t) : ∃ t', t.leaseCacheRoot m = some t' ∧ TableInv t'
    ∧ t'.workingSets = t.workingSets ∧ t'.cacheRoots = (hold t.cacheRoots m).1 ∧ t'.pins = t.pins
    ∧ Frame (fun a => ∃ ad, t.nodes.get a = some ad) t t' ∧ locs t' = locs t
    ∧ backing t' = backing t ∧ (held t').Perm (held t) := by
  have hkeys := hold_keys (n := m) h.roots
  obtain ⟨t', hrun, hinv, hr, hf, hl, hb, hh⟩ := h.hold_spec
    { t with cacheRoots := (hold t.cacheRoots m).1 } rfl rfl rfl (by
      unfold anchors terms
      simp only
      split
      · rename_i hfirst
        rw [if_pos hfirst] at hkeys
        refine Perm.trans ((hkeys.append_right _).append_left _) ?_
        exact perm_middle
      · rename_i hfirst
        rw [if_neg hfirst] at hkeys
        exact (hkeys.append_right _).append_left _) (by
      intro hfirst
      rw [hfirst] at hkeys
      refine mem_append_right _ (mem_append_left _ (hkeys.mem_iff.mp ?_))
      simp only [hold, AList.keys_insert]
      exact mem_cons_self) (fun hc => hold_pos h.roots hc) h.pins
  exact ⟨t', hrun, hinv, hr.workingSets, hr.cacheRoots, hr.pins, hf, hl, hb, hh⟩

/-- **Pinning a node.** -/
theorem pin_spec (h : Awaiting m t) : ∃ t', t.pin m = some t' ∧ TableInv t'
    ∧ t'.workingSets = t.workingSets ∧ t'.cacheRoots = t.cacheRoots ∧ t'.pins = (hold t.pins m).1
    ∧ Frame (fun a => ∃ ad, t.nodes.get a = some ad) t t' ∧ locs t' = locs t
    ∧ backing t' = backing t ∧ (held t').Perm (held t) := by
  have hkeys := hold_keys (n := m) h.pins
  obtain ⟨t', hrun, hinv, hr, hf, hl, hb, hh⟩ := h.hold_spec
    { t with pins := (hold t.pins m).1 } rfl rfl rfl (by
      unfold anchors terms
      simp only
      split
      · rename_i hfirst
        rw [if_pos hfirst] at hkeys
        rw [← append_assoc, ← append_assoc]
        exact (hkeys.append_left _).trans perm_middle
      · rename_i hfirst
        rw [if_neg hfirst] at hkeys
        exact (hkeys.append_left _).append_left _) (by
      intro hfirst
      rw [hfirst] at hkeys
      refine mem_append_right _ (mem_append_right _ (hkeys.mem_iff.mp ?_))
      simp only [hold, AList.keys_insert]
      exact mem_cons_self) h.roots (fun hc => hold_pos h.pins hc)
  exact ⟨t', hrun, hinv, hr.workingSets, hr.cacheRoots, hr.pins, hf, hl, hb, hh⟩

/-- **Releasing a cache root.** -/
theorem releaseCacheRoot_spec (h : TableInv t) (m : NodeId) :
    ∃ freed t', t.releaseCacheRoot m = some (freed, t') ∧ TableInv t'
      ∧ t'.workingSets = t.workingSets ∧ t'.cacheRoots = (letGo t.cacheRoots m).1 ∧ t'.pins = t.pins
      ∧ Frame (· ∈ anchors t') t t' ∧ (held t).Perm (freed ++ held t') := by
  have hkeys := letGo_keys t.cacheRoots m
  obtain ⟨freed, t', hrun, hinv, hr, hf, hh⟩ := h.letGo_spec (m := m)
    { t with cacheRoots := (letGo t.cacheRoots m).1 } rfl rfl rfl (by
      unfold anchors terms
      simp only
      split
      · rename_i hlast
        rw [if_pos hlast] at hkeys
        exact ((hkeys.append_right _).append_left _).trans perm_middle
      · rename_i hlast
        rw [if_neg hlast] at hkeys
        exact (hkeys.append_right _).append_left _) (fun hc => letGo_pos h.roots hc) h.pins
  have hA : anchors t' = anchors { t with cacheRoots := (letGo t.cacheRoots m).1 } := by
    rw [anchors, terms, hr.workingSets, hr.cacheRoots, hr.pins, anchors, terms]
  exact ⟨freed, t', hrun, hinv, hr.workingSets, hr.cacheRoots, hr.pins, by rw [hA]; exact hf, hh⟩

/-- **Unpinning a node.** -/
theorem unpin_spec (h : TableInv t) (m : NodeId) : ∃ freed t', t.unpin m = some (freed, t') ∧ TableInv t'
      ∧ t'.workingSets = t.workingSets ∧ t'.cacheRoots = t.cacheRoots ∧ t'.pins = (letGo t.pins m).1
      ∧ Frame (· ∈ anchors t') t t' ∧ (held t).Perm (freed ++ held t') := by
  have hkeys := letGo_keys t.pins m
  obtain ⟨freed, t', hrun, hinv, hr, hf, hh⟩ := h.letGo_spec (m := m)
    { t with pins := (letGo t.pins m).1 } rfl rfl rfl (by
      unfold anchors terms
      simp only
      split
      · rename_i hlast
        rw [if_pos hlast] at hkeys
        rw [← append_assoc, ← append_assoc]
        exact (hkeys.append_left _).trans perm_middle
      · rename_i hlast
        rw [if_neg hlast] at hkeys
        exact (hkeys.append_left _).append_left _) h.roots (fun hc => letGo_pos h.pins hc)
  have hA : anchors t' = anchors { t with pins := (letGo t.pins m).1 } := by
    rw [anchors, terms, hr.workingSets, hr.cacheRoots, hr.pins, anchors, terms]
  exact ⟨freed, t', hrun, hinv, hr.workingSets, hr.cacheRoots, hr.pins, by rw [hA]; exact hf, hh⟩

end Pie.Proof
