import Pie.Proof.TableReads

/-!
# The operations of the page table

One specification for each: it does not panic, it keeps the invariant, and this
is what the mappings are afterwards. An operation on a working set is a
`Changed`: every other anchor reads the pages it read.
-/

namespace Pie.Proof

open List Option Store Kv Lib Table KvPageTable

variable {t t' : KvPageTable} {ws : WorkingSetId} {e : WorkingSetEntry}

namespace TableInv

theorem others_live (h : TableInv t) : ∀ {a}, a ∈ others t ws → ∃ ad, t.nodes.get a = some ad :=
  fun ha => h.live_others ha

/-- The nodes are in order for a working set's terminal and the other anchors. -/
theorem nodes_split (h : TableInv t) (he : t.workingSets.get ws = some e) :
    Nodes (e.terminal.toList ++ others t ws) t := h.nodes.perm (anchors_split he)

end TableInv

/-! ## Working sets that come and go -/

theorem setEntry_spec (h : TableInv t) (he : t.workingSets.get ws = some e) {e' : WorkingSetEntry}
    (hterm : e'.terminal = e.terminal) (hm : e'.mappedLen = e.mappedLen)
    (hle : e.mappedLen ≤ e'.pageLen) : Changed t ws (some e') (t.setEntry ws e') := by
  refine .mk' h ?_ ((Frame.refl h.others_live).of_nodes rfl rfl rfl rfl) ?_ rfl rfl ?_
  · refine Nodes.of_nodes (t := t) ?_ rfl rfl
    simpa [hterm] using h.nodes_split he
  · intro B
    exact GenMap.get_set he
  · intro e'' he''
    cases he''
    rw [hterm, hm]
    exact ⟨(h.mapped he).1, hle⟩

theorem createWorkingSet_spec (h : TableInv t) : t.workingSets.get t.createWorkingSet.1 = none
    ∧ Changed t t.createWorkingSet.1 (some { terminal := none, pageLen := 0, mappedLen := 0 })
        t.createWorkingSet.2
    ∧ t.createWorkingSet.2.nodes = t.nodes := by
  have hnone : t.workingSets.get t.createWorkingSet.1 = none := GenMap.get_insert_key _ _
  refine ⟨hnone, ?_, rfl⟩
  refine .mk' h ?_ ((Frame.refl h.others_live).of_nodes rfl rfl rfl rfl) ?_ rfl rfl ?_
  · refine Nodes.of_nodes (t := t) ?_ rfl rfl
    have := h.nodes
    rw [anchors_dead hnone] at this
    exact this
  · intro B
    exact GenMap.get_insert
  · intro e' he'
    cases he'
    exact ⟨rfl, le_rfl⟩

/-- The entry of a fork. -/
def forked (e : WorkingSetEntry) : WorkingSetEntry :=
  { terminal := e.terminal, pageLen := e.pageLen, mappedLen := e.mappedLen, logged := e.known
    folded := e.folded, promptPages := e.promptPages }

theorem fork_error (he : t.workingSets.get ws = none) : t.fork ws = some (.error .unknownWorkingSet, t) := by
  simp [fork, entry_none he]

/-- **A fork** maps the pages of the set it is forked from. -/
theorem fork_spec (h : TableInv t) (he : t.workingSets.get ws = some e) :
    ∃ child t', t.fork ws = some (.ok child, t') ∧ t.workingSets.get child = none
      ∧ Changed t child (some (forked e)) t' ∧ (held t').Perm (held t)
      ∧ locs t' = locs t ∧ backing t' = backing t := by
  set child := (t.workingSets.insert (forked e)).1 with hchild
  set t₁ : KvPageTable := { t with workingSets := (t.workingSets.insert (forked e)).2 } with ht₁
  have hnone : t.workingSets.get child = none := GenMap.get_insert_key _ _
  have hget : ∀ B, t₁.workingSets.get B = if B = child then some (forked e) else t.workingSets.get B :=
    fun B => GenMap.get_insert
  have hnodes : Nodes (others t child) t₁ := by
    have := h.nodes
    rw [anchors_dead hnone] at this
    exact this.of_nodes rfl rfl
  have hrun : t.fork ws = (t₁.anchorTerminal e.terminal).bind (fun t => some (.ok child, t)) := by
    simp only [fork, entry_eq he, bind_eq_bind]
    rfl
  cases hterm : e.terminal with
  | none =>
    refine ⟨child, t₁, by rw [hrun, hterm]; rfl, hnone, ?_, .refl _, rfl, rfl⟩
    refine .mk' h ?_ ((Frame.refl h.others_live).of_nodes rfl rfl rfl rfl) hget rfl rfl ?_
    · simpa [forked, hterm] using hnodes
    · intro e' he'
      cases he'
      have := h.mapped he
      rw [hterm] at this
      simpa [forked, hterm, termLocs] using this
  | some n =>
    obtain ⟨nd, hn⟩ := h.live_term he hterm
    obtain ⟨t', hadd, hshape, hcount⟩ := addAnchor_spec hnodes.trie hn hnodes.counted
    have hl : locs t' = locs t := by rw [hshape.locs_eq]; rfl
    have hr := hshape.rest_eq
    have hf : Frame (· ∈ others t child) t t' :=
      (hshape.frame.of_nodes (s := t) rfl rfl rfl rfl).mono (fun ha => h.live_others ha)
    refine ⟨child, t', by rw [hrun, hterm]; simp [anchorTerminal, hadd], hnone, ?_, hshape.held_perm, hl,
      by rw [hshape.backing_eq]; rfl⟩
    refine .mk' h ?_ hf ?_ hr.cacheRoots hr.pins ?_
    · have hlist : ((some (forked e)).bind WorkingSetEntry.terminal).toList = [n] := by
        simp [forked, hterm]
      rw [hlist]
      refine ⟨hshape.trie hnodes.trie, hcount, ?_, ?_⟩
      · intro x xd hx
        obtain ⟨xd₀, hx₀, _⟩ := hshape.of_get hx
        obtain ⟨a, ha, hxa⟩ := hnodes.anchored hx₀
        exact ⟨a, mem_cons_of_mem _ ha, by rw [hshape.up_eq]; exact hxa⟩
      · intro x xd b tk hs hx hp hsw i hi
        obtain ⟨xd₀, hx₀, _, _, hp₀⟩ := hshape.of_get hx
        obtain ⟨a, ha, hla⟩ := hnodes.tight hx₀ (by rw [hp₀]; exact hp)
          (by rw [← hr.inSwap]; exact hsw) i hi
        exact ⟨a, mem_cons_of_mem _ ha, by rw [hshape.locs_eq]; exact hla⟩
    · intro B
      rw [hr.workingSets]
      exact hget B
    · intro e' he'
      cases he'
      have := h.mapped he
      simp only [forked, termLocs, hterm, hl] at this ⊢
      exact this

theorem reserve_error (he : t.workingSets.get ws = none) (k : Nat) :
    t.reserve ws k = (.error .unknownWorkingSet, t) := by
  simp [reserve, entry_none he]

theorem reserve_spec (h : TableInv t) (he : t.workingSets.get ws = some e) (k : Nat) :
    ∃ t', t.reserve ws k = (.ok (e.pageLen, e.pageLen + k), t')
      ∧ Changed t ws (some { e with pageLen := e.pageLen + k }) t' ∧ t'.nodes = t.nodes := by
  refine ⟨t.setEntry ws { e with pageLen := e.pageLen + k }, by simp [reserve, entry_eq he],
    setEntry_spec h he rfl rfl ?_, rfl⟩
  have := (h.mapped he).2
  show e.mappedLen ≤ e.pageLen + k
  omega

/-- **Releasing a working set** gives back what it alone kept. -/
theorem releaseWorkingSetBackings_spec (h : TableInv t) (he : t.workingSets.get ws = some e) :
    ∃ freed t', t.releaseWorkingSetBackings ws = some (freed, t') ∧ Changed t ws none t'
      ∧ (held t).Perm (freed ++ held t') := by
  set t₁ : KvPageTable := { t with workingSets := t.workingSets.remove ws } with ht₁
  have hnodes : Nodes (e.terminal.toList ++ others t ws) t₁ := (h.nodes_split he).of_nodes rfl rfl
  have hget : ∀ B, t₁.workingSets.get B = if B = ws then none else t.workingSets.get B :=
    fun B => GenMap.get_remove
  cases hterm : e.terminal with
  | none =>
    refine ⟨[], t₁, ?_, ?_, by simpa using .refl _⟩
    · simp only [releaseWorkingSetBackings, he, hterm]
      rfl
    · refine .mk' h ?_ ((Frame.refl h.others_live).of_nodes rfl rfl rfl rfl) hget rfl rfl (by simp)
      simpa [hterm] using hnodes
  | some n =>
    rw [hterm] at hnodes
    obtain ⟨freed, t', hrun, hs⟩ := removeAnchor_spec hnodes.trie hnodes.counted hnodes.anchored
      hnodes.tight
    refine ⟨freed, t', ?_, ?_, hs.held⟩
    · simp only [releaseWorkingSetBackings, he, hterm]
      exact hrun
    · refine .mk' h hs.nodes (hs.frame.of_nodes rfl rfl rfl rfl) ?_ hs.rest.cacheRoots hs.rest.pins
        (by simp)
      intro B
      rw [hs.rest.workingSets]
      exact hget B

theorem releaseWorkingSetBackings_dead (he : t.workingSets.get ws = none) :
    t.releaseWorkingSetBackings ws = some ([], t) := by
  simp [releaseWorkingSetBackings, he]

/-- A working set moves to a node that is there for it; what it alone kept is given back. -/
theorem moveTerminal_spec {m : NodeId} {R : List NodeId} (ht : Trie t)
    (hc : Counted t (e.terminal.toList ++ R)) (hanch : Anchored t (m :: (e.terminal.toList ++ R)))
    (htight : Tight t (m :: (e.terminal.toList ++ R))) (hm : ∃ md, t.nodes.get m = some md)
    (he : t.workingSets.get ws = some e) :
    ∃ freed t', t.moveTerminal ws (some m) = some (.ok freed, t') ∧ Nodes (m :: R) t'
      ∧ Frame (· ∈ m :: R) t t' ∧ (held t).Perm (freed ++ held t')
      ∧ (∀ B, t'.workingSets.get B = if B = ws then some { e with terminal := some m } else t.workingSets.get B)
      ∧ t'.cacheRoots = t.cacheRoots ∧ t'.pins = t.pins
      ∧ ((∀ l ∈ termLocs t e.terminal, ∃ a ∈ m :: R, l ∈ locs t a) → freed = []) := by
  by_cases hsame : e.terminal = some m
  · refine ⟨[], t, by simp [moveTerminal, entry_eq he, hsame], ?_, ?_, by simp, ?_, rfl, rfl,
      fun _ => rfl⟩
    · rw [hsame] at hc hanch htight
      simp only [Option.toList_some, singleton_append] at hc hanch htight
      refine ⟨ht, hc, ?_, ?_⟩
      · intro x xd hx
        obtain ⟨a, ha, hxa⟩ := hanch hx
        exact ⟨a, by simpa using ha, hxa⟩
      · intro x xd b tk hs hx hp hsw i hi
        obtain ⟨a, ha, hl⟩ := htight hx hp hsw i hi
        exact ⟨a, by simpa using ha, hl⟩
    · rw [hsame] at hc
      exact .refl (fun ha => hc.live ha)
    · intro B
      have he' : ({ e with terminal := some m } : WorkingSetEntry) = e := by rw [← hsame]
      by_cases hB : B = ws
      · rw [if_pos hB, hB, he, he']
      · rw [if_neg hB]
  · obtain ⟨md, hmd⟩ := hm
    obtain ⟨t₁, hadd, hshape, hc₁⟩ := addAnchor_spec ht hmd hc
    have hr := hshape.rest_eq
    set t₂ : KvPageTable := t₁.setEntry ws { e with terminal := some m } with ht₂
    have hget : ∀ B, t₂.workingSets.get B =
        if B = ws then some { e with terminal := some m } else t.workingSets.get B := by
      intro B
      show (t₁.workingSets.set ws _).get B = _
      rw [hr.workingSets]
      exact GenMap.get_set he
    have ht₂' : Trie t₂ := (hshape.trie ht).of_nodes rfl
    have hc₂ : Counted t₂ (m :: (e.terminal.toList ++ R)) := hc₁.of_nodes rfl
    have hanch₂ : Anchored t₂ (m :: (e.terminal.toList ++ R)) := by
      intro x xd hx
      obtain ⟨xd₀, hx₀, _⟩ := hshape.of_get hx
      obtain ⟨a, ha, hxa⟩ := hanch hx₀
      refine ⟨a, ha, ?_⟩
      rw [show up t₂ a = up t₁ a from rfl, hshape.up_eq]
      exact hxa
    have htight₂ : Tight t₂ (m :: (e.terminal.toList ++ R)) := by
      intro x xd b tk hs hx hp hsw i hi
      obtain ⟨xd₀, hx₀, _, _, hp₀⟩ := hshape.of_get hx
      obtain ⟨a, ha, hl⟩ := htight hx₀ (by rw [hp₀]; exact hp)
        (by rw [← hr.inSwap]; exact hsw) i hi
      refine ⟨a, ha, ?_⟩
      rw [show locs t₂ a = locs t₁ a from rfl, hshape.locs_eq]
      exact hl
    have hf : Frame (· ∈ m :: (e.terminal.toList ++ R)) t t₂ := by
      refine (hshape.frame.of_nodes (s := t) rfl rfl (show t₂.nodes = _ from rfl) rfl).mono ?_
      intro a ha
      rcases mem_cons.mp ha with rfl | ha
      · exact ⟨md, hmd⟩
      · exact hc.live ha
    have hheld : (held t₂).Perm (held t) := hshape.held_perm
    have hrun : t.moveTerminal ws (some m) = e.terminal.elim (some (.ok [], t₂))
        (fun node => (t₂.removeAnchor node).bind (fun p => some (.ok p.1, p.2))) := by
      simp only [moveTerminal, entry_eq he, if_neg hsame, anchorTerminal, hadd, bind_eq_bind,
        bind_some]
      cases e.terminal <;> rfl
    cases hterm : e.terminal with
    | none =>
      rw [hterm] at hc₂ hanch₂ htight₂ hf
      exact ⟨[], t₂, by rw [hrun, hterm]; rfl, ⟨ht₂', hc₂, hanch₂, htight₂⟩, hf, by simpa using hheld.symm,
        hget, hr.cacheRoots, hr.pins, fun _ => rfl⟩
    | some n =>
      rw [hterm] at hc₂ hanch₂ htight₂ hf
      have hperm : (m :: ((some n).toList ++ R)).Perm (n :: m :: R) := Perm.swap n m R
      have hn₂ : Nodes (n :: m :: R) t₂ := Nodes.perm ⟨ht₂', hc₂, hanch₂, htight₂⟩ hperm
      obtain ⟨freed, t', hrem, hs⟩ := removeAnchor_spec hn₂.trie hn₂.counted hn₂.anchored hn₂.tight
      refine ⟨freed, t', ?_, hs.nodes, ?_, hheld.symm.trans hs.held, ?_, ?_, ?_, ?_⟩
      · rw [hrun, hterm]
        simp [hrem]
      · refine Frame.trans (hf.mono ?_) hs.frame
        intro a ha
        exact hperm.mem_iff.mpr (mem_cons_of_mem _ ha)
      · intro B
        rw [hs.rest.workingSets]
        exact hget B
      · exact hs.rest.cacheRoots.trans hr.cacheRoots
      · exact hs.rest.pins.trans hr.pins
      · intro hread
        refine hs.freed_nil hn₂.trie hn₂.counted hn₂.anchored hn₂.tight ?_
        rw [show locs t₂ = locs t₁ from rfl, hshape.locs_eq]
        exact hread

theorem moveTerminal_none_spec {R : List NodeId} (hn : Nodes (e.terminal.toList ++ R) t)
    (he : t.workingSets.get ws = some e) :
    ∃ freed t', t.moveTerminal ws none = some (.ok freed, t') ∧ Nodes R t'
      ∧ Frame (· ∈ R) t t' ∧ (held t).Perm (freed ++ held t')
      ∧ (∀ B, t'.workingSets.get B = if B = ws then some { e with terminal := none } else t.workingSets.get B)
      ∧ t'.cacheRoots = t.cacheRoots ∧ t'.pins = t.pins := by
  cases hterm : e.terminal with
  | none =>
    rw [hterm] at hn
    refine ⟨[], t, by simp [moveTerminal, entry_eq he, hterm], hn,
      .refl (fun ha => hn.counted.live ha), by simp, ?_, rfl, rfl⟩
    intro B
    have he' : ({ e with terminal := none } : WorkingSetEntry) = e := by rw [← hterm]
    by_cases hB : B = ws
    · rw [if_pos hB, hB, he, he']
    · rw [if_neg hB]
  | some n =>
    rw [hterm] at hn
    set t₁ : KvPageTable := t.setEntry ws { e with terminal := none } with ht₁
    have hn₁ : Nodes (n :: R) t₁ := hn.of_nodes rfl rfl
    obtain ⟨freed, t', hrem, hs⟩ := removeAnchor_spec hn₁.trie hn₁.counted hn₁.anchored hn₁.tight
    refine ⟨freed, t', ?_, hs.nodes, hs.frame.of_nodes rfl rfl rfl rfl, hs.held, ?_, hs.rest.cacheRoots, hs.rest.pins⟩
    · have hne : ¬ (some n = none) := by simp
      simp only [moveTerminal, entry_eq he, hterm, hne, if_false,
        anchorTerminal, bind_eq_bind, bind_some]
      have hrem' : (t.setEntry ws { e with terminal := none }).removeAnchor n = some (freed, t') := hrem
      simp [hrem']
    · intro B
      rw [hs.rest.workingSets]
      exact GenMap.get_set he

end Pie.Proof
