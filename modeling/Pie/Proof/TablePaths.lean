import Pie.Proof.TableHolds

/-!
# Attaching, keeping and importing

The operations that end a mapping at a page of a path: a working set is attached
to one, a cache entry keeps the first pages of one, and an import grafts pages
after one. Each makes the boundary first and anchors it then.
-/

namespace Pie.Proof

open List Option Store Kv Lib Table KvPageTable

variable {slot pages : Nat} {l : TriePageLocation}

variable {t t' : KvPageTable} {ws : WorkingSetId} {e : WorkingSetEntry} {n : NodeId} {nd : KvTrieNode}

theorem mapM_take {α β : Type} {f : α → Option β} : ∀ {l : List α} {r : List β},
    l.mapM f = some r → ∀ k, (l.take k).mapM f = some (r.take k)
  | [], r, h, k => by
    obtain rfl : r = [] := by simpa using h.symm
    simp
  | a :: l, r, h, 0 => by simp
  | a :: l, r, h, k + 1 => by
    rw [mapM_cons] at h
    simp only [bind_eq_bind, bind_eq_some_iff] at h
    obtain ⟨b, hb, r', hr', hr⟩ := h
    cases hr
    rw [take_succ_cons, mapM_cons, hb]
    simp [mapM_take hr' k]

/-- The pages of the path to `n` up to its page `slot`. -/
noncomputable def Table.stopAt (t : KvPageTable) (n : NodeId) (slot : Nat) : Nat :=
  slot + 1 + (termLocs t (pred t n)).length

theorem stopAt_le (ht : Trie t) (hn : t.nodes.get n = some nd)
    (hslot : slot < (own t n).length) : stopAt t n slot ≤ (locs t n).length := by
  rw [ht.locs_eq hn, length_append, stopAt]
  omega

theorem pathSegments_eq (ht : Trie t) (hn : t.nodes.get n = some nd) (hslot : slot < (own t n).length) :
    t.pathSegments n slot = some (stopAt t n slot, segs t n) := by
  have hlen : stopAt t n slot + ((own t n).length - (slot + 1)) = (locs t n).length := by
    rw [ht.locs_eq hn, length_append, stopAt]
    omega
  have hsegs := ht.segments_eq (fun m hm => by
    obtain rfl := some.inj hm
    exact ⟨nd, hn⟩)
  simp only [pathSegments, ht.pathPrefixLen_eq hn slot, ht.contributionLen_eq hn,
    bind_eq_bind, bind_some, if_neg (not_lt.mpr (Nat.succ_le_of_lt hslot))]
  rw [show slot + 1 + (termLocs t (pred t n)).length = stopAt t n slot from rfl, hlen]
  rw [show (locs t n).length = (termLocs t (some n)).length from rfl, hsegs]
  rfl

theorem holdsPrefixOf_eq (h : TableInv t) (he : t.workingSets.get ws = some e)
    (hn : t.nodes.get n = some nd) : t.holdsPrefixOf ws e.mappedLen (segs t n)
      = some (decide (termLocs t e.terminal = (locs t n).take e.mappedLen)) := by
  unfold holdsPrefixOf
  by_cases h0 : e.mappedLen = 0
  · have hnil : termLocs t e.terminal = [] :=
      length_eq_zero_iff.mp ((h.mapped he).1.trans h0)
    simp [h0, hnil]
  · rw [if_neg h0, h.workingSetLocations_eq he]
    simp only [bind_eq_bind, bind_some, mapM_take (h.nodes.trie.resolve_segs n nd hn) e.mappedLen]

theorem attach_dead (ht : Trie t) (hn : t.nodes.get n = some nd)
    (hslot : slot < (own t n).length) (he : t.workingSets.get ws = none) :
    t.attach ws n slot = some (.error .unknownWorkingSet, t) := by
  simp [KvPageTable.attach, pathSegments_eq ht hn hslot, entry_none he]

theorem attach_refused (h : TableInv t) (hn : t.nodes.get n = some nd)
    (hslot : slot < (own t n).length) (he : t.workingSets.get ws = some e)
    (hno : ¬ (e.mappedLen < stopAt t n slot ∧ termLocs t e.terminal = (locs t n).take e.mappedLen)) :
    t.attach ws n slot = some (.error (.badRange e.mappedLen (stopAt t n slot) e.mappedLen e.pageLen), t) := by
  simp only [KvPageTable.attach, pathSegments_eq h.nodes.trie hn hslot, bind_eq_bind,
    bind_some, entry_eq he]
  by_cases hlt : stopAt t n slot ≤ e.mappedLen
  · rw [if_pos hlt]
  · rw [if_neg hlt, holdsPrefixOf_eq h he hn]
    have hfalse : ¬ termLocs t e.terminal = (locs t n).take e.mappedLen :=
      fun hp => hno ⟨by omega, hp⟩
    simp [hfalse]

/-- **Attaching** a working set whose pages are the first of the path: it reads the path up to
the page, and gives nothing back. -/
theorem attach_spec (h : TableInv t) (hn : t.nodes.get n = some nd)
    (hslot : slot < (own t n).length) (he : t.workingSets.get ws = some e)
    (hlt : e.mappedLen < stopAt t n slot)
    (hpre : termLocs t e.terminal = (locs t n).take e.mappedLen) :
    ∃ term t', t.attach ws n slot = some (.ok (stopAt t n slot), t')
      ∧ Changed t ws (some { e with
          terminal := some term
          pageLen := max e.pageLen (stopAt t n slot)
          mappedLen := stopAt t n slot }) t'
      ∧ locs t' term = (locs t n).take (stopAt t n slot)
      ∧ (∀ l ∈ (locs t n).take (stopAt t n slot), backing t' l = backing t l)
      ∧ (held t').Perm (held t) := by
  have hle := stopAt_le h.nodes.trie hn hslot
  obtain ⟨m, t₁, hbt, hb⟩ := boundaryTerminal_spec h.nodes.trie n nd hn (b := stopAt t n slot)
    (by omega) hle
  have hsplit := h.nodes_split he
  have he₁ : t₁.workingSets.get ws = some e := by rw [hb.rest.workingSets]; exact he
  obtain ⟨freed, t₂, hmove, hn₂, hf₂, hheld, hw₂, hr₂, hp₂, hnil⟩ :=
    moveTerminal_spec (e := e) (R := others t ws) hb.trie (hb.counted hsplit.counted)
      (hb.anchored hsplit.counted hsplit.anchored) (hb.tight hsplit.counted hsplit.tight) hb.live he₁
  have hold : termLocs t₁ e.terminal = termLocs t e.terminal := by
    cases hterm : e.terminal with
    | none => rfl
    | some a => exact hb.frame.locs (h.live_term he hterm)
  obtain rfl : freed = [] := hnil (by
    intro l hl
    refine ⟨m, mem_cons_self, ?_⟩
    rw [hold, hpre] at hl
    rw [hb.locs]
    exact (take_subset_take_left _ hlt.le) hl)
  have hws₂ : t₂.workingSets.get ws = some { e with terminal := some m } := by rw [hw₂, if_pos rfl]
  have hl₂ : locs t₂ m = (locs t n).take (stopAt t n slot) :=
    (hf₂.locs mem_cons_self).trans hb.locs
  set e₃ : WorkingSetEntry := { e with
    terminal := some m
    pageLen := max e.pageLen (stopAt t n slot)
    mappedLen := stopAt t n slot } with he₃
  refine ⟨m, t₂.setEntry ws e₃, ?_, ?_, hl₂, ?_, ?_⟩
  · simp only [KvPageTable.attach, pathSegments_eq h.nodes.trie hn hslot, bind_eq_bind,
      bind_some, entry_eq he, if_neg (not_le.mpr hlt), holdsPrefixOf_eq h he hn,
      decide_eq_true hpre, if_true, hbt, hmove, ne_eq, not_true_eq_false, if_false, entry_eq hws₂]
    rfl
  · refine .mk' h (hn₂.of_nodes rfl rfl) ?_ ?_ (hr₂.trans hb.rest.cacheRoots)
      (hp₂.trans hb.rest.pins) ?_
    · refine @Frame.of_nodes _ t t₂ _ _ ?_ rfl rfl rfl rfl
      exact (hb.frame.mono (fun ha => h.live_others ha)).trans
        (hf₂.mono (fun ha => mem_cons_of_mem _ ha))
    · intro B
      show (t₂.workingSets.set ws e₃).get B = _
      rw [GenMap.get_set hws₂]
      by_cases hB : B = ws
      · rw [if_pos hB, if_pos hB]
      · rw [if_neg hB, if_neg hB, hw₂, if_neg hB, hb.rest.workingSets]
    · intro e' he'
      cases he'
      refine ⟨?_, le_max_right _ _⟩
      show (locs t₂ m).length = stopAt t n slot
      rw [hl₂, length_take]
      omega
  · intro l hl
    show backing t₂ l = _
    rw [hf₂.backing mem_cons_self (by rw [hb.locs]; exact hl)]
    exact hb.frame.backing ⟨nd, hn⟩ (mem_of_mem_take hl)
  · show (held t₂).Perm _
    refine Perm.trans ?_ hb.held
    simpa using hheld.symm

theorem keepPrefix_dead (he : t.workingSets.get ws = none) (pages : Nat) :
    t.keepPrefix ws pages = some (.error .unknownWorkingSet, t) := by
  simp [keepPrefix, entry_none he]

/-- The first pages of a working set, at a boundary of their own. -/
theorem keepPrefix_spec (h : TableInv t) (he : t.workingSets.get ws = some e)
    (h0 : 0 < pages) (hle : pages ≤ e.mappedLen) :
    ∃ m t', t.keepPrefix ws pages = some (.ok ⟨m, pages⟩, t')
      ∧ Bounded t ((termLocs t e.terminal).take pages) m t' := by
  cases hterm : e.terminal with
  | none =>
    have := (h.mapped he).1
    rw [hterm] at this
    simp only [termLocs, length_nil] at this
    omega
  | some n =>
    obtain ⟨nd, hnd⟩ := h.live_term he hterm
    have hlen : (locs t n).length = e.mappedLen := by
      have := (h.mapped he).1
      rw [hterm] at this
      exact this
    obtain ⟨m, t', hbt, hb⟩ := boundaryTerminal_spec h.nodes.trie n nd hnd h0 (by omega)
    refine ⟨m, t', ?_, hb⟩
    simp only [keepPrefix, entry_eq he, h.segments_eq he]
    rw [hterm]
    simp [termSegs, hbt]

/-- The first pages of a path that is kept already. -/
theorem keepPrefixOf_spec (h : TableInv t) (hn : t.nodes.get n = some nd)
    (h0 : 0 < pages) (hle : pages ≤ (locs t n).length) :
    ∃ m t', t.keepPrefixOf ⟨n, (locs t n).length⟩ pages = some (⟨m, pages⟩, t')
      ∧ Bounded t ((locs t n).take pages) m t' := by
  obtain ⟨m, t', hbt, hb⟩ := boundaryTerminal_spec h.nodes.trie n nd hn h0 hle
  refine ⟨m, t', ?_, hb⟩
  have hsegs := h.nodes.trie.segments_eq (fun m hm => by
    obtain rfl := some.inj hm
    exact ⟨nd, hn⟩)
  have hsegs' : t.segments (some n) (locs t n).length = some (segs t n) := hsegs
  simp [keepPrefixOf, hsegs', hbt]

/-! ## Importing -/

theorem owned_of_backing {p : KvPageBacking} (h : backing t l = some p) :
    ∃ nd b tk hs, t.nodes.get l.node = some nd ∧ nd.pages = .owned b tk hs
      ∧ b[l.slot]? = some p := by
  unfold backing at h
  cases hn : t.nodes.get l.node with
  | none => simp [hn] at h
  | some nd =>
    cases hp : nd.pages with
    | parentSelection runs => simp [hn, hp] at h
    | owned b tk hs =>
      simp only [hn, hp] at h
      exact ⟨nd, b, tk, hs, rfl, hp, h⟩

/-- The pages an import goes on from. -/
noncomputable def Table.afterLocs (t : KvPageTable) : Option TriePageLocation → List TriePageLocation
  | none => []
  | some l => (locs t l.node).take (stopAt t l.node l.slot)

/-- What an import leaves: a node `m` that nothing anchors yet reads `after` and then its own
pages. -/
structure Imported (t : KvPageTable) (after : Option TriePageLocation) (backings : List KvPageBacking)
    (m : NodeId) (t' : KvPageTable) : Prop where
  awaiting : Awaiting m t'
  rest : SameRest t t'
  frame : Frame (fun a => ∃ ad, t.nodes.get a = some ad) t t'
  locs : Table.locs t' m = afterLocs t after ++ (List.range backings.length).map (fun i => ⟨m, i⟩)
  held : (held t').Perm (backings ++ Table.held t)

/-- A node below a boundary anchors what the boundary did. -/
theorem Awaiting.of_bounded {m m' : NodeId} {want : List TriePageLocation} {t₁ : KvPageTable}
    (h : TableInv t) (hb : Bounded t want m t₁) {new : KvTrieNode} (hg : Grown t₁ m' new t')
    (hok : PagesOk t₁ new) (hp : new.parent = some m) (hown : new.pages.isOwned = true) :
    Awaiting m' t' := by
  have hlive₁ : ∀ {a}, a ∈ m :: anchors t → ∃ ad, t₁.nodes.get a = some ad := by
    intro a ha
    rcases mem_cons.mp ha with rfl | ha
    · exact hb.live
    · exact hb.frame.live (h.nodes.counted.live ha)
  have ht' := hg.trie hb.trie hok
  have hpar : par t' m' = some m := by rw [hg.par_self]; exact hp
  obtain ⟨md', hmd'⟩ := ht'.live_parent hpar
  have hup : up t' m' = m' :: up t' m := path_step hpar (ht'.grounded hmd')
  have hlocs : locs t' m' = locs t' m ++ own t' m' := by
    rw [ht'.locs_eq hg.get_self]
    obtain ⟨b, tk, hs, hpages⟩ : ∃ b tk hs, new.pages = .owned b tk hs := by
      cases hpg : new.pages with
      | owned b tk hs => exact ⟨b, tk, hs, rfl⟩
      | parentSelection runs => rw [hpg] at hown; simp [Pages.isOwned] at hown
    rw [pred_owned hg.get_self hpages, hp]
    rfl
  refine h.awaiting_of (hb.rest.trans hg.rest)
    (hb.frame.trans ((hg.frame hb.trie).mono (fun ha => hb.frame.live ha))) ht'
    (hg.counted hb.trie (hb.counted h.nodes.counted)) ?_ ?_ ⟨_, hg.get_self⟩
  · intro x xd hx
    obtain ⟨a, ha, hxa⟩ := hg.anchored hb.trie hlive₁ hok
      (hb.anchored h.nodes.counted h.nodes.anchored) hx
    rcases mem_cons.mp ha with rfl | ha
    · exact ⟨a, mem_cons_self, hxa⟩
    · rcases mem_cons.mp ha with rfl | ha
      · exact ⟨m', mem_cons_self, by rw [hup]; exact mem_cons_of_mem _ hxa⟩
      · exact ⟨a, mem_cons_of_mem _ ha, hxa⟩
  · intro x xd b tk hs hx hpg hsw i hi
    obtain ⟨a, ha, hl⟩ := hg.tight hb.trie hlive₁ hok (hb.tight h.nodes.counted h.nodes.tight) hx hpg
      hsw i hi
    rcases mem_cons.mp ha with rfl | ha
    · exact ⟨a, mem_cons_self, hl⟩
    · rcases mem_cons.mp ha with rfl | ha
      · exact ⟨m', mem_cons_self, by rw [hlocs]; exact mem_append_left _ hl⟩
      · exact ⟨a, mem_cons_of_mem _ ha, hl⟩

/-- Where the pages an import goes on from end. -/
theorem graft_spec (ht : Trie t) {b : List KvPageBacking}
    {tk : List (List (Option Hash256))} {hs : List (Option Hash256)} (hn : t.nodes.get l.node = some nd)
    (hp : nd.pages = .owned b tk hs) (hslot : l.slot < b.length) :
    ∃ m t₁, t.graftAfter (some l) = some (some m, t₁) ∧ Bounded t (afterLocs t (some l)) m t₁ := by
  have hown : own t l.node = (range b.length).map (fun i => ⟨l.node, i⟩) := own_owned hn hp
  have hlen : (own t l.node).length = b.length := by simp [hown]
  have hsplit := ht.locs_eq hn
  have hafter : afterLocs t (some l) =
      termLocs t (pred t l.node) ++ (own t l.node).take (l.slot + 1) := by
    rw [afterLocs, hsplit, stopAt, take_append, take_of_length_le (by omega)]
    congr 2
    omega
  by_cases hlast : l.slot + 1 = b.length
  · refine ⟨l.node, t, by simp [graftAfter, hn, hp, hlast], ?_⟩
    rw [hafter, take_of_length_le (by omega), ← hsplit]
    exact .here ht hn
  · obtain ⟨m, t₁, hmk, hb⟩ := makePrefixSelection_spec ht hn (l.slot + 1) (by omega) (by omega)
    refine ⟨m, t₁, by simp [graftAfter, hn, hp, hlast, hmk], ?_⟩
    rw [hafter]
    exact hb

/-- **Importing** sealed pages after a page of the table. -/
theorem insertCached_spec (h : TableInv t) {after : Option TriePageLocation}
    (hafter : ∀ l, after = some l → ∃ p, backing t l = some p) {backings : List KvPageBacking}
    {tokens : List (List (Option Hash256))} {keys : List Hash256} (hne : backings ≠ [])
    (htk : tokens.length = backings.length) (hk : keys.length = backings.length) :
    ∃ m t', t.insertCached after backings tokens keys = some (m, t')
      ∧ Imported t after backings m t' := by
  have hindex : ∀ {m : NodeId} {t₂ : KvPageTable}, Imported t after backings m t₂ →
      Imported t after backings m (t₂.indexHead keys m) := by
    intro m t₂ hi
    have hq : Quiet t₂ (t₂.indexHead keys m) := by
      unfold indexHead
      split
      · exact indexNodeStart_quiet t₂ _ m
      · exact .refl t₂
    exact ⟨hi.awaiting.quiet hq, hi.rest.trans hq.rest,
      hi.frame.trans (hq.frame.mono (fun ha => hi.frame.live ha)), by rw [hq.locs]; exact hi.locs,
      hq.held.trans hi.held⟩
  have hok : ∀ t₁ : KvPageTable, ∀ p, PagesOk t₁ ⟨p, [], .owned backings tokens (keys.map some), 0, 0⟩ :=
    fun _ _ => ⟨hne, htk, by rw [length_map]; exact hk⟩
  cases hcase : after with
  | none =>
    obtain ⟨m, t₂, hins, hg⟩ := insertOwned_spec (t := t) none (by simp)
    have himp : Imported t after backings m t₂ := by
      refine ⟨hg.awaiting h (hok t none), hg.rest, hg.frame h.nodes.trie, ?_, ?_⟩
      · rw [hg.locs_owned h.nodes.trie (hok t none) rfl, hcase]
        rfl
      · exact hg.held
    refine ⟨m, _, ?_, by rw [← hcase]; exact hindex himp⟩
    simp [insertCached, graftAfter, hins]
  | some l =>
    obtain ⟨p, hp⟩ := hafter l hcase
    obtain ⟨nd, b, tk, hs, hn, hpg, hbi⟩ := owned_of_backing hp
    have hslot := (List.getElem?_eq_some_iff.mp hbi).1
    obtain ⟨m₀, t₁, hgraft, hb⟩ := graft_spec h.nodes.trie hn hpg hslot
    obtain ⟨m, t₂, hins, hg⟩ := insertOwned_spec (t := t₁) (some m₀) (fun q hq => by
        cases hq
        exact hb.live)
    have himp : Imported t after backings m t₂ := by
      refine ⟨.of_bounded h hb hg (hok t₁ _) rfl rfl, hb.rest.trans hg.rest,
        hb.frame.trans ((hg.frame hb.trie).mono (fun ha => hb.frame.live ha)), ?_, ?_⟩
      · rw [hg.locs_owned hb.trie (hok t₁ _) rfl, hcase, ← hb.locs]
        rfl
      · refine hg.held.trans ?_
        exact hb.held.append_left _
    refine ⟨m, _, ?_, by rw [← hcase]; exact hindex himp⟩
    simp [insertCached, hgraft, hins]

end Pie.Proof
