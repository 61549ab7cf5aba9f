import Pie.Proof.TableOps

/-!
# Writing to a mapping

Appending, replacing a tail and attaching to a path. Each leaves the pages below
the place it writes at as they were, for the working set that writes too.
-/

namespace Pie.Proof

open List Store Kv Lib Table KvPageTable

variable {pages : List PublishedPage} {from_ : Nat} {R : List NodeId}

variable {t t' : KvPageTable} {ws : WorkingSetId} {e : WorkingSetEntry}

/-- The backings of published pages. -/
def residents (pages : List PublishedPage) : List KvPageBacking :=
  pages.map (fun p => KvPageBacking.resident p.id)

/-- `locs` goes on after `old` with new locations, backed by `pages`. -/
def GoesOn (t t' : KvPageTable) (old new : List TriePageLocation) (pages : List PublishedPage) : Prop :=
  ∃ fresh, new = old ++ fresh ∧ fresh.map (backing t') = (residents pages).map some
    ∧ ∀ l ∈ old, backing t' l = backing t l

/-- What holds before the terminal moves to the node that has the new pages. -/
structure Appended (t : KvPageTable) (old : Option NodeId) (R : List NodeId)
    (pages : List PublishedPage) (m : NodeId) (t' : KvPageTable) : Prop where
  trie : Trie t'
  counted : Counted t' (old.toList ++ R)
  anchored : Anchored t' (m :: (old.toList ++ R))
  tight : Tight t' (m :: (old.toList ++ R))
  live : ∃ md, t'.nodes.get m = some md
  rest : SameRest t t'
  frame : Frame (· ∈ R) t t'
  goesOn : GoesOn t t' (termLocs t old) (locs t' m) pages
  reads : ∀ l ∈ termLocs t' old, l ∈ locs t' m
  held : (held t').Perm (residents pages ++ held t)

theorem insertOwned_appended {old : Option NodeId} (hn : Nodes (old.toList ++ R) t) (hne : pages ≠ []) :
    ∃ m t', t.insertOwned old (.owned (residents pages) (pages.map PublishedPage.tokenHashes)
        (pages.map PublishedPage.pageHash)) = some (m, t') ∧ Appended t old R pages m t' := by
  have hlive : ∀ p, old = some p → ∃ pd, t.nodes.get p = some pd := by
    rintro p rfl
    exact hn.counted.live (by simp)
  obtain ⟨m, t', hrun, hg⟩ := insertOwned_spec old hlive
  have hok : PagesOk t ⟨old, [], .owned (residents pages) (pages.map PublishedPage.tokenHashes)
      (pages.map PublishedPage.pageHash), 0, 0⟩ := by
    refine ⟨?_, by simp [residents], by simp [residents]⟩
    simpa [residents] using hne
  have hlocs := hg.locs_owned hn.trie hok rfl
  refine ⟨m, t', hrun, hg.trie hn.trie hok, hg.counted hn.trie hn.counted,
    hg.anchored hn.trie hn.counted.live hok hn.anchored, hg.tight hn.trie hn.counted.live hok hn.tight,
    ⟨_, hg.get_self⟩, hg.rest, ?_, ?_, ?_, hg.held⟩
  · refine (hg.frame hn.trie).mono ?_
    intro a ha
    exact hn.counted.live (mem_append_right _ ha)
  · refine ⟨_, hlocs, ?_, ?_⟩
    · refine ext_getElem (by simp) ?_
      intro i h1 h2
      have hi : i < (residents pages).length := by simpa using h2
      simp [backing, hg.get_self, hi]
    · intro l hl
      cases old with
      | none => simp [termLocs] at hl
      | some p =>
        obtain ⟨pd, hpd⟩ := hlive p rfl
        exact (hg.frame hn.trie).backing ⟨pd, hpd⟩ hl
  · intro l hl
    rw [hlocs]
    cases old with
    | none => simp [termLocs] at hl
    | some p =>
      obtain ⟨pd, hpd⟩ := hlive p rfl
      refine mem_append_left _ ?_
      rw [show termLocs t' (some p) = locs t' p from rfl, hg.locs_eq hn.trie hpd] at hl
      exact hl

/-- A node with pages put after its own. -/
def appendTo (nd : KvTrieNode) (b : List KvPageBacking) (tk : List (List (Option Hash256)))
    (h : List (Option Hash256)) (pages : List PublishedPage) : KvTrieNode :=
  { nd with
    pages := .owned (b ++ residents pages) (tk ++ pages.map PublishedPage.tokenHashes)
      (h ++ pages.map PublishedPage.pageHash) }

theorem extend_appended {m : NodeId} {nd : KvTrieNode} {b : List KvPageBacking} {tk : List (List (Option Hash256))}
    {hs : List (Option Hash256)} (hn : Nodes (m :: R) t) (hm : t.nodes.get m = some nd)
    (hp : nd.pages = .owned b tk hs) (hpath : nd.pathAnchors = 1) :
    Appended t (some m) R pages m (t.setNode m (appendTo nd b tk hs pages)) := by
  have hok := hn.trie.pages hm
  simp only [PagesOk, hp] at hok
  set t' := t.setNode m (appendTo nd b tk hs pages) with ht'
  have hr : Repaged t m b (b ++ residents pages) t' := by
    refine repaged_setNode hm hp (by simp [hok.1]) ?_ ?_
    · simp [residents, hok.2.1]
    · simp [residents, hok.2.2]
  -- no other anchor's path passes the node
  have hoff : ∀ a ∈ R, m ∉ up t a := by
    intro a ha hma
    have h1 := hn.counted.path hm
    rw [hpath, countP_cons, if_pos (by simpa using hn.trie.mem_up_self hm)] at h1
    have h2 : R.countP (fun a => decide (m ∈ up t a)) = 0 := by omega
    exact countP_eq_zero.mp h2 a ha (by simpa using hma)
  have hlive : ∀ {a}, a ∈ R → ∃ ad, t.nodes.get a = some ad :=
    fun ha => hn.counted.live (mem_cons_of_mem _ ha)
  have hlocs : ∀ {a}, a ∈ R → locs t' a = locs t a := by
    intro a ha
    obtain ⟨ad, had⟩ := hlive ha
    exact hr.locs_eq (hn.trie.grounded_pred had)
      (fun hm' => hoff a ha (hn.trie.pred_path_sub_up had hm'))
  have htrie := trie_extend hr hn.trie
  have hself := locs_extend hr hn.trie
  have hm' : ∃ md, t'.nodes.get m = some md := by
    obtain ⟨md', hmd', _⟩ := hr.live hm
    exact ⟨md', hmd'⟩
  have hdrop : ∀ a, a ∈ m :: ((some m).toList ++ R) ↔ a ∈ m :: R := by
    intro a
    simp
  refine ⟨htrie, hr.counted hn.counted, ?_, ?_, hm', hr.rest, ?_, ?_, fun l hl => hl, held_extend hr⟩
  · intro x xd hx
    obtain ⟨a, ha, hxa⟩ := hr.anchored hn.anchored hx
    exact ⟨a, (hdrop a).mpr ha, hxa⟩
  · intro x xd b' tk' hs' hx hp' hsw i hi
    by_cases hxm : x = m
    · subst hxm
      exact ⟨x, mem_cons_self, (htrie.mem_locs_iff hx hx hp' hi).mpr (.inl rfl)⟩
    · obtain ⟨xd₀, hx₀, _, _, _, _, hsame⟩ := hr.of_live hx
      obtain rfl := hsame hxm
      obtain ⟨a, ha, hl⟩ := hn.tight hx₀ hp' (by rw [← hr.rest.inSwap]; exact hsw) i hi
      refine ⟨a, (hdrop a).mpr ha, ?_⟩
      rcases mem_cons.mp ha with rfl | ha
      · rw [hself]
        exact mem_append_left _ hl
      · rw [hlocs ha]
        exact hl
  · constructor
    · exact hr.issued
    · exact fun _ hn' => hr.stale_of hn'
    · intro a ha
      obtain ⟨ad, had⟩ := hlive ha
      obtain ⟨ad', had', _⟩ := hr.live had
      exact ⟨ad', had'⟩
    · exact fun _ => hr.up_eq _
    · exact hlocs
    · intro a l ha hl
      obtain ⟨ad, had⟩ := hlive ha
      obtain ⟨p, hp'⟩ := hn.trie.backing_of_mem had hl
      rw [hp', backing_extend hr hp']
    · exact hr.rest.swap
    · intro l nd' p _ _ _ hp'
      exact backing_extend hr hp'
  · refine ⟨_, hself, ?_, ?_⟩
    · rw [map_map]
      refine ext_getElem (by simp) ?_
      intro i h1 h2
      have hi : i < (residents pages).length := by simpa using h2
      simp only [getElem_map, Function.comp, getElem_range', one_mul]
      rw [(hr.backing_self _).2, getElem?_append_right (by omega)]
      simp [hi]
    · intro l hl
      obtain ⟨p, hp'⟩ := hn.trie.backing_of_mem hm hl
      rw [hp', backing_extend hr hp']

/-- **Appending** the node that holds the new pages. -/
theorem extendOrInsert_spec (h : TableInv t) (he : t.workingSets.get ws = some e) (hne : pages ≠ []) :
    ∃ m t', t.extendOrInsert ws e.terminal pages = some (m, t')
      ∧ Appended t e.terminal (others t ws) pages m t' := by
  have hn := h.nodes_split he
  obtain ⟨m, t', hins, happ⟩ := insertOwned_appended hn hne
  cases hterm : e.terminal with
  | none =>
    rw [hterm] at hins happ
    exact ⟨m, t', by simpa [extendOrInsert, residents] using hins, happ⟩
  | some n =>
    obtain ⟨nd, hnd⟩ := h.live_term he hterm
    rw [hterm] at hins happ hn
    by_cases hcan : (nd.pages.isOwned = true ∧ nd.children = []) ∧ nd.exactAnchors = 1
        ∧ nd.pathAnchors = 1
    · obtain ⟨⟨hown, hch⟩, hex, hpa⟩ := hcan
      have hb : t.canExtendInPlace ws n = some true := by
        simp [canExtendInPlace, hnd, hown, hch, entry_eq he, hterm, hex, hpa]
      cases hp : nd.pages with
      | parentSelection _ => rw [hp] at hown; simp [Pages.isOwned] at hown
      | owned b tk hs =>
        refine ⟨n, _, ?_, extend_appended hn hnd hp hpa⟩
        simp only [extendOrInsert, hb, Option.bind_eq_bind, Option.bind_some, if_true, hnd, hp]
        rfl
    · have hb : t.canExtendInPlace ws n = some false := by
        by_cases hown : nd.pages.isOwned = true ∧ nd.children = []
        · have hcnt : ¬ (nd.exactAnchors = 1 ∧ nd.pathAnchors = 1) := fun hx => hcan ⟨hown, hx⟩
          simp [canExtendInPlace, hnd, hown.1, hown.2, entry_eq he, hterm]
          intro hx hy
          exact hcnt ⟨hx, hy⟩
        · have : (!nd.pages.isOwned || !nd.children.isEmpty) = true := by
            by_contra hc
            refine hown ?_
            simpa using hc
          simp only [canExtendInPlace, hnd, Option.bind_eq_bind, Option.bind_some, this, if_true]
      refine ⟨m, t', ?_, happ⟩
      simp only [extendOrInsert, hb, Option.bind_eq_bind, Option.bind_some, Bool.false_eq_true, if_false]
      exact hins

theorem publishAppended_error (h : t.workingSets.get ws = none) (pages : List PublishedPage) :
    t.publishAppended ws pages = some (.error .unknownWorkingSet, t) := by
  simp [publishAppended, entry_none h]

theorem publishAppended_full (he : t.workingSets.get ws = some e)
    (hfull : e.pageLen < e.mappedLen + pages.length) : t.publishAppended ws pages
      = some (.error (.publishExceedsReservation pages.length e.mappedLen e.pageLen), t) := by
  simp [publishAppended, entry_eq he, hfull]

/-- **Appending** to a working set within its reservation. -/
theorem publishAppended_spec (h : TableInv t) (he : t.workingSets.get ws = some e) (hfit : e.mappedLen + pages.length ≤ e.pageLen) :
    ∃ term t', t.publishAppended ws pages = some (.ok (), t')
      ∧ Changed t ws (some { e with terminal := term, mappedLen := e.mappedLen + pages.length }) t'
      ∧ GoesOn t t' (termLocs t e.terminal) (termLocs t' term) pages
      ∧ (held t').Perm (residents pages ++ held t) := by
  by_cases hne : pages = []
  · subst hne
    refine ⟨e.terminal, t, ?_, ?_, ⟨[], by simp, rfl, fun _ _ => rfl⟩, by simp [residents]⟩
    · simp only [publishAppended, entry_eq he, length_nil, add_zero,
        if_neg (not_lt.mpr (h.mapped he).2), if_true]
    · have hsame : ({ e with terminal := e.terminal, mappedLen := e.mappedLen + 0 } : WorkingSetEntry)
          = e := rfl
      simp only [length_nil]
      rw [hsame]
      refine ⟨h, ?_, rfl, rfl, .refl h.others_live⟩
      intro B
      by_cases hB : B = ws
      · rw [if_pos hB, hB, he]
      · rw [if_neg hB]
  · obtain ⟨m, t₁, hext, ha⟩ := extendOrInsert_spec h he hne
    have he₁ : t₁.workingSets.get ws = some e := by rw [ha.rest.workingSets]; exact he
    obtain ⟨freed, t₂, hmove, hn₂, hf₂, hheld₂, hw₂, hr₂, hp₂, hnil⟩ :=
      moveTerminal_spec ha.trie ha.counted ha.anchored ha.tight ha.live he₁
    obtain rfl : freed = [] := hnil (fun l hl => ⟨m, mem_cons_self, ha.reads l hl⟩)
    set e₂ : WorkingSetEntry := { e with terminal := some m } with he₂
    have hws₂ : t₂.workingSets.get ws = some e₂ := by rw [hw₂, if_pos rfl]
    set e₃ : WorkingSetEntry := { e with terminal := some m, mappedLen := e.mappedLen + pages.length }
      with he₃
    have hmem : m ∈ m :: others t ws := mem_cons_self
    have hl₂ : locs t₂ m = locs t₁ m := hf₂.locs hmem
    obtain ⟨fresh, hfresh, hback, hold⟩ := ha.goesOn
    have hnodes : Nodes (m :: others t ws) (t₂.setEntry ws e₃) := hn₂.of_nodes rfl rfl
    have hframe : Frame (· ∈ others t ws) t (t₂.setEntry ws e₃) := by
      refine (ha.frame.trans (hf₂.mono (fun hx => mem_cons_of_mem _ hx))).of_nodes rfl rfl rfl rfl
    have hpos : pages.length ≠ 0 := by
      intro h0
      exact hne (length_eq_zero_iff.mp h0)
    have hb₂ : ∀ l ∈ locs t₁ m, backing t₂ l = backing t₁ l := fun l hl => hf₂.backing hmem hl
    refine ⟨some m, t₂.setEntry ws e₃, ?_, ?_, ?_, ?_⟩
    · simp only [publishAppended, entry_eq he, if_neg (not_lt.mpr hfit), if_neg hpos,
        hext, Option.bind_eq_bind, Option.bind_some, hmove, ne_eq, not_true_eq_false, if_false,
        entry_eq hws₂]
      rfl
    · refine .mk' h hnodes hframe ?_ (hr₂.trans ha.rest.cacheRoots) (hp₂.trans ha.rest.pins) ?_
      · intro B
        show (t₂.workingSets.set ws e₃).get B = _
        rw [GenMap.get_set hws₂]
        by_cases hB : B = ws
        · rw [if_pos hB, if_pos hB]
        · rw [if_neg hB, if_neg hB, hw₂, if_neg hB, ha.rest.workingSets]
      · intro e' he'
        cases he'
        refine ⟨?_, hfit⟩
        show (locs t₂ m).length = _
        have hlen := congrArg length hback
        simp only [length_map, residents] at hlen
        rw [hl₂, hfresh, length_append, (h.mapped he).1, hlen]
    · refine ⟨fresh, by show locs t₂ m = _; rw [hl₂, hfresh], ?_, ?_⟩
      · rw [← hback]
        refine map_congr_left ?_
        intro l hl
        show backing t₂ l = _
        exact hb₂ l (by rw [hfresh]; exact mem_append_right _ hl)
      · intro l hl
        show backing t₂ l = _
        rw [hb₂ l (by rw [hfresh]; exact mem_append_left _ hl), hold l hl]
    · show (held t₂).Perm _
      refine Perm.trans ?_ ha.held
      simpa using hheld₂.symm

/-- What a working set reads once its mapping is cut at `from_`. -/
theorem cutTail_spec (h : TableInv t) (he : t.workingSets.get ws = some e) (hfrom : from_ < e.mappedLen) :
    ∃ segs term t₁, t.segments e.terminal e.mappedLen = some segs
      ∧ t.tailTerminal segs from_ = some (term, t₁)
      ∧ ∃ freed t₂, t₁.moveTerminal ws term = some (.ok freed, t₂)
        ∧ t₂.workingSets.get ws = some { e with terminal := term }
        ∧ Changed t ws (some { e with terminal := term, mappedLen := from_ })
            (t₂.setEntry ws { e with terminal := term, mappedLen := from_ })
        ∧ termLocs t₂ term = (termLocs t e.terminal).take from_
        ∧ (∀ l ∈ (termLocs t e.terminal).take from_, backing t₂ l = backing t l)
        ∧ (held t).Perm (freed ++ held t₂) := by
  obtain ⟨hmap, hle⟩ := h.mapped he
  have hn := h.nodes_split he
  have hsegs := h.nodes.trie.segments_eq (h.term_live he)
  rw [hmap] at hsegs
  by_cases h0 : from_ = 0
  · subst h0
    obtain ⟨freed, t₂, hmove, hn₂, hf₂, hheld, hw₂, hr₂, hp₂⟩ := moveTerminal_none_spec hn he
    have hws₂ : t₂.workingSets.get ws = some { e with terminal := none } := by rw [hw₂, if_pos rfl]
    refine ⟨_, none, t, hsegs, rfl, freed, t₂, hmove, hws₂, ?_, by simp [termLocs], by simp, hheld⟩
    refine .mk' h (hn₂.of_nodes rfl rfl) (hf₂.of_nodes rfl rfl rfl rfl) ?_ hr₂ hp₂ ?_
    · intro B
      show (t₂.workingSets.set ws _).get B = _
      rw [GenMap.get_set hws₂]
      by_cases hB : B = ws
      · rw [if_pos hB, if_pos hB]
      · rw [if_neg hB, if_neg hB, hw₂, if_neg hB]
    · intro e' he'
      cases he'
      exact ⟨rfl, Nat.zero_le _⟩
  · cases hterm : e.terminal with
    | none => rw [hterm] at hmap; simp [termLocs] at hmap; omega
    | some n =>
      obtain ⟨nd, hnd⟩ := h.live_term he hterm
      rw [hterm] at hmap hsegs hn
      obtain ⟨m, t₁, hbt, hb⟩ := boundaryTerminal_spec h.nodes.trie n nd hnd (b := from_) (by omega)
        (by rw [show (locs t n).length = e.mappedLen from hmap]; omega)
      have he₁ : t₁.workingSets.get ws = some e := by rw [hb.rest.workingSets]; exact he
      obtain ⟨freed, t₂, hmove, hn₂, hf₂, hheld, hw₂, hr₂, hp₂, _⟩ :=
        moveTerminal_spec (e := e) (R := others t ws) hb.trie
          (by rw [hterm]; exact hb.counted hn.counted)
          (by rw [hterm]; exact hb.anchored hn.counted hn.anchored)
          (by rw [hterm]; exact hb.tight hn.counted hn.tight) hb.live he₁
      have hws₂ : t₂.workingSets.get ws = some { e with terminal := some m } := by
        rw [hw₂, if_pos rfl]
      have hl₂ : locs t₂ m = (locs t n).take from_ := (hf₂.locs mem_cons_self).trans hb.locs
      refine ⟨_, some m, t₁, hsegs, ?_, freed, t₂, hmove, hws₂, ?_, hl₂, ?_, hb.held.symm.trans hheld⟩
      · simp only [tailTerminal, if_neg h0, termSegs, hbt, Option.map_some]
      · refine .mk' h (hn₂.of_nodes rfl rfl) ?_ ?_ (hr₂.trans hb.rest.cacheRoots)
          (hp₂.trans hb.rest.pins) ?_
        · refine @Frame.of_nodes _ t t₂ _ _ ?_ rfl rfl rfl rfl
          exact (hb.frame.mono (fun ha => h.live_others ha)).trans
            (hf₂.mono (fun ha => mem_cons_of_mem _ ha))
        · intro B
          show (t₂.workingSets.set ws _).get B = _
          rw [GenMap.get_set hws₂]
          by_cases hB : B = ws
          · rw [if_pos hB, if_pos hB]
          · rw [if_neg hB, if_neg hB, hw₂, if_neg hB, hb.rest.workingSets]
        · intro e' he'
          cases he'
          refine ⟨?_, by show from_ ≤ e.pageLen; omega⟩
          show (locs t₂ m).length = from_
          rw [hl₂, length_take, show (locs t n).length = e.mappedLen from hmap]
          omega
      · intro l hl
        rw [hf₂.backing mem_cons_self (by rw [hb.locs]; exact hl)]
        exact hb.frame.backing ⟨nd, hnd⟩ (mem_of_mem_take hl)

theorem replaceTail_error (h : t.workingSets.get ws = none) (from_ : Nat) (pages : List PublishedPage) :
    t.replaceTail ws from_ pages = some (.error .unknownWorkingSet, t) := by
  simp [replaceTail, entry_none h]

theorem replaceTail_bad (he : t.workingSets.get ws = some e)
    (hbad : e.mappedLen < from_) : t.replaceTail ws from_ pages
      = some (.error (.badRange from_ from_ e.mappedLen e.pageLen), t) := by
  simp [replaceTail, entry_eq he, hbad]

theorem replaceTail_full (he : t.workingSets.get ws = some e)
    (hfrom : from_ ≤ e.mappedLen) (hfull : e.pageLen < from_ + pages.length) :
    t.replaceTail ws from_ pages
      = some (.error (.publishExceedsReservation pages.length from_ e.pageLen), t) := by
  simp [replaceTail, entry_eq he, not_lt.mpr hfrom, hfull]

/-- **Replacing a tail** within the reservation. -/
theorem replaceTail_spec (h : TableInv t) (he : t.workingSets.get ws = some e) (hfrom : from_ ≤ e.mappedLen)
    (hfit : from_ + pages.length ≤ e.pageLen) :
    ∃ freed term t', t.replaceTail ws from_ pages = some (.ok freed, t')
      ∧ Changed t ws (some { e with terminal := term, mappedLen := from_ + pages.length }) t'
      ∧ GoesOn t t' ((termLocs t e.terminal).take from_) (termLocs t' term) pages
      ∧ (residents pages ++ held t).Perm (freed ++ held t') := by
  by_cases hlt : from_ < e.mappedLen
  · obtain ⟨segs, term, t₁, hsegs, hterm, freed, t₂, hmove, hws₂, hch, hl₂, hb₂, hheld⟩ :=
      cutTail_spec h he hlt
    set e₃ : WorkingSetEntry := { e with terminal := term, mappedLen := from_ } with he₃
    set t₃ := t₂.setEntry ws e₃ with ht₃
    have hws₃ : t₃.workingSets.get ws = some e₃ := by rw [hch.entry, if_pos rfl]
    obtain ⟨term', t', hpub, hch', hgo, hheld'⟩ := publishAppended_spec hch.inv hws₃
      (by exact hfit)
    refine ⟨freed, term', t', ?_, ?_, ?_, ?_⟩
    · simp only [replaceTail, entry_eq he, if_neg (not_lt.mpr hfrom),
        if_neg (not_lt.mpr hfit), if_pos hlt, hsegs, hterm, Option.bind_eq_bind, Option.bind_some,
        hmove, entry_eq hws₂]
      have hpub' : (t₂.setEntry ws { e with terminal := term, mappedLen := from_ }).publishAppended ws
          pages = some (.ok (), t') := hpub
      simp only [hpub', Option.bind_some]
    · have hoth : ∀ {a}, a ∈ others t ws → a ∈ others t₃ ws := by
        intro a ha
        refine (others_perm ?_ ?_ ?_).mem_iff.mpr ha
        · intro B hB
          rw [hch.entry, if_neg hB]
        · rw [hch.roots]
        · rw [hch.pins]
      refine ⟨hch'.inv, ?_, hch'.roots.trans hch.roots, hch'.pins.trans hch.pins,
        hch.frame.trans (hch'.frame.mono hoth)⟩
      intro B
      rw [hch'.entry]
      by_cases hB : B = ws
      · rw [if_pos hB, if_pos hB]
      · rw [if_neg hB, if_neg hB, hch.entry, if_neg hB]
    · obtain ⟨fresh, hfresh, hback, hold⟩ := hgo
      have hl₃ : termLocs t₃ e₃.terminal = (termLocs t e.terminal).take from_ := by
        rw [← hl₂]
        exact congrFun (termLocs_of_nodes (t := t₂) rfl) term
      refine ⟨fresh, by rw [hfresh, hl₃], hback, ?_⟩
      intro l hl
      rw [hold l (by rw [hl₃]; exact hl)]
      exact hb₂ l hl
    · have h3 : held t₃ = held t₂ := rfl
      rw [← Multiset.coe_eq_coe] at hheld hheld' ⊢
      simp only [← Multiset.coe_add] at hheld hheld' ⊢
      rw [hheld', hheld, h3]
      abel
  · obtain rfl : from_ = e.mappedLen := by omega
    obtain ⟨term', t', hpub, hch', hgo, hheld'⟩ := publishAppended_spec h he hfit
    refine ⟨[], term', t', ?_, hch', ?_, by simpa using hheld'.symm⟩
    · simp only [replaceTail, entry_eq he, if_neg (lt_irrefl _),
        if_neg (not_lt.mpr hfit), hpub, Option.bind_eq_bind, Option.bind_some]
    · rw [take_of_length_le (by rw [(h.mapped he).1])]
      exact hgo

end Pie.Proof
