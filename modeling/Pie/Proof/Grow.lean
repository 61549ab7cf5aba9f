import Pie.Proof.Segments
import Pie.Proof.Repage

/-!
# New nodes, and where a mapping is cut

A new node is a leaf that nothing anchors yet, so no mapping there was passes it.
`boundary_terminal` finds the node a prefix of a mapping ends at, or makes a
selection that ends it: the path to either is that prefix.
-/

namespace Pie.Proof

open List Option Store Kv Lib Table GenMap KvPageTable

variable {runs : Runs} {l : TriePageLocation} {od : KvTrieNode}

variable {t t' : KvPageTable} {m n x : NodeId} {nd : KvTrieNode} {A : List NodeId}

/-- `t'` is `t` with the new leaf `m`. -/
structure Grown (t : KvPageTable) (m : NodeId) (new : KvTrieNode) (t' : KvPageTable) : Prop where
  rest : SameRest t t'
  unissued : ¬ t.nodes.Issued m
  get_self : t'.nodes.get m = some new
  get_ne : ∀ n, n ≠ m → t'.nodes.get n = (t.nodes.get n).map (fun nd =>
    if new.parent = some n then { nd with children := nd.children ++ [m] } else nd)
  issued : ∀ {n}, t.nodes.Issued n → t'.nodes.Issued n
  parent : ∀ {p}, new.parent = some p → ∃ pd, t.nodes.get p = some pd
  leaf : new.children = [] ∧ new.exactAnchors = 0 ∧ new.pathAnchors = 0
  held : (held t').Perm (ownedBackings new ++ held t)

theorem grown_root {new : KvTrieNode} (hp : new.parent = none)
    (hleaf : new.children = [] ∧ new.exactAnchors = 0 ∧ new.pathAnchors = 0) :
    Grown t (t.nodes.insert new).1 new { t with nodes := (t.nodes.insert new).2 } := by
  refine ⟨⟨rfl, rfl, rfl, rfl⟩, not_issued_insert _ _, get_insert_self _ _, ?_,
    fun h => issued_insert h, ?_, hleaf, held_insert t new⟩
  · intro n hn
    show (t.nodes.insert new).2.get n = _
    rw [get_insert_of_ne hn]
    simp [hp]
  · intro p hp'
    rw [hp] at hp'
    simp at hp'

theorem grown_child (new : KvTrieNode) {p : NodeId} {pd : KvTrieNode} (hp : new.parent = some p)
    (hpd : t.nodes.get p = some pd)
    (hleaf : new.children = [] ∧ new.exactAnchors = 0 ∧ new.pathAnchors = 0) :
    (t.nodes.insert new).2.get p = some pd ∧
    Grown t (t.nodes.insert new).1 new
      { t with nodes := ((t.nodes.insert new).2.set p
        { pd with children := pd.children ++ [(t.nodes.insert new).1] }) } := by
  set m := (t.nodes.insert new).1 with hm
  have hpm : p ≠ m := ne_insert_of_get hpd
  have hpd' : (t.nodes.insert new).2.get p = some pd := by
    rw [get_insert_of_ne hpm]; exact hpd
  refine ⟨hpd', ⟨rfl, rfl, rfl, rfl⟩, not_issued_insert _ _, ?_, ?_,
    fun h => issued_set (issued_insert h), ?_, hleaf, ?_⟩
  · show ((t.nodes.insert new).2.set p _).get m = _
    rw [get_set hpd', if_neg (Ne.symm hpm)]
    exact get_insert_self _ _
  · intro n hn
    show ((t.nodes.insert new).2.set p _).get n = _
    rw [get_set hpd', get_insert_of_ne hn, hp]
    by_cases hnp : n = p
    · subst hnp; simp [hpd]
    · simp [hnp, Ne.symm hnp]
  · intro q hq
    rw [hp] at hq
    cases hq
    exact ⟨pd, hpd⟩
  · exact (held_setNode_same (t := { t with nodes := (t.nodes.insert new).2 })
      { pd with children := pd.children ++ [m] } hpd' rfl).trans (held_insert t new)

theorem insertOwned_spec (parent : Option NodeId) {pages : Pages}
    (hp : ∀ p, parent = some p → ∃ pd, t.nodes.get p = some pd) :
    ∃ m t', t.insertOwned parent pages = some (m, t')
      ∧ Grown t m ⟨parent, [], pages, 0, 0⟩ t' := by
  cases parent with
  | none => exact ⟨_, _, rfl, grown_root rfl ⟨rfl, rfl, rfl⟩⟩
  | some p =>
    obtain ⟨pd, hpd⟩ := hp p rfl
    obtain ⟨hpd', hg⟩ := grown_child ⟨some p, [], pages, 0, 0⟩ rfl hpd ⟨rfl, rfl, rfl⟩
    refine ⟨_, _, ?_, hg⟩
    simp only [insertOwned, hpd', bind_eq_bind, bind_some]

theorem insertSelection_spec {owner : NodeId} (ho : t.nodes.get owner = some od) (hown : od.pages.isOwned = true) :
    ∃ m t', t.insertSelection owner runs = some (m, t')
      ∧ Grown t m ⟨some owner, [], .parentSelection runs, 0, 0⟩ t' := by
  obtain ⟨ho', hg⟩ := grown_child ⟨some owner, [], .parentSelection runs, 0, 0⟩ rfl ho
    ⟨rfl, rfl, rfl⟩
  refine ⟨_, _, ?_, hg⟩
  simp only [insertSelection, ho', bind_eq_bind, bind_some, hown, if_true]

namespace Grown

variable {new : KvTrieNode} (h : Grown t m new t')

include h

theorem fresh : t.nodes.get m = none := by
  cases hm : t.nodes.get m with
  | none => rfl
  | some md => exact absurd (issued_of_get hm) h.unissued

theorem ne_of_live (hn : t.nodes.get n = some nd) : n ≠ m := by
  rintro rfl
  rw [h.fresh] at hn
  simp at hn

theorem live (hn : t.nodes.get n = some nd) : ∃ nd', t'.nodes.get n = some nd'
    ∧ nd'.parent = nd.parent ∧ nd'.pages = nd.pages ∧ nd'.exactAnchors = nd.exactAnchors
    ∧ nd'.pathAnchors = nd.pathAnchors
    ∧ nd'.children = if new.parent = some n then nd.children ++ [m] else nd.children := by
  rw [h.get_ne n (h.ne_of_live hn), hn]
  refine ⟨_, rfl, ?_⟩
  split <;> exact ⟨rfl, rfl, rfl, rfl, rfl⟩

theorem of_live {nd' : KvTrieNode} (hn' : t'.nodes.get n = some nd') (hne : n ≠ m) :
    ∃ nd, t.nodes.get n = some nd ∧ nd'.parent = nd.parent ∧ nd'.pages = nd.pages
      ∧ nd'.exactAnchors = nd.exactAnchors ∧ nd'.pathAnchors = nd.pathAnchors
      ∧ nd'.children = if new.parent = some n then nd.children ++ [m] else nd.children := by
  cases hn : t.nodes.get n with
  | none => rw [h.get_ne n hne, hn] at hn'; simp at hn'
  | some nd =>
    obtain ⟨nd'', hn'', hrest⟩ := h.live hn
    cases hn'.symm.trans hn''
    exact ⟨nd, rfl, hrest⟩

theorem geomAt_eq (hne : n ≠ m) : geomAt t' n = geomAt t n := by
  unfold geomAt
  rw [h.get_ne n hne, Option.map_map]
  congr 1
  funext nd
  simp only [Function.comp]
  split <;> rfl

section

variable (ht : Trie t) (hn : t.nodes.get n = some nd)
include ht hn

theorem geomAt_up : ∀ y ∈ up t n, geomAt t' y = geomAt t y := by
  intro y hy
  obtain ⟨yd, hyd⟩ := ht.live_path hn hy
  exact h.geomAt_eq (h.ne_of_live hyd)

theorem up_eq : up t' n = up t n :=
  up_congr ht hn (h.geomAt_up ht hn)

theorem locs_eq : locs t' n = locs t n :=
  locs_congr ht hn (h.geomAt_up ht hn)

end

theorem backing_eq (hne : l.node ≠ m) : backing t' l = backing t l := by
  unfold backing
  rw [h.get_ne _ hne]
  cases t.nodes.get l.node with
  | none => rfl
  | some nd => by_cases hp : new.parent = some l.node <;> simp [hp]

theorem par_self : par t' m = new.parent := by simp [par, h.get_self]

section

variable (ht : Trie t)
include ht

theorem grounded_self : Grounded (par t') m := by
  cases hp : new.parent with
  | none => exact grounded_root (by rw [h.par_self, hp])
  | some p =>
    obtain ⟨pd, hpd⟩ := h.parent hp
    exact grounded_step (by rw [h.par_self, hp])
      (grounded_up_congr ht hpd (h.geomAt_up ht hpd))

theorem trie (hok : PagesOk t new) : Trie t' := by
  obtain ⟨hch, _, _⟩ := h.leaf
  constructor
  · intro n nd' p hn' hp
    by_cases hnm : n = m
    · subst hnm
      cases h.get_self.symm.trans hn'
      obtain ⟨pd, hpd⟩ := h.parent hp
      obtain ⟨pd', hpd', _, _, _, _, hc⟩ := h.live hpd
      exact ⟨pd', hpd', by rw [hc, if_pos hp]; simp⟩
    · obtain ⟨nd, hn, h1, _⟩ := h.of_live hn' hnm
      obtain ⟨pd, hpd, hmem⟩ := ht.parent hn (by rw [← h1]; exact hp)
      obtain ⟨pd', hpd', _, _, _, _, hc⟩ := h.live hpd
      refine ⟨pd', hpd', ?_⟩
      rw [hc]
      split
      · exact mem_append_left _ hmem
      · exact hmem
  · intro n nd' c hn' hc
    by_cases hnm : n = m
    · subst hnm
      cases h.get_self.symm.trans hn'
      rw [hch] at hc
      simp at hc
    · obtain ⟨nd, hn, _, _, _, _, h5⟩ := h.of_live hn' hnm
      have hold : c ∈ nd.children → ∃ cd, t'.nodes.get c = some cd ∧ cd.parent = some n := by
        intro hc
        obtain ⟨cd, hcd, hp⟩ := ht.children hn hc
        obtain ⟨cd', hcd', h1, _⟩ := h.live hcd
        exact ⟨cd', hcd', by rw [h1]; exact hp⟩
      rw [h5] at hc
      split at hc
      · rename_i hp
        rcases mem_append.mp hc with hc | hc
        · exact hold hc
        · obtain rfl := mem_singleton.mp hc
          exact ⟨new, h.get_self, hp⟩
      · exact hold hc
  · intro n nd' hn'
    by_cases hnm : n = m
    · subst hnm
      cases h.get_self.symm.trans hn'
      rw [hch]
      exact nodup_nil
    · obtain ⟨nd, hn, _, _, _, _, h5⟩ := h.of_live hn' hnm
      rw [h5]
      split
      · refine nodup_append.mpr ⟨ht.nodup hn, nodup_singleton _, ?_⟩
        intro a ha b hb
        obtain rfl := mem_singleton.mp hb
        obtain ⟨ad, had, _⟩ := ht.children hn ha
        exact h.ne_of_live had
      · exact ht.nodup hn
  · intro n nd' hn'
    have lift : ∀ nd₀ : KvTrieNode, nd₀.parent = nd'.parent → nd₀.pages = nd'.pages →
        PagesOk t nd₀ → PagesOk t' nd' := by
      intro nd₀ hpar hpg hp
      unfold PagesOk at hp ⊢
      rw [hpg] at hp
      cases hpg' : nd'.pages with
      | owned b tk hs => rw [hpg'] at hp; exact hp
      | parentSelection runs =>
        rw [hpg'] at hp
        obtain ⟨o, od, b, tk, hs, k, ho, hod, hop, hr⟩ := hp
        obtain ⟨od', hod', _, h2, _⟩ := h.live hod
        exact ⟨o, od', b, tk, hs, k, by rw [← hpar]; exact ho, hod', by rw [h2]; exact hop, hr⟩
    by_cases hnm : n = m
    · subst hnm
      cases h.get_self.symm.trans hn'
      exact lift new rfl rfl hok
    · obtain ⟨nd, hn, h1, h2, _⟩ := h.of_live hn' hnm
      exact lift nd h1.symm h2.symm (ht.pages hn)
  · intro n nd' hn'
    by_cases hnm : n = m
    · subst hnm
      exact h.grounded_self ht
    · obtain ⟨nd, hn, _⟩ := h.of_live hn' hnm
      exact grounded_up_congr ht hn (h.geomAt_up ht hn)

theorem counted (hc : Counted t A) : Counted t' A := by
  obtain ⟨_, hex, hpa⟩ := h.leaf
  constructor
  · intro a ha
    obtain ⟨ad, had⟩ := hc.live ha
    obtain ⟨ad', had', _⟩ := h.live had
    exact ⟨ad', had'⟩
  · intro n nd' hn'
    by_cases hnm : n = m
    · subst hnm
      cases h.get_self.symm.trans hn'
      rw [hex, count_eq_zero.mpr]
      intro hA
      obtain ⟨ad, had⟩ := hc.live hA
      exact h.ne_of_live had rfl
    · obtain ⟨nd, hn, _, _, h3, _⟩ := h.of_live hn' hnm
      rw [h3, hc.exact hn]
  · intro n nd' hn'
    have hup : ∀ a ∈ A, up t' a = up t a := by
      intro a ha
      obtain ⟨ad, had⟩ := hc.live ha
      exact h.up_eq ht had
    have hcong : A.countP (fun a => decide (n ∈ up t' a)) = A.countP (fun a => decide (n ∈ up t a)) :=
      countP_congr (fun a ha => by rw [hup a ha])
    rw [hcong]
    by_cases hnm : n = m
    · subst hnm
      cases h.get_self.symm.trans hn'
      rw [hpa, eq_comm, countP_eq_zero]
      intro a ha hmem
      obtain ⟨ad, had⟩ := hc.live ha
      obtain ⟨md, hmd⟩ := ht.live_path had (by simpa using hmem)
      exact h.ne_of_live hmd rfl
    · obtain ⟨nd, hn, _, _, _, h4, _⟩ := h.of_live hn' hnm
      rw [h4, hc.path hn]

theorem frame : Frame (fun a => ∃ ad, t.nodes.get a = some ad) t t' := by
  have hne : ∀ {n nd'}, t.nodes.Issued n → t'.nodes.get n = some nd' → n ≠ m := by
    rintro n nd' hiss _ rfl
    exact h.unissued hiss
  constructor
  · exact h.issued
  · intro n nd' hiss hn'
    obtain ⟨nd, hn, _⟩ := h.of_live hn' (hne hiss hn')
    exact ⟨nd, hn⟩
  · rintro a ⟨ad, had⟩
    obtain ⟨ad', had', _⟩ := h.live had
    exact ⟨ad', had'⟩
  · rintro a ⟨ad, had⟩
    exact h.up_eq ht had
  · rintro a ⟨ad, had⟩
    exact h.locs_eq ht had
  · rintro a l ⟨ad, had⟩ hl
    obtain ⟨_, od, _, _, _, hod, _⟩ := ht.mem_locs_up had hl
    exact h.backing_eq (h.ne_of_live hod)
  · exact h.rest.swap
  · intro l nd' p _ hiss hn' hp
    rw [h.backing_eq (hne hiss hn')]
    exact hp

theorem anchored (hlive : ∀ {a}, a ∈ A → ∃ ad, t.nodes.get a = some ad)
    (hok : PagesOk t new) (hanch : Anchored t A) : Anchored t' (m :: A) := by
  intro n nd' hn'
  by_cases hnm : n = m
  · subst hnm
    exact ⟨n, mem_cons_self, (h.trie ht hok).mem_up_self hn'⟩
  · obtain ⟨nd, hn, _⟩ := h.of_live hn' hnm
    obtain ⟨a, ha, hna⟩ := hanch hn
    obtain ⟨ad, had⟩ := hlive ha
    exact ⟨a, mem_cons_of_mem _ ha, by rw [h.up_eq ht had]; exact hna⟩

theorem tight (hlive : ∀ {a}, a ∈ A → ∃ ad, t.nodes.get a = some ad)
    (hok : PagesOk t new) (htight : Tight t A) : Tight t' (m :: A) := by
  intro n nd' b tk hs hn' hp hsw i hi
  by_cases hnm : n = m
  · subst hnm
    exact ⟨n, mem_cons_self, ((h.trie ht hok).mem_locs_iff hn' hn' hp hi).mpr (.inl rfl)⟩
  · obtain ⟨nd, hn, _, h2, _⟩ := h.of_live hn' hnm
    obtain ⟨a, ha, hl⟩ := htight hn (by rw [← h2]; exact hp) (by rw [← h.rest.inSwap]; exact hsw) i hi
    obtain ⟨ad, had⟩ := hlive ha
    exact ⟨a, mem_cons_of_mem _ ha, by rw [h.locs_eq ht had]; exact hl⟩

/-- The path to a new owned node: its parent's, then its own pages. -/
theorem locs_owned (hok : PagesOk t new) {b : List KvPageBacking}
    {tk : List (List (Option Hash256))} {hs : List (Option Hash256)} (hp : new.pages = .owned b tk hs) :
    locs t' m = termLocs t new.parent ++ (range b.length).map (fun i => ⟨m, i⟩) := by
  rw [(h.trie ht hok).locs_eq h.get_self, pred_owned h.get_self hp, own_owned h.get_self hp]
  congr 1
  cases hpar : new.parent with
  | none => rfl
  | some p =>
    obtain ⟨pd, hpd⟩ := h.parent hpar
    exact h.locs_eq ht hpd

/-- The path to a new selection: what comes before its owner, then the pages it takes. -/
theorem locs_selection (hok : PagesOk t new) {o : NodeId} (hp : new.pages = .parentSelection runs) (ho : new.parent = some o)
    (hod : t.nodes.get o = some od) :
    locs t' m = termLocs t (par t o) ++ (runsIndices runs).map (fun i => ⟨o, i⟩) := by
  obtain ⟨od', hod', hpar, _⟩ := h.live hod
  have he : par t' o = par t o := by rw [par_eq hod', par_eq hod, hpar]
  rw [(h.trie ht hok).locs_eq h.get_self, pred_selection h.get_self hp ho, own_selection h.get_self hp ho, he]
  congr 1
  cases hq : par t o with
  | none => rfl
  | some p =>
    obtain ⟨pd, hpd⟩ := ht.live_parent hq
    exact h.locs_eq ht hpd

end

end Grown

/-! ## Boundaries -/

/-- What a table that found, or made, a node for a prefix of a mapping grants. -/
structure Bounded (t : KvPageTable) (want : List TriePageLocation) (m : NodeId)
    (t' : KvPageTable) : Prop where
  trie : Trie t'
  rest : SameRest t t'
  frame : Frame (fun a => ∃ ad, t.nodes.get a = some ad) t t'
  live : ∃ md, t'.nodes.get m = some md
  locs : locs t' m = want
  held : (held t').Perm (held t)
  counted : ∀ {A}, Counted t A → Counted t' A
  anchored : ∀ {A}, Counted t A → Anchored t A → Anchored t' (m :: A)
  tight : ∀ {A}, Counted t A → Tight t A → Tight t' (m :: A)

theorem Bounded.here (ht : Trie t) (hn : t.nodes.get n = some nd) : Bounded t (Table.locs t n) n t where
  trie := ht
  rest := .refl t
  frame := .refl id
  live := ⟨nd, hn⟩
  locs := rfl
  held := .refl _
  counted := id
  anchored _ h := by
    intro x xd hx
    obtain ⟨a, ha, hxa⟩ := h hx
    exact ⟨a, mem_cons_of_mem _ ha, hxa⟩
  tight _ h := by
    intro x xd b tk hs hx hp hsw i hi
    obtain ⟨a, ha, hl⟩ := h hx hp hsw i hi
    exact ⟨a, mem_cons_of_mem _ ha, hl⟩

theorem Grown.bounded {new : KvTrieNode} {want : List TriePageLocation} (h : Grown t m new t')
    (ht : Trie t) (hok : PagesOk t new) (hp : new.pages = .parentSelection runs)
    (hl : Table.locs t' m = want) : Bounded t want m t' where
  trie := h.trie ht hok
  rest := h.rest
  frame := h.frame ht
  live := ⟨new, h.get_self⟩
  locs := hl
  held := by
    have := h.held
    rw [show ownedBackings new = [] by simp [ownedBackings, hp]] at this
    exact this
  counted hc := h.counted ht hc
  anchored hc ha := h.anchored ht hc.live hok ha
  tight hc ha := h.tight ht hc.live hok ha

/-- A selection of the first `off` of a node's own pages ends a mapping there. -/
theorem makePrefixSelection_spec (ht : Trie t) (hx : t.nodes.get x = some nd) (off : Nat)
    (h0 : 0 < off) (hoff : off < (own t x).length) :
    ∃ m t', t.makePrefixSelection x off = some (m, t')
      ∧ Bounded t (termLocs t (pred t x) ++ (own t x).take off) m t' := by
  rcases ht.pred_cases hx with ⟨bs, tk, hs, hpg, he⟩ | ⟨runs, o, od, bs, tk, hs, k, hpg, ho, hod, hop, hr, hk, he⟩
  · have hown := own_owned hx hpg
    have hlt : off < bs.length := by rw [hown] at hoff; simpa using hoff
    obtain ⟨m, t', hrun, hg⟩ := insertSelection_spec hx (by rw [hpg]; rfl)
    have hpre : IsPrefixRun [⟨0, off⟩] off := ⟨h0, rfl⟩
    have hok : PagesOk t ⟨some x, [], .parentSelection [⟨0, off⟩], 0, 0⟩ :=
      ⟨x, nd, bs, tk, hs, off, rfl, hx, hpg, hpre, le_of_lt hlt⟩
    refine ⟨m, t', ?_, hg.bounded ht hok rfl ?_⟩
    · simp [makePrefixSelection, hx, hpg, hlt, hrun]
    · rw [hg.locs_selection ht hok rfl rfl hx, hpre.indices_eq, he, hown, ← map_take,
        take_range, min_eq_left (le_of_lt hlt)]
  · have hown := own_selection hx hpg ho
    rw [hr.indices_eq] at hown
    have hlt : off < k := by rw [hown] at hoff; simpa using hoff
    have hpre := hr.slice h0 (le_of_lt hlt)
    obtain ⟨m, t', hrun, hg⟩ := insertSelection_spec hod
      (by rw [hop]; rfl)
    have hok : PagesOk t ⟨some o, [], .parentSelection (runsSlice runs 0 off), 0, 0⟩ :=
      ⟨o, od, bs, tk, hs, off, rfl, hod, hop, hpre, by omega⟩
    refine ⟨m, t', ?_, hg.bounded ht hok rfl ?_⟩
    · simp [makePrefixSelection, hx, hpg, ho, hrun]
    · rw [hg.locs_selection ht hok rfl rfl hod, hpre.indices_eq, he, hown, ← map_take,
        take_range, min_eq_left (le_of_lt hlt)]

/-- **A boundary** is found or made for every prefix of a mapping that is not empty. -/
theorem boundaryTerminal_spec (ht : Trie t) : ∀ n nd, t.nodes.get n = some nd → ∀ {b : Nat},
    0 < b → b ≤ (locs t n).length →
      ∃ m t', t.boundaryTerminal (segs t n) b = some (m, t') ∧ Bounded t ((locs t n).take b) m t' := by
  refine ht.induct_pred ?_
  intro n nd hn ih b h0 hb
  have hlocs := ht.locs_eq hn
  have hlen : (locs t n).length = (termLocs t (pred t n)).length + (own t n).length := by
    rw [hlocs, length_append]
  rw [ht.segs_eq hn]
  by_cases hin : (termLocs t (pred t n)).length < b
  · have hfind : decide ((segOf t n).start < (b : Int) ∧ (b : Int) ≤ (segOf t n).stop) = true :=
      decide_eq_true (by simp only [segOf, Segment.stop]; omega)
    by_cases hend : b = (locs t n).length
    · refine ⟨n, t, ?_, ?_⟩
      · have : (b : Int) = (segOf t n).stop := by simp only [segOf, Segment.stop]; omega
        simp only [boundaryTerminal, if_neg (Nat.pos_iff_ne_zero.mp h0), find?_cons,
          hfind, bind_eq_bind, bind_some, if_pos this]
        rfl
      · rw [hend, take_length]
        exact .here ht hn
    · obtain ⟨m, t', hrun, hbd⟩ := makePrefixSelection_spec ht hn
        (b - (termLocs t (pred t n)).length) (by omega) (by omega)
      refine ⟨m, t', ?_, ?_⟩
      · have hne : ¬ ((b : Int) = (segOf t n).stop) := by simp only [segOf, Segment.stop]; omega
        have hoff : ((b : Int) - (segOf t n).start).toNat = b - (termLocs t (pred t n)).length := by
          simp only [segOf]; omega
        simp only [boundaryTerminal, if_neg (Nat.pos_iff_ne_zero.mp h0), find?_cons,
          hfind, bind_eq_bind, bind_some, if_neg hne, hoff]
        exact hrun
      · rw [hlocs, take_append]
        rw [take_of_length_le (by omega)]
        exact hbd
  · have hfind : decide ((segOf t n).start < (b : Int) ∧ (b : Int) ≤ (segOf t n).stop) = false :=
      decide_eq_false (by simp only [segOf]; omega)
    cases hp : pred t n with
    | none => rw [hp] at hin; simp [termLocs] at hin; omega
    | some p =>
      have hin : b ≤ (locs t p).length := by
        rw [hp] at hin
        simpa [termLocs] using hin
      obtain ⟨m, t', hrun, hbd⟩ := ih p hp h0 hin
      refine ⟨m, t', ?_, ?_⟩
      · simp only [boundaryTerminal, if_neg (Nat.pos_iff_ne_zero.mp h0),
          find?_cons, hfind, termSegs] at hrun ⊢
        exact hrun
      · rw [hlocs, hp, show termLocs t (some p) = locs t p from rfl, take_append_of_le_length hin]
        exact hbd

/-! ## Extending a node in place -/

section Extend

variable {b more : List KvPageBacking} (h : Repaged t m b (b ++ more) t')

include h

theorem held_extend : (held t').Perm (more ++ held t) := by
  have h1 := h.held_perm
  rw [← Multiset.coe_eq_coe] at h1 ⊢
  simp only [← Multiset.coe_add] at h1 ⊢
  refine add_right_cancel (b := (↑b : Multiset KvPageBacking)) ?_
  rw [h1]
  abel

theorem trie_extend (ht : Trie t) : Trie t' := by
  refine h.trie ht ?_
  intro _ _ _ k _ _ _ _ hk
  rw [length_append]
  omega

theorem backing_extend {p : KvPageBacking} (hl : backing t l = some p) : backing t' l = some p := by
  rw [← hl]
  refine h.backing_slot ?_
  intro he
  have hself := (h.backing_self l.slot).1
  rw [← he, hl] at hself
  rw [getElem?_append_left (List.getElem?_eq_some_iff.mp hself.symm).1]

/-- The path to the node itself goes on with its new pages. -/
theorem locs_extend (ht : Trie t) : locs t' m = locs t m ++ (range' b.length more.length).map (fun i => ⟨m, i⟩) := by
  obtain ⟨md, tk, hs, tk', hs', hm, hmp, _, _, _, hm'⟩ := h.get_self
  rw [(trie_extend h ht).locs_eq hm', ht.locs_eq hm, own_owned hm' rfl, own_owned hm hmp,
    pred_owned hm' rfl, pred_owned hm hmp, append_assoc]
  congr 1
  · cases hp : md.parent with
    | none => rfl
    | some p =>
      obtain ⟨pd, hpd, _⟩ := ht.parent hm hp
      refine h.locs_eq (ht.grounded_pred hpd) ?_
      intro hmem
      exact not_mem_path_above (ht.grounded hpd) (by rw [par_eq hm]; exact hp)
        (ht.pred_path_sub_up hpd hmem)
  · have hrange := range'_append_1 (s := 0) (m := b.length) (n := more.length)
    rw [zero_add] at hrange
    rw [length_append, ← map_append, range_eq_range', range_eq_range', hrange]

end Extend

end Pie.Proof
