import Pie.Proof.Detach
import Pie.Proof.Repage

/-!
# Compaction

A node nothing ends at, with only selections below, keeps the pages some
selection takes. All of these take first pages, so the node is cut to the
longest of them and no selection is renumbered. No mapping passes such a node
itself, so no anchor notices.
-/

namespace Pie.Proof

open List Option Store Kv Lib Table KvPageTable

variable {t t' : KvPageTable} {m n : NodeId} {md nd : KvTrieNode} {A : List NodeId}

/-- Some anchor reads every page of `x`, unless a residency move holds one of them. -/
def TightAt (t : KvPageTable) (A : List NodeId) (x : NodeId) : Prop :=
  ∀ {nd b tk h}, t.nodes.get x = some nd → nd.pages = .owned b tk h → t.inSwap x = false →
    ∀ i < b.length, ∃ a ∈ A, (⟨x, i⟩ : TriePageLocation) ∈ locs t a

theorem tight_iff : Tight t A ↔ ∀ x, TightAt t A x :=
  ⟨fun h _ _ _ _ _ hn hp hs => h hn hp hs, fun h _ _ _ _ _ hn hp hs => h _ hn hp hs⟩

/-- A child that takes all of its parent ends the collection. -/
theorem takenRuns_owned : ∀ {l : List NodeId}, (∀ c ∈ l, ∃ cd, t.nodes.get c = some cd ∧ cd.parent = some m) →
    (∃ c ∈ l, ∃ cd, t.nodes.get c = some cd ∧ cd.pages.isOwned = true) →
    t.takenRuns l = some none := by
  intro l
  induction l with
  | nil => rintro _ ⟨c, hc, _⟩; simp at hc
  | cons c l ih =>
    intro hl hex
    obtain ⟨cd, hcd, _⟩ := hl c mem_cons_self
    cases hp : cd.pages with
    | owned b tk h => simp [takenRuns, hcd, hp]
    | parentSelection runs =>
      have hrest : t.takenRuns l = some none := by
        refine ih (fun d hd => hl d (mem_cons_of_mem _ hd)) ?_
        obtain ⟨d, hd, dd, hdd, ho⟩ := hex
        rcases mem_cons.mp hd with rfl | hd
        · cases hcd.symm.trans hdd
          rw [hp] at ho
          simp [Pages.isOwned] at ho
        · exact ⟨d, hd, dd, hdd, ho⟩
      simp [takenRuns, hcd, hp, hrest]

variable {b : List KvPageBacking} {tk : List (List (Option Hash256))}

/-- Children that are all selections are collected as first runs of theirs. -/
theorem takenRuns_selections (ht : Trie t) (hm : t.nodes.get m = some md) {h : List (Option Hash256)}
    (hmp : md.pages = .owned b tk h) : ∀ {l : List NodeId},
    (∀ c ∈ l, ∃ cd, t.nodes.get c = some cd ∧ cd.parent = some m ∧ cd.pages.isOwned = false) →
    ∃ taken, t.takenRuns l = some (some taken) ∧ (taken = [] ↔ l = [])
      ∧ (∀ r ∈ taken, r.start = 0 ∧ 0 < r.stop ∧ r.stop ≤ b.length
          ∧ ∃ c ∈ l, ∃ cd, t.nodes.get c = some cd ∧ cd.pages = .parentSelection [r])
      ∧ ∀ c ∈ l, ∃ cd r, r ∈ taken ∧ t.nodes.get c = some cd ∧ cd.pages = .parentSelection [r] := by
  intro l
  induction l with
  | nil => intro _; exact ⟨[], rfl, by simp, by simp, by simp⟩
  | cons c l ih =>
    intro hl
    obtain ⟨cd, hcd, hcp, hco⟩ := hl c mem_cons_self
    obtain ⟨taken, hrun, _, hmem, hall⟩ := ih (fun d hd => hl d (mem_cons_of_mem _ hd))
    cases hp : cd.pages with
    | owned _ _ _ => rw [hp] at hco; simp [Pages.isOwned] at hco
    | parentSelection runs =>
      obtain ⟨b', tk', h', k, hb, hr, hk⟩ := ht.selection_parent_owned hcd hp hcp hm
      rw [hmp] at hb
      obtain ⟨rfl, rfl, rfl⟩ : b = b' ∧ tk = tk' ∧ h = h' := by simpa using hb
      obtain ⟨hpos, rfl⟩ := hr
      refine ⟨⟨0, k⟩ :: taken, ?_, by simp, ?_, ?_⟩
      · simp [takenRuns, hcd, hp, hrun]
      · intro r hr
        rcases mem_cons.mp hr with rfl | hr
        · exact ⟨rfl, hpos, hk, c, mem_cons_self, cd, hcd, hp⟩
        · obtain ⟨h1, h2, h3, d, hd, hrest⟩ := hmem r hr
          exact ⟨h1, h2, h3, d, mem_cons_of_mem _ hd, hrest⟩
      · intro d hd
        rcases mem_cons.mp hd with rfl | hd
        · exact ⟨cd, ⟨0, k⟩, mem_cons_self, hcd, hp⟩
        · obtain ⟨dd, r, hr, hrest⟩ := hall d hd
          exact ⟨dd, r, mem_cons_of_mem _ hr, hrest⟩

/-! ## Cutting a node -/

/-- Only selections are below `m`, none of which takes more than `k` pages, and nothing ends at it. -/
structure Cuttable (t : KvPageTable) (A : List NodeId) (m : NodeId) (k : Nat) : Prop where
  not_anchor : m ∉ A
  selections : ∀ {c cd}, t.nodes.get c = some cd → cd.parent = some m →
    ∃ j, j ≤ k ∧ IsPrefixRun [⟨0, j⟩] j ∧ cd.pages = .parentSelection [⟨0, j⟩]

namespace Cuttable

variable {k : Nat} {b : List KvPageBacking} {a : NodeId} {ad : KvTrieNode}
  (hcut : Cuttable t A m k) (ht : Trie t)

include hcut ht

theorem not_mem_pred_path (had : t.nodes.get a = some ad) (ha : a ∈ A) : m ∉ path (pred t) a := by
  intro hmem
  have hne : m ≠ a := by
    rintro rfl
    exact hcut.not_anchor ha
  obtain ⟨c, cd, _, hcd, hcp, hco⟩ := ht.owned_child_of_pred_path had hmem hne
  obtain ⟨j, _, _, hp⟩ := hcut.selections hcd hcp
  rw [hp] at hco
  simp [Pages.isOwned] at hco

variable (h : Repaged t m b (b.take k) t') (hkb : k ≤ b.length)

include h

omit ht in
theorem trie (hkb : k ≤ b.length) (ht : Trie t) : Trie t' := by
  refine h.trie ht ?_
  intro c cd runs j hcd hcp hpg hr _
  obtain ⟨i, hi, _, hpi⟩ := hcut.selections hcd hcp
  rw [hpg] at hpi
  obtain rfl : runs = [⟨0, i⟩] := by simpa using hpi
  obtain rfl : i = j := by
    have := hr.2
    simpa using this
  rw [length_take]
  omega

theorem locs_eq (had : t.nodes.get a = some ad) (ha : a ∈ A) : locs t' a = locs t a :=
  h.locs_eq (ht.grounded_pred had) (hcut.not_mem_pred_path ht had ha)

theorem backing_eq {l : TriePageLocation} (had : t.nodes.get a = some ad) (ha : a ∈ A)
    (hl : l ∈ locs t a) : backing t' l = backing t l := by
  refine h.backing_slot ?_
  intro he
  obtain ⟨_, od, bs, tk, hs, hod, hop, hlt⟩ := ht.mem_locs_up had hl
  rw [he] at hod
  have hl' : (⟨m, l.slot⟩ : TriePageLocation) ∈ locs t a := by rw [← he]; exact hl
  rcases (ht.mem_locs_iff had hod hop hlt).mp hl' with rfl | ⟨c, cd, _, hcd, hcp, htk⟩
  · exact absurd ha hcut.not_anchor
  · obtain ⟨j, hj, hr, hp⟩ := hcut.selections hcd hcp
    simp only [takes, hp] at htk
    exact getElem?_take_of_lt (lt_of_lt_of_le (hr.contains_iff.mp htk) hj)

theorem frame (hc : Counted t A) (hswap : t.inSwap m = false) : Frame (· ∈ A) t t' := by
  constructor
  · exact h.issued
  · exact fun _ hn' => h.stale_of hn'
  · exact fun ha => (h.counted hc).live ha
  · exact fun _ => h.up_eq _
  · intro a ha
    obtain ⟨ad, had⟩ := hc.live ha
    exact hcut.locs_eq ht h had ha
  · intro a l ha hl
    obtain ⟨ad, had⟩ := hc.live ha
    exact hcut.backing_eq ht h had ha hl
  · exact h.rest.swap
  · intro l nd' p hl _ _ hp
    -- a node with a page in a move is never cut
    rw [h.backing_ne ?_]
    · exact hp
    · intro he
      rw [he, hswap] at hl
      simp at hl

theorem tight (hc : Counted t A) {x : NodeId} (hx : TightAt t A x) : TightAt t' A x := by
  intro nd' b₁ tk₁ h₁ hn' hp' hswap i hi
  obtain ⟨nd, hn, _, _, _, _, hne⟩ := h.of_live hn'
  have hold : ∃ b tk hs, nd.pages = .owned b tk hs ∧ b₁.length ≤ b.length := by
    by_cases he : x = m
    · subst he
      obtain ⟨md, tk, hs, tk', hs', hm, hmp, _, _, _, hm'⟩ := h.get_self
      cases hn.symm.trans hm
      cases hn'.symm.trans hm'
      obtain ⟨rfl, _, _⟩ : b.take k = b₁ ∧ tk' = tk₁ ∧ hs' = h₁ := by simpa using hp'
      exact ⟨b, tk, hs, hmp, by rw [length_take]; omega⟩
    · exact ⟨b₁, tk₁, h₁, by rw [← hne he]; exact hp', le_rfl⟩
  obtain ⟨b₀, tk, hs, hp, hle⟩ := hold
  obtain ⟨a, ha, hl⟩ := hx hn hp (by rw [← h.rest.inSwap]; exact hswap) i (by omega)
  obtain ⟨ad, had⟩ := hc.live ha
  exact ⟨a, ha, by rw [hcut.locs_eq ht h had ha]; exact hl⟩

end Cuttable

theorem held_cut {k : Nat} (h : Repaged t m b (b.take k) t') : (held t).Perm (b.drop k ++ held t') := by
  have h1 := h.held_perm
  have hb : (↑b : Multiset KvPageBacking) = ↑(b.take k) + ↑(b.drop k) := by
    rw [Multiset.coe_add, take_append_drop]
  rw [← Multiset.coe_eq_coe] at h1 ⊢
  simp only [← Multiset.coe_add] at h1 ⊢
  refine add_right_cancel (b := (↑(b.take k) : Multiset KvPageBacking)) ?_
  rw [← h1, hb]
  abel

/-! ## Nodes that are not cut -/

theorem tightAt_of_anchor (ht : Trie t) (hm : m ∈ A) : TightAt t A m := by
  intro md b tk h hmd hp _ i hi
  exact ⟨m, hm, (ht.mem_locs_iff hmd hmd hp hi).mpr (.inl rfl)⟩

theorem tightAt_of_child (ht : Trie t) (hc : Counted t A) (hanch : Anchored t A) {c : NodeId}
    {cd : KvTrieNode} (hcd : t.nodes.get c = some cd) (hcp : cd.parent = some m)
    (hall : ∀ {md b tk h}, t.nodes.get m = some md → md.pages = .owned b tk h →
      ∀ i < b.length, takes cd i = true) : TightAt t A m := by
  intro md b tk h hmd hp _ i hi
  obtain ⟨a, ha, hca⟩ := hanch hcd
  obtain ⟨ad, had⟩ := hc.live ha
  exact ⟨a, ha, (ht.mem_locs_iff had hmd hp hi).mpr (.inr ⟨c, cd, hca, hcd, hcp, hall hmd hp i hi⟩)⟩

theorem mem_of_exact (hc : Counted t A) (hm : t.nodes.get m = some md) (h0 : md.exactAnchors ≠ 0) : m ∈ A := by
  rw [hc.exact hm] at h0
  exact count_pos_iff.mp (Nat.pos_of_ne_zero h0)

theorem mem_of_childless (ht : Trie t) (hc : Counted t A) (hanch : Anchored t A)
    (hm : t.nodes.get m = some md) (hch : md.children = []) : m ∈ A := by
  obtain ⟨a, ha, hma⟩ := hanch hm
  obtain ⟨ad, had⟩ := hc.live ha
  by_cases he : a = m
  · exact he ▸ ha
  · exact absurd hma (Removed.not_mem_up ht hm hch had he)

/-! ## Compacting -/

/-- What a run of compactions grants. -/
structure Compacted (A : List NodeId) (t : KvPageTable) (s : List KvPageBacking × KvPageTable) :
    Prop where
  trie : Trie s.2
  counted : Counted s.2 A
  anchored : Anchored s.2 A
  rest : SameRest t s.2
  frame : Frame (· ∈ A) t s.2
  tight : ∀ {x}, TightAt t A x → TightAt s.2 A x
  held : (held t).Perm (s.1 ++ held s.2)

namespace Compacted

theorem refl (ht : Trie t) (hc : Counted t A) (hanch : Anchored t A) : Compacted A t ([], t) :=
  ⟨ht, hc, hanch, .refl t, .refl (fun ha => hc.live ha), id, by simp⟩

theorem trans {s s' : List KvPageBacking × KvPageTable} (h : Compacted A t s)
    (h' : Compacted A s.2 s') : Compacted A t (s.1 ++ s'.1, s'.2) where
  trie := h'.trie
  counted := h'.counted
  anchored := h'.anchored
  rest := h.rest.trans h'.rest
  frame := h.frame.trans h'.frame
  tight hx := h'.tight (h.tight hx)
  held := by
    refine h.held.trans ?_
    rw [append_assoc]
    exact h'.held.append_left _

end Compacted

theorem mapM_getElem_range {α : Type} {l : List α} {k : Nat} (hk : k ≤ l.length) :
    (range k).mapM (fun i => l[i]?) = some (l.take k) := by
  cases l with
  | nil =>
    obtain rfl : k = 0 := by simpa using hk
    rfl
  | cons x l =>
    rw [mapM_eq_map (g := fun i => (x :: l).getD i x)]
    · congr 1
      refine ext_getElem (by simpa using hk) ?_
      intro i h1 h2
      have hi : i < (x :: l).length := by
        simp only [length_map, length_range] at h1
        omega
      simp only [getElem_map, getElem_range, getD_eq_getElem?_getD,
        getElem_take, getElem?_eq_getElem hi, getD_some]
    · intro i hi
      have hi : i < (x :: l).length := lt_of_lt_of_le (mem_range.mp hi) hk
      simp only [getD_eq_getElem?_getD, getElem?_eq_getElem hi, getD_some]

theorem filter_zipIdx_range {α : Type} (l : List α) (k : Nat) :
    (l.zipIdx.filter (fun p => decide (p.2 ∉ range k))).map Prod.fst = l.drop k := by
  have key : ∀ (l : List α) (n : Nat),
      ((l.zipIdx n).filter (fun p => decide (p.2 ∉ range k))).map Prod.fst = l.drop (k - n) := by
    intro l
    induction l with
    | nil => intro n; simp
    | cons x l ih =>
      intro n
      rw [zipIdx_cons, filter_cons]
      by_cases hn : n < k
      · obtain ⟨j, hj⟩ : ∃ j, k - n = j + 1 := ⟨k - n - 1, by omega⟩
        rw [if_neg (by simpa using hn), ih, hj, drop_succ_cons]
        congr 1
        omega
      · rw [if_pos (by simpa using hn), map_cons, ih]
        rw [show k - n = 0 by omega, show k - (n + 1) = 0 by omega]
        simp
  simpa using key l 0

/-- A first run keeps its place among the pages that are kept. -/
theorem movedRuns_prefix (kept : List Nat) (j : Nat) : movedRuns kept [⟨0, j⟩] = [⟨0, j⟩] := by
  have hrank : rank kept 0 = 0 := by cases kept <;> simp [rank]
  simp [movedRuns, hrank, pushCoalesced]

/-- Renumbering the selections of a cut node changes none of them. -/
theorem renumber_spec {kept : List Nat} {f : KvPageTable → NodeId → Option KvPageTable}
    (hf : f = fun (t : KvPageTable) child => do
      let c ← t.nodes.get child
      match c.pages with
      | .parentSelection runs =>
        some (t.setNode child { c with pages := .parentSelection (movedRuns kept runs) })
      | .owned _ _ _ => none) :
    ∀ {l : List NodeId} {t : KvPageTable}, (∀ c ∈ l, ∃ cd j, t.nodes.get c = some cd
      ∧ cd.pages = .parentSelection [⟨0, j⟩]) →
    ∃ t', l.foldlM f t = some t' ∧ SameRest t t' ∧ (∀ n, t'.nodes.get n = t.nodes.get n)
      ∧ (∀ {n}, t.nodes.Issued n → t'.nodes.Issued n) ∧ (held t').Perm (held t) := by
  intro l
  induction l with
  | nil => intro t _; exact ⟨t, rfl, .refl t, fun _ => rfl, id, .refl _⟩
  | cons c l ih =>
    intro t hl
    obtain ⟨cd, j, hcd, hp⟩ := hl c mem_cons_self
    have hsame : ({ cd with pages := .parentSelection (movedRuns kept [⟨0, j⟩]) } : KvTrieNode) = cd := by
      rw [ movedRuns_prefix, ← hp]
    have hget : ∀ n, (t.setNode c cd).nodes.get n = t.nodes.get n := by
      intro n
      rw [get_setNode hcd]
      split
      · rename_i he; rw [he, hcd]
      · rfl
    obtain ⟨t', hrun, hrest, hget', hiss, hheld⟩ := ih (t := t.setNode c cd) (by
      intro d hd
      rw [hget]
      exact hl d (mem_cons_of_mem _ hd))
    refine ⟨t', ?_, (SameRest.setNode t c cd).trans hrest, fun n => (hget' n).trans (hget n),
      fun hn => hiss (GenMap.issued_set hn), hheld.trans (held_setNode_same _ hcd rfl)⟩
    rw [foldlM_cons, ← hrun]
    simp only [hf, hcd, bind_eq_bind, bind_some, hp]
    rw [hsame]

/-- The cut itself, from the collected runs on. -/
theorem cutOwner_spec (ht : Trie t) (hm : t.nodes.get m = some md) {h : List (Option Hash256)}
    (hmp : md.pages = .owned b tk h) {k : Nat} (h0 : 0 < k) (hk : k ≤ b.length)
    (hsel : ∀ c ∈ md.children, ∃ cd j, t.nodes.get c = some cd ∧ cd.pages = .parentSelection [⟨0, j⟩]) :
    ∃ t', (do
        let newBackings ← (range k).mapM (fun i => b[i]?)
        let newTokens ← (range k).mapM (fun i => tk[i]?)
        let newPages ← (range k).mapM (fun i => h[i]?)
        let freed := (b.zipIdx.filter (fun p => decide (p.2 ∉ range k))).map Prod.fst
        let t := t.setNode m { md with pages := .owned newBackings newTokens newPages }
        let t ← md.children.foldlM (fun (t : KvPageTable) child => do
          let c ← t.nodes.get child
          match c.pages with
          | .parentSelection runs =>
            some (t.setNode child { c with pages := .parentSelection (movedRuns (range k) runs) })
          | .owned _ _ _ => none) t
        some (freed, t)) = some (b.drop k, t') ∧ Repaged t m b (b.take k) t' := by
  have hok := ht.pages hm
  simp only [PagesOk, hmp] at hok
  set md' : KvTrieNode := { md with pages := .owned (b.take k) (tk.take k) (h.take k) } with hmd'
  obtain ⟨t', hrun, hrest, hget, hiss, hheld⟩ := renumber_spec rfl
    (l := md.children) (t := t.setNode m md') (by
      intro c hc
      obtain ⟨cd, j, hcd, hcp⟩ := hsel c hc
      refine ⟨cd, j, ?_, hcp⟩
      rw [get_setNode hm, if_neg]
      · exact hcd
      · rintro rfl
        cases hm.symm.trans hcd
        rw [hmp] at hcp
        simp at hcp)
  have hcut : Repaged t m b (b.take k) t' :=
    (repaged_setNode hm hmp (by
      intro h0'
      have := congrArg length h0'
      simp only [length_take, length_nil] at this
      omega) (by simp [hok.2.1]) (by simp [hok.2.2])).congr hrest hget hiss
  refine ⟨t', ?_, hcut⟩
  rw [mapM_getElem_range hk, mapM_getElem_range (by omega), mapM_getElem_range (by omega), filter_zipIdx_range]
  simp only [bind_eq_bind, bind_some]
  rw [← hmd']
  exact congrArg (fun r => r.bind (fun t => some (b.drop k, t))) hrun

/-- **Compacting one node** never fails, keeps every anchor's pages, and leaves no page of the
node unread. -/
theorem compactOwner_spec (ht : Trie t) (hc : Counted t A) (hanch : Anchored t A) (m : NodeId) :
    ∃ freed t', t.compactOwner m = some (freed, t') ∧ Compacted A t (freed, t') ∧ TightAt t' A m := by
  have same : TightAt t A m → ∃ freed t', some (([] : List KvPageBacking), t) = some (freed, t')
      ∧ Compacted A t (freed, t') ∧ TightAt t' A m :=
    fun htight => ⟨[], t, rfl, .refl ht hc hanch, htight⟩
  unfold compactOwner
  cases hm : t.nodes.get m with
  | none => exact same (fun hn => by rw [hm] at hn; simp at hn)
  | some md =>
    simp only []
    split
    · rename_i hcond
      refine same ?_
      rcases hcond with hex | hsw
      · exact tightAt_of_anchor ht (mem_of_exact hc hm hex)
      · intro _ _ _ _ _ _ hns
        rw [hsw] at hns
        simp at hns
    rename_i hcond
    push Not at hcond
    obtain ⟨hex, hsw⟩ := hcond
    have hsw : t.inSwap m = false := by simpa using hsw
    cases hmp : md.pages with
    | parentSelection runs =>
      refine same ?_
      intro _ _ _ _ hn hp
      cases hm.symm.trans hn
      rw [hmp] at hp
      simp at hp
    | owned b tk h =>
      simp only []
      split
      · rename_i hch
        exact same (tightAt_of_anchor ht (mem_of_childless ht hc hanch hm (by simpa using hch)))
      rename_i hch
      have hch : md.children ≠ [] := by simpa using hch
      by_cases hown : ∃ c ∈ md.children, ∃ cd, t.nodes.get c = some cd ∧ cd.pages.isOwned = true
      · have htaken := takenRuns_owned (m := m) (fun c hcm => ht.children hm hcm) hown
        simp only [htaken, bind_eq_bind, bind_some]
        obtain ⟨c, hcm, cd, hcd, hco⟩ := hown
        obtain ⟨cd', hcd', hcp⟩ := ht.children hm hcm
        cases hcd.symm.trans hcd'
        refine same (tightAt_of_child ht hc hanch hcd hcp ?_)
        intro _ _ _ _ _ _ i _
        cases hcpg : cd.pages with
        | owned _ _ _ => simp [takes, hcpg]
        | parentSelection _ => rw [hcpg] at hco; simp [Pages.isOwned] at hco
      · have hsel : ∀ c ∈ md.children, ∃ cd, t.nodes.get c = some cd ∧ cd.parent = some m
            ∧ cd.pages.isOwned = false := by
          intro c hcm
          obtain ⟨cd, hcd, hcp⟩ := ht.children hm hcm
          refine ⟨cd, hcd, hcp, ?_⟩
          by_contra ho
          exact hown ⟨c, hcm, cd, hcd, by simpa using ho⟩
        obtain ⟨taken, htaken, hnil, hmem, hall⟩ := takenRuns_selections ht hm hmp hsel
        have hne : taken ≠ [] := fun he => hch (hnil.mp he)
        have hunion := union_prefix hne (fun r hr => ⟨(hmem r hr).1, (hmem r hr).2.1⟩)
        set k := (taken.map Run.stop).foldl max 0 with hk
        -- the longest run is that of some child
        obtain ⟨r, hr, hrk⟩ : ∃ r ∈ taken, r.stop = k := by
          rcases foldl_max_mem (taken.map Run.stop) 0 with h0 | hm'
          · exact absurd h0 (Nat.pos_iff_ne_zero.mp hunion.1)
          · obtain ⟨r, hr, he⟩ := mem_map.mp hm'
            exact ⟨r, hr, he⟩
        obtain ⟨hr0, _, hrb, c, hcm, cd, hcd, hcp⟩ := hmem r hr
        have hkb : k ≤ b.length := hrk ▸ hrb
        obtain rfl : r = ⟨0, k⟩ := by cases r; simp_all
        simp only [htaken, bind_eq_bind, bind_some, hunion.indices_eq, length_range]
        obtain ⟨cd', hcd', hcpar⟩ := ht.children hm hcm
        cases hcd.symm.trans hcd'
        split
        · rename_i hkeep
          refine same (tightAt_of_child ht hc hanch hcd hcpar ?_)
          intro md' b' _ _ hmd' hp' i hi
          cases hm.symm.trans hmd'
          obtain ⟨rfl, _, _⟩ : b = b' ∧ tk = _ ∧ h = _ := by simpa [hmp] using hp'
          simp only [takes, hcp]
          simp [Run.contains]
          omega
        · have hcut' : ∀ {c cd}, t.nodes.get c = some cd → cd.parent = some m →
              ∃ j, j ≤ k ∧ IsPrefixRun [⟨0, j⟩] j ∧ cd.pages = .parentSelection [⟨0, j⟩] := by
            intro c cd hcd hcp
            obtain ⟨md', hmd', hcm⟩ := ht.parent hcd hcp
            cases hm.symm.trans hmd'
            obtain ⟨cd', r, hr, hcd', hcr⟩ := hall c hcm
            cases hcd.symm.trans hcd'
            obtain ⟨hr0, hrpos, _⟩ := hmem r hr
            obtain ⟨rs, re⟩ := r
            obtain rfl : rs = 0 := hr0
            have hre : re ∈ taken.map Run.stop := mem_map.mpr ⟨_, hr, rfl⟩
            exact ⟨re, mem_le_foldl_max hre 0, ⟨hrpos, rfl⟩, hcr⟩
          obtain ⟨t', hrun, hcut⟩ := cutOwner_spec ht hm hmp hunion.1 hkb (by
            intro c hcm
            obtain ⟨cd, hcd, hcp⟩ := ht.children hm hcm
            obtain ⟨j, _, _, hp⟩ := hcut' hcd hcp
            exact ⟨cd, j, hcd, hp⟩)
          have hcuttable : Cuttable t A m k := by
            refine ⟨?_, hcut'⟩
            intro hmA
            have := count_pos_iff.mpr hmA
            rw [← hc.exact hm] at this
            exact absurd hex (Nat.pos_iff_ne_zero.mp this)
          have htrie := hcuttable.trie hcut hkb ht
          have hcounted := hcut.counted hc
          have hanch' : Anchored t' A := hcut.anchored hanch
          refine ⟨b.drop k, t', hrun, ⟨htrie, hcounted, hanch', hcut.rest,
            hcuttable.frame ht hcut hc hsw, hcuttable.tight ht hcut hc, held_cut hcut⟩, ?_⟩
          obtain ⟨cd₁, hcd₁, _, _, _, _, hsame⟩ := hcut.live hcd
          have hcm' : c ≠ m := by
            rintro rfl
            cases hm.symm.trans hcd
            rw [hmp] at hcp
            simp at hcp
          rw [hsame hcm'] at hcd₁
          have hall' : ∀ {md b tk h}, t'.nodes.get m = some md → md.pages = .owned b tk h →
              ∀ i < b.length, takes cd i = true := by
            intro md' b' _ _ hmd' hp' i hi
            obtain ⟨md₀, _, _, _, _, _, _, _, _, _, hm₀'⟩ := hcut.get_self
            cases hmd'.symm.trans hm₀'
            obtain ⟨rfl, _, _⟩ : b.take k = b' ∧ _ ∧ _ := by simpa using hp'
            simp only [length_take] at hi
            simp only [takes, hcp]
            simp [Run.contains]
            omega
          intro _ _ _ _ hn hp hs
          exact tightAt_of_child htrie hcounted hanch' hcd₁ hcpar hall' hn hp hs

/-- **Compacting** a list of nodes. -/
theorem compactAll_spec (ht : Trie t) (hc : Counted t A) (hanch : Anchored t A) (l : List NodeId) :
    ∃ freed t', compactAll l t = some (freed, t') ∧ Compacted A t (freed, t')
      ∧ ∀ x ∈ l, TightAt t' A x := by
  obtain ⟨⟨freed, t'⟩, hrun, hend, htight⟩ := foldlM_rule
    (I := fun rest (s : List KvPageBacking × KvPageTable) =>
      Compacted A t s ∧ ∀ x ∈ l, x ∈ rest ∨ TightAt s.2 A x)
    (f := fun (acc : List KvPageBacking × KvPageTable) current =>
      (acc.2.compactOwner current).bind fun out => some (acc.1 ++ out.1, out.2)) (by
      rintro m rest s ⟨hs, hx⟩
      obtain ⟨more, t', hrun, hcomp, htight⟩ := compactOwner_spec hs.trie hs.counted hs.anchored m
      refine ⟨(s.1 ++ more, t'), ?_, hs.trans hcomp, ?_⟩
      · rw [hrun]; rfl
      · intro x hxl
        rcases hx x hxl with hm | hm
        · rcases mem_cons.mp hm with rfl | hm
          · exact .inr htight
          · exact .inl hm
        · exact .inr (hcomp.tight hm))
    (l := l) (s := ([], t)) ⟨.refl ht hc hanch, fun x hx => .inl hx⟩
  refine ⟨freed, t', hrun, hend, ?_⟩
  intro x hx
  rcases htight x hx with hm | hm
  · simp at hm
  · exact hm

/-- What giving up an anchor grants: the anchors left count as they should, read what they read,
and `s.1` is what the trie held and holds no more. -/
structure Settled (A : List NodeId) (t : KvPageTable) (s : List KvPageBacking × KvPageTable) :
    Prop where
  trie : Trie s.2
  counted : Counted s.2 A
  anchored : Anchored s.2 A
  tight : Tight s.2 A
  rest : SameRest t s.2
  frame : Frame (· ∈ A) t s.2
  held : (held t).Perm (s.1 ++ held s.2)

theorem Settled.freed_nil {s : List KvPageBacking × KvPageTable} (h : Settled A t s) (ht : Trie t)
    (hc : Counted t (n :: A)) (hanch : Anchored t (n :: A)) (htight : Tight t (n :: A))
    (hread : ∀ l ∈ locs t n, ∃ a ∈ A, l ∈ locs t a) : s.1 = [] := by
  have hread' : ∀ {a l}, a ∈ n :: A → l ∈ locs t a → ∃ a ∈ A, l ∈ locs t a := by
    intro a l ha hl
    rcases mem_cons.mp ha with rfl | ha
    · exact hread l hl
    · exact ⟨a, ha, hl⟩
  have hsub : pageLocs t ⊆ pageLocs s.2 := by
    intro l hl
    rw [mem_pageLocs] at hl ⊢
    obtain ⟨p, hp⟩ := hl
    refine ⟨p, ?_⟩
    cases hn : t.nodes.get l.node with
    | none => simp [backing, hn] at hp
    | some nd =>
      cases hpg : nd.pages with
      | parentSelection runs => simp [backing, hn, hpg] at hp
      | owned b tk hs =>
        by_cases hsw : t.inSwap l.node = true
        · obtain ⟨a, ha, hna⟩ := hanch hn
          obtain ⟨ad, had⟩ := hc.live ha
          obtain ⟨a', ha', hl'⟩ := hread' ha (ht.reads_first had hn (by rw [hpg]; rfl) hna)
          obtain ⟨ad', had'⟩ := hc.live (mem_cons_of_mem _ ha')
          obtain ⟨ad'', had''⟩ := h.frame.live ha'
          obtain ⟨nd', hn'⟩ := h.trie.live_path had''
            (by rw [h.frame.up ha']; exact (ht.mem_locs_up had' hl').1)
          exact h.frame.moved hsw (GenMap.issued_of_get hn) hn' hp
        · simp only [backing, hn, hpg] at hp
          obtain ⟨a, ha, hla⟩ := htight hn hpg (by simpa using hsw) l.slot
            (List.getElem?_eq_some_iff.mp hp).1
          obtain ⟨a', ha', hl'⟩ := hread' ha hla
          rw [h.frame.backing ha' hl']
          simp [backing, hn, hpg, hp]
  have hle := (subperm_of_subset (pageLocs_nodup t) hsub).length_le
  rw [pageLocs_length, pageLocs_length] at hle
  have hlen := h.held.length_eq
  rw [length_append] at hlen
  exact length_eq_zero_iff.mp (by omega)

/-- **Removing an anchor** never fails, and gives back exactly what no anchor left reads. -/
theorem removeAnchor_spec (ht : Trie t) (hc : Counted t (n :: A)) (hanch : Anchored t (n :: A))
    (htight : Tight t (n :: A)) :
    ∃ freed t', t.removeAnchor n = some (freed, t') ∧ Settled A t (freed, t') := by
  obtain ⟨nd, hn⟩ := hc.live mem_cons_self
  obtain ⟨hex, t₁, hdrop, hshape, hc₁⟩ := dropAnchor_spec ht hn hc
  have ht₁ := hshape.trie ht
  obtain ⟨nd₁, hn₁, _⟩ := hshape.get hn
  have hup : up t₁ n = up t n := by rw [hshape.up_eq]
  obtain ⟨freed, t₂, hdet, hd⟩ := detachAll_spec ht₁ hc₁ hn₁ (by
    intro m md₁ hm₁ hoff
    obtain ⟨md, hm, _⟩ := hshape.of_get hm₁
    obtain ⟨a, ha, hma⟩ := hanch hm
    rw [hshape.up_eq] at hoff ⊢
    rcases mem_cons.mp ha with rfl | ha
    · exact absurd hma hoff
    · exact ⟨a, ha, hma⟩)
  have hanch₂ : Anchored t₂ A := fun hm => hd.anchored hm (by simp)
  obtain ⟨more, t₃, hcomp, hcd, hx⟩ := compactAll_spec hd.trie hd.counted hanch₂ (up t n)
  have hframe : Frame (· ∈ A) t t₁ :=
    hshape.frame.mono (fun ha => hc.live (mem_cons_of_mem _ ha))
  have hrest : SameRest t t₃ := (hshape.rest_eq.trans hd.rest).trans hcd.rest
  refine ⟨freed ++ more, t₃, ?_, hcd.trie, hcd.counted, hcd.anchored, ?_, hrest,
    (hframe.trans hd.frame).trans hcd.frame, ?_⟩
  · rw [hup] at hdet
    simp only [removeAnchor, hn, hdrop, hdet, hcomp, bind_eq_bind, bind_some, if_neg hex]
  · rw [tight_iff]
    intro x
    by_cases hxn : x ∈ up t n
    · exact hx x hxn
    · -- off the path, whoever read a page reads it still
      refine hcd.tight ?_
      intro xd b tk h hxd hp hsw i hi
      obtain ⟨xd₁, hxd₁, hp₁⟩ := hd.pages hxd
      obtain ⟨xd₀, hxd₀, _, _, hp₀⟩ := hshape.of_get hxd₁
      obtain ⟨a, ha, hl⟩ := htight hxd₀ (by rw [hp₀, ← hp₁]; exact hp)
        (by rw [← (hshape.rest_eq.trans hd.rest).inSwap]; exact hsw) i hi
      obtain ⟨ad, had⟩ := hc.live ha
      rcases mem_cons.mp ha with rfl | ha
      · exact absurd (ht.mem_locs_up had hl).1 hxn
      · exact ⟨a, ha, by rw [hd.frame.locs ha, hframe.locs ha]; exact hl⟩
  · have h1 := hshape.held_perm.symm.trans hd.held
    refine h1.trans ?_
    rw [append_assoc]
    exact hcd.held.append_left _

end Pie.Proof
