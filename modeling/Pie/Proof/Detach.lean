import Pie.Proof.Frame

/-!
# Giving up an anchor: counting it out, and detaching what it alone kept

A node whose path count falls to zero has no child left: a child is a node too,
so an anchor keeps it, and that anchor would count on the node above. The detach
loop climbs the path the anchor had, so it only ever removes leaves.
-/

namespace Pie.Proof

open List Option Store Kv Lib Table KvPageTable

variable {l : List NodeId} {s : List KvPageBacking × KvPageTable} {t₀ : KvPageTable}

variable {t t' t₁ t₂ : KvPageTable} {n k : NodeId} {nd kd : KvTrieNode} {A : List NodeId}

theorem Counted.perm {A B : List NodeId} (h : Counted t A) (hp : A.Perm B) : Counted t B where
  live ha := h.live (hp.mem_iff.mpr ha)
  exact hn := by rw [h.exact hn, hp.count_eq]
  path hn := by rw [h.path hn, hp.countP_eq]

/-- **Counting an anchor out** never fails, and takes exactly it off the count. -/
theorem dropAnchor_spec (ht : Trie t) (hn : t.nodes.get n = some nd) (hc : Counted t (n :: A)) :
    nd.exactAnchors ≠ 0 ∧ ∃ t', dropPath t.fuel (some n)
        (t.setNode n { nd with exactAnchors := nd.exactAnchors - 1 }) = some (up t n, t')
      ∧ SameShape t t' ∧ Counted t' A := by
  have hexact := hc.exact hn
  rw [count_cons_self] at hexact
  refine ⟨by omega, ?_⟩
  set t₁ := t.setNode n { nd with exactAnchors := nd.exactAnchors - 1 } with ht₁
  have hpar : par t₁ = par t := par_setNode _ hn rfl
  have hlive : ∀ x ∈ up t n, ∃ xd, t₁.nodes.get x = some xd ∧ 0 < xd.pathAnchors := by
    intro x hx
    obtain ⟨xd, hxd⟩ := ht.live_path hn hx
    have hpos : 0 < xd.pathAnchors := by
      rw [hc.path hxd, countP_cons, if_pos (by simpa using hx)]
      omega
    rw [ht₁, get_setNode hn]
    split
    · rename_i he
      subst he
      cases hn.symm.trans hxd
      exact ⟨_, rfl, hpos⟩
    · exact ⟨xd, hxd, hpos⟩
  obtain ⟨t', hrun, hrest, hget, hiss⟩ :=
    dropPath_spec (l := up t n) (ht.grounded hn).isPath (ht.up_length_le hn) hpar hlive
  have hget' : ∀ m, t'.nodes.get m = (t.nodes.get m).map (fun md =>
      { md with
        exactAnchors := md.exactAnchors - if m = n then 1 else 0
        pathAnchors := md.pathAnchors - if m ∈ up t n then 1 else 0 }) := by
    intro m
    rw [hget m, ht₁, get_setNode hn]
    by_cases hm : m = n
    · subst hm; simp [hn]
    · simp [hm]
  have hshape : SameShape t t' := by
    refine sameShape_of_counts (f := fun m md =>
      { md with
        exactAnchors := md.exactAnchors - if m = n then 1 else 0
        pathAnchors := md.pathAnchors - if m ∈ up t n then 1 else 0 }) ?_ (fun _ _ => ⟨rfl, rfl, rfl⟩)
      hget' (fun hm => hiss (GenMap.issued_set hm))
    rw [hrest]; rfl
  refine ⟨t', hrun, hshape, ?_⟩
  constructor
  · intro a ha
    obtain ⟨ad, had⟩ := hc.live (mem_cons_of_mem _ ha)
    rw [hget' a, had]
    exact ⟨_, rfl⟩
  · intro m md' hmd'
    rw [hget' m] at hmd'
    obtain ⟨md, hmd, rfl⟩ := map_eq_some_iff.mp hmd'
    have := hc.exact hmd
    rw [count_cons] at this
    by_cases hm : m = n
    · subst hm
      simp at this ⊢
      omega
    · simp only [if_neg hm]
      simp only [beq_iff_eq, Ne.symm hm, if_false] at this
      omega
  · intro m md' hmd'
    rw [hget' m] at hmd'
    obtain ⟨md, hmd, rfl⟩ := map_eq_some_iff.mp hmd'
    have := hc.path hmd
    rw [countP_cons] at this
    simp only [hshape.up_eq]
    by_cases hm : m ∈ up t n
    · simp only [hm, decide_true, if_true] at this ⊢
      omega
    · simp only [hm, decide_false, if_false] at this ⊢
      simpa using this

/-! ## Removing a leaf -/

/-- `t'` is `t` without the node `k`. -/
structure Removed (t : KvPageTable) (k : NodeId) (t' : KvPageTable) : Prop where
  rest : SameRest t t'
  get : ∀ n, t'.nodes.get n = if n = k then none else
    (t.nodes.get n).map (fun nd => { nd with children := nd.children.filter (fun c => c ≠ k) })
  issued : ∀ {n}, t.nodes.Issued n → t'.nodes.Issued n

theorem dropNodeStart_nodes (t : KvPageTable) (k : NodeId) (pages : Pages) :
    (t.dropNodeStart k pages).nodes = t.nodes ∧ SameRest t (t.dropNodeStart k pages) := by
  unfold dropNodeStart
  split
  · exact ⟨rfl, ⟨rfl, rfl, rfl, rfl⟩⟩
  · exact ⟨rfl, .refl t⟩

/-- The table after a node has been struck from its parent's children. -/
theorem unlink_spec (ht : Trie t) (hk : t.nodes.get k = some kd) :
    ∃ t₁, t.unlink k kd.parent = t₁ ∧ SameRest t t₁ ∧ (held t₁).Perm (held t)
      ∧ (∀ n, t₁.nodes.get n =
          (t.nodes.get n).map (fun nd => { nd with children := nd.children.filter (fun c => c ≠ k) }))
      ∧ (∀ {n}, t.nodes.Issued n → t₁.nodes.Issued n) := by
  -- only the parent lists `k`
  have hother : ∀ {m md}, t.nodes.get m = some md → kd.parent ≠ some m →
      md.children.filter (fun c => c ≠ k) = md.children := by
    intro m md hmd hne
    rw [filter_eq_self]
    intro c hc
    rw [decide_eq_true_eq]
    rintro rfl
    obtain ⟨cd, hcd, hp⟩ := ht.children hmd hc
    cases hk.symm.trans hcd
    exact hne hp
  cases hp : kd.parent with
  | none =>
    refine ⟨t, rfl, .refl t, .refl _, ?_, id⟩
    intro m
    cases hmd : t.nodes.get m with
    | none => rfl
    | some md =>
      simp only [map_some, hother hmd (by rw [hp]; simp)]
  | some p =>
    obtain ⟨pd, hpd, _⟩ := ht.parent hk hp
    simp only [unlink, hpd]
    refine ⟨_, rfl, ⟨rfl, rfl, rfl, rfl⟩, ?_, ?_, ?_⟩
    · exact held_setNode_same _ hpd rfl
    · intro m
      rw [get_setNode hpd]
      by_cases hm : m = p
      · subst hm; simp [hpd]
      · rw [if_neg hm]
        cases hmd : t.nodes.get m with
        | none => rfl
        | some md =>
          simp only [map_some, hother hmd (by rw [hp]; intro he; exact hm (some.inj he).symm)]
    · intro m hm
      exact GenMap.issued_set hm

theorem detachSelf_spec (ht : Trie t) (hk : t.nodes.get k = some kd) :
    ∃ t', t.detachSelf k = some (ownedBackings kd, t') ∧ Removed t k t'
      ∧ (held t).Perm (ownedBackings kd ++ held t') := by
  obtain ⟨t₁, he₁, hrest₁, hheld₁, hget₁, hiss₁⟩ := unlink_spec ht hk
  obtain ⟨hnodes, hrest₂⟩ := dropNodeStart_nodes t₁ k kd.pages
  set t₂ := t₁.dropNodeStart k kd.pages with ht₂
  have hk₂ : t₂.nodes.get k = some { kd with children := kd.children.filter (fun c => c ≠ k) } := by
    rw [hnodes, hget₁ k, hk]; rfl
  refine ⟨{ t₂ with nodes := t₂.nodes.remove k }, ?_, ?_, ?_⟩
  · simp only [detachSelf, hk, bind_eq_bind, bind_some, he₁]
    rw [← ht₂, hk₂]
    rfl
  · refine ⟨(hrest₁.trans hrest₂).trans ⟨rfl, rfl, rfl, rfl⟩, ?_, ?_⟩
    · intro m
      show (t₂.nodes.remove k).get m = _
      rw [GenMap.get_remove, hnodes, hget₁ m]
    · intro m hm
      refine GenMap.issued_remove ?_
      rw [hnodes]
      exact hiss₁ hm
  · have h₂ : held t₂ = held t₁ := by rw [held, hnodes, held]
    refine hheld₁.symm.trans ?_
    have hrem := held_remove hk₂
    rw [h₂] at hrem
    exact hrem

namespace Removed

variable {x : NodeId} {xd : KvTrieNode}

theorem get_ne (h : Removed t k t') (hne : n ≠ k) (hn : t.nodes.get n = some nd) :
    t'.nodes.get n = some { nd with children := nd.children.filter (fun c => c ≠ k) } := by
  rw [h.get, if_neg hne, hn]; rfl

theorem of_get (h : Removed t k t') (hn : t'.nodes.get n = some nd) : n ≠ k ∧ ∃ nd₀,
    t.nodes.get n = some nd₀ ∧ nd = { nd₀ with children := nd₀.children.filter (fun c => c ≠ k) } := by
  rw [h.get] at hn
  split at hn
  · simp at hn
  · rename_i hne
    obtain ⟨nd₀, h₀, rfl⟩ := map_eq_some_iff.mp hn
    exact ⟨hne, nd₀, h₀, rfl⟩

theorem geomAt_ne (h : Removed t k t') (hne : n ≠ k) : geomAt t' n = geomAt t n := by
  unfold geomAt
  rw [h.get, if_neg hne, Option.map_map]
  rfl

theorem not_mem_up (ht : Trie t) (hk : t.nodes.get k = some kd) (hch : kd.children = [])
    (hn : t.nodes.get n = some nd) (hne : n ≠ k) : k ∉ up t n := by
  intro hm
  obtain ⟨c, hc, hcu⟩ := exists_child (ht.grounded hn) hm (Ne.symm hne)
  obtain ⟨cd, hcd⟩ := ht.live_path hn hcu
  obtain ⟨kd', hk', hmem⟩ := ht.parent hcd (by rw [← par_eq hcd]; exact hc)
  cases hk.symm.trans hk'
  rw [hch] at hmem
  simp at hmem

section Leaf

variable (h : Removed t k t') (ht : Trie t) (hk : t.nodes.get k = some kd) (hch : kd.children = [])

include h ht hk hch

section

variable (hn : t.nodes.get n = some nd) (hne : n ≠ k)
include hn hne

theorem geomAt_up : ∀ y ∈ up t n, geomAt t' y = geomAt t y := by
  intro y hy
  refine h.geomAt_ne ?_
  rintro rfl
  exact not_mem_up ht hk hch hn hne hy

theorem up_eq : up t' n = up t n :=
  up_congr ht hn (h.geomAt_up ht hk hch hn hne)

theorem locs_eq : locs t' n = locs t n :=
  locs_congr ht hn (h.geomAt_up ht hk hch hn hne)

end

omit ht hk hch in
theorem backing_eq {l : TriePageLocation} (hne : l.node ≠ k) : backing t' l = backing t l := by
  unfold backing
  rw [h.get, if_neg hne]
  cases t.nodes.get l.node <;> rfl

theorem trie : Trie t' := by
  constructor
  · intro m md p hm hp
    obtain ⟨hne, md₀, hm₀, rfl⟩ := h.of_get hm
    obtain ⟨pd, hpd, hmem⟩ := ht.parent hm₀ hp
    have hpk : p ≠ k := by
      rintro rfl
      cases hk.symm.trans hpd
      rw [hch] at hmem
      simp at hmem
    refine ⟨_, h.get_ne hpk hpd, ?_⟩
    rw [mem_filter]
    exact ⟨hmem, by simpa using hne⟩
  · intro m md c hm hc
    obtain ⟨hne, md₀, hm₀, rfl⟩ := h.of_get hm
    obtain ⟨hc, hck⟩ := mem_filter.mp hc
    obtain ⟨cd, hcd, hp⟩ := ht.children hm₀ hc
    exact ⟨_, h.get_ne (by simpa using hck) hcd, hp⟩
  · intro m md hm
    obtain ⟨_, md₀, hm₀, rfl⟩ := h.of_get hm
    exact (ht.nodup hm₀).filter _
  · intro m md hm
    obtain ⟨_, md₀, hm₀, rfl⟩ := h.of_get hm
    have hp := ht.pages hm₀
    unfold PagesOk at hp ⊢
    cases hpg : md₀.pages with
    | owned b tk hs => rw [hpg] at hp; exact hp
    | parentSelection runs =>
      rw [hpg] at hp
      obtain ⟨o, od, b, tk, hs, j, ho, hod, hop, hr⟩ := hp
      have hok : o ≠ k := by
        rintro rfl
        obtain ⟨pd, hpd, hmem⟩ := ht.parent hm₀ ho
        cases hk.symm.trans hpd
        rw [hch] at hmem
        simp at hmem
      exact ⟨o, _, b, tk, hs, j, ho, h.get_ne hok hod, hop, hr⟩
  · intro m md hm
    obtain ⟨hne, md₀, hm₀, rfl⟩ := h.of_get hm
    exact grounded_up_congr ht hm₀ (h.geomAt_up ht hk hch hm₀ hne)

theorem counted (hc : Counted t A) (h0 : kd.pathAnchors = 0) : Counted t' A := by
  have hkA : k ∉ A := by
    intro hm
    have hpos : 0 < A.countP (fun a => decide (k ∈ up t a)) :=
      countP_pos_iff.mpr ⟨k, hm, by simpa using ht.mem_up_self hk⟩
    rw [← hc.path hk] at hpos
    omega
  constructor
  · intro a ha
    obtain ⟨ad, had⟩ := hc.live ha
    exact ⟨_, h.get_ne (fun he => hkA (he ▸ ha)) had⟩
  · intro m md hm
    obtain ⟨_, md₀, hm₀, rfl⟩ := h.of_get hm
    show md₀.exactAnchors = _
    exact hc.exact hm₀
  · intro m md hm
    obtain ⟨_, md₀, hm₀, rfl⟩ := h.of_get hm
    show md₀.pathAnchors = _
    rw [hc.path hm₀]
    refine countP_congr ?_
    intro a ha
    obtain ⟨ad, had⟩ := hc.live ha
    rw [h.up_eq ht hk hch had (fun he => hkA (he ▸ ha))]

theorem frame (hc : Counted t A) (h0 : kd.pathAnchors = 0) : Frame (· ∈ A) t t' := by
  have hc' := h.counted ht hk hch hc h0
  have hne : ∀ {a}, a ∈ A → a ≠ k := by
    intro a ha he
    obtain ⟨ad, had⟩ := hc'.live ha
    exact (h.of_get had).1 he
  constructor
  · exact h.issued
  · intro m md _ hm
    obtain ⟨_, md₀, hm₀, _⟩ := h.of_get hm
    exact ⟨md₀, hm₀⟩
  · exact fun ha => hc'.live ha
  · intro a ha
    obtain ⟨ad, had⟩ := hc.live ha
    exact h.up_eq ht hk hch had (hne ha)
  · intro a ha
    obtain ⟨ad, had⟩ := hc.live ha
    exact h.locs_eq ht hk hch had (hne ha)
  · intro a l ha hl
    obtain ⟨ad, had⟩ := hc.live ha
    refine h.backing_eq ?_
    rintro he
    exact not_mem_up ht hk hch had (hne ha) (he ▸ (ht.mem_locs_up had hl).1)
  · exact h.rest.swap
  · intro l nd' p _ _ hl hp
    rw [h.backing_eq (h.of_get hl).1]
    exact hp

end Leaf

end Removed

/-! ## The detach loop -/

/-- The state of the loop over the rest `l` of a path: everything off the path is anchored. -/
structure Detaching (A : List NodeId) (t₀ : KvPageTable) (l : List NodeId)
    (s : List KvPageBacking × KvPageTable) : Prop where
  trie : Trie s.2
  counted : Counted s.2 A
  chain : l = [] ∨ ∃ k kd, s.2.nodes.get k = some kd ∧ l = up s.2 k
  anchored : ∀ {n nd}, s.2.nodes.get n = some nd → n ∉ l → ∃ a ∈ A, n ∈ up s.2 a
  rest : SameRest t₀ s.2
  frame : Frame (· ∈ A) t₀ s.2
  pages : ∀ {n nd}, s.2.nodes.get n = some nd → ∃ nd₀, t₀.nodes.get n = some nd₀
    ∧ nd.pages = nd₀.pages
  held : (held t₀).Perm (s.1 ++ held s.2)

theorem Detaching.chain_tail {A : List NodeId} (h : Detaching A t₀ (k :: l) s) :
    ∃ kd, s.2.nodes.get k = some kd ∧ up s.2 k = k :: l ∧
      (l = [] ∨ ∃ p pd, par s.2 k = some p ∧ s.2.nodes.get p = some pd ∧ l = up s.2 p) := by
  rcases h.chain with h0 | ⟨k', kd', hk', he⟩
  · simp at h0
  · cases hp : par s.2 k' with
    | none =>
      rw [up, path_root hp] at he
      cases he
      exact ⟨kd', hk', by rw [up, path_root hp], .inl rfl⟩
    | some p =>
      obtain ⟨pd, hpd⟩ := h.trie.live_parent hp
      have hstep := path_step hp (h.trie.grounded hpd)
      rw [up, hstep] at he
      cases he
      exact ⟨kd', hk', by rw [up, hstep], .inr ⟨p, pd, hp, hpd, rfl⟩⟩

/-- A node that no anchor counts on has no child left once the climb is at it. -/
theorem Detaching.childless {A : List NodeId} (h : Detaching A t₀ (k :: l) s)
    (hk : s.2.nodes.get k = some kd) (h0 : kd.pathAnchors = 0) : kd.children = [] := by
  obtain ⟨kd', hk', hup, _⟩ := h.chain_tail
  cases hk.symm.trans hk'
  by_contra hne
  obtain ⟨c, hc⟩ := exists_mem_of_ne_nil _ hne
  obtain ⟨cd, hcd, hcp⟩ := h.trie.children hk hc
  have hcl : c ∉ k :: l := by
    rw [← hup]
    exact h.trie.child_not_mem_up hk hcd hcp
  obtain ⟨a, ha, hca⟩ := h.anchored hcd hcl
  obtain ⟨ad, had⟩ := h.counted.live ha
  have hka : k ∈ up s.2 a := by
    refine mem_path_trans (h.trie.grounded had) hca ?_
    rw [path_step (by rw [par_eq hcd]; exact hcp) (h.trie.grounded hk)]
    exact mem_cons_of_mem _ (h.trie.mem_up_self hk)
  have hpos : 0 < A.countP (fun a => decide (k ∈ up s.2 a)) :=
    countP_pos_iff.mpr ⟨a, ha, by simpa using hka⟩
  rw [← h.counted.path hk] at hpos
  omega

theorem Detaching.step {A : List NodeId} (h : Detaching A t₀ (k :: l) s) :
    ∃ more t', detachUnreferenced (s.2.fuel + 1) k s.2 = some (more, t')
      ∧ Detaching A t₀ l (s.1 ++ more, t') := by
  obtain ⟨kd, hk, hup, htail⟩ := h.chain_tail
  by_cases h0 : kd.pathAnchors = 0
  · have hch := h.childless hk h0
    obtain ⟨t', hrun, hrem, hheld⟩ := detachSelf_spec h.trie hk
    refine ⟨ownedBackings kd, t', ?_, ?_⟩
    · simp only [detachUnreferenced, hk, h0, hch, foldlM_nil, Option.pure_def,
        bind_eq_bind, bind_some, ne_eq, not_true_eq_false, if_false, hrun]
      rfl
    have hframe := hrem.frame h.trie hk hch h.counted h0
    constructor
    · exact hrem.trie h.trie hk hch
    · exact hrem.counted h.trie hk hch h.counted h0
    · rcases htail with rfl | ⟨p, pd, hp, hpd, rfl⟩
      · exact .inl rfl
      · have hpk : p ≠ k := by
          rintro rfl
          exact not_mem_path_above (h.trie.grounded hk) hp (h.trie.mem_up_self hk)
        exact .inr ⟨p, _, hrem.get_ne hpk hpd, (hrem.up_eq h.trie hk hch hpd hpk).symm⟩
    · intro n nd hn hnl
      obtain ⟨hnk, nd₀, hn₀, _⟩ := hrem.of_get hn
      obtain ⟨a, ha, hna⟩ := h.anchored hn₀ (by
        rw [mem_cons]
        rintro (he | hm)
        · exact hnk he
        · exact hnl hm)
      obtain ⟨ad', had'⟩ := hframe.live ha
      obtain ⟨hak, ad, had, _⟩ := hrem.of_get had'
      exact ⟨a, ha, by rw [hrem.up_eq h.trie hk hch had hak]; exact hna⟩
    · exact h.rest.trans hrem.rest
    · exact h.frame.trans hframe
    · intro n nd hn
      obtain ⟨_, nd₀, hn₀, rfl⟩ := hrem.of_get hn
      obtain ⟨nd₁, hn₁, hp⟩ := h.pages hn₀
      exact ⟨nd₁, hn₁, hp⟩
    · refine h.held.trans ?_
      rw [append_assoc]
      exact hheld.append_left _
  · refine ⟨[], s.2, ?_, ?_⟩
    · simp only [detachUnreferenced, hk, ne_eq, h0, not_false_eq_true, if_true]
    · refine ⟨h.trie, h.counted, ?_, ?_, h.rest, h.frame, h.pages, by simpa using h.held⟩
      · rcases htail with rfl | ⟨p, pd, _, hpd, rfl⟩
        · exact .inl rfl
        · exact .inr ⟨p, pd, hpd, rfl⟩
      · intro n nd hn hnl
        by_cases hnk : n = k
        · subst hnk
          have hpos : 0 < A.countP (fun a => decide (n ∈ up s.2 a)) := by
            rw [← h.counted.path hk]
            exact Nat.pos_of_ne_zero h0
          obtain ⟨a, ha, hm⟩ := countP_pos_iff.mp hpos
          exact ⟨a, ha, by simpa using hm⟩
        · exact h.anchored hn (by
            rw [mem_cons]
            rintro (he | hm)
            · exact hnk he
            · exact hnl hm)

/-- **Detaching** never fails, and leaves no node without an anchor. -/
theorem detachAll_spec (ht : Trie t) (hc : Counted t A) (hn : t.nodes.get n = some nd)
    (hoff : ∀ {m md}, t.nodes.get m = some md → m ∉ up t n → ∃ a ∈ A, m ∈ up t a) :
    ∃ freed t', detachAll (up t n) t = some (freed, t') ∧ Detaching A t [] (freed, t') := by
  have hinit : Detaching A t (up t n) ([], t) :=
    ⟨ht, hc, .inr ⟨n, nd, hn, rfl⟩, hoff, .refl t, .refl (fun ha => hc.live ha), fun hm => ⟨_, hm, rfl⟩, by simp⟩
  obtain ⟨⟨freed, t'⟩, hrun, hend⟩ := foldlM_rule (Detaching A t)
    (f := fun (acc : List KvPageBacking × KvPageTable) current =>
      (detachUnreferenced (acc.2.fuel + 1) current acc.2).bind fun out => some (acc.1 ++ out.1, out.2)) (by
      intro k l s h
      obtain ⟨more, t', hrun, hnext⟩ := h.step
      refine ⟨_, ?_, hnext⟩
      rw [hrun]
      rfl) hinit
  exact ⟨freed, t', hrun, hend⟩

end Pie.Proof
