import Pie.Proof.Frame

/-!
# Changing the pages of one node

Compaction, appending in place, a commit of hashes and a residency commit all
replace the pages of one owned node and leave the links and counters alone.
-/

namespace Pie.Proof

open Store Kv Lib Table

variable {t t' : KvPageTable} {m n : NodeId} {nd : KvTrieNode} {A : List NodeId}
  {b b' : List KvPageBacking}

/-- `t'` is `t` with the pages `b` of the owned node `m` replaced by `b'`. -/
structure Repaged (t : KvPageTable) (m : NodeId) (b b' : List KvPageBacking) (t' : KvPageTable) :
    Prop where
  rest : SameRest t t'
  get_ne : ∀ n, n ≠ m → t'.nodes.get n = t.nodes.get n
  get_self : ∃ md tk h tk' h', t.nodes.get m = some md ∧ md.pages = .owned b tk h
    ∧ b' ≠ [] ∧ tk'.length = b'.length ∧ h'.length = b'.length
    ∧ t'.nodes.get m = some { md with pages := .owned b' tk' h' }
  issued : ∀ {n}, t.nodes.Issued n → t'.nodes.Issued n

theorem repaged_setNode (hm : t.nodes.get m = some nd) {tk tk' : List (List (Option Hash256))}
    {h h' : List (Option Hash256)} (hp : nd.pages = .owned b tk h) (hb : b' ≠ [])
    (htk : tk'.length = b'.length) (hh : h'.length = b'.length) :
    Repaged t m b b' (t.setNode m { nd with pages := .owned b' tk' h' }) := by
  refine ⟨.setNode t m _, ?_, ⟨nd, tk, h, tk', h', hm, hp, hb, htk, hh, ?_⟩, fun h => GenMap.issued_set h⟩
  · intro n hn
    rw [get_setNode hm, if_neg hn]
  · rw [get_setNode hm, if_pos rfl]

namespace Repaged

/-- Nodes may be stored again without a change. -/
theorem congr (h : Repaged t m b b' t') {t'' : KvPageTable} (hrest : SameRest t' t'')
    (hget : ∀ n, t''.nodes.get n = t'.nodes.get n)
    (hiss : ∀ {n}, t'.nodes.Issued n → t''.nodes.Issued n) : Repaged t m b b' t'' where
  rest := h.rest.trans hrest
  get_ne n hn := (hget n).trans (h.get_ne n hn)
  get_self := by
    obtain ⟨md, tk, hs, tk', hs', hm, hmp, hb, htk, hhs, hm'⟩ := h.get_self
    exact ⟨md, tk, hs, tk', hs', hm, hmp, hb, htk, hhs, (hget m).trans hm'⟩
  issued hn := hiss (h.issued hn)

variable (h : Repaged t m b b' t')

include h

theorem live (hn : t.nodes.get n = some nd) : ∃ nd', t'.nodes.get n = some nd'
    ∧ nd'.parent = nd.parent ∧ nd'.children = nd.children ∧ nd'.exactAnchors = nd.exactAnchors
    ∧ nd'.pathAnchors = nd.pathAnchors ∧ (n ≠ m → nd' = nd) := by
  by_cases he : n = m
  · subst he
    obtain ⟨md, tk, hs, tk', hs', hm, _, _, _, _, hm'⟩ := h.get_self
    cases hn.symm.trans hm
    exact ⟨_, hm', rfl, rfl, rfl, rfl, fun hc => absurd rfl hc⟩
  · exact ⟨nd, by rw [h.get_ne n he]; exact hn, rfl, rfl, rfl, rfl, fun _ => rfl⟩

theorem of_live {nd' : KvTrieNode} (hn : t'.nodes.get n = some nd') : ∃ nd, t.nodes.get n = some nd
    ∧ nd'.parent = nd.parent ∧ nd'.children = nd.children ∧ nd'.exactAnchors = nd.exactAnchors
    ∧ nd'.pathAnchors = nd.pathAnchors ∧ (n ≠ m → nd' = nd) := by
  cases hn₀ : t.nodes.get n with
  | none =>
    exfalso
    by_cases he : n = m
    · subst he
      obtain ⟨md, _, _, _, _, hm, _⟩ := h.get_self
      rw [hn₀] at hm; simp at hm
    · rw [h.get_ne n he, hn₀] at hn; simp at hn
  | some nd =>
    obtain ⟨nd'', hn'', hrest⟩ := h.live hn₀
    cases hn.symm.trans hn''
    exact ⟨nd, rfl, hrest⟩

theorem par_eq : par t' = par t := by
  funext n
  cases hn : t.nodes.get n with
  | none =>
    have hne : n ≠ m := by
      rintro rfl
      obtain ⟨md, _, _, _, _, hm, _⟩ := h.get_self
      rw [hn] at hm; simp at hm
    simp [par, h.get_ne n hne]
  | some nd =>
    obtain ⟨nd', hn', hp, _⟩ := h.live hn
    simp [par, hn, hn', hp]

theorem up_eq (n : NodeId) : up t' n = up t n := by rw [up, h.par_eq, up]

theorem pred_eq : pred t' = pred t := by
  funext n
  by_cases he : n = m
  · subst he
    obtain ⟨md, tk, hs, tk', hs', hm, hmp, _, _, _, hm'⟩ := h.get_self
    rw [pred_owned hm hmp, pred_owned hm' rfl]
  · unfold pred
    rw [h.get_ne n he, h.par_eq]

theorem own_ne (hn : n ≠ m) : own t' n = own t n := by
  unfold own
  rw [h.get_ne n hn]

/-- What is left of the node covers what its selections take. -/
theorem trie (ht : Trie t) (hsel : ∀ {c cd runs k}, t.nodes.get c = some cd → cd.parent = some m →
    cd.pages = .parentSelection runs → IsPrefixRun runs k → k ≤ b.length → k ≤ b'.length) :
    Trie t' := by
  constructor
  · intro n nd' p hn' hp
    obtain ⟨nd, hn, h1, _⟩ := h.of_live hn'
    obtain ⟨pd, hpd, hmem⟩ := ht.parent hn (by rw [← h1]; exact hp)
    obtain ⟨pd', hpd', _, h2, _⟩ := h.live hpd
    exact ⟨pd', hpd', by rw [h2]; exact hmem⟩
  · intro n nd' c hn' hc
    obtain ⟨nd, hn, _, h2, _⟩ := h.of_live hn'
    obtain ⟨cd, hcd, hp⟩ := ht.children hn (by rw [← h2]; exact hc)
    obtain ⟨cd', hcd', h1, _⟩ := h.live hcd
    exact ⟨cd', hcd', by rw [h1]; exact hp⟩
  · intro n nd' hn'
    obtain ⟨nd, hn, _, h2, _⟩ := h.of_live hn'
    rw [h2]
    exact ht.nodup hn
  · intro n nd' hn'
    obtain ⟨md, tk, hs, tk', hs', hm, hmp, hb, htk, hhs, hm'⟩ := h.get_self
    by_cases he : n = m
    · subst he
      cases hm'.symm.trans hn'
      exact ⟨hb, htk, hhs⟩
    · rw [h.get_ne n he] at hn'
      have hp := ht.pages hn'
      unfold PagesOk at hp ⊢
      cases hpg : nd'.pages with
      | owned b₁ tk₁ hs₁ => rw [hpg] at hp; exact hp
      | parentSelection runs =>
        rw [hpg] at hp
        obtain ⟨o, od, b₁, tk₁, hs₁, j, ho, hod, hop, hr, hj⟩ := hp
        by_cases hom : o = m
        · subst hom
          cases hm.symm.trans hod
          obtain ⟨rfl, _, _⟩ : b = b₁ ∧ tk = tk₁ ∧ hs = hs₁ := by simpa [hmp] using hop
          exact ⟨o, _, _, _, _, j, ho, hm', rfl, hr, hsel hn' ho hpg hr hj⟩
        · exact ⟨o, od, b₁, tk₁, hs₁, j, ho, by rw [h.get_ne o hom]; exact hod, hop, hr, hj⟩
  · intro n nd' hn'
    obtain ⟨nd, hn, _⟩ := h.of_live hn'
    rw [h.par_eq]
    exact ht.grounded hn

theorem counted (hc : Counted t A) : Counted t' A := by
  constructor
  · intro a ha
    obtain ⟨ad, had⟩ := hc.live ha
    obtain ⟨ad', had', _⟩ := h.live had
    exact ⟨ad', had'⟩
  · intro n nd' hn'
    obtain ⟨nd, hn, _, _, h3, _⟩ := h.of_live hn'
    rw [h3, hc.exact hn]
  · intro n nd' hn'
    obtain ⟨nd, hn, _, _, _, h4, _⟩ := h.of_live hn'
    rw [h4, hc.path hn]
    refine List.countP_congr ?_
    intro a _
    rw [h.up_eq]

theorem anchored (hanch : Anchored t A) : Anchored t' A := by
  intro n nd' hn'
  obtain ⟨nd, hn, _⟩ := h.of_live hn'
  obtain ⟨a, ha, hna⟩ := hanch hn
  exact ⟨a, ha, by rw [h.up_eq]; exact hna⟩

theorem locs_eq (hg : Grounded (pred t) n) (hm : m ∉ path (pred t) n) : locs t' n = locs t n := by
  refine gather_congr hg ?_ ?_
  · intro x _
    rw [h.pred_eq]
  · intro x hx
    exact h.own_ne (fun he => hm (he ▸ hx))

theorem locs_same (hlen : b'.length = b.length) : locs t' n = locs t n := by
  have hown : own t' = own t := by
    funext x
    by_cases he : x = m
    · subst he
      obtain ⟨md, tk, hs, tk', hs', hm, hmp, _, _, _, hm'⟩ := h.get_self
      rw [own_owned hm hmp, own_owned hm' rfl, hlen]
    · exact h.own_ne he
  rw [locs, h.pred_eq, hown, locs]

theorem backing_ne {l : TriePageLocation} (hne : l.node ≠ m) : backing t' l = backing t l := by
  unfold backing
  rw [h.get_ne _ hne]

theorem backing_self (i : Nat) : backing t ⟨m, i⟩ = b[i]? ∧ backing t' ⟨m, i⟩ = b'[i]? := by
  obtain ⟨md, tk, hs, tk', hs', hm, hmp, _, _, _, hm'⟩ := h.get_self
  exact ⟨by simp [backing, hm, hmp], by simp [backing, hm']⟩

theorem backing_slot {l : TriePageLocation} (hl : l.node = m → b'[l.slot]? = b[l.slot]?) :
    backing t' l = backing t l := by
  by_cases he : l.node = m
  · obtain ⟨h1, h2⟩ := h.backing_self l.slot
    rw [← he] at h1 h2
    rw [h1, h2, hl he]
  · exact h.backing_ne he

theorem held_perm : (held t' ++ b).Perm (held t ++ b') := by
  obtain ⟨md, tk, hs, tk', hs', hm, hmp, _, _, _, hm'⟩ := h.get_self
  have h1 := held_setNode { md with pages := .owned b' tk' hs' } hm
  rw [show ownedBackings md = b by simp [ownedBackings, hmp]] at h1
  refine (List.Perm.append_right b ?_).trans h1
  refine held_congr ?_
  intro n
  rw [get_setNode hm]
  by_cases he : n = m
  · rw [if_pos he, he, hm']
  · rw [if_neg he, h.get_ne n he]

/-- What every change of a node's pages that keeps its locations leaves alone. -/
theorem stale_of {nd' : KvTrieNode} (hn : t'.nodes.get n = some nd') : ∃ nd, t.nodes.get n = some nd := by
  obtain ⟨nd, hnd, _⟩ := h.of_live hn
  exact ⟨nd, hnd⟩

end Repaged

end Pie.Proof
