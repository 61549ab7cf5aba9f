import Pie.Proof.Anchors
import Pie.Lib.Loops

/-!
# Who reads a page

An anchor reads a page of an owned node `x` when it is `x` itself, or when the
child of `x` it lies below takes that page: an owned child takes all of its
parent, a selection only its runs. That is what `page_readers` counts, node by
node and child by child, and the count agrees with the anchors one by one.
-/

namespace Pie.Proof

open List Option Store Kv Lib Table

variable {b : List KvPageBacking} {h : List (Option Hash256)} {tk : List (List (Option Hash256))}

namespace Table

/-- What a child takes of its parent. -/
def takes (cd : KvTrieNode) (i : Nat) : Bool :=
  match cd.pages with
  | .owned _ _ _ => true
  | .parentSelection runs => runs.any (fun r => r.contains i)

end Table

namespace Trie

variable {t : KvPageTable} {a n x y c : NodeId} {ad nd xd cd : KvTrieNode}

section

variable (ht : Trie t)
include ht

theorem induct_up {P : NodeId → Prop}
    (step : ∀ n nd, t.nodes.get n = some nd → (∀ p q, par t n = some q → p ∈ up t q → P p) → P n) :
    ∀ n nd, t.nodes.get n = some nd → P n := by
  have key : ∀ (k : Nat) (n : NodeId) (nd : KvTrieNode), t.nodes.get n = some nd →
      (up t n).length ≤ k → P n := by
    intro k
    induction k with
    | zero =>
      intro n nd h hk
      have hm := ht.mem_up_self h
      rw [length_eq_zero_iff.mp (Nat.le_zero.mp hk)] at hm
      simp at hm
    | succ k ih =>
      intro n nd h hk
      refine step n nd h ?_
      intro p q hq hp
      obtain ⟨qd, hqd⟩ := ht.live_parent hq
      obtain ⟨pd, hpd⟩ := ht.live_path hqd hp
      refine ih p pd hpd ?_
      obtain ⟨l₁, he⟩ := path_suffix (ht.grounded hqd) hp
      have h1 : (up t n).length = (up t q).length + 1 := by
        rw [up, path_step hq (ht.grounded hqd)]; rfl
      have h2 : (up t q).length = l₁.length + (up t p).length := by
        rw [up, he, length_append]; rfl
      omega
  intro n nd h
  exact key _ n nd h le_rfl

theorem pred_path_of_up : ∀ a ad, t.nodes.get a = some ad → ∀ y ∈ up t a,
    y ∈ path (pred t) a ∨ ∃ s sd runs, s ∈ path (pred t) a ∧ t.nodes.get s = some sd
      ∧ sd.pages = .parentSelection runs ∧ sd.parent = some y := by
  refine ht.induct_up ?_
  intro a ad ha ih y hy
  rcases (mem_path_iff (ht.grounded ha)).mp hy with rfl | ⟨q, hq, hyq⟩
  · exact .inl (mem_path_self (ht.grounded_pred ha))
  obtain ⟨qd, hqd⟩ := ht.live_parent hq
  -- what holds of the mapping that goes on above holds of this one
  have lift : ∀ p, pred t a = some p → y ∈ up t p → p ∈ up t q →
      y ∈ path (pred t) a ∨ ∃ s sd runs, s ∈ path (pred t) a ∧ t.nodes.get s = some sd
        ∧ sd.pages = .parentSelection runs ∧ sd.parent = some y := by
    intro p hp hyp hpq
    obtain ⟨pd, hpd⟩ := ht.live_path hqd hpq
    rw [path_step hp (ht.grounded_pred hpd)]
    rcases ih p q hq hpq y hyp with h | ⟨s, sd, runs, hs, hrest⟩
    · exact .inl (mem_cons_of_mem _ h)
    · exact .inr ⟨s, sd, runs, mem_cons_of_mem _ hs, hrest⟩
  rcases ht.pred_cases ha with ⟨bs, tk, hs, _, he⟩ | ⟨runs, o, od, bs, tk, hs, k, hpg, ho, hod, _, _, _, he⟩
  · exact lift q (he.trans hq) hyq (ht.mem_up_self hqd)
  · have hqo : q = o := by
      rw [par_eq ha, ho] at hq
      exact (some.inj hq).symm
    subst hqo
    rcases (mem_path_iff (ht.grounded hqd)).mp hyq with rfl | ⟨p, hp, hyp⟩
    · exact .inr ⟨a, ad, runs, mem_path_self (ht.grounded_pred ha), ha, hpg, ho⟩
    · obtain ⟨pd, hpd⟩ := ht.live_parent hp
      refine lift p (he.trans hp) hyp ?_
      rw [up, path_step hp (ht.grounded hpd)]
      exact mem_cons_of_mem _ (ht.mem_up_self hpd)

theorem selection_parent_owned {runs : Runs} (hn : t.nodes.get n = some nd)
    (hp : nd.pages = .parentSelection runs) (ho : nd.parent = some x)
    (hx : t.nodes.get x = some xd) : ∃ b tk h k, xd.pages = .owned b tk h ∧ IsPrefixRun runs k
      ∧ k ≤ b.length := by
  have hpg := ht.pages hn
  simp only [PagesOk, hp] at hpg
  obtain ⟨o, od, b, tk, h, k, h1, h2, h3, h4, h5⟩ := hpg
  rw [ho] at h1
  cases h1
  rw [hx] at h2
  cases h2
  exact ⟨b, tk, h, k, h3, h4, h5⟩

theorem owned_child_of_pred_path (ha : t.nodes.get a = some ad)
    (hx : x ∈ path (pred t) a) (hne : x ≠ a) :
    ∃ c cd, c ∈ up t a ∧ t.nodes.get c = some cd ∧ cd.parent = some x ∧ cd.pages.isOwned = true := by
  obtain ⟨z, hz, hza⟩ := exists_child (ht.grounded_pred ha) hx hne
  have hzu := ht.pred_path_sub_up ha hza
  obtain ⟨zd, hzd⟩ := ht.live_path ha hzu
  rcases ht.pred_cases hzd with ⟨bs, tk, hs, hpg, he⟩ | ⟨runs, o, od, bs, tk, hs, k, hpg, ho, hod, hop, _, _, he⟩
  · refine ⟨z, zd, hzu, hzd, ?_, by rw [hpg]; rfl⟩
    rw [← par_eq hzd, ← he]
    exact hz
  · refine ⟨o, od, ?_, hod, ?_, by rw [hop]; rfl⟩
    · refine mem_path_trans (ht.grounded ha) hzu ?_
      rw [path_step (by rw [par_eq hzd]; exact ho) (ht.grounded hod)]
      exact mem_cons_of_mem _ (ht.mem_up_self hod)
    · rw [← par_eq hod, ← he]
      exact hz

/-- **Who reads a page.** -/
theorem mem_locs_iff (ha : t.nodes.get a = some ad) (hx : t.nodes.get x = some xd)
    (hxp : xd.pages = .owned b tk h) {i : Nat} (hi : i < b.length) :
    (⟨x, i⟩ : TriePageLocation) ∈ locs t a ↔
      a = x ∨ ∃ c cd, c ∈ up t a ∧ t.nodes.get c = some cd ∧ cd.parent = some x ∧ takes cd i = true := by
  have hown : (⟨x, i⟩ : TriePageLocation) ∈ own t x := by
    rw [own_owned hx hxp]
    exact mem_map.mpr ⟨i, mem_range.mpr hi, rfl⟩
  constructor
  · intro hl
    obtain ⟨y, hy, hly⟩ := mem_gather.mp hl
    have hyu := ht.pred_path_sub_up ha hy
    obtain ⟨yd, hyd⟩ := ht.live_path ha hyu
    rcases ht.pred_cases hyd with ⟨bs, tk, hs, hpg, he⟩ | ⟨runs, o, od, bs, tk, hs, k, hpg, ho, hod, hop, hr, hk, he⟩
    · rw [own_owned hyd hpg] at hly
      obtain ⟨j, _, hj⟩ := mem_map.mp hly
      obtain rfl : y = x := congrArg TriePageLocation.node hj
      by_cases hya : y = a
      · exact .inl hya.symm
      · obtain ⟨c, cd, hc, hcd, hcp, hco⟩ := ht.owned_child_of_pred_path ha hy hya
        refine .inr ⟨c, cd, hc, hcd, hcp, ?_⟩
        cases hcpg : cd.pages with
        | owned _ _ _ => simp [takes, hcpg]
        | parentSelection _ => rw [hcpg] at hco; simp [Pages.isOwned] at hco
    · rw [own_selection hyd hpg ho, hr.indices_eq] at hly
      obtain ⟨j, hj, hjx⟩ := mem_map.mp hly
      obtain rfl : o = x := congrArg TriePageLocation.node hjx
      obtain rfl : j = i := congrArg TriePageLocation.slot hjx
      refine .inr ⟨y, yd, hyu, hyd, ho, ?_⟩
      simp only [takes, hpg]
      exact hr.contains_iff.mpr (mem_range.mp hj)
  · rintro (rfl | ⟨c, cd, hc, hcd, hcp, htk⟩)
    · exact mem_gather.mpr ⟨a, mem_path_self (ht.grounded_pred ha), hown⟩
    · cases hcpg : cd.pages with
      | owned bs' tk' hs' =>
        have hpc : pred t c = some x := by rw [pred_owned hcd hcpg]; exact hcp
        rcases ht.pred_path_of_up a ad ha c hc with hcm | ⟨s, sd, runs, hs, hsd, hsp, hso⟩
        · refine mem_gather.mpr ⟨x, ?_, hown⟩
          refine mem_path_trans (ht.grounded_pred ha) hcm ?_
          rw [path_step hpc (ht.grounded_pred hx)]
          exact mem_cons_of_mem _ (mem_path_self (ht.grounded_pred hx))
        · have hps : pred t s = some x := by
            rw [pred_selection hsd hsp hso, par_eq hcd]
            exact hcp
          refine mem_gather.mpr ⟨x, ?_, hown⟩
          refine mem_path_trans (ht.grounded_pred ha) hs ?_
          rw [path_step hps (ht.grounded_pred hx)]
          exact mem_cons_of_mem _ (mem_path_self (ht.grounded_pred hx))
      | parentSelection runs =>
        obtain ⟨_, _, _, k, _, hr, _⟩ := ht.selection_parent_owned hcd hcpg hcp hx
        simp only [takes, hcpg] at htk
        rcases ht.pred_path_of_up a ad ha c hc with hcm | ⟨s, sd, runs', _, hsd, hsp, hso⟩
        · refine mem_gather.mpr ⟨c, hcm, ?_⟩
          rw [own_selection hcd hcpg hcp, hr.indices_eq]
          exact mem_map.mpr ⟨i, mem_range.mpr (hr.contains_iff.mp htk), rfl⟩
        · -- a selection's parent is owned, so nothing steps over a selection
          obtain ⟨_, _, _, _, hco, _⟩ := ht.selection_parent_owned hsd hsp hso hcd
          rw [hcpg] at hco
          simp at hco

/-- A mapping reads a page of every owned node above it: all of them, or those a selection takes. -/
theorem reads_first (ha : t.nodes.get a = some ad) (hx : t.nodes.get x = some xd)
    (hown : xd.pages.isOwned = true) (hxa : x ∈ up t a) : (⟨x, 0⟩ : TriePageLocation) ∈ locs t a := by
  have hpg := ht.pages hx
  cases hxp : xd.pages with
  | parentSelection _ => rw [hxp] at hown; simp [Pages.isOwned] at hown
  | owned b tk h =>
    simp only [PagesOk, hxp] at hpg
    rcases ht.pred_path_of_up a ad ha x hxa with hm | ⟨s, sd, runs, hs, hsd, hsp, hso⟩
    · refine mem_gather.mpr ⟨x, hm, ?_⟩
      rw [own_owned hx hxp]
      exact mem_map.mpr ⟨0, mem_range.mpr (length_pos_iff.mpr hpg.1), rfl⟩
    · obtain ⟨_, _, _, k, _, hr, _⟩ := ht.selection_parent_owned hsd hsp hso hx
      refine mem_gather.mpr ⟨s, hs, ?_⟩
      rw [own_selection hsd hsp hso, hr.indices_eq]
      exact mem_map.mpr ⟨0, mem_range.mpr hr.1, rfl⟩

theorem child_not_mem_up (hx : t.nodes.get x = some xd) (hc : t.nodes.get c = some cd)
    (hp : cd.parent = some x) : c ∉ up t x := fun h =>
  not_mem_path_above (ht.grounded hx) (by rw [par_eq hc]; exact hp) h

end

end Trie

/-! ## Counting them -/

section Readers

variable {t : KvPageTable} {x : NodeId} {xd : KvTrieNode} {i : Nat}

/-- What a child adds to the readers of a page of its parent. -/
def childReaders (t : KvPageTable) (i : Nat) (c : NodeId) : Nat :=
  match t.nodes.get c with
  | none => 0
  | some cd => if takes cd i then cd.pathAnchors else 0

theorem pageReaders_eq (ht : Trie t) (hx : t.nodes.get x = some xd) :
    t.pageReaders x i = some (xd.exactAnchors + (xd.children.map (childReaders t i)).sum) := by
  simp only [KvPageTable.pageReaders, hx, bind_eq_bind, bind_some]
  rw [mapM_eq_map (g := childReaders t i)]
  · rfl
  · intro c hc
    obtain ⟨cd, hcd, _⟩ := ht.children hx hc
    cases hp : cd.pages <;> simp [childReaders, hcd, takes, hp]

theorem sum_children_of_anchor (ht : Trie t) (hx : t.nodes.get x = some xd)
    (hxp : xd.pages = .owned b tk h) (hi : i < b.length) {a : NodeId} {ad : KvTrieNode}
    (ha : t.nodes.get a = some ad) :
    (if a = x then 1 else 0) + (xd.children.map (fun c =>
      if (t.nodes.get c).any (fun cd => takes cd i) ∧ c ∈ up t a then 1 else 0)).sum
      = if (⟨x, i⟩ : TriePageLocation) ∈ locs t a then 1 else 0 := by
  have hzero : ∀ l : List NodeId, (∀ c ∈ l, ¬ ((t.nodes.get c).any (fun cd => takes cd i) = true
      ∧ c ∈ up t a)) → (l.map (fun c =>
        if (t.nodes.get c).any (fun cd => takes cd i) ∧ c ∈ up t a then 1 else 0)).sum = 0 := by
    intro l hl
    refine sum_eq_zero ?_
    intro v hv
    obtain ⟨c, hc, rfl⟩ := mem_map.mp hv
    exact if_neg (hl c hc)
  classical
  rw [if_congr (ht.mem_locs_iff ha hx hxp hi) rfl rfl]
  by_cases hax : a = x
  · subst hax
    rw [if_pos rfl, if_pos (.inl rfl), hzero]
    rintro c hc ⟨_, hcu⟩
    obtain ⟨cd, hcd, hp⟩ := ht.children hx hc
    exact ht.child_not_mem_up hx hcd hp hcu
  · rw [if_neg hax, zero_add]
    by_cases hr : ∃ c cd, c ∈ up t a ∧ t.nodes.get c = some cd ∧ cd.parent = some x
        ∧ takes cd i = true
    · rw [if_pos (.inr hr)]
      obtain ⟨c, cd, hcu, hcd, hp, htk⟩ := hr
      obtain ⟨xd', hx', hcc⟩ := ht.parent hcd hp
      obtain rfl : xd = xd' := some.inj (hx.symm.trans hx')
      obtain ⟨l₁, l₂, hl⟩ := append_of_mem hcc
      have hnd := ht.nodup hx
      rw [hl] at hnd
      -- any other child the anchor lies below would be this one
      have hother : ∀ d, d ∈ xd.children → d ≠ c → d ∉ up t a := by
        intro d hd hne hdu
        obtain ⟨dd, hdd, hdp⟩ := ht.children hx hd
        exact hne (child_unique (ht.grounded ha) hdu hcu (by rw [par_eq hdd]; exact hdp)
          (by rw [par_eq hcd]; exact hp))
      have hc₁ : c ∉ l₁ := fun hm => (nodup_append.mp hnd).2.2 c hm c mem_cons_self rfl
      have hc₂ : c ∉ l₂ := (nodup_cons.mp (nodup_append.mp hnd).2.1).1
      rw [hl, map_append, map_cons, sum_append, sum_cons, hzero l₁, hzero l₂, if_pos ⟨by rw [hcd]; exact htk, hcu⟩]
      · rintro d hd ⟨_, hdu⟩
        exact hother d (by rw [hl]; simp [hd]) (fun he => hc₂ (he ▸ hd)) hdu
      · rintro d hd ⟨_, hdu⟩
        exact hother d (by rw [hl]; simp [hd]) (fun he => hc₁ (he ▸ hd)) hdu
    · rw [if_neg (by rintro (h | h); exact hax h; exact hr h), hzero]
      rintro c hc ⟨htk, hcu⟩
      obtain ⟨cd, hcd, hp⟩ := ht.children hx hc
      exact hr ⟨c, cd, hcu, hcd, hp, by rw [hcd] at htk; exact htk⟩

/-- **`page_readers` counts the anchors that read the page.** -/
theorem pageReaders_spec {A : List NodeId} (ht : Trie t) (hcount : Counted t A)
    (hx : t.nodes.get x = some xd) (hxp : xd.pages = .owned b tk h)
    (hi : i < b.length) :
    t.pageReaders x i = some (A.countP (fun a => decide ((⟨x, i⟩ : TriePageLocation) ∈ locs t a))) := by
  rw [pageReaders_eq ht hx]
  congr 1
  have hchild : xd.children.map (childReaders t i) = xd.children.map (fun c =>
      A.countP (fun a => decide ((t.nodes.get c).any (fun cd => takes cd i) = true ∧ c ∈ up t a))) := by
    refine map_congr_left ?_
    intro c hc
    obtain ⟨cd, hcd, _⟩ := ht.children hx hc
    by_cases htk : takes cd i = true
    · simp [childReaders, hcd, htk, hcount.path hcd]
    · simp [childReaders, hcd, htk]
  rw [hchild, hcount.exact hx]
  have key : ∀ A : List NodeId, (∀ a ∈ A, ∃ ad, t.nodes.get a = some ad) →
      A.count x + (xd.children.map (fun c => A.countP (fun a =>
        decide ((t.nodes.get c).any (fun cd => takes cd i) = true ∧ c ∈ up t a)))).sum
      = A.countP (fun a => decide ((⟨x, i⟩ : TriePageLocation) ∈ locs t a)) := by
    intro A
    induction A with
    | nil => intro _; simp
    | cons a A ih =>
      intro hlive
      obtain ⟨ad, had⟩ := hlive a mem_cons_self
      have hA := ih (fun b hb => hlive b (mem_cons_of_mem _ hb))
      have ha := sum_children_of_anchor ht hx hxp hi had
      simp only [count_cons, countP_cons, decide_eq_true_eq, sum_map_add, beq_iff_eq]
      rw [← hA, ← ha]
      omega
  exact key A (fun a ha => hcount.live ha)

end Readers

end Pie.Proof
