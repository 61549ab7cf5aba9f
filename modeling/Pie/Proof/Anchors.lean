import Pie.Proof.Trie

/-!
# Anchors and their counts

`A` below is the list of anchors a table is meant to count: a node is in it once
for each working set that ends there, once if it is a cache root and once if it
is pinned. `Counted t A` says the counters agree with that list, `Anchored t A`
that no node is kept for nothing, and `Tight t A` that no page is.

An operation that moves an anchor is a run of steps between which the table and
its list of anchors disagree, so these are stated over any list and tied to the
table's own only at the ends.
-/

namespace Pie.Proof

open List Option Store Kv Lib Table KvPageTable

variable {k : NodeId} {l : List NodeId} {p : NodeId → Option NodeId} {kd : KvTrieNode}

/-- The counters agree with the anchors `A`. -/
structure Counted (t : KvPageTable) (A : List NodeId) : Prop where
  live : ∀ {a}, a ∈ A → ∃ ad, t.nodes.get a = some ad
  exact : ∀ {n nd}, t.nodes.get n = some nd → nd.exactAnchors = A.count n
  path : ∀ {n nd}, t.nodes.get n = some nd →
    nd.pathAnchors = A.countP (fun a => decide (n ∈ up t a))

/-- Some anchor lies at or below every node. -/
def Anchored (t : KvPageTable) (A : List NodeId) : Prop :=
  ∀ {n nd}, t.nodes.get n = some nd → ∃ a ∈ A, n ∈ up t a

/-- Some anchor reads every page, unless a residency move holds a page of its node. -/
def Tight (t : KvPageTable) (A : List NodeId) : Prop :=
  ∀ {n nd b tk h}, t.nodes.get n = some nd → nd.pages = .owned b tk h → t.inSwap n = false →
    ∀ i < b.length, ∃ a ∈ A, (⟨n, i⟩ : TriePageLocation) ∈ locs t a

namespace Table

/-- What decides the paths through a node: its parent, and how many pages it has or which it takes. -/
def geom (nd : KvTrieNode) : Option NodeId × (Nat ⊕ Runs) :=
  (nd.parent, match nd.pages with
    | .owned b _ _ => Sum.inl b.length
    | .parentSelection runs => Sum.inr runs)

def geomAt (t : KvPageTable) (n : NodeId) : Option (Option NodeId × (Nat ⊕ Runs)) :=
  (t.nodes.get n).map geom

theorem par_geom (t : KvPageTable) (n : NodeId) : par t n = (geomAt t n).bind Prod.fst := by
  cases h : t.nodes.get n <;> simp [par, geomAt, h, geom]

theorem own_geom (t : KvPageTable) (n : NodeId) : own t n = match geomAt t n with
    | none => []
    | some (_, Sum.inl k) => (range k).map (fun i => ⟨n, i⟩)
    | some (none, Sum.inr _) => []
    | some (some o, Sum.inr runs) => (runsIndices runs).map (fun i => ⟨o, i⟩) := by
  cases h : t.nodes.get n with
  | none => simp [own, geomAt, h]
  | some nd =>
    cases hp : nd.pages with
    | owned b tk hs => simp [own, geomAt, h, geom, hp]
    | parentSelection runs => cases ho : nd.parent <;> simp [own, geomAt, h, geom, hp, ho]

theorem pred_geom (t : KvPageTable) (n : NodeId) : pred t n = match geomAt t n with
    | none => none
    | some (p, Sum.inl _) => p
    | some (p, Sum.inr _) => p.bind (par t) := by
  cases h : t.nodes.get n with
  | none => simp [pred, geomAt, h]
  | some nd => cases hp : nd.pages <;> simp [pred, geomAt, h, geom, hp]

variable {t t' : KvPageTable} {n m : NodeId} {nd md : KvTrieNode}

section

variable (ht : Trie t) (h : t.nodes.get n = some nd)
include ht h

theorem up_congr
    (hg : ∀ x ∈ up t n, geomAt t' x = geomAt t x) : up t' n = up t n := by
  refine path_congr (ht.grounded h) ?_
  intro x hx
  rw [par_geom, par_geom, hg x hx]

theorem grounded_up_congr
    (hg : ∀ x ∈ up t n, geomAt t' x = geomAt t x) : Grounded (par t') n := by
  refine grounded_congr (ht.grounded h) ?_
  intro x hx
  rw [par_geom, par_geom, hg x hx]

theorem pred_congr
    (hg : ∀ x ∈ up t n, geomAt t' x = geomAt t x) {x : NodeId} (hx : x ∈ up t n) :
    pred t' x = pred t x := by
  rw [pred_geom, pred_geom, hg x hx]
  cases hgx : geomAt t x with
  | none => rfl
  | some g =>
    obtain ⟨p, k | runs⟩ := g
    · rfl
    · cases p with
      | none => rfl
      | some o =>
        -- a selection's step reads its owner too, which is on the path as well
        have hpar : par t x = some o := by rw [par_geom, hgx]; rfl
        have ho : o ∈ up t n := by
          refine mem_path_trans (ht.grounded h) hx ?_
          obtain ⟨od, hod⟩ := ht.live_parent hpar
          rw [path_step hpar (ht.grounded hod)]
          exact mem_cons_of_mem _ (ht.mem_up_self hod)
        show par t' o = par t o
        rw [par_geom, par_geom, hg o ho]

theorem locs_congr
    (hg : ∀ x ∈ up t n, geomAt t' x = geomAt t x) : locs t' n = locs t n := by
  refine gather_congr (ht.grounded_pred h) ?_ ?_
  · intro x hx
    exact pred_congr ht h hg (ht.pred_path_sub_up h hx)
  · intro x hx
    rw [own_geom, own_geom, hg x (ht.pred_path_sub_up h hx)]

end

end Table

/-! ## Walking a path of counters -/

/-- What a change of counters leaves alone. -/
structure SameShape (t t' : KvPageTable) : Prop where
  rest : t' = { t with nodes := t'.nodes }
  node : ∀ n, (t'.nodes.get n).map (fun nd => (nd.parent, nd.children, nd.pages)) =
    (t.nodes.get n).map (fun nd => (nd.parent, nd.children, nd.pages))
  issued : ∀ {n}, t.nodes.Issued n → t'.nodes.Issued n

namespace SameShape

variable {t t' : KvPageTable} {n : NodeId} {nd nd' : KvTrieNode}

section

variable (h : SameShape t t')
include h

theorem get (hn : t.nodes.get n = some nd) : ∃ nd',
    t'.nodes.get n = some nd' ∧ nd'.parent = nd.parent ∧ nd'.children = nd.children
      ∧ nd'.pages = nd.pages := by
  have := h.node n
  rw [hn] at this
  cases hn' : t'.nodes.get n with
  | none => rw [hn'] at this; simp at this
  | some nd' =>
    rw [hn'] at this
    simp only [map_some, some.injEq, Prod.mk.injEq] at this
    exact ⟨nd', rfl, this⟩

theorem of_get (hn : t'.nodes.get n = some nd') : ∃ nd,
    t.nodes.get n = some nd ∧ nd.parent = nd'.parent ∧ nd.children = nd'.children
      ∧ nd.pages = nd'.pages := by
  have := h.node n
  rw [hn] at this
  cases hn' : t.nodes.get n with
  | none => rw [hn'] at this; simp at this
  | some nd =>
    rw [hn'] at this
    simp only [map_some, some.injEq, Prod.mk.injEq] at this
    exact ⟨nd, rfl, this.1.symm, this.2.1.symm, this.2.2.symm⟩

theorem geomAt_eq (n : NodeId) : geomAt t' n = geomAt t n := by
  have h1 : ∀ s : KvPageTable, geomAt s n =
      ((s.nodes.get n).map (fun nd => (nd.parent, nd.children, nd.pages))).map (fun x =>
        (x.1, match x.2.2 with
          | .owned b _ _ => Sum.inl b.length
          | .parentSelection runs => Sum.inr runs)) := by
    intro s
    cases hs : s.nodes.get n <;> simp [geomAt, hs, geom]
  rw [h1, h1, h.node n]

theorem par_eq : par t' = par t := by
  funext n
  rw [par_geom, par_geom, h.geomAt_eq]

theorem pred_eq : pred t' = pred t := by
  funext n
  rw [pred_geom, pred_geom, h.geomAt_eq, h.par_eq]

theorem own_eq : own t' = own t := by
  funext n
  rw [own_geom, own_geom, h.geomAt_eq]

theorem up_eq : up t' = up t := by
  funext n
  rw [up, h.par_eq, up]

theorem locs_eq : locs t' = locs t := by
  funext n
  rw [locs, h.pred_eq, h.own_eq, locs]

theorem backing_eq : backing t' = backing t := by
  funext l
  cases hn : t.nodes.get l.node with
  | none =>
    have := h.node l.node
    rw [hn] at this
    cases hn' : t'.nodes.get l.node with
    | none => simp [backing, hn, hn']
    | some nd' => rw [hn'] at this; simp at this
  | some nd =>
    obtain ⟨nd', hn', _, _, hp⟩ := h.get hn
    simp [backing, hn, hn', hp]

theorem trie (ht : Trie t) : Trie t' := by
  constructor
  · intro n nd' p hn' hp
    obtain ⟨nd, hn, h1, _, _⟩ := h.of_get hn'
    obtain ⟨pd, hpd, hc⟩ := ht.parent hn (h1.trans hp)
    obtain ⟨pd', hpd', _, h3, _⟩ := h.get hpd
    exact ⟨pd', hpd', h3 ▸ hc⟩
  · intro n nd' c hn' hc
    obtain ⟨nd, hn, _, h2, _⟩ := h.of_get hn'
    obtain ⟨cd, hcd, hp⟩ := ht.children hn (h2 ▸ hc)
    obtain ⟨cd', hcd', h3, _, _⟩ := h.get hcd
    exact ⟨cd', hcd', h3.trans hp⟩
  · intro n nd' hn'
    obtain ⟨nd, hn, _, h2, _⟩ := h.of_get hn'
    exact h2 ▸ ht.nodup hn
  · intro n nd' hn'
    obtain ⟨nd, hn, h1, _, h3⟩ := h.of_get hn'
    have hp := ht.pages hn
    unfold PagesOk at hp ⊢
    rw [← h3]
    cases hpg : nd.pages with
    | owned b tk hs => rw [hpg] at hp; exact hp
    | parentSelection runs =>
      rw [hpg] at hp
      obtain ⟨o, od, b, tk, hs, k, ho, hod, hop, hr⟩ := hp
      obtain ⟨od', hod', _, _, hop'⟩ := h.get hod
      exact ⟨o, od', b, tk, hs, k, by rw [← h1]; exact ho, hod', by rw [hop']; exact hop, hr⟩
  · intro n nd' hn'
    obtain ⟨nd, hn, _, _, _⟩ := h.of_get hn'
    rw [h.par_eq]
    exact ht.grounded hn

end

end SameShape

theorem par_setNode {t : KvPageTable} (kd' : KvTrieNode) (h : t.nodes.get k = some kd) (hp : kd'.parent = kd.parent) :
    par (t.setNode k kd') = par t := by
  funext n
  unfold par setNode
  rw [GenMap.get_set h]
  split
  · rename_i he
    subst he
    rw [h]
    exact hp
  · rfl

theorem get_setNode {t : KvPageTable} {k n : NodeId} {kd kd' : KvTrieNode} (h : t.nodes.get k = some kd) :
    (t.setNode k kd').nodes.get n = if n = k then some kd' else t.nodes.get n :=
  GenMap.get_set h

/-- **Counting an anchor in.** Every node on the path counts one more, and nothing else moves. -/
theorem addPath_spec (hl : IsPath p k l) : ∀ {fuel : Nat} {t : KvPageTable}, l.length ≤ fuel → par t = p →
    (∀ x ∈ l, ∃ xd, t.nodes.get x = some xd) →
    ∃ t', addPath fuel (some k) t = some t' ∧ t' = { t with nodes := t'.nodes } ∧
      (∀ m, t'.nodes.get m = (t.nodes.get m).map (fun md =>
        { md with pathAnchors := md.pathAnchors + if m ∈ l then 1 else 0 }))
      ∧ ∀ {m}, t.nodes.Issued m → t'.nodes.Issued m := by
  induction hl with
  | @root k hk =>
    intro fuel t hf hp hlive
    obtain ⟨kd, hkd⟩ := hlive k mem_cons_self
    cases fuel with
    | zero => simp at hf
    | succ fuel =>
      have hpar : kd.parent = none := by rw [← par_eq hkd, hp]; exact hk
      refine ⟨t.setNode k { kd with pathAnchors := kd.pathAnchors + 1 }, ?_, rfl, ?_, fun hm => GenMap.issued_set hm⟩
      · cases fuel <;> simp [addPath, hkd, hpar]
      · intro m
        rw [get_setNode hkd]
        by_cases hm : m = k
        · subst hm; simp [hkd]
        · simp [hm]
  | @step k q l hk hl ih =>
    intro fuel t hf hp hlive
    obtain ⟨kd, hkd⟩ := hlive k mem_cons_self
    have hnd : k ∉ l := (nodup_cons.mp (IsPath.step hk hl).nodup).1
    cases fuel with
    | zero => simp at hf
    | succ fuel =>
      have hpar : kd.parent = some q := by rw [← par_eq hkd, hp]; exact hk
      set t₁ := t.setNode k { kd with pathAnchors := kd.pathAnchors + 1 } with ht₁
      obtain ⟨t', hrun, hrest, hget, hiss⟩ := ih (t := t₁)
        (by simpa using hf) (by rw [ht₁, par_setNode { kd with pathAnchors := kd.pathAnchors + 1 } hkd rfl, hp]) (by
          intro x hx
          obtain ⟨xd, hxd⟩ := hlive x (mem_cons_of_mem _ hx)
          refine ⟨xd, ?_⟩
          rw [ht₁, get_setNode hkd, if_neg (fun he : x = k => hnd (he ▸ hx))]
          exact hxd)
      refine ⟨t', ?_, hrest, ?_, fun hm => hiss (GenMap.issued_set hm)⟩
      · have hrun' : addPath fuel kd.parent t₁ = some t' := by rw [hpar]; exact hrun
        simp only [addPath, hkd, bind_eq_bind, bind_some]
        exact hrun'
      · intro m
        rw [hget m, ht₁, get_setNode hkd]
        by_cases hm : m = k
        · subst hm; simp [hkd, hnd]
        · simp [hm]

/-- **Counting an anchor out.** Every node on the path counts one less. -/
theorem dropPath_spec (hl : IsPath p k l) : ∀ {fuel : Nat} {t : KvPageTable}, l.length ≤ fuel → par t = p →
    (∀ x ∈ l, ∃ xd, t.nodes.get x = some xd ∧ 0 < xd.pathAnchors) →
    ∃ t', dropPath fuel (some k) t = some (l, t') ∧ t' = { t with nodes := t'.nodes } ∧
      (∀ m, t'.nodes.get m = (t.nodes.get m).map (fun md =>
        { md with pathAnchors := md.pathAnchors - if m ∈ l then 1 else 0 }))
      ∧ ∀ {m}, t.nodes.Issued m → t'.nodes.Issued m := by
  induction hl with
  | @root k hk =>
    intro fuel t hf hp hlive
    obtain ⟨kd, hkd, hpos⟩ := hlive k mem_cons_self
    cases fuel with
    | zero => simp at hf
    | succ fuel =>
      have hpar : kd.parent = none := by rw [← par_eq hkd, hp]; exact hk
      refine ⟨t.setNode k { kd with pathAnchors := kd.pathAnchors - 1 }, ?_, rfl, ?_, fun hm => GenMap.issued_set hm⟩
      · cases fuel <;> simp [dropPath, hkd, hpar, Nat.pos_iff_ne_zero.mp hpos]
      · intro m
        rw [get_setNode hkd]
        by_cases hm : m = k
        · subst hm; simp [hkd]
        · simp [hm]
  | @step k q l hk hl ih =>
    intro fuel t hf hp hlive
    obtain ⟨kd, hkd, hpos⟩ := hlive k mem_cons_self
    have hnd : k ∉ l := (nodup_cons.mp (IsPath.step hk hl).nodup).1
    cases fuel with
    | zero => simp at hf
    | succ fuel =>
      have hpar : kd.parent = some q := by rw [← par_eq hkd, hp]; exact hk
      set t₁ := t.setNode k { kd with pathAnchors := kd.pathAnchors - 1 } with ht₁
      obtain ⟨t', hrun, hrest, hget, hiss⟩ := ih (t := t₁)
        (by simpa using hf) (by rw [ht₁, par_setNode { kd with pathAnchors := kd.pathAnchors - 1 } hkd rfl, hp]) (by
          intro x hx
          obtain ⟨xd, hxd, hx0⟩ := hlive x (mem_cons_of_mem _ hx)
          refine ⟨xd, ?_, hx0⟩
          rw [ht₁, get_setNode hkd, if_neg (fun he : x = k => hnd (he ▸ hx))]
          exact hxd)
      refine ⟨t', ?_, hrest, ?_, fun hm => hiss (GenMap.issued_set hm)⟩
      · have hrun' : dropPath fuel kd.parent t₁ = some (l, t') := by
          rw [hpar]; exact hrun
        simp only [dropPath, hkd, bind_eq_bind, bind_some,
          if_neg (Nat.pos_iff_ne_zero.mp hpos)]
        rw [← ht₁, hrun']
        rfl
      · intro m
        rw [hget m, ht₁, get_setNode hkd]
        by_cases hm : m = k
        · subst hm; simp [hkd, hnd]
        · simp [hm]

theorem sameShape_of_counts {t t' : KvPageTable} {f : NodeId → KvTrieNode → KvTrieNode}
    (hrest : t' = { t with nodes := t'.nodes })
    (hf : ∀ n nd, (f n nd).parent = nd.parent ∧ (f n nd).children = nd.children ∧ (f n nd).pages = nd.pages)
    (hget : ∀ n, t'.nodes.get n = (t.nodes.get n).map (f n))
    (hiss : ∀ {n}, t.nodes.Issued n → t'.nodes.Issued n) : SameShape t t' := by
  refine ⟨hrest, ?_, hiss⟩
  intro n
  rw [hget n]
  cases h : t.nodes.get n with
  | none => rfl
  | some nd =>
    obtain ⟨h1, h2, h3⟩ := hf n nd
    simp [h1, h2, h3]

/-- **Adding an anchor** never fails on a live node, and adds exactly it to the count. -/
theorem addAnchor_spec {t : KvPageTable} {n : NodeId} {nd : KvTrieNode} {A : List NodeId}
    (ht : Trie t) (hn : t.nodes.get n = some nd) (hc : Counted t A) :
    ∃ t', t.addAnchor n = some t' ∧ SameShape t t' ∧ Counted t' (n :: A) := by
  set t₁ := t.setNode n { nd with exactAnchors := nd.exactAnchors + 1 } with ht₁
  have hpar : par t₁ = par t := par_setNode _ hn rfl
  have hlive : ∀ x ∈ up t n, ∃ xd, t₁.nodes.get x = some xd := by
    intro x hx
    obtain ⟨xd, hxd⟩ := ht.live_path hn hx
    rw [ht₁, get_setNode hn]
    split
    · exact ⟨_, rfl⟩
    · exact ⟨xd, hxd⟩
  obtain ⟨t', hrun, hrest, hget, hiss⟩ :=
    addPath_spec (l := up t n) (ht.grounded hn).isPath (ht.up_length_le hn) hpar hlive
  have hget' : ∀ m, t'.nodes.get m = (t.nodes.get m).map (fun md =>
      { md with
        exactAnchors := md.exactAnchors + if m = n then 1 else 0
        pathAnchors := md.pathAnchors + if m ∈ up t n then 1 else 0 }) := by
    intro m
    rw [hget m, ht₁, get_setNode hn]
    by_cases hm : m = n
    · subst hm; simp [hn]
    · simp [hm]
  have hshape : SameShape t t' := by
    refine sameShape_of_counts (f := fun m md =>
      { md with
        exactAnchors := md.exactAnchors + if m = n then 1 else 0
        pathAnchors := md.pathAnchors + if m ∈ up t n then 1 else 0 }) ?_ (fun _ _ => ⟨rfl, rfl, rfl⟩)
      hget' (fun hm => hiss (GenMap.issued_set hm))
    rw [hrest]; rfl
  refine ⟨t', ?_, hshape, ?_⟩
  · simp only [addAnchor, hn, bind_eq_bind, bind_some]
    exact hrun
  · constructor
    · intro a ha
      have : ∃ ad, t.nodes.get a = some ad := by
        rcases mem_cons.mp ha with rfl | ha
        · exact ⟨nd, hn⟩
        · exact hc.live ha
      obtain ⟨ad, had⟩ := this
      rw [hget' a, had]
      exact ⟨_, rfl⟩
    · intro m md' hmd'
      rw [hget' m] at hmd'
      obtain ⟨md, hmd, rfl⟩ := map_eq_some_iff.mp hmd'
      rw [count_cons, ← hc.exact hmd]
      by_cases hm : m = n
      · simp [hm]
      · simp [hm, Ne.symm hm]
    · intro m md' hmd'
      rw [hget' m] at hmd'
      obtain ⟨md, hmd, rfl⟩ := map_eq_some_iff.mp hmd'
      simp only [hc.path hmd, countP_cons, hshape.up_eq, decide_eq_true_eq]

end Pie.Proof
