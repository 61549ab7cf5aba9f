import Pie.Kv.PageTable
import Pie.Lib.Climb

/-!
# The shape of the page trie

What the table's nodes mean, apart from how its loops compute it. `par` is the
parent pointer, `pred` the step a mapping takes (a selection stands in for its
owner, so it steps over it), `own` the pages a node contributes and `locs` the
pages on the path to it.

`Trie` is the shape every operation keeps: links agree both ways, no path runs
forever, and a selection takes a first part of an owned parent.
-/

namespace Pie.Proof

open List Store Kv Lib

variable {hs : List (Option Hash256)} {runs : Runs} {tk : List (List (Option Hash256))}

namespace Table

variable (t : KvPageTable)

/-- The parent pointer of a live node. -/
def par (n : NodeId) : Option NodeId := (t.nodes.get n).bind KvTrieNode.parent

/-- The node a mapping continues with. -/
def pred (n : NodeId) : Option NodeId :=
  match t.nodes.get n with
  | none => none
  | some nd =>
    match nd.pages with
    | .owned _ _ _ => nd.parent
    | .parentSelection _ => nd.parent.bind (par t)

/-- The pages a node contributes to a path. -/
def own (n : NodeId) : List TriePageLocation :=
  match t.nodes.get n with
  | none => []
  | some nd =>
    match nd.pages with
    | .owned b _ _ => (List.range b.length).map (fun i => ⟨n, i⟩)
    | .parentSelection runs =>
      match nd.parent with
      | none => []
      | some o => (runsIndices runs).map (fun i => ⟨o, i⟩)

/-- The pages on the path to `n`, first page first. -/
noncomputable def locs (n : NodeId) : List TriePageLocation :=
  gather (pred t) (own t) n

/-- The pages of an optional terminal. -/
noncomputable def termLocs : Option NodeId → List TriePageLocation
  | none => []
  | some n => locs t n

/-- The page a location is backed by. -/
def backing (l : TriePageLocation) : Option KvPageBacking :=
  match t.nodes.get l.node with
  | none => none
  | some nd =>
    match nd.pages with
    | .owned b _ _ => b[l.slot]?
    | .parentSelection _ => none

/-- The pages a node owns. -/
def ownedBackings (nd : KvTrieNode) : List KvPageBacking :=
  match nd.pages with
  | .owned b _ _ => b
  | .parentSelection _ => []

/-- Every page the trie holds. -/
def held : List KvPageBacking :=
  t.nodes.entries.flatMap (fun e => ownedBackings e.2)

/-- The nodes above `n`, itself first. -/
noncomputable def up (n : NodeId) : List NodeId := path (par t) n

/-- What `nd` must look like for its pages to be well formed. -/
def PagesOk (nd : KvTrieNode) : Prop :=
  match nd.pages with
  | .owned b tk h => b ≠ [] ∧ tk.length = b.length ∧ h.length = b.length
  | .parentSelection runs =>
    ∃ o od b tk h k, nd.parent = some o ∧ t.nodes.get o = some od ∧ od.pages = .owned b tk h
      ∧ IsPrefixRun runs k ∧ k ≤ b.length

end Table

open Table

/-- The shape of the trie. -/
structure Trie (t : KvPageTable) : Prop where
  /-- A node is listed by its parent. -/
  parent : ∀ {n nd p}, t.nodes.get n = some nd → nd.parent = some p →
    ∃ pd, t.nodes.get p = some pd ∧ n ∈ pd.children
  /-- A listed child points back. -/
  children : ∀ {n nd c}, t.nodes.get n = some nd → c ∈ nd.children →
    ∃ cd, t.nodes.get c = some cd ∧ cd.parent = some n
  /-- No child is listed twice. -/
  nodup : ∀ {n nd}, t.nodes.get n = some nd → nd.children.Nodup
  /-- Owned pages come with their hashes; a selection takes the first pages of an owned parent. -/
  pages : ∀ {n nd}, t.nodes.get n = some nd → PagesOk t nd
  /-- Climbing from a node ends. -/
  grounded : ∀ {n nd}, t.nodes.get n = some nd → Grounded (par t) n

namespace Table

variable {t t' : KvPageTable} {n p o c m : NodeId} {nd pd od : KvTrieNode} {l : TriePageLocation}

theorem par_eq (h : t.nodes.get n = some nd) : par t n = nd.parent := by simp [par, h]

variable {b : List KvPageBacking}

section

variable (h : t.nodes.get n = some nd)
include h

theorem pred_owned (hp : nd.pages = .owned b tk hs) : pred t n = nd.parent := by
  simp [pred, h, hp]

theorem pred_selection
    (hp : nd.pages = .parentSelection runs) (ho : nd.parent = some o) : pred t n = par t o := by
  simp [pred, h, hp, ho]

theorem own_owned (hp : nd.pages = .owned b tk hs) :
    own t n = (range b.length).map (fun i => ⟨n, i⟩) := by
  simp [own, h, hp]

theorem own_selection
    (hp : nd.pages = .parentSelection runs) (ho : nd.parent = some o) :
    own t n = (runsIndices runs).map (fun i => ⟨o, i⟩) := by
  simp [own, h, hp, ho]

end

end Table

namespace Trie

variable {t : KvPageTable} {n p a b : NodeId} {nd pd : KvTrieNode}

section

variable (ht : Trie t)
include ht

theorem live_parent (h : par t n = some p) : ∃ pd, t.nodes.get p = some pd := by
  cases hn : t.nodes.get n with
  | none => simp [par, hn] at h
  | some nd =>
    obtain ⟨pd, hp, _⟩ := ht.parent hn (by simpa [par, hn] using h)
    exact ⟨pd, hp⟩

theorem live_path (h : t.nodes.get n = some nd) (ha : a ∈ up t n) : ∃ ad, t.nodes.get a = some ad := by
  have key : ∀ {k l}, IsPath (par t) k l → (∃ kd, t.nodes.get k = some kd) →
      ∀ a ∈ l, ∃ ad, t.nodes.get a = some ad := by
    intro k l hl
    induction hl with
    | root _ =>
      intro hk a ha
      rw [mem_singleton.mp ha]
      exact hk
    | step hk _ ih =>
      intro hlive a ha
      rcases mem_cons.mp ha with rfl | ha
      · exact hlive
      · exact ih (ht.live_parent hk) a ha
  exact key (ht.grounded h).isPath ⟨nd, h⟩ a ha

theorem up_length_le (h : t.nodes.get n = some nd) : (up t n).length ≤ t.fuel := by
  refine le_trans (path_length_le (ht.grounded h) ?_)
    t.nodes.keys_length_le
  intro a ha
  exact GenMap.mem_keys.mpr (ht.live_path h ha)

theorem mem_up_self (h : t.nodes.get n = some nd) : n ∈ up t n :=
  mem_path_self (ht.grounded h)

/-- The parent of an owned node, or of a selection's owner, comes next in a mapping. -/
theorem pred_cases (h : t.nodes.get n = some nd) :
    (∃ bs tk hs, nd.pages = .owned bs tk hs ∧ pred t n = par t n) ∨
    (∃ runs o od bs tk hs k, nd.pages = .parentSelection runs ∧ nd.parent = some o
      ∧ t.nodes.get o = some od ∧ od.pages = .owned bs tk hs
      ∧ IsPrefixRun runs k ∧ k ≤ bs.length ∧ pred t n = par t o) := by
  have hp := ht.pages h
  cases hpg : nd.pages with
  | owned bs tk hs => exact .inl ⟨bs, tk, hs, rfl, by rw [pred_owned h hpg, par_eq h]⟩
  | parentSelection runs =>
    simp only [PagesOk, hpg] at hp
    obtain ⟨o, od, bs, tk, hs, k, h1, h2, h3, h4, h5⟩ := hp
    exact .inr ⟨runs, o, od, bs, tk, hs, k, rfl, h1, h2, h3, h4, h5, pred_selection h hpg h1⟩

/-- Whatever `pred` steps to lies strictly above in the trie. -/
theorem pred_up (h : t.nodes.get n = some nd) (hp : pred t n = some p) :
    ∃ q, par t n = some q ∧ p ∈ up t q := by
  rcases ht.pred_cases h with ⟨bs, tk, hs, hpg, he⟩ | ⟨runs, o, od, bs, tk, hs, k, hpg, ho, hod, _, _, _, he⟩
  · rw [he] at hp
    obtain ⟨pd, hpd⟩ := ht.live_parent hp
    exact ⟨p, hp, ht.mem_up_self hpd⟩
  · rw [he] at hp
    obtain ⟨pd, hpd⟩ := ht.live_parent hp
    refine ⟨o, by rw [par_eq h]; exact ho, ?_⟩
    rw [up, path_step hp (ht.grounded hpd)]
    exact mem_cons_of_mem _ (ht.mem_up_self hpd)

theorem grounded_pred (h : t.nodes.get n = some nd) : Grounded (pred t) n := by
  -- by induction on how much of the trie lies above `n`
  have key : ∀ (k : Nat) (n : NodeId) (nd : KvTrieNode), t.nodes.get n = some nd →
      (up t n).length ≤ k → Grounded (pred t) n := by
    intro k
    induction k with
    | zero =>
      intro n nd h hk
      have hm := ht.mem_up_self h
      rw [length_eq_zero_iff.mp (Nat.le_zero.mp hk)] at hm
      simp at hm
    | succ k ih =>
      intro n nd h hk
      cases hp : pred t n with
      | none => exact grounded_root hp
      | some p =>
        obtain ⟨q, hq, hpq⟩ := ht.pred_up h hp
        obtain ⟨qd, hqd⟩ := ht.live_parent hq
        obtain ⟨pd, hpd⟩ := ht.live_path hqd hpq
        refine grounded_step hp (ih p pd hpd ?_)
        obtain ⟨l₁, he⟩ := path_suffix (ht.grounded hqd) hpq
        have h1 : (up t n).length = (up t q).length + 1 := by
          rw [up, path_step hq (ht.grounded hqd)]; rfl
        have h2 : (up t q).length = l₁.length + (up t p).length := by
          rw [up, he, length_append]; rfl
        omega
  exact key _ n nd h le_rfl

theorem pred_path_sub_up (h : t.nodes.get n = some nd) (ha : a ∈ path (pred t) n) : a ∈ up t n := by
  have key : ∀ {k l}, IsPath (pred t) k l → ∀ {kd}, t.nodes.get k = some kd →
      ∀ a ∈ l, a ∈ up t k := by
    intro k l hl
    induction hl with
    | root _ =>
      intro kd hk a ha
      rw [mem_singleton.mp ha]
      exact ht.mem_up_self hk
    | @step k p l hp _ ih =>
      intro kd hk a ha
      rcases mem_cons.mp ha with rfl | ha
      · exact ht.mem_up_self hk
      · obtain ⟨q, hq, hpq⟩ := ht.pred_up hk hp
        obtain ⟨qd, hqd⟩ := ht.live_parent hq
        obtain ⟨pd, hpd⟩ := ht.live_path hqd hpq
        rw [up, path_step hq (ht.grounded hqd)]
        exact mem_cons_of_mem _ (mem_path_trans (ht.grounded hqd) hpq (ih hpd a ha))
  exact key (ht.grounded_pred h).isPath h a ha

theorem mem_locs_up (h : t.nodes.get n = some nd) {l : TriePageLocation}
    (hl : l ∈ locs t n) : l.node ∈ up t n ∧ ∃ od bs tk hs, t.nodes.get l.node = some od
      ∧ od.pages = .owned bs tk hs ∧ l.slot < bs.length := by
  obtain ⟨a, ha, hla⟩ := mem_gather.mp hl
  have hup := ht.pred_path_sub_up h ha
  obtain ⟨ad, had⟩ := ht.live_path h hup
  rcases ht.pred_cases had with ⟨bs, tk, hs, hpg, _⟩ | ⟨runs, o, od, bs, tk, hs, k, hpg, ho, hod, hop, hr, hk, _⟩
  · rw [own_owned had hpg] at hla
    obtain ⟨i, hi, rfl⟩ := mem_map.mp hla
    exact ⟨hup, ad, bs, tk, hs, had, hpg, mem_range.mp hi⟩
  · rw [own_selection had hpg ho, hr.indices_eq] at hla
    obtain ⟨i, hi, rfl⟩ := mem_map.mp hla
    refine ⟨?_, od, bs, tk, hs, hod, hop, lt_of_lt_of_le (mem_range.mp hi) hk⟩
    refine mem_path_trans (ht.grounded h) hup ?_
    rw [path_step (by rw [par_eq had]; exact ho) (ht.grounded hod)]
    exact mem_cons_of_mem _ (ht.mem_up_self hod)

end

end Trie

end Pie.Proof
