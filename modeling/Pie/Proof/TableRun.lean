import Pie.Proof.TableMoves

/-!
# Runs of the page table

The public operations of the table as steps of one machine, and what holds after
every run of them. An operation that makes a node nothing anchors yet (keeping a
prefix, importing pages) is one step with the lease that follows it.
-/

namespace Pie.Proof

open List hiding after
open Store Kv Lib Table KvPageTable

/-! ## Operations -/

inductive TableOp where
  | createWorkingSet
  | fork (ws : WorkingSetId)
  | reserve (ws : WorkingSetId) (pages : Nat)
  | publishAppended (ws : WorkingSetId) (pages : List PublishedPage)
  | replaceTail (ws : WorkingSetId) (from_ : Nat) (pages : List PublishedPage)
  | commitInPlace (ws : WorkingSetId) (index : Nat) (tokens : List (Option Hash256))
      (page : Option Hash256)
  | commitHashes (ws : WorkingSetId) (first : Nat)
      (pages : List (List (Option Hash256) × Option Hash256))
  | attach (ws : WorkingSetId) (node : NodeId) (slot : Nat)
  | insertCached (after : Option TriePageLocation) (backings : List KvPageBacking)
      (tokens : List (List (Option Hash256))) (keys : List Hash256)
  | keepPrefix (ws : WorkingSetId) (pages : Nat)
  | keepPrefixOf (path : KeptPath) (pages : Nat)
  | release (ws : WorkingSetId)
  | leaseCacheRoot (node : NodeId)
  | releaseCacheRoot (node : NodeId)
  | pin (node : NodeId)
  | unpin (node : NodeId)
  | pinSwapLocations (locations : List TriePageLocation)
  | unpinSwapLocations (locations : List TriePageLocation)
  | replaceBackings (replacements : List Replacement)

/-- The table after the operation, whether it succeeded or not; `none` is a panic. -/
def TableOp.run (t : KvPageTable) : TableOp → Option KvPageTable
  | .createWorkingSet => some t.createWorkingSet.2
  | .fork ws => (t.fork ws).map Prod.snd
  | .reserve ws pages => some (t.reserve ws pages).2
  | .publishAppended ws pages => (t.publishAppended ws pages).map Prod.snd
  | .replaceTail ws from_ pages => (t.replaceTail ws from_ pages).map Prod.snd
  | .commitInPlace ws index tokens page => (t.commitInPlace ws index tokens page).map Prod.snd
  | .commitHashes ws first pages => (t.commitHashes ws first pages).map Prod.snd
  | .attach ws node slot => (t.attach ws node slot).map Prod.snd
  | .insertCached after backings tokens keys => do
    let (node, t) ← t.insertCached after backings tokens keys
    t.leaseCacheRoot node
  | .keepPrefix ws pages => do
    match ← t.keepPrefix ws pages with
    | (.error _, t) => some t
    | (.ok path, t) => t.leaseCacheRoot path.terminal
  | .keepPrefixOf path pages => do
    let (path, t) ← t.keepPrefixOf path pages
    t.leaseCacheRoot path.terminal
  | .release ws => (t.releaseWorkingSetBackings ws).map Prod.snd
  | .leaseCacheRoot node => t.leaseCacheRoot node
  | .releaseCacheRoot node => (t.releaseCacheRoot node).map Prod.snd
  | .pin node => t.pin node
  | .unpin node => (t.unpin node).map Prod.snd
  | .pinSwapLocations locations => t.pinSwapLocations locations
  | .unpinSwapLocations locations => (t.unpinSwapLocations locations).map Prod.snd
  | .replaceBackings replacements => (t.replaceBackings replacements).map Prod.snd

/-- What the source asserts of the arguments, and its callers see to: a node is live, a boundary
lies on its path, an import has pages and a hash list for each, a page that enters a move is there
and in no other. -/
def TableOp.Legal (t : KvPageTable) : TableOp → Prop
  | .attach _ node slot => ∃ len, t.contributionLen node = some len ∧ slot < len
  | .insertCached after backings tokens keys =>
    backings ≠ [] ∧ tokens.length = backings.length ∧ keys.length = backings.length
      ∧ ∀ l, after = some l → ∃ p, backing t l = some p
  | .keepPrefix ws pages => ∀ e, t.workingSets.get ws = some e → 0 < pages ∧ pages ≤ e.mappedLen
  | .keepPrefixOf path pages =>
    t.pathLenLoop t.fuel (some path.terminal) = some path.pages ∧ 0 < pages ∧ pages ≤ path.pages
  | .leaseCacheRoot node => t.nodes.get node ≠ none
  | .pin node => t.nodes.get node ≠ none
  | .pinSwapLocations locations =>
    locations.Nodup ∧ ∀ l ∈ locations, l ∉ t.swapLocations ∧ ∃ p, backing t l = some p
  | _ => True

inductive TableReachable : KvPageTable → Prop where
  | new : TableReachable .new
  | tail {t t' : KvPageTable} {op : TableOp} : TableReachable t → op.Legal t → op.run t = some t' →
      TableReachable t'

variable {t t' : KvPageTable}

theorem tableInv_new : TableInv .new := by
  have hdead : ∀ {n nd}, new.nodes.get n = some nd → False := by
    intro n nd hn
    simp [new] at hn
  have hws : ∀ {ws e}, new.workingSets.get ws = some e → False := by
    intro ws e he
    simp [new] at he
  have hA : ∀ {a}, a ∈ anchors new → False := by
    intro a ha
    rcases mem_append.mp ha with ha | ha
    · obtain ⟨ws, e, he, _⟩ := mem_terms.mp ha
      exact hws he
    · simp [new] at ha
  refine ⟨⟨⟨fun hn => (hdead hn).elim, fun hn => (hdead hn).elim, fun hn => (hdead hn).elim,
      fun hn => (hdead hn).elim, fun hn => (hdead hn).elim⟩,
    ⟨fun ha => (hA ha).elim, fun hn => (hdead hn).elim, fun hn => (hdead hn).elim⟩,
    fun hn => (hdead hn).elim, fun hn => (hdead hn).elim⟩, fun he => (hws he).elim, ?_, ?_, ?_⟩
  · intro n c hc
    simp [new] at hc
  · intro n c hc
    simp [new] at hc
  · intro l hl
    simp [new] at hl

/-! ## What the other working sets read -/

/-- The operation may change what `B` reads: it is on `B`, or it moves pages. -/
def TableOp.Touches (B : WorkingSetId) : TableOp → Prop
  | .reserve ws _ | .publishAppended ws _ | .replaceTail ws _ _ | .attach ws _ _ | .release ws => ws = B
  | .replaceBackings _ => True
  | _ => False

/-- `B` maps the pages it mapped, and they are where they were. -/
structure Same (B : WorkingSetId) (t t' : KvPageTable) : Prop where
  entry : ∀ {e}, t.workingSets.get B = some e → t'.workingSets.get B = some e
  locs : ∀ {e a}, t.workingSets.get B = some e → e.terminal = some a → locs t' a = locs t a ∧
    ∀ l ∈ Table.locs t a, backing t' l = backing t l

namespace Same

variable {B ws : WorkingSetId} {e' : Option WorkingSetEntry} {t'' : KvPageTable}

theorem refl (t : KvPageTable) : Same B t t := ⟨id, fun _ _ => ⟨rfl, fun _ _ => rfl⟩⟩

theorem trans (h : Same B t t') (h' : Same B t' t'') : Same B t t'' where
  entry he := h'.entry (h.entry he)
  locs he ha := by
    rcases h.locs he ha with ⟨hl, hb⟩
    rcases h'.locs (h.entry he) ha with ⟨hl', hb'⟩
    exact ⟨hl'.trans hl, fun l h => (hb' l (hl ▸ h)).trans (hb l h)⟩

theorem of_anchors (hf : Frame K t t') (hw : t'.workingSets = t.workingSets)
    (hK : ∀ {a}, a ∈ terms t → K a) : Same B t t' :=
  ⟨fun he => hw ▸ he, fun he ha => have h := hK (mem_terms.mpr ⟨B, _, he, ha⟩); ⟨hf.locs h, fun _ hl => hf.backing h hl⟩⟩

theorem of_live (hc : Counted t (anchors t)) (hf : Frame (fun a => ∃ ad, t.nodes.get a = some ad) t t')
    (hw : t'.workingSets = t.workingSets) : Same B t t' := .of_anchors hf hw fun ha => hc.live (mem_append_left _ ha)

theorem of_changed (h : Changed t ws e' t') (hB : ws = B → t.workingSets.get B = none) : Same B t t' := by
  have hne : ∀ {e}, t.workingSets.get B = some e → B ≠ ws := fun he hw => by
    rw [hB hw.symm] at he
    cases he
  refine ⟨fun he => by rw [h.entry, if_neg (hne he), he], fun he ha => ?_⟩
  have ho := mem_others.mpr (.inl ⟨B, _, hne he, he, ha⟩)
  exact ⟨h.frame.locs ho, fun _ hl => h.frame.backing ho hl⟩

end Same

theorem Awaiting.lease {m : NodeId} (h : Awaiting m t) : ∃ t', t.leaseCacheRoot m = some t' ∧ TableInv t' ∧
    ∀ B, Same B t t' := by
  obtain ⟨t', hrun, hinv, hw, _, _, hf, _⟩ := leaseCacheRoot_spec h
  exact ⟨t', hrun, hinv, fun _ => .of_live h.counted hf hw⟩

/-- **A legal operation returns, and leaves the table in order.** -/
theorem tableInv_run (h : TableInv t) {op : TableOp} (hl : op.Legal t) : ∃ t', op.run t = some t' ∧ TableInv t' ∧
    ∀ B, ¬op.Touches B → Same B t t' := by
  cases op with
  | createWorkingSet =>
    obtain ⟨hnone, hch, _⟩ := createWorkingSet_spec h
    exact ⟨_, rfl, hch.inv, fun _ _ => .of_changed hch fun he => he ▸ hnone⟩
  | fork ws =>
    cases he : t.workingSets.get ws with
    | none => exact ⟨t, by simp [TableOp.run, fork_error he], h, fun _ _ => .refl t⟩
    | some e =>
      obtain ⟨child, t', hrun, hnone, hch, _⟩ := fork_spec h he
      exact ⟨t', by simp [TableOp.run, hrun], hch.inv, fun _ _ => .of_changed hch fun he => he ▸ hnone⟩
  | reserve ws k =>
    cases he : t.workingSets.get ws with
    | none => exact ⟨t, by simp [TableOp.run, reserve_error he], h, fun _ _ => .refl t⟩
    | some e =>
      obtain ⟨t', hrun, hch, _⟩ := reserve_spec h he k
      exact ⟨t', by simp [TableOp.run, hrun], hch.inv, fun _ hB => .of_changed hch fun he => absurd he hB⟩
  | publishAppended ws pages =>
    cases he : t.workingSets.get ws with
    | none => exact ⟨t, by simp [TableOp.run, publishAppended_error he], h, fun _ _ => .refl t⟩
    | some e =>
      by_cases hfit : e.mappedLen + pages.length ≤ e.pageLen
      · obtain ⟨term, t', hrun, hch, _⟩ := publishAppended_spec h he hfit
        exact ⟨t', by simp [TableOp.run, hrun], hch.inv, fun _ hB => .of_changed hch fun he => absurd he hB⟩
      · exact ⟨t, by simp [TableOp.run, publishAppended_full he (not_le.mp hfit)], h, fun _ _ => .refl t⟩
  | replaceTail ws from_ pages =>
    cases he : t.workingSets.get ws with
    | none => exact ⟨t, by simp [TableOp.run, replaceTail_error he], h, fun _ _ => .refl t⟩
    | some e =>
      by_cases hfrom : from_ ≤ e.mappedLen
      · by_cases hfit : from_ + pages.length ≤ e.pageLen
        · obtain ⟨freed, term, t', hrun, hch, _⟩ := replaceTail_spec h he hfrom hfit
          exact ⟨t', by simp [TableOp.run, hrun], hch.inv, fun _ hB => .of_changed hch fun he => absurd he hB⟩
        · exact ⟨t, by simp [TableOp.run, replaceTail_full he hfrom (not_le.mp hfit)], h, fun _ _ => .refl t⟩
      · exact ⟨t, by simp [TableOp.run, replaceTail_bad he (not_le.mp hfrom)], h, fun _ _ => .refl t⟩
  | commitInPlace ws index tokens page =>
    cases he : t.workingSets.get ws with
    | none => exact ⟨t, by simp [TableOp.run, commitInPlace, pageOwner, entry_none he], h, fun _ _ => .refl t⟩
    | some e =>
      by_cases hi : index < e.mappedLen
      · obtain ⟨t', hrun, hq⟩ := commitInPlace_spec h he hi tokens page
        exact ⟨t', by simp [TableOp.run, hrun], hq.inv h, fun _ _ => .of_live h.nodes.counted hq.frame hq.rest.workingSets⟩
      · exact ⟨t, by simp [TableOp.run, commitInPlace,
          TableInv.pageOwner_unwritten he (not_lt.mp hi)], h, fun _ _ => .refl t⟩
  | commitHashes ws first pages =>
    cases he : t.workingSets.get ws with
    | none => exact ⟨t, by simp [TableOp.run, commitHashes, entry_none he], h, fun _ _ => .refl t⟩
    | some e =>
      by_cases hfit : first + pages.length ≤ e.mappedLen
      · obtain ⟨t', hrun, hq⟩ := commitHashes_spec h he hfit
        exact ⟨t', by simp [TableOp.run, hrun], hq.inv h, fun _ _ => .of_live h.nodes.counted hq.frame hq.rest.workingSets⟩
      · exact ⟨t, by simp [TableOp.run, commitHashes, entry_eq he, not_le.mp hfit], h, fun _ _ => .refl t⟩
  | attach ws node slot =>
    obtain ⟨len, hlen, hslot⟩ := hl
    obtain ⟨nd, hn⟩ : ∃ nd, t.nodes.get node = some nd := by
      cases hn : t.nodes.get node with
      | none => simp [contributionLen, hn] at hlen
      | some nd => exact ⟨nd, rfl⟩
    have hslot' : slot < (own t node).length := by
      rw [h.nodes.trie.contributionLen_eq hn] at hlen
      rw [Option.some.inj hlen]
      exact hslot
    cases he : t.workingSets.get ws with
    | none => exact ⟨t, by simp [TableOp.run, attach_dead h.nodes.trie hn hslot' he], h, fun _ _ => .refl t⟩
    | some e =>
      by_cases hok : e.mappedLen < stopAt t node slot
          ∧ termLocs t e.terminal = (locs t node).take e.mappedLen
      · obtain ⟨term, t', hrun, hch, _⟩ := attach_spec h hn hslot' he hok.1 hok.2
        exact ⟨t', by simp [TableOp.run, hrun], hch.inv, fun _ hB => .of_changed hch fun he => absurd he hB⟩
      · exact ⟨t, by simp [TableOp.run, attach_refused h hn hslot' he hok], h, fun _ _ => .refl t⟩
  | insertCached after backings tokens keys =>
    obtain ⟨hne, htk, hk, hafter⟩ := hl
    obtain ⟨m, t₁, hrun, himp⟩ := insertCached_spec h hafter hne htk hk
    obtain ⟨t', hlease, hinv, hs⟩ := himp.awaiting.lease
    exact ⟨t', by simp [TableOp.run, hrun, hlease], hinv, fun B _ =>
      (Same.of_live h.nodes.counted himp.frame himp.rest.workingSets).trans (hs B)⟩
  | keepPrefix ws pages =>
    cases he : t.workingSets.get ws with
    | none => exact ⟨t, by simp [TableOp.run, keepPrefix_dead he], h, fun _ _ => .refl t⟩
    | some e =>
      obtain ⟨h0, hle⟩ := hl e he
      obtain ⟨m, t₁, hrun, hb⟩ := keepPrefix_spec h he h0 hle
      obtain ⟨t', hlease, hinv, hs⟩ := (hb.awaiting h).lease
      exact ⟨t', by simp [TableOp.run, hrun, hlease], hinv, fun B _ =>
        (Same.of_live h.nodes.counted hb.frame hb.rest.workingSets).trans (hs B)⟩
  | keepPrefixOf path pages =>
    obtain ⟨hlen, h0, hle⟩ := hl
    obtain ⟨n, k⟩ := path
    obtain ⟨nd, hn⟩ : ∃ nd, t.nodes.get n = some nd := Trie.live_of_pathLen hlen
    obtain rfl : k = (locs t n).length := by
      have := h.nodes.trie.pathLenLoop_spec n nd hn (h.nodes.trie.pred_path_length_le hn)
      exact Option.some.inj (hlen.symm.trans this)
    obtain ⟨m, t₁, hrun, hb⟩ := keepPrefixOf_spec h hn h0 hle
    obtain ⟨t', hlease, hinv, hs⟩ := (hb.awaiting h).lease
    exact ⟨t', by simp [TableOp.run, hrun, hlease], hinv, fun B _ =>
      (Same.of_live h.nodes.counted hb.frame hb.rest.workingSets).trans (hs B)⟩
  | release ws =>
    cases he : t.workingSets.get ws with
    | none => exact ⟨t, by simp [TableOp.run, releaseWorkingSetBackings_dead he], h, fun _ _ => .refl t⟩
    | some e =>
      obtain ⟨freed, t', hrun, hch, _⟩ := releaseWorkingSetBackings_spec h he
      exact ⟨t', by simp [TableOp.run, hrun], hch.inv, fun _ hB => .of_changed hch fun he => absurd he hB⟩
  | leaseCacheRoot node =>
    obtain ⟨t', hrun, hinv, hs⟩ := (h.awaiting (Option.ne_none_iff_exists'.mp hl)).lease
    exact ⟨t', hrun, hinv, fun B _ => hs B⟩
  | releaseCacheRoot node =>
    obtain ⟨freed, t', hrun, hinv, hw, _, _, hf, _⟩ := releaseCacheRoot_spec h node
    exact ⟨t', by simp [TableOp.run, hrun], hinv, fun _ _ => .of_anchors hf hw fun ha => mem_append_left _ (by rwa [terms, hw])⟩
  | pin node =>
    obtain ⟨t', hrun, hinv, hw, _, _, hf, _⟩ := pin_spec (h.awaiting (Option.ne_none_iff_exists'.mp hl))
    exact ⟨t', hrun, hinv, fun _ _ => .of_live h.nodes.counted hf hw⟩
  | unpin node =>
    obtain ⟨freed, t', hrun, hinv, hw, _, _, hf, _⟩ := unpin_spec h node
    exact ⟨t', by simp [TableOp.run, hrun], hinv, fun _ _ => .of_anchors hf hw fun ha => mem_append_left _ (by rwa [terms, hw])⟩
  | pinSwapLocations ls =>
    obtain ⟨hnd, hls⟩ := hl
    exact ⟨_, pinSwapLocations_eq hnd (fun l hl => (hls l hl).1), pinSwapLocations_spec h (fun l hl => (hls l hl).2),
      fun _ _ => ⟨id, fun _ _ => ⟨rfl, fun _ _ => rfl⟩⟩⟩
  | unpinSwapLocations ls =>
    obtain ⟨freed, t', hrun, hinv, hr, hf, _⟩ := unpinSwapLocations_spec h ls
    exact ⟨t', by simp [TableOp.run, hrun], hinv, fun _ _ => .trans (show Same _ t (unswapped t ls) from ⟨id, fun _ _ => ⟨rfl, fun _ _ => rfl⟩⟩)
      (.of_anchors hf hr.workingSets (mem_append_left _))⟩
  | replaceBackings rs =>
    by_cases hrs : ∀ r ∈ rs, backing t r.1 = some r.2.1
    · obtain ⟨t', hrun, hinv, _⟩ := replaceBackings_spec h hrs
      exact ⟨t', by simp [TableOp.run, hrun], hinv, fun _ hB => absurd trivial hB⟩
    · push Not at hrs
      exact ⟨t, by simp [TableOp.run, replaceBackings_error hrs], h, fun _ _ => .refl t⟩

theorem tableInv_reachable (h : TableReachable t) : TableInv t := by
  induction h with
  | new => exact tableInv_new
  | tail _ hl hrun ih =>
    obtain ⟨t', hrun', hinv, _⟩ := tableInv_run ih hl
    cases hrun.symm.trans hrun'
    exact hinv

/-! ## The representation -/

/-- `m` is in the subtree of `n`. -/
inductive Below (t : KvPageTable) : NodeId → NodeId → Prop where
  | self (n : NodeId) : Below t n n
  | child {n c m : NodeId} {nd : KvTrieNode} : t.nodes.get n = some nd → c ∈ nd.children →
      Below t c m → Below t n m

/-- The runs of a selection are non-empty, in order, apart and below `len`. -/
def RunsWithin (runs : Runs) (len : Nat) : Prop :=
  (∀ r ∈ runs, r.start < r.stop ∧ r.stop ≤ len) ∧ runs.Pairwise (fun r r' => r.stop ≤ r'.start)

open Classical in
/-- What the table represents, read off its fields. -/
structure Representation (t : KvPageTable) : Prop where
  parent : ∀ {n nd p}, t.nodes.get n = some nd → nd.parent = some p →
    ∃ pd, t.nodes.get p = some pd ∧ n ∈ pd.children
  children : ∀ {n nd c}, t.nodes.get n = some nd → c ∈ nd.children →
    ∃ cd, t.nodes.get c = some cd ∧ cd.parent = some n
  selection : ∀ {n nd runs}, t.nodes.get n = some nd → nd.pages = .parentSelection runs →
    ∃ o od b tk h, nd.parent = some o ∧ t.nodes.get o = some od ∧ od.pages = .owned b tk h
      ∧ runs ≠ [] ∧ RunsWithin runs b.length
  exact : ∀ {n nd}, t.nodes.get n = some nd → nd.exactAnchors =
    t.workingSets.entries.countP (fun e => decide (e.2.terminal = some n))
      + (if n ∈ t.cacheRoots then 1 else 0) + (if n ∈ t.pins then 1 else 0)
  path : ∀ {n nd}, t.nodes.get n = some nd → nd.pathAnchors =
    ((t.nodes.entries.filter (fun e => decide (Below t n e.1))).map (fun e => e.2.exactAnchors)).sum
  mapped : ∀ {ws e}, t.workingSets.get ws = some e →
    t.pathLenLoop t.fuel e.terminal = some e.mappedLen ∧ e.mappedLen ≤ e.pageLen

/-- The lookups below the mapped length, none of which panics. -/
structure Lookups (t : KvPageTable) (ws : WorkingSetId) (e : WorkingSetEntry) : Prop where
  page : ∀ i < e.mappedLen, ∃ owner, t.pageOwner ws i = some (.ok owner)
  writable : ∀ i < e.mappedLen, ∃ b, t.privatelyWritable ws i = some (.ok b)
  hashes : ∀ i < e.mappedLen, (∃ k, t.pageHashAt ws i = some (.ok k))
    ∧ (∃ k, t.pageTokenHashes ws i = some (.ok k)) ∧ ∃ b, t.sealed ws i = some (.ok b)
  locations : ∃ ls, t.workingSetLocations ws = some (.ok ls) ∧ ls.length = e.mappedLen
  flatten : (∃ ids, t.flatten ws = some (.ok ids) ∧ ids.length = e.mappedLen)
    ∨ ∃ i < e.mappedLen, t.flatten ws = some (.error (.nonResident i))

theorem below_iff (ht : Trie t) {n m : NodeId} {md : KvTrieNode} (hm : t.nodes.get m = some md) :
    Below t n m ↔ n ∈ up t m := by
  constructor
  · intro h
    induction h with
    | self n => exact ht.mem_up_self hm
    | child hn hc _ ih =>
      obtain ⟨cd, hcd, hpar⟩ := ht.children hn hc
      refine mem_path_trans (ht.grounded hm) (ih hm) ?_
      exact (mem_path_iff (ht.grounded hcd)).mpr (.inr ⟨_, by rw [par_eq hcd, hpar], ht.mem_up_self hn⟩)
  · -- up the path: each node is a child of the next
    have hgen : ∀ m md, t.nodes.get m = some md → n ∈ up t m → ∀ k, Below t m k → Below t n k := by
      refine ht.induct_up ?_
      intro m md hm ih hn k hk
      rcases (mem_path_iff (ht.grounded hm)).mp hn with rfl | ⟨p, hp, hnp⟩
      · exact hk
      · obtain ⟨pd, hpd, hmem⟩ := ht.parent hm (by rw [← par_eq hm]; exact hp)
        exact ih p p hp (ht.mem_up_self hpd) hnp k (.child hpd hmem hk)
    intro h
    exact hgen m md hm h m (.self m)

theorem sum_indicator {α : Type} [DecidableEq α] (a : α) : ∀ l : List α,
    (l.map (fun k => if a = k then 1 else 0)).sum = l.count a
  | [] => rfl
  | x :: l => by
    rw [map_cons, sum_cons, sum_indicator a l, count_cons]
    by_cases hx : a = x
    · simp [hx]; omega
    · simp [hx, Ne.symm hx]

/-- Counting the anchors below a node is summing over the nodes below it. -/
theorem countP_eq_sum_count {α : Type} [DecidableEq α] {keys : List α} (hnd : keys.Nodup)
    (p : α → Bool) : ∀ {A : List α}, (∀ a ∈ A, a ∈ keys) →
      A.countP p = ((keys.filter p).map (fun k => A.count k)).sum
  | [], _ => by simp
  | a :: A, h => by
    have ih := countP_eq_sum_count hnd p (A := A) (fun x hx => h x (mem_cons_of_mem _ hx))
    have hone : ((keys.filter p).map (fun k => if a = k then 1 else 0)).sum
        = if p a = true then 1 else 0 := by
      rw [sum_indicator]
      split
      · rename_i hpa
        exact count_eq_one_of_mem (hnd.filter p)
          (mem_filter.mpr ⟨h a mem_cons_self, hpa⟩)
      · rename_i hpa
        exact count_eq_zero_of_not_mem (fun hm => hpa (mem_filter.mp hm).2)
    have hsum : ((keys.filter p).map (fun k => (a :: A).count k)).sum =
        ((keys.filter p).map (fun k => A.count k)).sum
          + ((keys.filter p).map (fun k => if a = k then 1 else 0)).sum := by
      rw [← sum_map_add]
      refine congrArg sum (map_congr_left ?_)
      intro k _
      simp [count_cons]
    rw [countP_cons, ih, hsum, hone]

theorem count_anchors (t : KvPageTable) (n : NodeId) : (anchors t).count n =
    t.workingSets.entries.countP (fun e => decide (e.2.terminal = some n))
      + (if n ∈ t.cacheRoots then 1 else 0) + (if n ∈ t.pins then 1 else 0) := by
  have hterms : (terms t).count n =
      t.workingSets.entries.countP (fun e => decide (e.2.terminal = some n)) := by
    unfold terms
    induction t.workingSets.entries with
    | nil => rfl
    | cons e l ih =>
      rw [filterMap_cons, countP_cons, ← ih]
      cases hterm : e.2.terminal with
      | none => simp
      | some a =>
        rw [count_cons]
        by_cases ha : a = n
        · simp [ha]
        · simp [ha]
  have hkeys : ∀ m : HashMap NodeId Nat, m.keys.count n = if n ∈ m then 1 else 0 := by
    intro m
    split
    · rename_i hm
      exact count_eq_one_of_mem m.keys_nodup (AList.mem_keys.mp hm)
    · rename_i hm
      exact count_eq_zero_of_not_mem (fun h => hm (AList.mem_keys.mpr h))
  rw [anchors, count_append, count_append, hterms, hkeys, hkeys]
  omega

theorem TableInv.representation (h : TableInv t) : Representation t where
  parent hn hp := h.nodes.trie.parent hn hp
  children hn hc := h.nodes.trie.children hn hc
  selection hn hp := by
    rename_i n nd runs
    have hok : PagesOk t nd := h.nodes.trie.pages hn
    rw [PagesOk, hp] at hok
    obtain ⟨o, od, b, tk, hs, k, hpar, hod, hown, ⟨h0, hruns⟩, hk⟩ := hok
    subst hruns
    refine ⟨o, od, b, tk, hs, hpar, hod, hown, by simp, ?_, by simp⟩
    intro r hr
    obtain rfl : r = ⟨0, k⟩ := by simpa using hr
    exact ⟨h0, hk⟩
  exact hn := by rw [h.nodes.counted.exact hn, count_anchors]
  path hn := by
    rename_i n nd
    classical
    rw [h.nodes.counted.path hn]
    rw [countP_eq_sum_count t.nodes.keys_nodup _ (fun a ha => by
      obtain ⟨ad, had⟩ := h.nodes.counted.live ha
      exact GenMap.mem_keys.mpr ⟨ad, had⟩)]
    rw [GenMap.keys, filter_map, map_map]
    have hfilter : t.nodes.entries.filter ((fun a => decide (n ∈ up t a)) ∘ Prod.fst)
        = t.nodes.entries.filter (fun e => decide (Below t n e.1)) := by
      refine filter_congr ?_
      rintro ⟨m, md⟩ hm
      simp only [Function.comp_apply, below_iff h.nodes.trie (GenMap.mem_entries.mp hm)]
    rw [hfilter]
    refine congrArg sum (map_congr_left ?_)
    rintro ⟨m, md⟩ hm
    rw [Function.comp_apply, h.nodes.counted.exact (GenMap.mem_entries.mp (mem_of_mem_filter hm))]
  mapped he := by
    refine ⟨?_, (h.mapped he).2⟩
    rw [← (h.mapped he).1]
    rename_i ws e
    cases hterm : e.terminal with
    | none => simp [pathLenLoop, termLocs]
    | some n =>
      obtain ⟨nd, hn⟩ := h.live_term he hterm
      exact h.nodes.trie.pathLenLoop_spec n nd hn (h.nodes.trie.pred_path_length_le hn)

theorem idsFrom_error {ls : List TriePageLocation} {er : KvTableError} : ∀ {i},
    idsFrom t i ls = .error er → ∃ j, i ≤ j ∧ j < i + ls.length ∧ er = .nonResident j := by
  induction ls with
  | nil => intro i h; simp [idsFrom] at h
  | cons l ls ih =>
    intro i h
    simp only [idsFrom] at h
    cases hb : (backing t l).bind KvPageBacking.residentId with
    | none =>
      simp only [hb, Except.error.injEq] at h
      exact ⟨i, le_refl i, by simp, h.symm⟩
    | some id =>
      simp only [hb] at h
      cases hrest : idsFrom t (i + 1) ls with
      | ok ids => simp [hrest] at h
      | error er' =>
        simp only [hrest, Except.error.injEq] at h
        subst h
        obtain ⟨j, h1, h2, h3⟩ := ih hrest
        exact ⟨j, by omega, by simp only [length_cons]; omega, h3⟩

theorem TableInv.lookups (h : TableInv t) {ws : WorkingSetId} {e : WorkingSetEntry}
    (he : t.workingSets.get ws = some e) : Lookups t ws e where
  page i hi := by
    obtain ⟨l, hl⟩ := (h.page_lt he).mp hi
    exact ⟨_, h.pageOwner_eq he hl⟩
  writable i hi := by
    obtain ⟨l, hl⟩ := (h.page_lt he).mp hi
    exact ⟨_, h.privatelyWritable_eq he hl⟩
  hashes i hi := ⟨h.pageHashAt_some he hi, h.pageTokenHashes_some he hi, h.sealed_some he hi⟩
  locations := ⟨_, h.workingSetLocations_eq he, (h.mapped he).1⟩
  flatten := by
    rw [h.flatten_eq he]
    cases hids : idsFrom t 0 (termLocs t e.terminal) with
    | ok ids => exact .inl ⟨ids, rfl, by rw [idsFrom_length hids, (h.mapped he).1]⟩
    | error er =>
      obtain ⟨j, _, hj, rfl⟩ := idsFrom_error hids
      exact .inr ⟨j, by rw [← (h.mapped he).1]; omega, rfl⟩

/-- **The representation invariant.** After every run of the public operations the links agree, a
selection takes runs of a live owned parent, the anchor counts are what they count, every working
set maps its whole path, and no lookup of a mapped page panics; and from every such table a legal
operation returns. -/
theorem tableReachable_representation (t : KvPageTable) (h : TableReachable t) : Representation t
      ∧ (∀ ws e, t.workingSets.get ws = some e → Lookups t ws e)
      ∧ ∀ op : TableOp, op.Legal t → ∃ t', op.run t = some t' := by
  have hinv := tableInv_reachable h
  refine ⟨hinv.representation, fun ws e he => hinv.lookups he, ?_⟩
  intro op hl
  obtain ⟨t', hrun, _⟩ := tableInv_run hinv hl
  exact ⟨t', hrun⟩

/-- A run that maps a page. -/
theorem tableReachable_representation_published : ∃ t ws e, TableReachable t
    ∧ t.workingSets.get ws = some e ∧ e.mappedLen = 1 ∧ Representation t ∧ Lookups t ws e := by
  have h₀ := tableInv_new
  obtain ⟨_, hch₁, _⟩ := createWorkingSet_spec h₀
  set ws := KvPageTable.new.createWorkingSet.1
  set t₁ := KvPageTable.new.createWorkingSet.2
  have he₁ := hch₁.entry ws
  rw [if_pos rfl] at he₁
  obtain ⟨t₂, hrun₂, hch₂, _⟩ := reserve_spec hch₁.inv he₁ 1
  have he₂ := hch₂.entry ws
  rw [if_pos rfl] at he₂
  obtain ⟨term, t₃, hrun₃, hch₃, _⟩ := publishAppended_spec hch₂.inv he₂
    (show 0 + [(⟨⟨0⟩, [], none⟩ : PublishedPage)].length ≤ 1 by decide)
  have he₃ := hch₃.entry ws
  rw [if_pos rfl] at he₃
  have hreach₁ : TableReachable t₁ := @TableReachable.tail _ _ .createWorkingSet .new trivial rfl
  have hreach₂ : TableReachable t₂ :=
    @TableReachable.tail _ _ (.reserve ws 1) hreach₁ trivial (by simp [TableOp.run, hrun₂])
  have hreach : TableReachable t₃ :=
    @TableReachable.tail _ _ (.publishAppended ws [⟨⟨0⟩, [], none⟩]) hreach₂ trivial (by simp [TableOp.run, hrun₃])
  have hmain := tableReachable_representation t₃ hreach
  exact ⟨t₃, ws, _, hreach, he₃, rfl, hmain.1, hmain.2.1 ws _ he₃⟩

/-! ## Tables of a store -/

/-- What a store leads its table to: by the operations, and by what changes the marks of a working
set only (its owner, its log, whether it is suspended). -/
inductive StoreReachable : KvPageTable → Prop where
  | new : StoreReachable .new
  | tail {t t' : KvPageTable} {op : TableOp} : StoreReachable t → op.Legal t → op.run t = some t' → StoreReachable t'
  | mark {t : KvPageTable} {ws : WorkingSetId} {e e' : WorkingSetEntry} : StoreReachable t → t.workingSets.get ws = some e →
      e'.terminal = e.terminal → e'.pageLen = e.pageLen → e'.mappedLen = e.mappedLen → StoreReachable (t.setEntry ws e')

theorem tableInv_store (h : StoreReachable t) : TableInv t := by
  induction h with
  | new => exact tableInv_new
  | tail _ hl hrun ih =>
    obtain ⟨t', hrun', hinv, _⟩ := tableInv_run ih hl
    cases hrun.symm.trans hrun'
    exact hinv
  | mark _ he hterm hpages hmapped ih => exact (setEntry_spec ih he hterm hmapped (hpages ▸ (ih.mapped he).2)).inv

/-! ## Working sets apart -/

theorem idsFrom_congr : ∀ {ls : List TriePageLocation} {i : Nat}, (∀ l ∈ ls, backing t' l = backing t l) →
    idsFrom t' i ls = idsFrom t i ls
  | [], _, _ => rfl
  | l :: ls, i, h => by
    rw [idsFrom, idsFrom, h l mem_cons_self, idsFrom_congr fun l' hl => h l' (mem_cons_of_mem _ hl)]

/-- A call gave pages back, and the table it left holds the others and those that `entered`. -/
def GivesBack (t : KvPageTable) (entered : List KvPageBacking) (call : Option (List KvPageBacking × KvPageTable)) : Prop :=
  ∃ freed t', call = some (freed, t') ∧ StoreReachable t' ∧ (entered ++ held t).Perm (freed ++ held t')

end Pie.Proof
