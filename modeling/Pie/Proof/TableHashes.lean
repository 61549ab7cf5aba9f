import Pie.Kv.Store
import Pie.Proof.TableRun

/-!
# What the pages of a working set are hashed to

No page is on one path twice, so a commit of hashes is read back page by page, and
every other page of the path reads as before.
-/

namespace Pie.Proof

open List Option Store Kv Lib Table KvPageTable

variable {t t' : KvPageTable} {n : NodeId} {nd : KvTrieNode} {ws : WorkingSetId} {e : WorkingSetEntry}

/-- What a node contributes, and the node it is held by, which no later step of the path passes. -/
theorem Trie.own_apart (ht : Trie t) (hn : t.nodes.get n = some nd) : (own t n).Nodup ∧
    ∀ l ∈ own t n, ∀ p, pred t n = some p → l.node ∉ up t p := by
  have hinj : ∀ m : NodeId, Function.Injective fun i => (⟨m, i⟩ : TriePageLocation) := by
    intro m i j h
    cases h
    rfl
  rcases ht.pred_cases hn with ⟨bs, tk, hs, hpg, he⟩ | ⟨runs, o, od, bs, tk, hs, k, hpg, ho, hod, _, hr, _, he⟩
  · rw [own_owned hn hpg]
    refine ⟨nodup_range.map (hinj n), fun l hl p hp => ?_⟩
    obtain ⟨i, _, rfl⟩ := mem_map.mp hl
    exact not_mem_path_next (ht.grounded hn) (he.symm.trans hp)
  · rw [own_selection hn hpg ho, hr.indices_eq]
    refine ⟨nodup_range.map (hinj o), fun l hl p hp => ?_⟩
    obtain ⟨i, _, rfl⟩ := mem_map.mp hl
    exact not_mem_path_next (ht.grounded hod) (he.symm.trans hp)

/-- **No page is on a path twice.** -/
theorem Trie.locs_nodup (ht : Trie t) : ∀ n nd, t.nodes.get n = some nd → (locs t n).Nodup := by
  refine ht.induct_up ?_
  intro n nd hn ih
  obtain ⟨hown, hapart⟩ := ht.own_apart hn
  cases hp : pred t n with
  | none =>
    rw [locs, gather_root hp]
    exact hown
  | some p =>
    obtain ⟨q, hq, hpq⟩ := ht.pred_up hn hp
    obtain ⟨qd, hqd⟩ := ht.live_parent hq
    obtain ⟨pd, hpd⟩ := ht.live_path hqd hpq
    rw [locs, gather_step hp (ht.grounded_pred hpd)]
    refine Nodup.append (ih p q hq hpq) hown fun l hl hl' => ?_
    exact hapart l hl' p hp (ht.mem_locs_up hpd hl).1

/-! ## Reading hashes back -/

/-- The hashes of the page at a location. -/
def hashesAt (t : KvPageTable) (l : TriePageLocation) : Option (List (Option Hash256) × Option Hash256) :=
  t.hashesOf l.node l.slot

theorem hashesAt_setHashes {owner : NodeId} {slot : Nat} {tokens : List (Option Hash256)} {page : Option Hash256}
    (h : t.setHashes owner slot tokens page = some t') (l : TriePageLocation) :
    hashesAt t' l = if l = ⟨owner, slot⟩ then some (tokens, page) else hashesAt t l := by
  obtain ⟨m, i⟩ := l
  unfold setHashes at h
  obtain ⟨nd, hn, h⟩ := bind_eq_some_iff.mp h
  split at h
  · rename_i b tk hs hp
    split at h
    · rename_i hlt
      cases h
      by_cases hm : m = owner
      · subst hm
        simp only [hashesAt, hashesOf, setNode, GenMap.get_set_self hn, hn, hp,
          bind_eq_bind, bind_some]
        by_cases hi : i = slot
        · subst hi
          simp [hlt.1, hlt.2]
        · rw [getElem?_set_ne (Ne.symm hi), getElem?_set_ne (Ne.symm hi), if_neg (by simp [hi])]
      · rw [if_neg (by simp [hm])]
        simp only [hashesAt, hashesOf, setNode, GenMap.get_set_of_ne hm]
    · cases h
  · cases h

theorem hashesAt_indexFirst (page : Option Hash256) (owner : NodeId) (slot : Nat) (l : TriePageLocation) :
    hashesAt (t.indexFirst page owner slot) l = hashesAt t l := by
  unfold indexFirst
  split
  · split <;> rfl
  · rfl

/-- **A commit of hashes** is what its pages read, and no other page of the path. -/
theorem commitHashesLoop_reads : ∀ {pages : List (List (Option Hash256) × Option Hash256)} {t t' : KvPageTable}
    {nd : KvTrieNode} {first : Nat}, Trie t → t.nodes.get n = some nd → first + pages.length ≤ (locs t n).length →
    commitHashesLoop (segs t n) t first pages = some t' → ∀ i l, (locs t n)[i]? = some l →
    hashesAt t' l = if first ≤ i ∧ i < first + pages.length then pages[i - first]? else hashesAt t l := by
  intro pages
  induction pages with
  | nil =>
    intro t t' nd first _ _ _ hrun i l _
    cases hrun
    rw [if_neg (by simp)]
  | cons q pages ih =>
    intro t t' nd first ht hn hlen hrun i l hl
    obtain ⟨tokens, page⟩ := q
    rw [length_cons] at hlen
    have hfirst := getElem?_eq_getElem (l := locs t n) (i := first) (by omega)
    generalize (locs t n)[first] = l₀ at hfirst
    obtain ⟨_, od, bs, tk, hs, hod, hop, hslot⟩ := ht.mem_locs_up hn (mem_of_getElem? hfirst)
    obtain ⟨t₁, hset, hq₁⟩ := setHashes_spec ht hod hop hslot tokens page
    have hq := hq₁.trans (indexFirst_quiet t₁ page l₀.node l₀.slot)
    simp only [commitHashesLoop, ht.segmentAt_spec n nd hn hfirst, hset, bind_eq_bind,
      bind_some] at hrun
    obtain ⟨nd₂, hn₂⟩ := hq.frame.live ⟨nd, hn⟩
    rw [← hq.segs] at hrun
    have hrest := ih (hq.trie ht) hn₂ (by rw [hq.locs]; omega) hrun i l (by rw [hq.locs]; exact hl)
    rw [hrest, hashesAt_indexFirst, hashesAt_setHashes hset, length_cons]
    by_cases hi : i = first
    · subst hi
      rw [if_neg (by omega), if_pos (some.inj (hl.symm.trans hfirst)), if_pos (by omega), Nat.sub_self]
      rfl
    · have hne : l ≠ l₀ := by
        rintro rfl
        have hlt := (List.getElem?_eq_some_iff.mp hl).1
        exact hi ((getElem?_inj hlt (ht.locs_nodup n nd hn)).mp (hl.trans hfirst.symm))
      rw [if_neg (show ¬ l = ⟨l₀.node, l₀.slot⟩ from hne)]
      by_cases hin : first ≤ i ∧ i < first + (pages.length + 1)
      · rw [if_pos (by omega), if_pos hin, show i - first = (i - (first + 1)) + 1 by omega, getElem?_cons_succ]
      · rw [if_neg (by omega), if_neg hin]

/-! ## The pages of a working set -/

/-- The pages a working set maps, and what they are hashed to. -/
structure Paged (s : KvStore) (ws : WorkingSetId) (mapped : Nat)
    (content : Nat → List (Option Hash256) × Option Hash256) : Prop where
  inv : TableInv s.table
  reads : ∃ e, s.table.workingSets.get ws = some e ∧ e.mappedLen = mapped ∧
    ∀ i l, (termLocs s.table e.terminal)[i]? = some l → hashesAt s.table l = some (content i)

namespace Paged

variable {s : KvStore} {mapped i : Nat} {content content' : Nat → List (Option Hash256) × Option Hash256}

theorem tokens (h : Paged s ws mapped content) (hi : i < mapped) :
    s.table.pageTokenHashes ws i = some (.ok (content i).1) := by
  obtain ⟨e, he, rfl, hreads⟩ := h.reads
  obtain ⟨l, hl⟩ := (h.inv.page_lt he).mp hi
  have hat : s.table.hashesOf l.node l.slot = some (content i) := hreads i l hl
  simp only [pageTokenHashes, h.inv.pageOwner_eq he hl, hat, bind_eq_bind, bind_some,
    map_some]

theorem key (h : Paged s ws mapped content) (hi : i < mapped) :
    s.table.pageHashAt ws i = some (.ok (content i).2) := by
  obtain ⟨e, he, rfl, hreads⟩ := h.reads
  obtain ⟨l, hl⟩ := (h.inv.page_lt he).mp hi
  have hat : s.table.hashesOf l.node l.slot = some (content i) := hreads i l hl
  simp only [pageHashAt, h.inv.pageOwner_eq he hl, hat, bind_eq_bind, bind_some,
    map_some]

/-- The hashes of some pages in a row are committed. -/
theorem commit (h : Paged s ws mapped content) {first count : Nat} (hfit : first + count ≤ mapped)
    (hrest : ∀ i, ¬ (first ≤ i ∧ i < first + count) → content' i = content i) :
    ∃ table, s.table.commitHashes ws first ((range' first count).map content') = some (.ok (), table) ∧
      Paged { s with table := table } ws mapped content' := by
  obtain ⟨e, he, rfl, hreads⟩ := h.reads
  have hlen : ((range' first count).map content').length = count := by rw [length_map, length_range']
  obtain ⟨table, hrun, hquiet⟩ := commitHashes_spec h.inv he (hlen.symm ▸ hfit)
  refine ⟨table, hrun, hquiet.inv h.inv, e, (congrArg (·.get ws) hquiet.rest.workingSets).trans he, rfl, ?_⟩
  intro i l hl
  change (termLocs table e.terminal)[i]? = some l at hl
  rw [hquiet.termLocs] at hl
  have hread : hashesAt table l =
      if first ≤ i ∧ i < first + count then ((range' first count).map content')[i - first]? else hashesAt s.table l := by
    simp only [commitHashes, entry_eq he, if_neg (not_lt.mpr (hlen.symm ▸ hfit)),
      h.inv.segments_eq he, bind_eq_bind, bind_some] at hrun
    obtain ⟨t₁, hloop, hpair⟩ := bind_eq_some_iff.mp hrun
    cases hpair
    cases hterm : e.terminal with
    | none =>
      rw [hterm] at hl
      cases hl
    | some n =>
      obtain ⟨nd, hn⟩ := h.inv.live_term he hterm
      have hm := (h.inv.mapped he).1
      rw [hterm] at hl hloop hm
      have hread := commitHashesLoop_reads h.inv.nodes.trie hn (by
        rw [hlen, show (locs s.table n).length = e.mappedLen from hm]
        exact hfit) hloop i l hl
      rw [hlen] at hread
      exact hread
  rw [hread]
  split
  · rename_i hin
    rw [getElem?_map, getElem?_range' (by omega)]
    simp only [map_some, one_mul, Nat.add_sub_cancel' hin.1]
  · rename_i hout
    rw [hreads i l hl, hrest i hout]

end Paged

end Pie.Proof
