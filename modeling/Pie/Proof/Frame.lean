import Pie.Proof.Reads

/-!
# What an operation leaves alone

`Frame K t t'` is what every table operation short of a residency commit grants:
the anchors `K` read the pages they read before, backed as before, and the pages
of a node that a residency move holds stay where they are for as long as the node
lives. Node ids
are never issued twice, so a node that is gone does not come back under its id.
-/

namespace Pie.Proof

open List Store Kv Lib Table

structure Frame (K : NodeId → Prop) (t t' : KvPageTable) : Prop where
  issued : ∀ {n}, t.nodes.Issued n → t'.nodes.Issued n
  stale : ∀ {n nd'}, t.nodes.Issued n → t'.nodes.get n = some nd' → ∃ nd, t.nodes.get n = some nd
  live : ∀ {a}, K a → ∃ ad, t'.nodes.get a = some ad
  up : ∀ {a}, K a → up t' a = up t a
  locs : ∀ {a}, K a → locs t' a = locs t a
  backing : ∀ {a l}, K a → l ∈ Table.locs t a → backing t' l = backing t l
  swap : t'.swapLocations = t.swapLocations
  moved : ∀ {l nd' p}, t.inSwap l.node = true → t.nodes.Issued l.node →
    t'.nodes.get l.node = some nd' → Table.backing t l = some p → Table.backing t' l = some p

/-- The parts of the table that are not its nodes. -/
structure SameRest (t t' : KvPageTable) : Prop where
  workingSets : t'.workingSets = t.workingSets
  cacheRoots : t'.cacheRoots = t.cacheRoots
  pins : t'.pins = t.pins
  swap : t'.swapLocations = t.swapLocations

namespace SameRest

variable {t t' t'' : KvPageTable}

theorem refl (t : KvPageTable) : SameRest t t := ⟨rfl, rfl, rfl, rfl⟩

theorem trans (h : SameRest t t') (h' : SameRest t' t'') : SameRest t t'' :=
  ⟨h'.workingSets.trans h.workingSets, h'.cacheRoots.trans h.cacheRoots, h'.pins.trans h.pins, h'.swap.trans h.swap⟩

theorem setNode (t : KvPageTable) (n : NodeId) (nd : KvTrieNode) : SameRest t (t.setNode n nd) :=
  ⟨rfl, rfl, rfl, rfl⟩

theorem inSwap (h : SameRest t t') (n : NodeId) : t'.inSwap n = t.inSwap n := by
  simp only [KvPageTable.inSwap, h.swap]

end SameRest

namespace Frame

variable {K K' : NodeId → Prop} {t t' t'' : KvPageTable}

theorem refl (hK : ∀ {a}, K a → ∃ ad, t.nodes.get a = some ad) : Frame K t t where
  issued h := h
  stale _ h := ⟨_, h⟩
  live := hK
  up _ := rfl
  locs _ := rfl
  backing _ _ := rfl
  swap := rfl
  moved _ _ _ h := h

theorem mono (h : Frame K t t') (hK : ∀ {a}, K' a → K a) : Frame K' t t' where
  issued := h.issued
  stale := h.stale
  live ha := h.live (hK ha)
  up ha := h.up (hK ha)
  locs ha := h.locs (hK ha)
  backing ha := h.backing (hK ha)
  swap := h.swap
  moved := h.moved

theorem trans (h : Frame K t t') (h' : Frame K t' t'') : Frame K t t'' where
  issued hn := h'.issued (h.issued hn)
  stale hn hn'' := by
    obtain ⟨nd', hn'⟩ := h'.stale (h.issued hn) hn''
    exact h.stale hn hn'
  live := h'.live
  up ha := (h'.up ha).trans (h.up ha)
  locs ha := (h'.locs ha).trans (h.locs ha)
  backing ha hl := (h'.backing ha (by rw [h.locs ha]; exact hl)).trans (h.backing ha hl)
  swap := h'.swap.trans h.swap
  moved hl hn hn'' hp := by
    obtain ⟨nd', hn'⟩ := h'.stale (h.issued hn) hn''
    refine h'.moved ?_ (h.issued hn) hn'' (h.moved hl hn hn' hp)
    simpa only [KvPageTable.inSwap, h.swap] using hl

end Frame

theorem SameShape.rest_eq {t t' : KvPageTable} (h : SameShape t t') : SameRest t t' := by
  have hr := h.rest
  exact ⟨by rw [hr], by rw [hr], by rw [hr], by rw [hr]⟩

/-! ## The pages the trie holds -/

section Held

variable {t : KvPageTable} {n : NodeId} {nd nd' : KvTrieNode}

theorem held_setNode (nd' : KvTrieNode) (h : t.nodes.get n = some nd) :
    (held (t.setNode n nd') ++ ownedBackings nd).Perm (held t ++ ownedBackings nd') := by
  obtain ⟨l₁, l₂, he, hset, _⟩ := GenMap.entries_split h
  simp only [held, KvPageTable.setNode, he, hset nd', flatMap_append, flatMap_cons]
  generalize l₁.flatMap (fun e => ownedBackings e.2) = x
  generalize l₂.flatMap (fun e => ownedBackings e.2) = y
  generalize ownedBackings nd = u
  generalize ownedBackings nd' = v
  rw [← Multiset.coe_eq_coe]
  simp only [← Multiset.coe_add]
  abel

theorem held_congr {t t' : KvPageTable} (h : ∀ n, (t'.nodes.get n).map ownedBackings =
    (t.nodes.get n).map ownedBackings) : (held t').Perm (held t) := by
  have key : ∀ s : KvPageTable, held s = s.nodes.keys.flatMap (fun n =>
      ((s.nodes.get n).map ownedBackings).getD []) := by
    intro s
    unfold held GenMap.keys
    rw [flatMap_map, flatMap_def, flatMap_def]
    congr 1
    refine map_congr_left ?_
    intro e he
    rw [GenMap.mem_entries.mp he]
    rfl
  have hkeys : t'.nodes.keys.Perm t.nodes.keys := by
    rw [perm_ext_iff_of_nodup t'.nodes.keys_nodup t.nodes.keys_nodup]
    intro n
    rw [GenMap.mem_keys, GenMap.mem_keys, ← Option.isSome_iff_exists, ← Option.isSome_iff_exists,
      ← Option.isSome_map (f := ownedBackings), h n, Option.isSome_map]
  rw [key t', key t]
  simp only [h]
  exact hkeys.flatMap_right _

theorem held_setNode_same (nd' : KvTrieNode) (h : t.nodes.get n = some nd)
    (hp : ownedBackings nd' = ownedBackings nd) : (held (t.setNode n nd')).Perm (held t) := by
  refine held_congr ?_
  intro m
  rw [get_setNode h]
  split
  · rename_i he; rw [he, h]; simp [hp]
  · rfl

theorem SameShape.held_perm {t t' : KvPageTable} (h : SameShape t t') : (held t').Perm (held t) := by
  refine held_congr ?_
  intro n
  have hn := h.node n
  cases ho : t'.nodes.get n with
  | none =>
    rw [ho, Option.map_none, eq_comm, Option.map_eq_none_iff] at hn
    rw [hn]
  | some nd' =>
    obtain ⟨nd, hget, -, -, hpages⟩ := h.of_get ho
    simp [hget, ownedBackings, hpages]

/-- A change of counters is a frame for every live node. -/
theorem SameShape.frame {t t' : KvPageTable} (h : SameShape t t') :
    Frame (fun a => ∃ ad, t.nodes.get a = some ad) t t' where
  issued := h.issued
  stale _ hn := by
    obtain ⟨nd, hnd, _⟩ := h.of_get hn
    exact ⟨nd, hnd⟩
  live := by
    rintro a ⟨ad, had⟩
    obtain ⟨ad', had', _⟩ := h.get had
    exact ⟨ad', had'⟩
  up _ := by rw [h.up_eq]
  locs _ := by rw [h.locs_eq]
  backing _ _ := by rw [h.backing_eq]
  swap := h.rest_eq.swap
  moved _ _ _ hp := by rw [h.backing_eq]; exact hp

theorem held_remove (h : t.nodes.get n = some nd) :
    (held t).Perm (ownedBackings nd ++ held { t with nodes := t.nodes.remove n }) := by
  obtain ⟨l₁, l₂, he, _, hrem⟩ := GenMap.entries_split h
  simp only [held, he, hrem, flatMap_append, flatMap_cons]
  rw [← Multiset.coe_eq_coe]
  simp only [← Multiset.coe_add]
  abel

theorem held_insert (t : KvPageTable) (nd : KvTrieNode) :
    (held { t with nodes := (t.nodes.insert nd).2 }).Perm (ownedBackings nd ++ held t) := by
  obtain ⟨l₁, l₂, he, hins⟩ := GenMap.entries_insert t.nodes nd
  simp only [held, he, hins, flatMap_append, flatMap_cons]
  rw [← Multiset.coe_eq_coe]
  simp only [← Multiset.coe_add]
  abel

/-- Where the pages the trie holds are. -/
def pageLocs (t : KvPageTable) : List TriePageLocation :=
  t.nodes.entries.flatMap (fun e => (List.range (ownedBackings e.2).length).map (fun i => ⟨e.1, i⟩))

theorem pageLocs_length (t : KvPageTable) : (pageLocs t).length = (held t).length := by
  simp [pageLocs, held, length_flatMap]

theorem mem_pageLocs {t : KvPageTable} {l : TriePageLocation} : l ∈ pageLocs t ↔ ∃ p, backing t l = some p := by
  simp only [pageLocs, mem_flatMap, mem_map, mem_range, Prod.exists, GenMap.mem_entries]
  constructor
  · rintro ⟨n, nd, hn, i, hi, rfl⟩
    cases hp : nd.pages with
    | owned b tk h =>
      simp only [ownedBackings, hp] at hi
      exact ⟨b[i], by simp [backing, hn, hp, hi]⟩
    | parentSelection runs => simp [ownedBackings, hp] at hi
  · rintro ⟨p, hp⟩
    cases hn : t.nodes.get l.node with
    | none => simp [backing, hn] at hp
    | some nd =>
      cases hpg : nd.pages with
      | owned b tk h =>
        simp only [backing, hn, hpg] at hp
        refine ⟨l.node, nd, hn, l.slot, ?_, rfl⟩
        simp only [ownedBackings, hpg]
        exact (List.getElem?_eq_some_iff.mp hp).1
      | parentSelection runs => simp [backing, hn, hpg] at hp

theorem pageLocs_nodup (t : KvPageTable) : (pageLocs t).Nodup := by
  unfold pageLocs
  rw [nodup_flatMap]
  refine ⟨?_, ?_⟩
  · intro e _
    exact nodup_range.map (fun i j h => by simpa using h)
  · have hkeys := t.nodes.keys_nodup
    rw [GenMap.keys, Nodup, pairwise_map] at hkeys
    refine hkeys.imp ?_
    intro a b hab x hxa hxb
    obtain ⟨i, _, rfl⟩ := mem_map.mp hxa
    obtain ⟨j, _, hj⟩ := mem_map.mp hxb
    exact hab (congrArg TriePageLocation.node hj).symm

end Held

end Pie.Proof
