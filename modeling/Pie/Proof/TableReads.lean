import Pie.Proof.TableInv

/-!
# Reading through the table

Under the invariant no lookup of a mapped page panics: each reads the page the
path names.
-/

namespace Pie.Proof

open List Option Store Kv Lib Table KvPageTable

variable {i : Nat} {l : TriePageLocation} {b : List KvPageBacking} {ids : List PhysicalKvPageId}
  {ls : List TriePageLocation} {n : NodeId}

variable {t t' : KvPageTable} {ws : WorkingSetId} {e : WorkingSetEntry}

theorem entry_eq (he : t.workingSets.get ws = some e) : t.entry ws = .ok e := by
  simp [entry, he]

theorem entry_none (he : t.workingSets.get ws = none) : t.entry ws = .error .unknownWorkingSet := by
  simp [entry, he]

namespace Table

end Table

/-! ## Ids -/

theorem idsFrom_ok :
    ∀ {i}, idsFrom t i ls = .ok ids ↔ ls.map (backing t) = ids.map (fun id => some (.resident id)) := by
  induction ls generalizing ids with
  | nil =>
    intro i
    cases ids <;> simp [idsFrom]
  | cons l ls ih =>
    intro i
    simp only [idsFrom, map_cons]
    cases hb : backing t l with
    | none => cases ids <;> simp
    | some b =>
      cases b with
      | resident id =>
        simp only [bind_some, KvPageBacking.residentId]
        cases hr : idsFrom t (i + 1) ls with
        | error err =>
          cases ids with
          | nil => simp
          | cons id' ids =>
            have := (@ih ids (i + 1)).not.mp (by rw [hr]; simp)
            simp only [map_cons, List.cons.injEq, reduceCtorEq, false_iff, not_and]
            exact fun _ => this
        | ok rest =>
          cases ids with
          | nil => simp
          | cons id' ids =>
            have hiff := @ih ids (i + 1)
            rw [hr] at hiff
            simp only [Except.ok.injEq, List.cons.injEq, map_cons, some.injEq,
              KvPageBacking.resident.injEq] at hiff ⊢
            rw [hiff]
      | swapped s => cases ids <;> simp [KvPageBacking.residentId]
      | onDisk s => cases ids <;> simp [KvPageBacking.residentId]

theorem idsFrom_length (h : idsFrom t i ls = .ok ids) : ids.length = ls.length := by
  have := congrArg length (idsFrom_ok.mp h)
  simpa using this.symm

namespace TableInv

section

variable (h : TableInv t) (he : t.workingSets.get ws = some e)
include h he

theorem term_live :
    ∀ n, e.terminal = some n → ∃ nd, t.nodes.get n = some nd := fun _ hn => h.live_term he hn

theorem segments_eq :
    t.segments e.terminal e.mappedLen = some (termSegs t e.terminal) := by
  have := h.nodes.trie.segments_eq (h.term_live he)
  rwa [(h.mapped he).1] at this

/-- **The visitor of a working set** visits the pages it maps, in order. -/
theorem workingSetLocations_eq :
    t.workingSetLocations ws = some (.ok (termLocs t e.terminal)) := by
  simp only [workingSetLocations, entry_eq he, h.segments_eq he, bind_eq_bind,
    bind_some, h.nodes.trie.resolve_termSegs (h.term_live he)]

/-- **Flattening** gives the ids of the pages a working set maps, or the first below the device. -/
theorem flatten_eq :
    t.flatten ws = some (idsFrom t 0 (termLocs t e.terminal)) := by
  have hcol := Trie.collectIds_eq (h.nodes.trie.resolve_termSegs (h.term_live he)) (by
    cases hterm : e.terminal with
    | none => intro q hq; simp [termSegs, segmentPages] at hq
    | some n =>
      obtain ⟨nd, hn⟩ := h.live_term he hterm
      exact h.nodes.trie.resolveBacking_segs n nd hn) []
  simp only [length_nil, nil_append] at hcol
  simp only [KvPageTable.flatten, entry_eq he, h.segments_eq he, bind_eq_bind, bind_some, hcol]
  cases hids : idsFrom t 0 (termLocs t e.terminal) with
  | error err => rfl
  | ok ids => simp only [idsFrom_length hids, (h.mapped he).1, if_true]

theorem page_lt :
    i < e.mappedLen ↔ ∃ l, (termLocs t e.terminal)[i]? = some l := by
  rw [← (h.mapped he).1]
  constructor
  · exact fun hi => ⟨_, getElem?_eq_getElem hi⟩
  · rintro ⟨l, hl⟩
    exact (List.getElem?_eq_some_iff.mp hl).1

/-- **A lookup** of a mapped page finds the page the path names. -/
theorem pageOwner_eq (hl : (termLocs t e.terminal)[i]? = some l) :
    t.pageOwner ws i = some (.ok (l.node, l.slot)) := by
  have hi := (h.page_lt he).mpr ⟨l, hl⟩
  cases hterm : e.terminal with
  | none => rw [hterm] at hl; simp [termLocs] at hl
  | some n =>
    obtain ⟨nd, hn⟩ := h.live_term he hterm
    have hsegs := h.segments_eq he
    rw [hterm] at hl hsegs
    simp only [pageOwner, entry_eq he, if_neg (not_le.mpr hi), hterm, hsegs,
      bind_eq_bind, bind_some, termSegs,
      h.nodes.trie.segmentAt_spec n nd hn hl]

end

theorem pageOwner_unwritten (he : t.workingSets.get ws = some e) (hi : e.mappedLen ≤ i) :
    t.pageOwner ws i = some (.error (.unwritten i e.mappedLen)) := by
  simp [pageOwner, entry_eq he, hi]

section

variable (h : TableInv t) (he : t.workingSets.get ws = some e)
include h he

theorem mapped_owned
    (hl : l ∈ termLocs t e.terminal) : ∃ od bs tk hs, t.nodes.get l.node = some od
      ∧ od.pages = .owned bs tk hs ∧ l.slot < bs.length ∧ tk.length = bs.length
      ∧ hs.length = bs.length := by
  cases hterm : e.terminal with
  | none => rw [hterm] at hl; simp [termLocs] at hl
  | some n =>
    obtain ⟨nd, hn⟩ := h.live_term he hterm
    rw [hterm] at hl
    obtain ⟨_, od, bs, tk, hs, hod, hop, hlt⟩ := h.nodes.trie.mem_locs_up hn hl
    have hok := h.nodes.trie.pages hod
    simp only [PagesOk, hop] at hok
    exact ⟨od, bs, tk, hs, hod, hop, hlt, hok.2.1, hok.2.2⟩

/-- **A page is writable in place** when one anchor reads it. -/
theorem privatelyWritable_eq (hl : (termLocs t e.terminal)[i]? = some l) :
    t.privatelyWritable ws i = some (.ok (decide ((anchors t).countP (fun a => decide (l ∈ locs t a)) = 1))) := by
  obtain ⟨od, bs, tk, hs, hod, hop, hlt, _⟩ := h.mapped_owned he (mem_of_getElem? hl)
  simp only [privatelyWritable, h.pageOwner_eq he hl, bind_eq_bind,
    bind_some, pageReaders_spec h.nodes.trie h.nodes.counted hod hop hlt]
  rfl

theorem hashesOf_some
    (hl : l ∈ termLocs t e.terminal) : ∃ q, t.hashesOf l.node l.slot = some q := by
  obtain ⟨od, bs, tk, hs, hod, hop, hlt, htk, hhs⟩ := h.mapped_owned he hl
  exact ⟨(tk[l.slot], hs[l.slot]), by
    simp [hashesOf, hod, hop, htk ▸ hlt, hhs ▸ hlt]⟩

theorem pageHashAt_some
    (hi : i < e.mappedLen) : ∃ k, t.pageHashAt ws i = some (.ok k) := by
  obtain ⟨l, hl⟩ := (h.page_lt he).mp hi
  obtain ⟨q, hq⟩ := h.hashesOf_some he (mem_of_getElem? hl)
  exact ⟨q.2, by simp [pageHashAt, h.pageOwner_eq he hl, hq]⟩

theorem pageTokenHashes_some
    (hi : i < e.mappedLen) : ∃ k, t.pageTokenHashes ws i = some (.ok k) := by
  obtain ⟨l, hl⟩ := (h.page_lt he).mp hi
  obtain ⟨q, hq⟩ := h.hashesOf_some he (mem_of_getElem? hl)
  exact ⟨q.1, by simp [pageTokenHashes, h.pageOwner_eq he hl, hq]⟩

theorem sealed_some
    (hi : i < e.mappedLen) : ∃ b, t.sealed ws i = some (.ok b) := by
  obtain ⟨k, hk⟩ := h.pageHashAt_some he hi
  exact ⟨k.isSome, by simp [sealed, hk]⟩

end

end TableInv

/-! ## Changes of hashes alone -/

/-- `t'` differs from `t` in hashes and the index of node starts alone. -/
structure Quiet (t t' : KvPageTable) : Prop where
  rest : SameRest t t'
  frame : Frame (fun a => ∃ ad, t.nodes.get a = some ad) t t'
  trie : Trie t → Trie t'
  counted : ∀ {A}, Counted t A → Counted t' A
  anchored : ∀ {A}, Anchored t A → Anchored t' A
  tight : ∀ {A}, Tight t A → Tight t' A
  pred : pred t' = pred t
  own : own t' = own t
  backing : backing t' = backing t
  held : (held t').Perm (held t)

namespace Quiet

variable {t'' : KvPageTable}

theorem refl (t : KvPageTable) : Quiet t t :=
  ⟨.refl t, .refl id, id, id, id, id, rfl, rfl, rfl, .refl _⟩

section

variable (h : Quiet t t')
include h

theorem trans (h' : Quiet t' t'') : Quiet t t'' where
  rest := h.rest.trans h'.rest
  frame := h.frame.trans (h'.frame.mono (fun ha => h.frame.live ha))
  trie ht := h'.trie (h.trie ht)
  counted hc := h'.counted (h.counted hc)
  anchored ha := h'.anchored (h.anchored ha)
  tight ha := h'.tight (h.tight ha)
  pred := h'.pred.trans h.pred
  own := h'.own.trans h.own
  backing := h'.backing.trans h.backing
  held := h'.held.trans h.held

theorem locs : locs t' = locs t := by
  funext n
  rw [Table.locs, h.pred, h.own, Table.locs]

theorem termLocs : termLocs t' = termLocs t := by
  funext o
  cases o with
  | none => rfl
  | some n => exact congrFun h.locs n

theorem segs : segs t' = segs t := by
  have hseg : segOf t' = segOf t := by
    funext x
    rw [segOf, h.pred, h.own, h.termLocs, segOf]
  funext n
  rw [Table.segs, h.pred, hseg, Table.segs]

theorem anchors_eq : anchors t' = anchors t := by
  rw [anchors, terms, h.rest.workingSets, h.rest.cacheRoots, h.rest.pins, anchors, terms]

theorem nodes {A : List NodeId} (hn : Nodes A t) : Nodes A t' :=
  ⟨h.trie hn.trie, h.counted hn.counted, h.anchored hn.anchored, h.tight hn.tight⟩

theorem inv (hi : TableInv t) : TableInv t' where
  nodes := by rw [h.anchors_eq]; exact h.nodes hi.nodes
  mapped he := by
    rw [h.rest.workingSets] at he
    rw [h.termLocs]
    exact hi.mapped he
  roots hn := hi.roots (by rw [← h.rest.cacheRoots]; exact hn)
  pins hn := hi.pins (by rw [← h.rest.pins]; exact hn)
  swap hl := hi.swap_frame h.frame hl

end

theorem of_nodes (hn : t'.nodes = t.nodes) (hr : SameRest t t') : Quiet t t' where
  rest := hr
  frame := (Frame.refl (t := t) id).of_nodes rfl rfl hn hr.swap
  trie ht := ht.of_nodes hn
  counted hc := hc.of_nodes hn
  anchored ha := by cases t; cases t'; cases hn; exact ha
  tight ha := by cases t; cases t'; cases hn; cases hr.swap; exact ha
  pred := by cases t; cases t'; cases hn; rfl
  own := by cases t; cases t'; cases hn; rfl
  backing := backing_of_nodes hn
  held := by rw [held_of_nodes hn]

end Quiet

theorem Repaged.quiet {m : NodeId} (h : Repaged t m b b t') (ht : Trie t) : Quiet t t' := by
  have hlocs : ∀ n, locs t' n = locs t n := fun n => h.locs_same rfl
  have hback : backing t' = backing t := by
    funext l
    exact h.backing_slot (fun _ => rfl)
  have htrie := h.trie ht (fun _ _ _ _ hk => hk)
  refine ⟨h.rest, ?_, fun _ => htrie, h.counted, h.anchored, ?_, h.pred_eq, ?_, hback, ?_⟩
  · constructor
    · exact h.issued
    · exact fun _ hn => h.stale_of hn
    · rintro a ⟨ad, had⟩
      obtain ⟨ad', had', _⟩ := h.live had
      exact ⟨ad', had'⟩
    · exact fun _ => h.up_eq _
    · exact fun _ => hlocs _
    · exact fun _ _ => by rw [hback]
    · exact h.rest.swap
    · intro l nd' p _ _ _ hp
      rw [hback]
      exact hp
  · intro A htight x xd b' tk' hs' hx hp hsw i hi
    obtain ⟨xd₀, hx₀, _, _, _, _, hsame⟩ := h.of_live hx
    have hold : ∃ b₀ tk₀ hs₀, xd₀.pages = .owned b₀ tk₀ hs₀ ∧ b₀.length = b'.length := by
      by_cases hxm : x = m
      · subst hxm
        obtain ⟨md, tk, hs, tk₁, hs₁, hm, hmp, _, _, _, hm'⟩ := h.get_self
        cases hx₀.symm.trans hm
        cases hx.symm.trans hm'
        obtain ⟨rfl, _, _⟩ : b = b' ∧ tk₁ = tk' ∧ hs₁ = hs' := by simpa using hp
        exact ⟨b, tk, hs, hmp, rfl⟩
      · obtain rfl := hsame hxm
        exact ⟨b', tk', hs', hp, rfl⟩
    obtain ⟨b₀, tk₀, hs₀, hp₀, hlen⟩ := hold
    obtain ⟨a, ha, hl⟩ := htight hx₀ hp₀ (by rw [← h.rest.inSwap]; exact hsw) i (by omega)
    exact ⟨a, ha, by rw [hlocs]; exact hl⟩
  · funext x
    by_cases hxm : x = m
    · subst hxm
      obtain ⟨md, tk, hs, tk₁, hs₁, hm, hmp, _, _, _, hm'⟩ := h.get_self
      rw [own_owned hm hmp, own_owned hm' rfl]
    · exact h.own_ne hxm
  · exact (perm_append_right_iff _).mp h.held_perm

theorem setHashes_spec (ht : Trie t) {slot : Nat} {nd : KvTrieNode} {tk : List (List (Option Hash256))} {hs : List (Option Hash256)}
    (hn : t.nodes.get n = some nd) (hp : nd.pages = .owned b tk hs) (hslot : slot < b.length)
    (tokens : List (Option Hash256)) (page : Option Hash256) :
    ∃ t', t.setHashes n slot tokens page = some t' ∧ Quiet t t' := by
  have hok := ht.pages hn
  simp only [PagesOk, hp] at hok
  refine ⟨_, ?_, (repaged_setNode hn hp hok.1 (show (tk.set slot tokens).length = _ by simp [hok.2.1])
    (show (hs.set slot page).length = _ by simp [hok.2.2])).quiet ht⟩
  have h1 : slot < tk.length := by omega
  have h2 : slot < hs.length := by omega
  simp [setHashes, hn, hp, h1, h2]

theorem indexNodeStart_quiet (t : KvPageTable) (key : Hash256) (n : NodeId) :
    Quiet t (t.indexNodeStart key n) := .of_nodes rfl ⟨rfl, rfl, rfl, rfl⟩

theorem indexFirst_quiet (t : KvPageTable) (page : Option Hash256) (n : NodeId) (slot : Nat) :
    Quiet t (t.indexFirst page n slot) := by
  unfold indexFirst
  split
  · split
    · exact indexNodeStart_quiet t _ n
    · exact .refl t
  · exact .refl t

/-- **A commit in place** changes no mapping and no backing. -/
theorem commitInPlace_spec (h : TableInv t) (he : t.workingSets.get ws = some e)
    (hi : i < e.mappedLen) (tokens : List (Option Hash256)) (page : Option Hash256) :
    ∃ t', t.commitInPlace ws i tokens page = some (.ok (), t') ∧ Quiet t t' := by
  obtain ⟨l, hl⟩ := (h.page_lt he).mp hi
  obtain ⟨od, bs, tk, hs, hod, hop, hlt, _⟩ := h.mapped_owned he (mem_of_getElem? hl)
  obtain ⟨t', hset, hq⟩ := setHashes_spec h.nodes.trie hod hop hlt tokens page
  exact ⟨t', by simp [commitInPlace, h.pageOwner_eq he hl, hset], hq⟩

/-- Committing hashes page by page keeps the segments it reads them through. -/
theorem commitHashesLoop_spec : ∀ {pages} {t : KvPageTable} {nd : KvTrieNode} {first : Nat},
    Trie t → t.nodes.get n = some nd → first + pages.length ≤ (locs t n).length →
    ∃ t', commitHashesLoop (segs t n) t first pages = some t' ∧ Quiet t t' := by
  intro pages
  induction pages with
  | nil => intro t nd first _ _ _; exact ⟨t, rfl, .refl t⟩
  | cons q pages ih =>
    intro t nd first ht hn hlen
    obtain ⟨tokens, page⟩ := q
    simp only [length_cons] at hlen
    have hl := getElem?_eq_getElem (l := locs t n) (i := first) (by omega)
    generalize (locs t n)[first] = l at hl
    obtain ⟨_, od, bs, tk, hs, hod, hop, hslot⟩ := ht.mem_locs_up hn (mem_of_getElem? hl)
    obtain ⟨t₁, hset, hq₁⟩ := setHashes_spec ht hod hop hslot tokens page
    have hq₂ := indexFirst_quiet t₁ page l.node l.slot
    have hq := hq₁.trans hq₂
    obtain ⟨nd₂, hn₂⟩ := hq.frame.live ⟨nd, hn⟩
    obtain ⟨t', hrun, hq'⟩ := @ih _ _ (first + 1) (hq.trie ht) hn₂ (by
      rw [hq.locs]
      omega)
    refine ⟨t', ?_, hq.trans hq'⟩
    rw [hq.segs] at hrun
    simp only [commitHashesLoop, ht.segmentAt_spec n nd hn hl, hset, bind_eq_bind,
      bind_some]
    exact hrun

/-- **A commit of hashes** changes no mapping and no backing. -/
theorem commitHashes_spec (h : TableInv t) (he : t.workingSets.get ws = some e) {first : Nat}
    {pages : List (List (Option Hash256) × Option Hash256)}
    (hfit : first + pages.length ≤ e.mappedLen) :
    ∃ t', t.commitHashes ws first pages = some (.ok (), t') ∧ Quiet t t' := by
  have hloop : ∃ t', commitHashesLoop (termSegs t e.terminal) t first pages = some t'
      ∧ Quiet t t' := by
    obtain ⟨hm, _⟩ := h.mapped he
    cases hterm : e.terminal with
    | none =>
      rw [hterm] at hm
      simp only [termLocs, length_nil] at hm
      obtain rfl : pages = [] := length_eq_zero_iff.mp (by omega)
      exact ⟨t, rfl, .refl t⟩
    | some n =>
      obtain ⟨nd, hn⟩ := h.live_term he hterm
      rw [hterm] at hm
      exact commitHashesLoop_spec h.nodes.trie hn (by
        rw [show (locs t n).length = e.mappedLen from hm]
        exact hfit)
  obtain ⟨t', hrun, hq⟩ := hloop
  refine ⟨t', ?_, hq⟩
  simp only [commitHashes, entry_eq he, if_neg (not_lt.mpr hfit), h.segments_eq he,
    bind_eq_bind, bind_some, hrun]

end Pie.Proof
