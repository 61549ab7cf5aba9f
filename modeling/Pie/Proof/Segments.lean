import Pie.Proof.Frame

/-!
# Reading a mapping

The table reads a mapping through its segments, last first. For a mapping that
covers its whole path these are the nodes of the path, each with the end of its
own pages, and every reader (`page_owner`, `flatten`, the visitors) reads off the
pages `locs` names.
-/

namespace Pie.Proof

open List Option Store Kv Lib Table KvPageTable

variable {l : TriePageLocation} {i : Nat} {term : Option NodeId}

variable {t : KvPageTable} {n p x : NodeId} {nd : KvTrieNode}

namespace Trie

section

variable (ht : Trie t) (hn : t.nodes.get n = some nd)
include ht hn

theorem own_length :
    (own t n).length = nd.pages.len ∧ 0 < (own t n).length := by
  rcases ht.pred_cases hn with ⟨bs, tk, hs, hpg, _⟩ | ⟨runs, o, od, bs, tk, hs, k, hpg, ho, _, _, hr, _, _⟩
  · have hok := ht.pages hn
    simp only [PagesOk, hpg] at hok
    rw [own_owned hn hpg]
    simp only [length_map, length_range, Pages.len, hpg]
    exact ⟨trivial, length_pos_iff.mpr hok.1⟩
  · rw [own_selection hn hpg ho, hr.indices_eq]
    simp only [length_map, length_range, Pages.len, hpg, hr.len_eq]
    exact ⟨trivial, hr.1⟩

theorem contributionLen_eq :
    t.contributionLen n = some (own t n).length := by
  rw [(ht.own_length hn).1]
  simp [contributionLen, hn]

theorem predecessor_eq : t.predecessor n = some (pred t n) := by
  rcases ht.pred_cases hn with ⟨bs, tk, hs, hpg, _⟩ | ⟨runs, o, od, bs, tk, hs, k, hpg, ho, hod, _, _, _, _⟩
  · simp [predecessor, hn, hpg, pred]
  · simp [predecessor, hn, hpg, ho, hod, pred, par]

theorem locs_eq : locs t n = termLocs t (pred t n) ++ own t n := by
  cases hp : pred t n with
  | none => rw [locs, gather_root hp]; rfl
  | some p =>
    obtain ⟨q, hq, hpq⟩ := ht.pred_up hn hp
    obtain ⟨qd, hqd⟩ := ht.live_parent hq
    obtain ⟨pd, hpd⟩ := ht.live_path hqd hpq
    rw [locs, gather_step hp (ht.grounded_pred hpd)]
    rfl

theorem live_pred (hp : pred t n = some p) :
    ∃ pd, t.nodes.get p = some pd := by
  obtain ⟨q, hq, hpq⟩ := ht.pred_up hn hp
  obtain ⟨qd, hqd⟩ := ht.live_parent hq
  exact ht.live_path hqd hpq

theorem locs_pos : 0 < (locs t n).length := by
  rw [ht.locs_eq hn, length_append]
  have := (ht.own_length hn).2
  omega

end

section

variable (ht : Trie t)
include ht

theorem induct_pred {P : NodeId → Prop}
    (step : ∀ n nd, t.nodes.get n = some nd → (∀ p, pred t n = some p → P p) → P n) :
    ∀ n nd, t.nodes.get n = some nd → P n := by
  refine ht.induct_up ?_
  intro n nd hn ih
  refine step n nd hn ?_
  intro p hp
  obtain ⟨q, hq, hpq⟩ := ht.pred_up hn hp
  exact ih p q hq hpq

theorem pred_path_length_le (hn : t.nodes.get n = some nd) : (path (pred t) n).length ≤ t.fuel := by
  refine le_trans (path_length_le (ht.grounded_pred hn) ?_)
    t.nodes.keys_length_le
  intro a ha
  exact GenMap.mem_keys.mpr (ht.live_path hn (ht.pred_path_sub_up hn ha))

theorem resolveOwner_eq (hn : t.nodes.get n = some nd) (hl : (own t n)[i]? = some l) :
    t.resolveOwner n i = some (l.node, l.slot) := by
  rcases ht.pred_cases hn with ⟨bs, tk, hs, hpg, _⟩ | ⟨runs, o, od, bs, tk, hs, k, hpg, ho, _, _, hr, _, _⟩
  · rw [own_owned hn hpg] at hl
    have hi : i < bs.length := by
      have := (List.getElem?_eq_some_iff.mp hl).1
      simpa using this
    rw [getElem?_map, getElem?_range hi] at hl
    obtain rfl : (⟨n, i⟩ : TriePageLocation) = l := by simpa using hl
    simp [resolveOwner, hn, hpg]
  · rw [own_selection hn hpg ho, hr.indices_eq] at hl
    have hi : i < k := by
      have := (List.getElem?_eq_some_iff.mp hl).1
      simpa using this
    rw [getElem?_map, getElem?_range hi] at hl
    obtain rfl : (⟨o, i⟩ : TriePageLocation) = l := by simpa using hl
    simp [resolveOwner, hn, hpg, ho, hr.offset hi]

theorem resolveLocation_eq (hn : t.nodes.get n = some nd) (hl : (own t n)[i]? = some l) : t.resolveLocation n i = some l := by
  simp [resolveLocation, ht.resolveOwner_eq hn hl]

theorem backing_of_mem (hn : t.nodes.get n = some nd)
    (hl : l ∈ locs t n) : ∃ b, backing t l = some b := by
  obtain ⟨_, od, bs, tk, hs, hod, hop, hlt⟩ := ht.mem_locs_up hn hl
  exact ⟨bs[l.slot], by simp [backing, hod, hop, hlt]⟩

theorem own_sub_locs (hn : t.nodes.get n = some nd) (hl : l ∈ own t n) : l ∈ locs t n := by
  rw [ht.locs_eq hn]
  exact mem_append_right _ hl

theorem resolveBacking_eq (hn : t.nodes.get n = some nd) (hl : (own t n)[i]? = some l) : t.resolveBacking n i = backing t l := by
  obtain ⟨_, od, bs, tk, hs, hod, hop, _⟩ :=
    ht.mem_locs_up hn (ht.own_sub_locs hn (mem_of_getElem? hl))
  simp [resolveBacking, ht.resolveLocation_eq hn hl, hod, hop, backing]

end

end Trie

/-! ## Segments -/

namespace Table

/-- The segment of a node: its own pages, at the end of the path to it. -/
noncomputable def segOf (t : KvPageTable) (x : NodeId) : Segment :=
  ⟨x, (termLocs t (pred t x)).length, (own t x).length⟩

/-- The segments of the whole path to `n`, last first. -/
noncomputable def segs (t : KvPageTable) (n : NodeId) : List Segment := (path (pred t) n).map (segOf t)

noncomputable def termSegs (t : KvPageTable) : Option NodeId → List Segment
  | none => []
  | some n => segs t n

end Table

namespace Trie

theorem segs_eq (ht : Trie t) (hn : t.nodes.get n = some nd) : segs t n = segOf t n :: termSegs t (pred t n) := by
  cases hp : pred t n with
  | none => simp [segs, path_root hp, termSegs]
  | some p =>
    obtain ⟨pd, hpd⟩ := ht.live_pred hn hp
    simp [segs, path_step hp (ht.grounded_pred hpd), termSegs]

theorem segmentsLoop_spec (ht : Trie t) : ∀ n nd, t.nodes.get n = some nd →
    ∀ {fuel : Nat}, (path (pred t) n).length ≤ fuel →
      t.segmentsLoop fuel (some n) (locs t n).length = some (segs t n)
        ∧ (segs t n).getLast?.any (fun s => decide (s.start ≤ 0)) = true := by
  refine ht.induct_pred ?_
  intro n nd hn ih fuel hf
  have hlen : ((locs t n).length : Int) - (own t n).length = (termLocs t (pred t n)).length := by
    rw [ht.locs_eq hn, length_append]
    push_cast
    ring
  cases fuel with
  | zero =>
    have := mem_path_self (ht.grounded_pred hn)
    rw [length_eq_zero_iff.mp (Nat.le_zero.mp hf)] at this
    simp at this
  | succ fuel =>
    rw [ht.segs_eq hn]
    simp only [segmentsLoop, ht.contributionLen_eq hn, ht.predecessor_eq hn,
      bind_eq_bind, bind_some, hlen]
    cases hp : pred t n with
    | none => simp [termLocs, termSegs, segOf, hp]
    | some p =>
      obtain ⟨pd, hpd⟩ := ht.live_pred hn hp
      rw [path_step hp (ht.grounded_pred hpd), length_cons] at hf
      obtain ⟨hrun, hlast⟩ := @ih p hp fuel (by omega)
      have hpos := ht.locs_pos hpd
      refine ⟨?_, ?_⟩
      · rw [if_neg (by simp only [termLocs]; omega)]
        simp only [termLocs, hrun, bind_some, termSegs, segOf, hp]
      · rw [termSegs, getLast?_cons]
        have hne : segs t p ≠ [] := by rw [ht.segs_eq hpd]; simp
        rw [getLast?_eq_getLast_of_ne_nil hne] at hlast
        simpa [getLastD_eq_getLast?, getLast?_eq_getLast_of_ne_nil hne] using hlast

/-- **The segments of a mapping** that covers its path are the nodes of that path. -/
theorem segments_eq (ht : Trie t) (hlive : ∀ n, term = some n → ∃ nd, t.nodes.get n = some nd) :
    t.segments term (termLocs t term).length = some (termSegs t term) := by
  cases term with
  | none => cases hf : t.fuel <;> simp [segments, segmentsLoop, termLocs, termSegs, hf]
  | some n =>
    obtain ⟨nd, hn⟩ := hlive n rfl
    obtain ⟨hrun, hlast⟩ := ht.segmentsLoop_spec n nd hn (ht.pred_path_length_le hn)
    simp only [segments, termLocs, hrun, bind_eq_bind, bind_some,
      termSegs, hlast, or_true, if_true]

/-! ## What is read through them -/

/-- A node's own pages, as the segments name them. -/
theorem resolve_own (ht : Trie t) (hn : t.nodes.get n = some nd) :
    ((range (own t n).length).map (fun i => (n, i))).mapM
      (fun q => t.resolveLocation q.1 q.2) = some (own t n) := by
  rw [mapM_eq_map (g := fun q => (own t n).getD q.2 ⟨n, 0⟩)]
  · congr 1
    refine ext_getElem (by simp) ?_
    intro i h1 h2
    simp [getD_eq_getElem?_getD, h2]
  · intro q hq
    obtain ⟨i, hi, rfl⟩ := mem_map.mp hq
    have hi := mem_range.mp hi
    have hget : (own t n)[i]? = some (own t n)[i] := getElem?_eq_getElem hi
    rw [ht.resolveLocation_eq hn hget, getD_eq_getElem?_getD, hget]
    rfl

theorem mapM_append_some {α β : Type} {f : α → Option β} {l₁ l₂ : List α} {r₁ r₂ : List β}
    (h₁ : l₁.mapM f = some r₁) (h₂ : l₂.mapM f = some r₂) : (l₁ ++ l₂).mapM f = some (r₁ ++ r₂) := by
  simp [mapM_append, h₁, h₂]

theorem segmentPages_cons (s : Segment) (hs : 0 ≤ s.start) (rest : List Segment) :
    segmentPages (s :: rest) =
      segmentPages rest ++ (range s.len).map (fun i => (s.node, i)) := by
  have h0 : (max (-s.start) 0).toNat = 0 := by omega
  simp [segmentPages, h0, range_eq_range']

/-- The pages the segments name resolve to the pages of the path. -/
theorem resolve_segs (ht : Trie t) : ∀ n nd, t.nodes.get n = some nd →
    (segmentPages (segs t n)).mapM (fun q => t.resolveLocation q.1 q.2)
      = some (locs t n) := by
  refine ht.induct_pred ?_
  intro n nd hn ih
  rw [ht.segs_eq hn, segmentPages_cons _ (by simp [segOf]), ht.locs_eq hn]
  refine mapM_append_some ?_ (ht.resolve_own hn)
  cases hp : pred t n with
  | none => rfl
  | some p => exact ih p hp

theorem resolve_termSegs (ht : Trie t) (hlive : ∀ n, term = some n → ∃ nd, t.nodes.get n = some nd) :
    (segmentPages (termSegs t term)).mapM (fun q => t.resolveLocation q.1 q.2)
      = some (termLocs t term) := by
  cases term with
  | none => rfl
  | some n =>
    obtain ⟨nd, hn⟩ := hlive n rfl
    exact ht.resolve_segs n nd hn

end Trie

namespace Table

/-- The ids of a list of pages, or the first that is below the device; `i` pages came before. -/
def idsFrom (t : KvPageTable) : Nat → List TriePageLocation →
    Except KvTableError (List PhysicalKvPageId)
  | _, [] => .ok []
  | i, l :: rest =>
    match (backing t l).bind KvPageBacking.residentId with
    | none => .error (.nonResident i)
    | some id =>
      match idsFrom t (i + 1) rest with
      | .error e => .error e
      | .ok ids => .ok (id :: ids)

end Table

namespace Trie

theorem collectIds_eq {pages : List (NodeId × Nat)} {ls : List TriePageLocation}
    (h : pages.mapM (fun q => t.resolveLocation q.1 q.2) = some ls)
    (hb : ∀ q ∈ pages, ∀ l, t.resolveLocation q.1 q.2 = some l →
      ∃ b, t.resolveBacking q.1 q.2 = some b ∧ backing t l = some b) :
    ∀ out : List PhysicalKvPageId, t.collectIds pages out = some (match idsFrom t out.length ls with
      | .error e => .error e
      | .ok ids => .ok (out ++ ids)) := by
  induction pages generalizing ls with
  | nil =>
    intro out
    obtain rfl : ls = [] := by simpa using h.symm
    simp [collectIds, idsFrom]
  | cons q pages ih =>
    intro out
    rw [mapM_cons] at h
    cases hl : t.resolveLocation q.1 q.2 with
    | none => rw [hl] at h; simp at h
    | some l =>
      rw [hl] at h
      cases hr : pages.mapM (fun q => t.resolveLocation q.1 q.2) with
      | none => rw [hr] at h; simp at h
      | some rest =>
        rw [hr] at h
        obtain rfl : l :: rest = ls := by simpa using h
        obtain ⟨b, hrb, hbl⟩ := hb q mem_cons_self l hl
        have ih := ih hr (fun q hq => hb q (mem_cons_of_mem _ hq))
        simp only [collectIds, resolveId, hrb, map_some,
          bind_eq_bind, bind_some, idsFrom, hbl]
        cases hid : b.residentId with
        | none => rfl
        | some id =>
          simp only []
          rw [ih (out ++ [id])]
          simp only [length_append, length_singleton]
          cases idsFrom t (out.length + 1) rest <;> simp

theorem resolveBacking_segs (ht : Trie t) : ∀ n nd, t.nodes.get n = some nd →
    ∀ q ∈ segmentPages (segs t n), ∀ l, t.resolveLocation q.1 q.2 = some l →
      ∃ b, t.resolveBacking q.1 q.2 = some b ∧ backing t l = some b := by
  refine ht.induct_pred ?_
  intro n nd hn ih q hq l hl
  rw [ht.segs_eq hn, segmentPages_cons _ (by simp [segOf]), mem_append] at hq
  rcases hq with hq | hq
  · cases hp : pred t n with
    | none => rw [hp] at hq; simp [termSegs, segmentPages] at hq
    | some p => rw [hp] at hq; exact ih p hp q hq l hl
  · obtain ⟨i, hi, rfl⟩ := mem_map.mp hq
    have hi : i < (own t n).length := mem_range.mp hi
    have hget : (own t n)[i]? = some (own t n)[i] := getElem?_eq_getElem hi
    have hl' := ht.resolveLocation_eq hn hget
    have he : (own t n)[i] = l := by
      have := hl'.symm.trans hl
      simpa using this
    rw [he] at hget
    obtain ⟨b, hb⟩ := ht.backing_of_mem hn (ht.own_sub_locs hn (mem_of_getElem? hget))
    exact ⟨b, by show t.resolveBacking n i = _; rw [ht.resolveBacking_eq hn hget, hb], hb⟩

/-- The segment a page lies in is the last that starts at or below it. -/
theorem segmentAt_spec (ht : Trie t) : ∀ n nd, t.nodes.get n = some nd → ∀ {i : Nat}
    {l : TriePageLocation}, (locs t n)[i]? = some l →
      t.segmentAt (segs t n) i = some (l.node, l.slot) := by
  refine ht.induct_pred ?_
  intro n nd hn ih i l hl
  rw [ht.segs_eq hn]
  rw [ht.locs_eq hn] at hl
  by_cases hi : (termLocs t (pred t n)).length ≤ i
  · rw [getElem?_append_right hi] at hl
    have hstart : decide ((segOf t n).start ≤ (i : Int)) = true :=
      decide_eq_true (by simp only [segOf]; omega)
    have hoff : ((i : Int) - (segOf t n).start).toNat = i - (termLocs t (pred t n)).length := by
      simp only [segOf]
      omega
    simp only [segmentAt, find?_cons, hstart, bind_eq_bind, bind_some, hoff]
    exact ht.resolveOwner_eq hn hl
  · have hlt : i < (termLocs t (pred t n)).length := by omega
    rw [getElem?_append_left hlt] at hl
    have hstart : decide ((segOf t n).start ≤ (i : Int)) = false :=
      decide_eq_false (by simp only [segOf]; omega)
    cases hp : pred t n with
    | none => rw [hp] at hlt; simp [termLocs] at hlt
    | some p =>
      rw [hp] at hl
      have := ih p hp hl
      simp only [segmentAt, termSegs, find?_cons, hstart] at this ⊢
      exact this

theorem pathLenLoop_spec (ht : Trie t) : ∀ n nd, t.nodes.get n = some nd →
    ∀ {fuel : Nat}, (path (pred t) n).length ≤ fuel →
      t.pathLenLoop fuel (some n) = some (locs t n).length := by
  refine ht.induct_pred ?_
  intro n nd hn ih fuel hf
  cases fuel with
  | zero =>
    have := mem_path_self (ht.grounded_pred hn)
    rw [length_eq_zero_iff.mp (Nat.le_zero.mp hf)] at this
    simp at this
  | succ fuel =>
    have hrest : t.pathLenLoop fuel (pred t n) = some (termLocs t (pred t n)).length := by
      cases hp : pred t n with
      | none => cases fuel <;> rfl
      | some p =>
        obtain ⟨pd, hpd⟩ := ht.live_pred hn hp
        rw [path_step hp (ht.grounded_pred hpd), length_cons] at hf
        exact ih p hp (by omega)
    simp only [pathLenLoop, ht.contributionLen_eq hn, ht.predecessor_eq hn,
      bind_eq_bind, bind_some, hrest]
    rw [ht.locs_eq hn, length_append, add_comm]

theorem live_of_pathLen {fuel k : Nat} (h : t.pathLenLoop fuel (some n) = some k) :
    ∃ nd, t.nodes.get n = some nd := by
  cases fuel with
  | zero => simp [pathLenLoop] at h
  | succ fuel =>
    cases hn : t.nodes.get n with
    | none => simp [pathLenLoop, contributionLen, hn] at h
    | some nd => exact ⟨nd, rfl⟩

theorem pathPrefixLen_eq (ht : Trie t) (hn : t.nodes.get n = some nd) (slot : Nat) :
    t.pathPrefixLen n slot = some (slot + 1 + (termLocs t (pred t n)).length) := by
  have hrest : t.pathLenLoop t.fuel (pred t n) = some (termLocs t (pred t n)).length := by
    cases hp : pred t n with
    | none => cases hf : t.fuel <;> rfl
    | some p =>
      obtain ⟨pd, hpd⟩ := ht.live_pred hn hp
      exact ht.pathLenLoop_spec p pd hpd (ht.pred_path_length_le hpd)
  simp [pathPrefixLen, ht.predecessor_eq hn, hrest]

end Trie

end Pie.Proof
