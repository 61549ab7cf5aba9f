import Pie.Proof.TablePaths

/-!
# Residency moves

A move registers the pages it is about, which keeps their owners from being
compacted, replaces what backs them, and lets them go. Letting go compacts the
owners that waited for it.
-/

namespace Pie.Proof

open List Store Kv Lib Table KvPageTable

variable {ls : List TriePageLocation} {i : Nat} {n : NodeId}

variable {t t' : KvPageTable}

theorem pinSwapLocations_eq : ∀ {t : KvPageTable}, ls.Nodup → (∀ l ∈ ls, l ∉ t.swapLocations) →
      t.pinSwapLocations ls = some { t with swapLocations := t.swapLocations ∪ ls.toFinset } := by
  induction ls with
  | nil => intro t _ _; simp [pinSwapLocations]
  | cons l ls ih =>
    intro t hnd hfresh
    rw [nodup_cons] at hnd
    rw [pinSwapLocations, if_neg (hfresh l mem_cons_self)]
    rw [ih hnd.2]
    · congr 2
      ext x
      simp only [Finset.mem_union, Finset.mem_insert, mem_toFinset, mem_cons]
      tauto
    · intro x hx
      simp only [Finset.mem_insert, not_or]
      exact ⟨fun he => hnd.1 (he ▸ hx), hfresh x (mem_cons_of_mem _ hx)⟩

theorem inSwap_false : t.inSwap n = false ↔ ∀ l ∈ t.swapLocations, l.node ≠ n := by
  simp [inSwap]

/-- **Registering pages** that are there and in no move. -/
theorem pinSwapLocations_spec (h : TableInv t) (hb : ∀ l ∈ ls, ∃ p, backing t l = some p) :
    TableInv { t with swapLocations := t.swapLocations ∪ ls.toFinset } := by
  refine ⟨⟨h.nodes.trie.of_nodes rfl, h.nodes.counted.of_nodes rfl, h.nodes.anchored, ?_⟩, h.mapped,
    h.roots, h.pins, ?_⟩
  · intro n nd b tk hs hn hp hsw i hi
    refine h.nodes.tight hn hp ?_ i hi
    rw [inSwap_false] at hsw ⊢
    intro l hl
    exact hsw l (Finset.mem_union_left _ hl)
  · intro l hl
    rcases Finset.mem_union.mp hl with hl | hl
    · exact h.swap hl
    · obtain ⟨p, hp⟩ := hb l (mem_toFinset.mp hl)
      refine ⟨?_, fun _ => ⟨p, hp⟩⟩
      cases hn : t.nodes.get l.node with
      | none => simp [backing, hn] at hp
      | some nd => exact GenMap.issued_of_get hn

theorem mem_swapOwners : ∀ {held : Finset TriePageLocation},
      n ∈ swapOwners held ls ↔ ∃ l ∈ ls, l ∈ held ∧ l.node = n := by
  induction ls with
  | nil => intro held; simp [swapOwners]
  | cons l ls ih =>
    intro held
    have hrest : (∃ x ∈ ls, x ∈ held.erase l ∧ x.node = n) →
        ∃ x ∈ l :: ls, x ∈ held ∧ x.node = n := by
      rintro ⟨x, hx, hxh, hxn⟩
      exact ⟨x, mem_cons_of_mem _ hx, Finset.mem_of_mem_erase hxh, hxn⟩
    rw [swapOwners]
    split
    · rename_i hcond
      rw [mem_cons, ih]
      constructor
      · rintro (rfl | hx)
        · exact ⟨l, mem_cons_self, hcond.1, rfl⟩
        · exact hrest hx
      · rintro ⟨x, hx, hxh, hxn⟩
        by_cases hxl : x = l
        · exact .inl (by rw [← hxn, hxl])
        · rcases mem_cons.mp hx with hx | hx
          · exact absurd hx hxl
          · exact .inr ⟨x, hx, Finset.mem_erase.mpr ⟨hxl, hxh⟩, hxn⟩
    · rename_i hcond
      rw [ih]
      constructor
      · exact hrest
      · rintro ⟨x, hx, hxh, hxn⟩
        by_cases hxl : x = l
        · subst hxl
          -- its owner is listed already, through another page
          have hin : x.node ∈ swapOwners (held.erase x) ls := by
            by_contra hnot
            exact hcond ⟨hxh, hnot⟩
          rw [hxn] at hin
          exact ih.mp hin
        · rcases mem_cons.mp hx with hx | hx
          · exact absurd hx hxl
          · exact ⟨x, hx, Finset.mem_erase.mpr ⟨hxl, hxh⟩, hxn⟩

/-- The table once the pages `ls` are in no move, its owners not compacted yet. -/
def Table.unswapped (t : KvPageTable) (ls : List TriePageLocation) : KvPageTable :=
  { t with swapLocations := t.swapLocations.filter (fun l => l ∉ ls) }

/-- **Letting pages go**: the owners that waited for it are compacted. -/
theorem unpinSwapLocations_spec (h : TableInv t) (ls : List TriePageLocation) :
    ∃ freed t', t.unpinSwapLocations ls = some (freed, t') ∧ TableInv t'
      ∧ SameRest (unswapped t ls) t' ∧ Frame (· ∈ anchors t) (unswapped t ls) t'
      ∧ (held t).Perm (freed ++ held t') := by
  have ht₀ : Trie (unswapped t ls) := h.nodes.trie.of_nodes rfl
  have hc₀ : Counted (unswapped t ls) (anchors t) := h.nodes.counted.of_nodes rfl
  have ha₀ : Anchored (unswapped t ls) (anchors t) := h.nodes.anchored
  obtain ⟨freed, t', hrun, hcomp, htight⟩ := compactAll_spec ht₀ hc₀ ha₀
    (swapOwners t.swapLocations ls)
  have hr := hcomp.rest
  have hA : anchors t' = anchors t := by
    rw [anchors, terms, hr.workingSets, hr.cacheRoots, hr.pins]
    rfl
  have hswap : ∀ {l}, l ∈ (unswapped t ls).swapLocations → l ∈ t.swapLocations :=
    fun hl => (Finset.mem_filter.mp hl).1
  refine ⟨freed, t', hrun, ⟨?_, ?_, ?_, ?_, ?_⟩, hr, hcomp.frame, hcomp.held⟩
  · rw [hA]
    refine ⟨hcomp.trie, hcomp.counted, hcomp.anchored, tight_iff.mpr ?_⟩
    intro x
    by_cases hx : x ∈ swapOwners t.swapLocations ls
    · exact htight x hx
    · refine hcomp.tight ?_
      intro nd b tk hs hn hp hsw i hi
      refine h.nodes.tight hn hp ?_ i hi
      rw [inSwap_false] at hsw ⊢
      intro l hl hnode
      by_cases hin : l ∈ ls
      · exact hx (mem_swapOwners.mpr ⟨l, hin, hl, hnode⟩)
      · exact hsw l (Finset.mem_filter.mpr ⟨hl, hin⟩) hnode
  · intro ws e he
    rw [hr.workingSets] at he
    obtain ⟨h1, h2⟩ := h.mapped he
    refine ⟨?_, h2⟩
    rw [← h1]
    cases hterm : e.terminal with
    | none => rfl
    | some a =>
      show (locs t' a).length = (locs t a).length
      rw [hcomp.frame.locs (mem_append_left _ (mem_terms.mpr ⟨ws, e, he, hterm⟩))]
      rfl
  · intro n c hc
    exact h.roots (by rw [hr.cacheRoots] at hc; exact hc)
  · intro n c hc
    exact h.pins (by rw [hr.pins] at hc; exact hc)
  · intro l hl
    rw [hr.swap] at hl
    obtain ⟨hiss, hb⟩ := h.swap (hswap hl)
    refine ⟨hcomp.frame.issued hiss, ?_⟩
    intro nd' hn'
    obtain ⟨nd, hn⟩ := hcomp.frame.stale hiss hn'
    obtain ⟨p, hp⟩ := hb hn
    exact ⟨p, hcomp.frame.moved (inSwap_of_mem hl) hiss hn' hp⟩

/-! ## Replacing backings -/

abbrev Replacement := TriePageLocation × KvPageBacking × KvPageBacking

theorem backingAt_eq (t : KvPageTable) (l : TriePageLocation) : t.backingAt l = match backing t l with
    | some b => .ok b
    | none => .error .backingChanged := by
  unfold backingAt backing
  cases t.nodes.get l.node with
  | none => rfl
  | some nd =>
    cases hp : nd.pages with
    | parentSelection runs => simp only [hp]
    | owned b tk hs =>
      cases hb : b[l.slot]? <;> simp [hp, hb]

variable {rs : List Replacement}

theorem backingsMatch_ok (h : ∀ r ∈ rs, backing t r.1 = some r.2.1) : t.backingsMatch rs = .ok () := by
  induction rs with
  | nil => rfl
  | cons r rs ih =>
    obtain ⟨l, expected, replacement⟩ := r
    have hl := h _ mem_cons_self
    simp only at hl
    simp only [backingsMatch, backingAt_eq, hl, ne_eq, not_true_eq_false, if_false]
    exact ih (fun r hr => h r (mem_cons_of_mem _ hr))

theorem backingsMatch_error (h : ∃ r ∈ rs, backing t r.1 ≠ some r.2.1) :
    t.backingsMatch rs = .error .backingChanged := by
  induction rs with
  | nil => obtain ⟨r, hr, _⟩ := h; simp at hr
  | cons r rs ih =>
    obtain ⟨l, expected, replacement⟩ := r
    simp only [backingsMatch, backingAt_eq]
    cases hb : backing t l with
    | none => rfl
    | some b =>
      by_cases hbe : b = expected
      · simp only [hbe, ne_eq, not_true_eq_false, if_false]
        refine ih ?_
        obtain ⟨r', hr', hne⟩ := h
        rcases mem_cons.mp hr' with rfl | hr'
        · exact absurd (by rw [hb, hbe]) hne
        · exact ⟨r', hr', hne⟩
      · simp [hbe]

theorem replaceBackings_error (h : ∃ r ∈ rs, backing t r.1 ≠ some r.2.1) :
    t.replaceBackings rs = some (.error .backingChanged, t) := by
  simp [replaceBackings, backingsMatch_error h]

/-- What backs each page after the replacements, the last one of a page winning. -/
def rebackings (f : TriePageLocation → Option KvPageBacking) (rs : List Replacement) :
    TriePageLocation → Option KvPageBacking :=
  rs.foldl (fun f r => Function.update f r.1 (some r.2.2)) f

theorem rebackings_isSome : ∀ {f : TriePageLocation → Option KvPageBacking}, (∀ r ∈ rs, (f r.1).isSome) →
      ∀ l, (rebackings f rs l).isSome = (f l).isSome := by
  induction rs with
  | nil => intro f _ l; rfl
  | cons r rs ih =>
    intro f hf l
    rw [rebackings, foldl_cons, ← rebackings, ih]
    · by_cases hl : l = r.1
      · subst hl
        simp [hf r mem_cons_self]
      · rw [Function.update_of_ne hl]
    · intro r' hr'
      by_cases hl : r'.1 = r.1
      · rw [hl]; simp
      · rw [Function.update_of_ne hl]
        exact hf r' (mem_cons_of_mem _ hr')

theorem rebackings_of_ne {l : TriePageLocation} :
    ∀ {f : TriePageLocation → Option KvPageBacking}, (∀ r ∈ rs, r.1 ≠ l) → rebackings f rs l = f l := by
  induction rs with
  | nil => intro f _; rfl
  | cons r rs ih =>
    intro f hne
    rw [rebackings, foldl_cons, ← rebackings, ih (fun r' hr' => hne r' (mem_cons_of_mem _ hr')),
      Function.update_of_ne (hne r mem_cons_self).symm]

/-- The same trie and the same anchors, with other backings. -/
structure Rebacked (t : KvPageTable) (rs : List Replacement) (t' : KvPageTable) : Prop where
  rest : SameRest t t'
  trie : Trie t → Trie t'
  counted : ∀ {A}, Counted t A → Counted t' A
  anchored : ∀ {A}, Anchored t A → Anchored t' A
  tight : ∀ {A}, Tight t A → Tight t' A
  live : ∀ {n}, (∃ nd, t.nodes.get n = some nd) ↔ ∃ nd', t'.nodes.get n = some nd'
  issued : ∀ {n}, t.nodes.Issued n → t'.nodes.Issued n
  locs : locs t' = locs t
  backing : backing t' = rebackings (backing t) rs
  held : (rs.map Prod.fst).Nodup → (∀ r ∈ rs, Table.backing t r.1 = some r.2.1) →
    (held t' ++ rs.map (fun r => r.2.1)).Perm (held t ++ rs.map (fun r => r.2.2))

theorem set_perm {α : Type} {l : List α} {x y : α} (h : l[i]? = some x) : (l.set i y ++ [x]).Perm (l ++ [y]) := by
  obtain ⟨hi, hx⟩ := List.getElem?_eq_some_iff.mp h
  rw [set_eq_take_append_cons_drop, if_pos hi]
  have hl : l = l.take i ++ x :: l.drop (i + 1) := by
    rw [← hx, getElem_cons_drop, take_append_drop]
  conv_rhs => rw [hl]
  rw [← Multiset.coe_eq_coe]
  simp only [← Multiset.coe_add, ← Multiset.cons_coe, ← Multiset.singleton_add]
  simp only [Multiset.coe_nil, add_zero]
  abel

theorem Repaged.rebacked {m : NodeId} {b : List KvPageBacking} {x y : KvPageBacking}
    (h : Repaged t m b (b.set i y) t') (hi : i < b.length) : Rebacked t [(⟨m, i⟩, x, y)] t' := by
  have hlen : (b.set i y).length = b.length := length_set
  have hlocs : locs t' = locs t := by
    funext n
    exact h.locs_same hlen
  refine ⟨h.rest, ?_, fun hc => h.counted hc, fun ha => h.anchored ha, ?_, ?_, h.issued, hlocs, ?_, ?_⟩
  · intro ht
    refine h.trie ht ?_
    intro c cd runs k _ _ _ _ hk
    rw [hlen]
    exact hk
  · intro A htight n nd' b' tk hs hn' hp hsw j hj
    rw [hlocs]
    obtain ⟨nd, hn, _, _, _, _, hsame⟩ := h.of_live hn'
    have hsw₀ : t.inSwap n = false := by rw [← h.rest.inSwap]; exact hsw
    by_cases hnm : n = m
    · subst hnm
      obtain ⟨md, tk₀, hs₀, tk', hs', hm, hmp, _, _, _, hm'⟩ := h.get_self
      have hpg : b' = b.set i y := by
        rw [hm'] at hn'
        cases hn'
        simp only [Pages.owned.injEq] at hp
        exact hp.1.symm
      rw [hpg, hlen] at hj
      exact htight hm hmp hsw₀ j hj
    · rw [hsame hnm] at hp
      exact htight hn hp hsw₀ j hj
  · intro n
    constructor
    · rintro ⟨nd, hn⟩
      obtain ⟨nd', hn', _⟩ := h.live hn
      exact ⟨nd', hn'⟩
    · rintro ⟨nd', hn'⟩
      exact h.stale_of hn'
  · funext l
    show _ = Function.update (backing t) ⟨m, i⟩ (some y) l
    by_cases hl : l = ⟨m, i⟩
    · subst hl
      rw [Function.update_self, (h.backing_self i).2, getElem?_set_self hi]
    · rw [Function.update_of_ne hl]
      refine h.backing_slot ?_
      intro hm
      refine getElem?_set_ne ?_
      intro hi
      exact hl (by cases l; simp_all)
  · intro _ hexp
    have hx : b[i]? = some x := by rw [← (h.backing_self i).1]; exact hexp _ mem_cons_self
    refine (perm_append_right_iff b).mp ?_
    have h1 := h.held_perm
    have h2 := set_perm (y := y) hx
    rw [← Multiset.coe_eq_coe] at h1 h2 ⊢
    simp only [← Multiset.coe_add, map_cons, map_nil] at h1 h2 ⊢
    calc (held t' : Multiset KvPageBacking) + ([x] : List KvPageBacking) + b
        = (held t' + b) + ([x] : List KvPageBacking) := by abel
      _ = held t + ((b.set i y : List KvPageBacking) + ([x] : List KvPageBacking)) := by
          rw [h1]; abel
      _ = held t + ([y] : List KvPageBacking) + b := by rw [h2]; abel

namespace Rebacked

theorem refl (t : KvPageTable) : Rebacked t [] t :=
  ⟨.refl t, id, id, id, id, Iff.rfl, id, rfl, rfl, fun _ _ => .refl _⟩

theorem cons {r : Replacement} {rs : List Replacement} {t₁ : KvPageTable} (h : Rebacked t [r] t₁)
    (h' : Rebacked t₁ rs t') : Rebacked t (r :: rs) t' where
  rest := h.rest.trans h'.rest
  trie ht := h'.trie (h.trie ht)
  counted hc := h'.counted (h.counted hc)
  anchored ha := h'.anchored (h.anchored ha)
  tight ht := h'.tight (h.tight ht)
  live := h.live.trans h'.live
  issued hi := h'.issued (h.issued hi)
  locs := h'.locs.trans h.locs
  backing := by rw [h'.backing, h.backing]; rfl
  held hnd hexp := by
    rw [map_cons, nodup_cons] at hnd
    have h1 := h.held (by simp) (by simpa using hexp r mem_cons_self)
    have h2 := h'.held hnd.2 (by
      intro r' hr'
      rw [h.backing, rebackings_of_ne]
      · exact hexp r' (mem_cons_of_mem _ hr')
      · intro r'' hr'' he
        obtain rfl : r'' = r := by simpa using hr''
        exact hnd.1 (he ▸ mem_map_of_mem hr'))
    rw [← Multiset.coe_eq_coe] at h1 h2 ⊢
    simp only [← Multiset.coe_add, map_cons, map_nil, ← Multiset.cons_coe,
      ← Multiset.singleton_add, Multiset.coe_nil, add_zero] at h1 h2 ⊢
    calc (Table.held t' : Multiset KvPageBacking)
          + ({r.2.1} + (rs.map (fun r => r.2.1) : List KvPageBacking))
        = (Table.held t' + (rs.map (fun r => r.2.1) : List KvPageBacking)) + {r.2.1} := by abel
      _ = (Table.held t₁ + {r.2.1}) + (rs.map (fun r => r.2.2) : List KvPageBacking) := by
          rw [h2]; abel
      _ = _ := by rw [h1]; abel

theorem inv {rs : List Replacement} (h : Rebacked t rs t')
    (hrs : ∀ r ∈ rs, (Table.backing t r.1).isSome) (hi : TableInv t) : TableInv t' := by
  have hA : anchors t' = anchors t := by
    rw [anchors, terms, h.rest.workingSets, h.rest.cacheRoots, h.rest.pins, anchors, terms]
  refine ⟨?_, ?_, ?_, ?_, ?_⟩
  · rw [hA]
    exact ⟨h.trie hi.nodes.trie, h.counted hi.nodes.counted, h.anchored hi.nodes.anchored, h.tight hi.nodes.tight⟩
  · intro ws e he
    rw [h.rest.workingSets] at he
    have hterm : termLocs t' e.terminal = termLocs t e.terminal := by
      cases e.terminal with
      | none => rfl
      | some a => exact congrFun h.locs a
    rw [hterm]
    exact hi.mapped he
  · intro n c hc
    exact hi.roots (by rw [← h.rest.cacheRoots]; exact hc)
  · intro n c hc
    exact hi.pins (by rw [← h.rest.pins]; exact hc)
  · intro l hl
    rw [h.rest.swap] at hl
    obtain ⟨hiss, hb⟩ := hi.swap hl
    refine ⟨h.issued hiss, ?_⟩
    intro nd' hn'
    obtain ⟨nd, hn⟩ := h.live.mpr ⟨nd', hn'⟩
    obtain ⟨p, hp⟩ := hb hn
    refine Option.isSome_iff_exists.mp ?_
    rw [h.backing, rebackings_isSome hrs, hp]
    rfl

end Rebacked

theorem setBackings_spec : ∀ {t : KvPageTable}, Trie t → (∀ r ∈ rs, (backing t r.1).isSome) →
    ∃ t', t.setBackings rs = some (.ok (), t') ∧ Rebacked t rs t' := by
  induction rs with
  | nil => intro t _ _; exact ⟨t, rfl, .refl t⟩
  | cons r rs ih =>
    intro t ht hrs
    obtain ⟨⟨m, i⟩, expected, y⟩ := r
    obtain ⟨x, hx⟩ := Option.isSome_iff_exists.mp (hrs _ mem_cons_self)
    obtain ⟨md, b, tk, hs, hm, hp, hbi⟩ := owned_of_backing hx
    obtain ⟨hi, _⟩ := List.getElem?_eq_some_iff.mp hbi
    have hok : PagesOk t md := ht.pages hm
    rw [PagesOk, hp] at hok
    have hrep : Repaged t m b (b.set i y) (t.setNode m { md with pages := .owned (b.set i y) tk hs }) := by
      refine repaged_setNode hm hp ?_ (by rw [length_set]; exact hok.2.1)
        (by rw [length_set]; exact hok.2.2)
      rw [← length_pos_iff, length_set]
      omega
    have hre := hrep.rebacked (x := expected) hi
    obtain ⟨t', hrun, hre'⟩ := ih (hre.trie ht) (by
      intro r hr
      rw [hre.backing, rebackings_isSome]
      · exact hrs r (mem_cons_of_mem _ hr)
      · intro r' hr'
        obtain rfl : r' = _ := by simpa using hr'
        exact hrs _ mem_cons_self)
    refine ⟨t', ?_, hre.cons hre'⟩
    simp only [setBackings, hm, hp, hi, if_true]
    exact hrun

/-- **Replacing backings** that are all as expected. -/
theorem replaceBackings_spec (h : TableInv t) (hrs : ∀ r ∈ rs, backing t r.1 = some r.2.1) :
    ∃ t', t.replaceBackings rs = some (.ok (), t') ∧ TableInv t' ∧ Rebacked t rs t' := by
  have hsome : ∀ r ∈ rs, (backing t r.1).isSome := fun r hr => by rw [hrs r hr]; rfl
  obtain ⟨t', hrun, hre⟩ := setBackings_spec h.nodes.trie hsome
  refine ⟨t', ?_, hre.inv hsome h, hre⟩
  simp only [replaceBackings, backingsMatch_ok hrs]
  exact hrun

end Pie.Proof
