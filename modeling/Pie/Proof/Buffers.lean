import Pie.Proof.Preparations

/-!
# Where buffered rows are

The rows of a working set past what is folded lie in pages of its buffer, found by
how far they are past the buffer's base. A fold moves the base by whole pages and
drops as many, so a row keeps its page; an empty buffer begins anew at what is
folded, with no row in it.
-/

namespace Pie.Proof.Buffers

open List Pie.Store Pie.Store.Rs Lib RsStore Rollbacks

variable {buffers : List RsBufferTarget} {writes : Option (Nat × Nat)} {targets : List (Nat × Option RsSlotId)}
  {target : RsBufferTarget} {dst : RsSlotId} {i index : Nat}

variable {e e' : RsEntry} {t : Nat}

/-- The slots that fires wrote, with the page each was written to, or the last copy of that page. -/
abbrev Homes := Nat → Option (Option RsSlotId)

/-- A buffer begins at most a page before what is folded ends. -/
def Anchored (e : RsEntry) : Prop := e.buffer ≠ [] → e.base ≤ e.frozen ∧ e.frozen < e.base + pageTokens e

/-- The page of the buffer that slot `t` is in. -/
def pageOf (e : RsEntry) (t : Nat) : Nat := (t - baseOf e) / pageTokens e

/-- A slot that was written and is not folded is where it was written. -/
def Stand (home : Homes) (e : RsEntry) : Prop :=
  ∀ t place, e.frozen ≤ t → home t = some place → place.isSome ∧ pageAt e (pageOf e t) = place

theorem pageTokens_pos (e : RsEntry) : 0 < pageTokens e := lt_of_lt_of_le Nat.zero_lt_one (le_max_right _ _)

theorem Anchored.base (h : Anchored e) : baseOf e ≤ e.frozen ∧ e.frozen < baseOf e + pageTokens e := by
  have hpos := pageTokens_pos e
  unfold baseOf
  cases hbuffer : e.buffer with
  | nil =>
    rw [isEmpty_nil, if_pos rfl]
    omega
  | cons page buffer =>
    rw [isEmpty_cons, if_neg Bool.false_ne_true]
    exact h (by rw [hbuffer]; exact cons_ne_nil _ _)

theorem baseOf_of_ne (h : e.buffer ≠ []) : baseOf e = e.base := by
  unfold baseOf
  rw [if_neg]
  rw [List.isEmpty_iff]
  exact h

theorem anchored_of_keeps (hk : Keeps e e') (h : Anchored e) : Anchored e' := by
  intro hne
  rw [← baseOf_of_ne hne, hk.frozen, hk.base, hk.pageTokens]
  exact h.base

theorem pageOf_of_keeps (hk : Keeps e e') : pageOf e' t = pageOf e t := by
  unfold pageOf
  rw [hk.base, hk.pageTokens]

theorem stand_of_keeps {home : Homes} (hk : Keeps e e') (h : Stand home e) : Stand home e' := by
  intro t place ht hplace
  rw [hk.frozen] at ht
  rw [hk.pages, pageOf_of_keeps hk]
  exact h t place ht hplace

/-! ## What a write takes its pages from -/

theorem bufferTargets_ne_panic (h : Anchored e) (writes : Option (Nat × Nat)) :
    bufferTargets e writes ≠ .error .panic := by
  unfold bufferTargets
  have hbase := h.base.1
  cases hwrites : writes.filter fun w => w.1 < w.2 with
  | none => exact nofun
  | some w =>
    obtain ⟨start, stop⟩ := w
    have hlt := of_decide_eq_true (Option.filter_eq_some_iff.mp hwrites).2
    dsimp only at hlt ⊢
    split
    · exact nofun
    · rename_i hfrozen
      unfold minus
      rw [if_pos (by omega), if_pos (by omega)]
      exact nofun

theorem bufferTargets_ok (h : bufferTargets e writes = .ok targets) :
    (targets.map Prod.fst).Nodup ∧ (∀ target ∈ targets, target.2 = pageAt e target.1) ∧
      (∀ target ∈ targets, ∃ start stop, writes = some (start, stop) ∧ start < stop ∧
        target.1 ≤ pageOf e (stop - 1)) ∧
      ∀ start stop t, writes = some (start, stop) → start ≤ t → t < stop →
        baseOf e ≤ t ∧ ∃ target ∈ targets, target.1 = pageOf e t := by
  unfold bufferTargets at h
  cases hwrites : writes.filter fun w => w.1 < w.2 with
  | none =>
    rw [hwrites] at h
    obtain rfl : [] = targets := Except.ok.inj h
    refine ⟨nodup_nil, nofun, nofun, fun start stop t hw hstart hstop => ?_⟩
    rw [hw, Option.filter_some, if_pos (decide_eq_true (by omega))] at hwrites
    exact nomatch hwrites
  | some w =>
    obtain ⟨start, stop⟩ := w
    obtain ⟨hsome, hlt⟩ := Option.filter_eq_some_iff.mp hwrites
    have hlt := of_decide_eq_true hlt
    rw [hwrites] at h
    dsimp only at h hlt
    split at h
    · exact nomatch h
    · unfold minus at h
      by_cases hfirst : baseOf e ≤ start
      · rw [if_pos hfirst, if_pos (by omega)] at h
        have hmap : (range' ((start - baseOf e) / pageTokens e)
            ((stop - 1 - baseOf e) / pageTokens e + 1 - (start - baseOf e) / pageTokens e)).map
              (fun index => (index, pageAt e index)) = targets := Except.ok.inj h
        subst hmap
        refine ⟨?_, ?_, ?_, ?_⟩
        · rw [map_map]
          exact (map_id' _).symm ▸ nodup_range'
        · intro target hmem
          obtain ⟨index, -, heq⟩ := mem_map.mp hmem
          rw [← heq]
        · intro target hmem
          obtain ⟨index, hindex, heq⟩ := mem_map.mp hmem
          rw [mem_range'_1] at hindex
          rw [← heq]
          refine ⟨start, stop, hsome, hlt, ?_⟩
          unfold pageOf
          dsimp only
          omega
        · intro start' stop' t hw hstart hstop
          cases hsome.symm.trans hw
          refine ⟨by omega, (pageOf e t, pageAt e (pageOf e t)), mem_map.mpr ⟨pageOf e t, ?_, rfl⟩, rfl⟩
          rw [mem_range'_1]
          have hlow : (start - baseOf e) / pageTokens e ≤ (t - baseOf e) / pageTokens e :=
            Nat.div_le_div_right (by omega)
          have hhigh : (t - baseOf e) / pageTokens e ≤ (stop - 1 - baseOf e) / pageTokens e :=
            Nat.div_le_div_right (by omega)
          unfold pageOf
          omega
      · rw [if_neg hfirst] at h
        exact nomatch h

/-- The buffer is long enough for what is written. -/
theorem pageOf_lt_grown {start stop : Nat} (hw : writes = some (start, stop))
    (hlt : start < stop) (hbase : baseOf e ≤ stop - 1) : pageOf e (stop - 1) < (grown e writes).buffer.length := by
  unfold grown
  rw [hw, Option.filter_some, if_pos (decide_eq_true hlt)]
  dsimp only
  unfold growBuffer
  dsimp only
  rw [length_append, length_replicate]
  have hpos := pageTokens_pos e
  have hpages : pageOf e (stop - 1) < (stop - baseOf e + pageTokens e - 1) / pageTokens e := by
    unfold pageOf
    rw [Nat.lt_iff_add_one_le, Nat.le_div_iff_mul_le hpos, add_mul, one_mul]
    have hle := Nat.div_mul_le_self (stop - 1 - baseOf e) (pageTokens e)
    omega
  omega

/-- What a write of the slots `writes` was prepared to do with the buffer. -/
structure Targets (e : RsEntry) (writes : Option (Nat × Nat)) (buffers : List RsBufferTarget) : Prop where
  nodup : (buffers.map RsBufferTarget.index).Nodup
  within : ∀ target ∈ buffers, target.index < e.buffer.length
  stands : ∀ target ∈ buffers, Rollbacks.Placed (target.index, pageAt e target.index) target
  span : ∀ start stop t, writes = some (start, stop) → start ≤ t → t < stop →
    baseOf e ≤ t ∧ ∃ target ∈ buffers, target.index = pageOf e t

theorem index_of_placed {source : Nat × Option RsSlotId} (h : Rollbacks.Placed source target) :
    source.1 = target.index := by
  cases target <;> exact congrArg Prod.fst h

theorem exists_source
    (h : Forall₂ Rollbacks.Placed targets buffers) : ∀ target ∈ buffers, ∃ source ∈ targets, Rollbacks.Placed source target := by
  induction h with
  | nil => exact nofun
  | cons hplaced _ ih =>
    intro target hmem
    rcases mem_cons.mp hmem with rfl | hmem
    · exact ⟨_, mem_cons_self, hplaced⟩
    · obtain ⟨source, hsource, hplaced⟩ := ih target hmem
      exact ⟨source, mem_cons_of_mem _ hsource, hplaced⟩

theorem map_index_of_placed
    (h : Forall₂ Rollbacks.Placed targets buffers) : buffers.map RsBufferTarget.index = targets.map Prod.fst := by
  induction h with
  | nil => rfl
  | cons hplaced _ ih => rw [map_cons, map_cons, ih, index_of_placed hplaced]

theorem targets_of_placed (h : bufferTargets e writes = .ok targets)
    (hplaced : Forall₂ Rollbacks.Placed targets buffers) : Targets (grown e writes) writes buffers := by
  obtain ⟨hnodup, hstands, hwithin, hspan⟩ := bufferTargets_ok h
  have hk := grown_keeps e writes
  refine ⟨?_, fun target hmem => ?_, fun target hmem => ?_, fun start stop t hw hstart hstop => ?_⟩
  · rw [map_index_of_placed hplaced]
    exact hnodup
  · obtain ⟨source, hsource, hp⟩ := exists_source hplaced target hmem
    obtain ⟨start, stop, hw, hlt, hle⟩ := hwithin source hsource
    rw [index_of_placed hp] at hle
    have hbase := (hspan start stop (stop - 1) hw (by omega) (by omega)).1
    exact lt_of_le_of_lt hle (pageOf_lt_grown hw hlt hbase)
  · obtain ⟨source, hsource, hp⟩ := exists_source hplaced target hmem
    rw [hk.pages, ← index_of_placed hp, ← hstands source hsource]
    exact hp
  · obtain ⟨hbase, source, hsource, hindex⟩ := hspan start stop t hw hstart hstop
    rw [hk.base, pageOf_of_keeps hk, ← hindex]
    have hmem : source.1 ∈ buffers.map RsBufferTarget.index := by
      rw [map_index_of_placed hplaced]
      exact mem_map_of_mem hsource
    obtain ⟨target, htarget, heq⟩ := mem_map.mp hmem
    exact ⟨hbase, target, htarget, heq⟩

theorem targets_of_keeps (hk : Keeps e e') (h : Targets e writes buffers) : Targets e' writes buffers where
  nodup := h.nodup
  within target hmem := lt_of_lt_of_le (h.within target hmem) hk.longer
  stands target hmem := by
    rw [hk.pages]
    exact h.stands target hmem
  span start stop t hw hstart hstop := by
    rw [hk.base, pageOf_of_keeps hk]
    exact h.span start stop t hw hstart hstop

/-! ## What publishing a write does to the buffer -/

/-- The entry after a target was published. -/
def place (e : RsEntry) : RsBufferTarget → RsEntry
  | .inPlace _ _ => e
  | .fresh index dst => putPage e index dst
  | .cow index _ dst => putPage e index dst

/-- Where the slots are once a write was published: those it writes where its targets say, those beside them on a
page that was copied on the copy. -/
def wrote (e : RsEntry) (writes : Option (Nat × Nat)) (buffers : List RsBufferTarget) (home : Homes) : Homes := fun t =>
  let target := if baseOf e ≤ t then buffers.find? fun target => target.index = pageOf e t else none
  if writes.any fun w => w.1 ≤ t && t < w.2 then some (target.map RsBufferTarget.dst)
  else match target with
    | some (.cow _ src dst) => if home t = some (some src) then some (some dst) else home t
    | _ => home t

/-- What a target leaves of an entry. -/
structure Framed (e e' : RsEntry) : Prop where
  geom : e'.geom = e.geom
  base : e'.base = e.base
  frozen : e'.frozen = e.frozen
  length : e'.buffer.length = e.buffer.length

theorem putPage_framed (hlt : index < e.buffer.length) : Framed e (putPage e index dst) where
  geom := rfl
  base := rfl
  frozen := rfl
  length := by
    unfold putPage
    rw [length_set, length_append, length_replicate]
    omega

theorem place_framed (hlt : target.index < e.buffer.length) : Framed e (place e target) := by
  cases target with
  | inPlace index dst => exact ⟨rfl, rfl, rfl, rfl⟩
  | fresh index dst => exact putPage_framed hlt
  | cow index src dst => exact putPage_framed hlt

theorem pageAt_putPage (hlt : index < e.buffer.length) :
    pageAt (putPage e index dst) i = if i = index then some dst else pageAt e i := by
  unfold putPage pageAt
  dsimp only
  rw [show index + 1 - e.buffer.length = 0 by omega, replicate_zero, append_nil, getElem?_set]
  by_cases heq : i = index
  · rw [if_pos heq.symm, if_pos hlt, if_pos heq]
    rfl
  · rw [if_neg (Ne.symm heq), if_neg heq]

theorem pageAt_place (hlt : target.index < e.buffer.length)
    (hstands : Rollbacks.Placed (target.index, pageAt e target.index) target) :
    pageAt (place e target) i = if i = target.index then some target.dst else pageAt e i := by
  cases target with
  | inPlace index dst =>
    split
    · rename_i heq
      rw [heq]
      exact congrArg Prod.snd hstands
    · rfl
  | fresh index dst => exact pageAt_putPage hlt
  | cow index src dst => exact pageAt_putPage hlt

theorem pageAt_placed (hnodup : (buffers.map RsBufferTarget.index).Nodup)
    (hwithin : ∀ target ∈ buffers, target.index < e.buffer.length)
    (hstands : ∀ target ∈ buffers, Rollbacks.Placed (target.index, pageAt e target.index) target) :
    Framed e (buffers.foldl place e) ∧
      (∀ target ∈ buffers, pageAt (buffers.foldl place e) target.index = some target.dst) ∧
      ∀ i, i ∉ buffers.map RsBufferTarget.index → pageAt (buffers.foldl place e) i = pageAt e i := by
  induction buffers generalizing e with
  | nil => exact ⟨⟨rfl, rfl, rfl, rfl⟩, nofun, fun _ _ => rfl⟩
  | cons target buffers ih =>
    rw [map_cons, nodup_cons] at hnodup
    obtain ⟨hnotin, hnodup⟩ := hnodup
    have hlt := hwithin target mem_cons_self
    have hframe := place_framed hlt
    have hpage := fun i => pageAt_place (i := i) hlt (hstands target mem_cons_self)
    obtain ⟨hframe', hdst, hrest⟩ := ih (e := place e target) hnodup
      (fun t hmem => by rw [hframe.length]; exact hwithin t (mem_cons_of_mem _ hmem))
      (fun t hmem => by
        rw [hpage, if_neg]
        · exact hstands t (mem_cons_of_mem _ hmem)
        · intro heq
          exact hnotin (by rw [← heq]; exact mem_map_of_mem hmem))
    refine ⟨⟨hframe'.geom.trans hframe.geom, hframe'.base.trans hframe.base, hframe'.frozen.trans hframe.frozen,
      hframe'.length.trans hframe.length⟩, fun t hmem => ?_, fun i hi => ?_⟩
    · rcases mem_cons.mp hmem with rfl | hmem
      · rw [foldl_cons, hrest _ hnotin, hpage, if_pos rfl]
      · exact hdst t hmem
    · rw [map_cons, mem_cons, not_or] at hi
      rw [foldl_cons, hrest i hi.2, hpage, if_neg hi.1]

theorem Framed.baseOf (h : Framed e e') : baseOf e' = baseOf e := by
  have hempty : e'.buffer.isEmpty = e.buffer.isEmpty := by
    rw [Bool.eq_iff_iff, List.isEmpty_iff, List.isEmpty_iff, ← length_eq_zero_iff, ← length_eq_zero_iff, h.length]
  unfold RsStore.baseOf
  rw [hempty, h.base, h.frozen]

theorem Framed.pageTokens (h : Framed e e') : pageTokens e' = pageTokens e := by
  unfold RsStore.pageTokens
  rw [h.geom]

theorem Framed.pageOf (h : Framed e e') : pageOf e' t = pageOf e t := by
  unfold Buffers.pageOf
  rw [h.baseOf, h.pageTokens]

theorem Framed.anchored (h : Framed e e') (ha : Anchored e) : Anchored e' := by
  intro hne
  rw [h.base, h.frozen, h.pageTokens]
  refine ha fun hnil => hne ?_
  rw [← length_eq_zero_iff, h.length, hnil]
  rfl

/-- What is written stands where its targets say, and what was written stands where it stood, or on the copy. -/
theorem stand_placed {home : Homes} (ha : Anchored e) (htargets : Targets e writes buffers) (hstand : Stand home e) :
    Stand (wrote e writes buffers home) (buffers.foldl place e) := by
  obtain ⟨hframe, hdst, hrest⟩ := pageAt_placed htargets.nodup htargets.within htargets.stands
  intro t at' ht hat
  rw [hframe.frozen] at ht
  rw [hframe.pageOf]
  have hbase : baseOf e ≤ t := le_trans ha.base.1 ht
  unfold wrote at hat
  rw [if_pos hbase] at hat
  cases hfind : buffers.find? fun target => target.index = pageOf e t with
  | none =>
    -- no target has the page, so the slot is not written
    have hnone : pageOf e t ∉ buffers.map RsBufferTarget.index := by
      intro hmem
      obtain ⟨target, htarget, heq⟩ := mem_map.mp hmem
      exact find?_eq_none.mp hfind target htarget (decide_eq_true heq)
    rw [hrest _ hnone]
    rw [hfind] at hat
    dsimp only at hat
    split at hat
    · rename_i hwritten
      obtain ⟨w, hw, hin⟩ := (Option.any_eq_true _ _).mp hwritten
      rw [Bool.and_eq_true, decide_eq_true_eq, decide_eq_true_eq] at hin
      obtain ⟨-, target, htarget, heq⟩ := htargets.span w.1 w.2 t hw hin.1 hin.2
      exact absurd (by rw [← heq]; exact mem_map_of_mem htarget) hnone
    · exact hstand t at' ht hat
  | some target =>
    have hmem := mem_of_find?_eq_some hfind
    have hindex : target.index = pageOf e t := by
      have hfound := find?_some hfind
      exact of_decide_eq_true hfound
    have hplaced := htargets.stands target hmem
    rw [hfind] at hat
    dsimp only at hat
    rw [← hindex, hdst target hmem]
    split at hat
    · rw [← Option.some.inj hat]
      exact ⟨rfl, rfl⟩
    · -- beside what is written, on the same page
      have hbefore : ∀ place, home t = some place → place.isSome ∧ pageAt e target.index = place := by
        intro place hplace
        rw [hindex]
        exact hstand t place ht hplace
      cases target with
      | fresh index dst =>
        obtain ⟨hsome, heq⟩ := hbefore at' hat
        have hnone : pageAt e index = none := (Prod.mk.inj hplaced).2
        rw [← heq] at hsome
        change (pageAt e index).isSome = true at hsome
        rw [hnone] at hsome
        exact nomatch hsome
      | inPlace index dst =>
        obtain ⟨hsome, heq⟩ := hbefore at' hat
        refine ⟨hsome, ?_⟩
        rw [← heq]
        exact ((Prod.mk.inj hplaced).2).symm
      | cow index src dst =>
        dsimp only at hat
        have hsrc : pageAt e index = some src := (Prod.mk.inj hplaced).2
        split at hat
        · rw [← Option.some.inj hat]
          exact ⟨rfl, rfl⟩
        · rename_i hother
          obtain ⟨-, heq⟩ := hbefore at' hat
          change pageAt e index = at' at heq
          exact absurd (by rw [hat, ← heq, hsrc]) hother

/-! ## What a fold leaves -/

variable {slots : Nat}

/-- The entry with more folded, and its pages not dropped yet. -/
def thawed (e : RsEntry) (slots : Nat) : RsEntry := { e with frozen := saturatingAdd e.frozen slots }

theorem frozen_le (hle : e.frozen ≤ U32_MAX) : e.frozen ≤ (thawed e slots).frozen := by
  unfold thawed saturatingAdd
  dsimp only
  omega

/-- **A fold drops exactly the pages whose slots all lie below what is folded then.** -/
theorem lt_pagesBelow {page : Nat} (hbase : e.base ≤ e.frozen) (hlt : page < e.buffer.length) :
    page < pagesBelow e ↔ e.base + (page + 1) * pageTokens e ≤ e.frozen := by
  unfold pagesBelow
  rw [Nat.lt_min, and_iff_left hlt, Nat.lt_iff_add_one_le, Nat.le_div_iff_mul_le (pageTokens_pos e)]
  omega

/-- Unless nothing is left, the base moves by whole pages, less than a page behind what is folded. -/
theorem anchored_dropPages (hbase : e.base ≤ e.frozen) : Anchored (dropPages e) := by
  intro hne
  unfold dropPages at hne ⊢
  dsimp only at hne ⊢
  have hlt : pagesBelow e < e.buffer.length := by
    by_contra hge
    exact hne (drop_eq_nil_of_le (Nat.le_of_not_lt hge))
  have hpages : pagesBelow e = (e.frozen - e.base) / pageTokens e := by
    unfold pagesBelow at hlt ⊢
    omega
  rw [if_neg (by rw [List.isEmpty_iff]; exact hne), hpages]
  change e.base + (e.frozen - e.base) / pageTokens e * pageTokens e ≤ e.frozen ∧
    e.frozen < e.base + (e.frozen - e.base) / pageTokens e * pageTokens e + pageTokens e
  have hle := Nat.div_mul_le_self (e.frozen - e.base) (pageTokens e)
  have hgt := Nat.lt_div_mul_add (a := e.frozen - e.base) (pageTokens_pos e)
  omega

theorem stand_dropPages {home : Homes} (ha : Anchored e) (hle : e.frozen ≤ (thawed e slots).frozen)
    (hstand : Stand home e) : Stand home (dropPages (thawed e slots)) := by
  intro t at' ht hat
  have ht : (thawed e slots).frozen ≤ t := ht
  obtain ⟨hsome, hpage⟩ := hstand t at' (le_trans hle ht) hat
  refine ⟨hsome, ?_⟩
  -- the slot is on a page of the buffer, and not one that is dropped
  have hin : pageOf e t < e.buffer.length := by
    by_contra hge
    unfold pageAt at hpage
    rw [getElem?_eq_none (Nat.le_of_not_lt hge)] at hpage
    rw [← hpage] at hsome
    exact nomatch hsome
  have hne : e.buffer ≠ [] := ne_nil_of_length_pos (by omega)
  have hbase := (ha hne).1
  have hof : pageOf e t = (t - e.base) / pageTokens e := by
    unfold pageOf
    rw [baseOf_of_ne hne]
  have hbelow : pagesBelow (thawed e slots) ≤ pageOf e t := by
    have hdiv : ((thawed e slots).frozen - e.base) / pageTokens e ≤ (t - e.base) / pageTokens e :=
      Nat.div_le_div_right (by omega)
    rw [hof]
    exact le_trans (min_le_left _ _) hdiv
  have hleft : (e.buffer.drop (pagesBelow (thawed e slots))).isEmpty = false := by
    rw [← Bool.not_eq_true, List.isEmpty_iff]
    intro hnil
    have hlen := congrArg length hnil
    rw [length_drop, length_nil] at hlen
    omega
  have hbuffer : (dropPages (thawed e slots)).buffer = e.buffer.drop (pagesBelow (thawed e slots)) := rfl
  have hbase' : baseOf (dropPages (thawed e slots)) = e.base + pagesBelow (thawed e slots) * pageTokens e := by
    rw [baseOf_of_ne (by rw [hbuffer]; exact fun hnil => by rw [hnil] at hleft; exact nomatch hleft)]
    unfold dropPages
    dsimp only
    rw [if_neg (by rw [Bool.not_eq_true]; exact hleft)]
    rfl
  have hof' : pageOf (dropPages (thawed e slots)) t = pageOf e t - pagesBelow (thawed e slots) := by
    have htokens : pageTokens (dropPages (thawed e slots)) = pageTokens e := rfl
    rw [hof]
    unfold pageOf
    rw [hbase', htokens, ← Nat.sub_sub, mul_comm, Nat.sub_mul_div]
  rw [hof', ← hpage]
  unfold pageAt
  rw [hbuffer, getElem?_drop, Nat.add_sub_cancel' hbelow]

end Pie.Proof.Buffers
