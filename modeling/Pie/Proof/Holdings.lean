import Pie.Lib.Stops
import Pie.Pipeline.Rs

/-!
# What a preparation has taken

A fire that is prepared takes slots and pages, and is on its way under a number of
its own. `Waits` accounts for both since the call began; a write that is cancelled
gives its ids back to their pools and is off its way.
-/

namespace Pie.Proof.Rollbacks

open List Pie.Store Pie.Store.Rs Lib RsStore

/-! ## What is held -/

/-- Every id of the grant and of the device pools. -/
def holdings (h : Held) : List RsSlotId :=
  (h.granted.elim [] fun g => g.slots ++ g.pages) ++ (h.store.slots.ids ++ h.store.pages.ids)

/-- The slots of the grant and of their pool are slots, the pages pages. -/
def Homed (h : Held) : Prop :=
  (∀ id ∈ (h.granted.elim [] RsGrant.slots) ++ h.store.slots.ids, h.store.isPage id = false) ∧
    ∀ id ∈ (h.granted.elim [] RsGrant.pages) ++ h.store.pages.ids, h.store.isPage id = true

/-- The fires on their way. -/
def fires (s : RsStore) : List Nat := s.inflight.map Prod.fst

/-- An entry that may have grown pages that are not mapped. -/
structure Keeps (e e' : RsEntry) : Prop where
  geom : e'.geom = e.geom
  folded : e'.folded = e.folded
  frozen : e'.frozen = e.frozen
  ring : e'.ring = e.ring
  base : RsStore.baseOf e' = RsStore.baseOf e
  pages : ∀ i, RsStore.pageAt e' i = RsStore.pageAt e i
  longer : e.buffer.length ≤ e'.buffer.length

theorem Keeps.refl (e : RsEntry) : Keeps e e := ⟨rfl, rfl, rfl, rfl, rfl, fun _ => rfl, le_rfl⟩

theorem Keeps.trans {e e' e'' : RsEntry} (h : Keeps e e') (h' : Keeps e' e'') : Keeps e e'' :=
  ⟨h'.geom.trans h.geom, h'.folded.trans h.folded, h'.frozen.trans h.frozen, h'.ring.trans h.ring,
    h'.base.trans h.base, fun i => (h'.pages i).trans (h.pages i), le_trans h.longer h'.longer⟩

/-- Every working set is there, or not, as before, and keeps what it had. -/
structure SameSets (s s' : RsStore) : Prop where
  kept : ∀ ws e, s.workingSets.get ws = some e → ∃ e', s'.workingSets.get ws = some e' ∧ Keeps e e'
  gone : ∀ ws, s.workingSets.get ws = none → s'.workingSets.get ws = none

theorem sameSets_of_eq {s s' : RsStore} (h : s'.workingSets = s.workingSets) : SameSets s s' :=
  ⟨fun _ e he => ⟨e, by rw [h]; exact he, Keeps.refl e⟩, fun _ he => by rw [h]; exact he⟩

theorem SameSets.trans {s s' s'' : RsStore} (h : SameSets s s') (h' : SameSets s' s'') : SameSets s s'' := by
  refine ⟨fun ws e he => ?_, fun ws he => h'.gone ws (h.gone ws he)⟩
  obtain ⟨e', he', hkeep⟩ := h.kept ws e he
  obtain ⟨e'', he'', hkeep'⟩ := h'.kept ws e' he'
  exact ⟨e'', he'', hkeep.trans hkeep'⟩

/-! ## Where ids go back to -/

section Recycling

variable {s : RsStore} {id : RsSlotId} {ids : List RsSlotId} {epoch : Nat}

/-- What recycling and retiring leave as it was. -/
structure SameBooks (s s' : RsStore) : Prop where
  sets : s'.workingSets = s.workingSets
  refs : s'.refs = s.refs
  seq : s'.seq = s.seq
  isPage : ∀ id, s'.isPage id = s.isPage id

theorem SameBooks.refl : SameBooks s s := ⟨rfl, rfl, rfl, fun _ => rfl⟩

theorem SameBooks.trans {s' s'' : RsStore} (h : SameBooks s s') (h' : SameBooks s' s'') : SameBooks s s'' :=
  ⟨h'.sets.trans h.sets, h'.refs.trans h.refs, h'.seq.trans h.seq, fun id => (h'.isPage id).trans (h.isPage id)⟩

/-- The pools have `ids` besides, each in its own. -/
structure Returned (s s' : RsStore) (ids : List RsSlotId) : Prop where
  slots : (s'.slots.ids).Perm (s.slots.ids ++ ids.filter fun id => !s.isPage id)
  pages : (s'.pages.ids).Perm (s.pages.ids ++ ids.filter fun id => s.isPage id)

theorem recycleOne_returned : SameBooks s (s.recycleOne id epoch) ∧ Returned s (s.recycleOne id epoch) [id] ∧
    (s.recycleOne id epoch).inflight = s.inflight := by
  unfold recycleOne
  split
  · rename_i hpage
    refine ⟨⟨rfl, rfl, rfl, fun _ => rfl⟩, ⟨?_, ?_⟩, rfl⟩
    · rw [filter_cons_of_neg (by rw [hpage]; decide), filter_nil, append_nil]
    · rw [filter_cons_of_pos hpage, filter_nil]
      exact Perm.of_eq (Pool.ids_recycleAfterEpoch _ _ _)
  · rename_i hslot
    rw [Bool.not_eq_true] at hslot
    refine ⟨⟨rfl, rfl, rfl, fun _ => rfl⟩, ⟨?_, ?_⟩, rfl⟩
    · rw [filter_cons_of_pos (by rw [hslot]; rfl), filter_nil]
      exact Perm.of_eq (Pool.ids_recycleAfterEpoch _ _ _)
    · rw [filter_cons_of_neg (by rw [hslot]; decide), filter_nil, append_nil]

theorem recycle_returned : SameBooks s (s.recycle ids epoch) ∧ Returned s (s.recycle ids epoch) ids ∧
    (s.recycle ids epoch).inflight = s.inflight := by
  unfold recycle
  induction ids generalizing s with
  | nil => exact ⟨.refl, ⟨by rw [filter_nil, append_nil]; exact .refl _,
      by rw [filter_nil, append_nil]; exact .refl _⟩, rfl⟩
  | cons id ids ih =>
    rw [foldl_cons]
    obtain ⟨hbooks, hreturned, hfires⟩ := @recycleOne_returned s id epoch
    obtain ⟨hbooks', hreturned', hfires'⟩ := ih (s := s.recycleOne id epoch)
    refine ⟨hbooks.trans hbooks', ⟨?_, ?_⟩, hfires'.trans hfires⟩
    · refine hreturned'.slots.trans ((hreturned.slots.append_right _).trans ?_)
      simp only [hbooks.isPage]
      rw [append_assoc, ← filter_append]
      exact .refl _
    · refine hreturned'.pages.trans ((hreturned.pages.append_right _).trans ?_)
      simp only [hbooks.isPage]
      rw [append_assoc, ← filter_append]
      exact .refl _

theorem retireIdle_returned : SameBooks s s.retireIdle ∧ Returned s s.retireIdle [] ∧
    s.retireIdle.inflight = s.inflight := by
  unfold retireIdle
  split
  all_goals
    refine ⟨⟨rfl, rfl, rfl, fun _ => rfl⟩, ⟨?_, ?_⟩, rfl⟩
    · rw [filter_nil, append_nil]
      exact Pool.ids_retireThrough _ _
    · rw [filter_nil, append_nil]
      exact Pool.ids_retireThrough _ _

/-- A cancelled write is off its way, and what it took is back. -/
theorem cancelPrepared_returned {write : RsPreparedWrite} :
    SameBooks s (s.cancelPrepared write) ∧ Returned s (s.cancelPrepared write) write.allocated ∧
      ∀ k, k ∈ fires (s.cancelPrepared write) ↔ k ∈ fires s ∧ k ≠ write.seq := by
  obtain ⟨hbooks, hreturned, hfires⟩ := @recycle_returned s write.allocated write.seq
  obtain ⟨hbooks', hreturned', hfires'⟩ :=
    retireIdle_returned (s := (s.recycle write.allocated write.seq).removeTouch write.seq)
  have hremoved : SameBooks (s.recycle write.allocated write.seq)
      ((s.recycle write.allocated write.seq).removeTouch write.seq) := ⟨rfl, rfl, rfl, fun _ => rfl⟩
  refine ⟨(hbooks.trans hremoved).trans hbooks', ⟨?_, ?_⟩, fun k => ?_⟩
  · refine hreturned'.slots.trans ?_
    rw [filter_nil, append_nil]
    exact hreturned.slots
  · refine hreturned'.pages.trans ?_
    rw [filter_nil, append_nil]
    exact hreturned.pages
  · unfold fires cancelPrepared
    rw [hfires', removeTouch, hfires, mem_map, mem_map]
    constructor
    · intro ⟨e, he, hk⟩
      obtain ⟨he, hne⟩ := mem_filter.mp he
      rw [decide_eq_true_eq] at hne
      exact ⟨⟨e, he, hk⟩, by rw [← hk]; exact hne⟩
    · intro ⟨⟨e, he, hk⟩, hne⟩
      refine ⟨e, mem_filter.mpr ⟨he, ?_⟩, hk⟩
      rw [decide_eq_true_eq, hk]
      exact hne

end Recycling

/-! ## What a call has under way -/

/-- What is left, of the grant if there is one, else of the pools. -/
def room (h : Held) : RsUnits := h.granted.elim h.store.available RsGrant.units

/-- Since `h₀`, the call took `ids` and has the fires `seqs` on their way; nothing else changed but for
pages that an entry grew and that are not mapped. -/
structure Waits (h₀ h : Held) (ids : List RsSlotId) (seqs : List Nat) : Prop where
  ids : (holdings h ++ ids).Perm (holdings h₀)
  homed : Homed h₀ → Homed h
  isPage : ∀ id, h.store.isPage id = h₀.store.isPage id
  refs : h.store.refs = h₀.store.refs
  sets : SameSets h₀.store h.store
  seq : h₀.store.seq ≤ h.store.seq
  called : ∀ k, h₀.store.seq < k → k ≤ h.store.seq → (k ∈ fires h.store ↔ k ∈ seqs)
  others : ∀ k, k ≤ h₀.store.seq ∨ h.store.seq < k → (k ∈ fires h.store ↔ k ∈ fires h₀.store)
  within : ∀ k ∈ seqs, h₀.store.seq < k ∧ k ≤ h.store.seq
  nodup : seqs.Nodup

/-- Each slot and page is in the grant or in its pool again, no fire of the call is on its way, and the
working sets have what they had. -/
structure Restored (h₀ h : Held) : Prop where
  ids : (holdings h).Perm (holdings h₀)
  homed : Homed h₀ → Homed h
  fires : ∀ k, h₀.store.seq < k → k ≤ h.store.seq → k ∉ fires h.store
  others : ∀ k, k ≤ h₀.store.seq ∨ h.store.seq < k → (k ∈ Rollbacks.fires h.store ↔ k ∈ Rollbacks.fires h₀.store)
  sets : SameSets h₀.store h.store

section Steps

variable {h₀ h : Held} {ids : List RsSlotId} {seqs : List Nat}

theorem Waits.refl : Waits h₀ h₀ [] [] where
  ids := by rw [append_nil]
  homed := id
  isPage _ := rfl
  refs := rfl
  sets := sameSets_of_eq rfl
  seq := le_rfl
  called k hlt hle := by omega
  others _ _ := Iff.rfl
  within k hk := absurd hk not_mem_nil
  nodup := nodup_nil

theorem Waits.restored (hw : Waits h₀ h [] []) : Restored h₀ h where
  ids := by
    have hids := hw.ids
    rw [append_nil] at hids
    exact hids
  homed := hw.homed
  fires k hlt hle hk := absurd ((hw.called k hlt hle).mp hk) not_mem_nil
  others := hw.others
  sets := hw.sets

/-- A fire that is on its way was not given back. -/
theorem Waits.not_restored {seq : Nat} (hw : Waits h₀ h ids seqs) (hseq : seq ∈ seqs) : ¬ Restored h₀ h := by
  intro hr
  obtain ⟨hlt, hle⟩ := hw.within seq hseq
  exact hr.fires seq hlt hle ((hw.called seq hlt hle).mpr hseq)

theorem Waits.move {h' : Held} {ids' : List RsSlotId} (hw : Waits h₀ h ids seqs)
    (hids : (holdings h' ++ ids').Perm (holdings h ++ ids)) (hhomed : Homed h → Homed h')
    (hbooks : SameBooks h.store h'.store) (hfires : fires h'.store = fires h.store) : Waits h₀ h' ids' seqs where
  ids := hids.trans hw.ids
  homed h := hhomed (hw.homed h)
  isPage id := (hbooks.isPage id).trans (hw.isPage id)
  refs := hbooks.refs.trans hw.refs
  sets := hw.sets.trans (sameSets_of_eq hbooks.sets)
  seq := by rw [hbooks.seq]; exact hw.seq
  called k hlt hle := by rw [hfires]; exact hw.called k hlt (by rw [← hbooks.seq]; exact hle)
  others k hk := by rw [hfires]; exact hw.others k (by rw [← hbooks.seq]; exact hk)
  within k hk := by rw [hbooks.seq]; exact hw.within k hk
  nodup := hw.nodup

/-! ## Taking -/

theorem covers_iff {a b : RsUnits} : a.covers b = true ↔ b.slots ≤ a.slots ∧ b.pages ≤ a.pages := by
  unfold RsUnits.covers
  rw [Bool.and_eq_true, decide_eq_true_eq, decide_eq_true_eq]

theorem tryAllocN_back {pool rest : Pool RsSlotId} {n : Nat} {taken : List RsSlotId}
    (h : pool.tryAllocN n = some (taken, rest)) : rest.releaseReserved taken = pool := by
  obtain ⟨-, hfree, hpending, hbase, hcapacity⟩ := Pool.tryAllocN_spec h
  unfold Pool.releaseReserved
  rw [← hfree, hpending, hbase, hcapacity]

theorem tryAllocN_none {pool : Pool RsSlotId} {n : Nat} (h : pool.tryAllocN n = none) : pool.available < n := by
  by_contra hle
  obtain ⟨r, hr⟩ := Pool.tryAllocN_of_le (Nat.le_of_not_lt hle)
  rw [hr] at h
  exact nomatch h

/-- What was taken is out of the grant or the pools; else nothing changed, and there was too little. -/
theorem take_outcome {p : Prop} {need : RsUnits} (hw : Waits h₀ h ids seqs) : Outcome p (take need h)
      (fun taken h' => Waits h₀ h' (ids ++ (taken.1 ++ taken.2)) seqs ∧
        (taken.1.length = need.slots ∧ taken.2.length = need.pages) ∧ SameBooks h.store h'.store ∧
        room h = (room h').add need)
      fun _ h' => h' = h ∧ (room h).covers need = false := by
  obtain ⟨s, granted⟩ := h
  unfold RsStore.take
  cases granted with
  | some grant =>
    dsimp only
    split
    · rename_i hcovers
      rw [covers_iff] at hcovers
      obtain ⟨hslots, hpages⟩ := hcovers
      refine ⟨hw.move ?_ ?_ .refl rfl, ⟨length_take_of_le hslots, length_take_of_le hpages⟩, .refl, ?_⟩
      · have hs : (grant.slots.drop need.slots ++ grant.slots.take need.slots).Perm grant.slots :=
          perm_append_comm.trans (by rw [take_append_drop])
        have hp : (grant.pages.drop need.pages ++ grant.pages.take need.pages).Perm grant.pages :=
          perm_append_comm.trans (by rw [take_append_drop])
        refine perm_iff_count.mpr fun a => ?_
        have hcs := hs.count_eq a
        have hcp := hp.count_eq a
        simp only [holdings, Option.elim_some, count_append] at hcs hcp ⊢
        omega
      · intro ⟨hs, hp⟩
        refine ⟨fun id hid => hs id ?_, fun id hid => hp id ?_⟩
        · rcases mem_append.mp hid with hid | hid
          · exact mem_append_left _ (mem_of_mem_drop hid)
          · exact mem_append_right _ hid
        · rcases mem_append.mp hid with hid | hid
          · exact mem_append_left _ (mem_of_mem_drop hid)
          · exact mem_append_right _ hid
      · unfold room RsUnits.add RsGrant.units
        rw [Option.elim_some, Option.elim_some, length_drop, length_drop]
        unfold RsGrant.units at hslots hpages
        dsimp only at hslots hpages ⊢
        rw [Nat.sub_add_cancel hslots, Nat.sub_add_cancel hpages]
    · rename_i hcovers
      exact ⟨rfl, eq_false_of_ne_true hcovers⟩
  | none =>
    dsimp only
    unfold alloc
    cases hslots : s.slots.tryAllocN need.slots with
    | none =>
      refine ⟨rfl, ?_⟩
      rw [← Bool.not_eq_true, covers_iff]
      intro ⟨hle, _⟩
      exact absurd hle (Nat.not_le_of_lt (tryAllocN_none hslots))
    | some r =>
      obtain ⟨slots, rest⟩ := r
      cases hpages : s.pages.tryAllocN need.pages with
      | none =>
        dsimp only
        refine ⟨?_, ?_⟩
        · rw [tryAllocN_back hslots]
        · rw [← Bool.not_eq_true, covers_iff]
          intro ⟨_, hle⟩
          exact absurd hle (Nat.not_le_of_lt (tryAllocN_none hpages))
      | some r' =>
        obtain ⟨pages, restPages⟩ := r'
        have hs := Pool.ids_tryAllocN hslots
        have hp := Pool.ids_tryAllocN hpages
        obtain ⟨hlen, hfree, -, -, -⟩ := Pool.tryAllocN_spec hslots
        obtain ⟨hlen', hfree', -, -, -⟩ := Pool.tryAllocN_spec hpages
        refine ⟨hw.move ?_ ?_ ⟨rfl, rfl, rfl, fun _ => rfl⟩ rfl, ⟨hlen, hlen'⟩, ⟨rfl, rfl, rfl, fun _ => rfl⟩, ?_⟩
        · refine perm_iff_count.mpr fun a => ?_
          have hcs := hs.count_eq a
          have hcp := hp.count_eq a
          simp only [holdings, Option.elim_none, count_append, count_nil] at hcs hcp ⊢
          omega
        · intro ⟨hs', hp'⟩
          exact ⟨fun id hid => hs' id (hs.mem_iff.mpr (mem_append_left _ hid)),
            fun id hid => hp' id (hp.mem_iff.mpr (mem_append_left _ hid))⟩
        · unfold room RsUnits.add available Pool.available
          rw [Option.elim_none, Option.elim_none, hfree, hfree', length_append, length_append, hlen, hlen']

/-! ## A fire that sets out, and one that is cancelled -/

theorem mem_fires_insertTouch {s : RsStore} {seq k : Nat} {touch : Touch} :
    k ∈ fires (s.insertTouch seq touch) ↔ k = seq ∨ k ∈ fires s := by
  unfold fires insertTouch
  rw [map_append, mem_append, map_singleton, mem_singleton, mem_map, mem_map]
  constructor
  · intro hk
    rcases hk with ⟨e, he, hk⟩ | hk
    · exact .inr ⟨e, mem_of_mem_filter he, hk⟩
    · exact .inl hk
  · intro hk
    by_cases hseq : k = seq
    · exact .inr hseq
    · obtain ⟨e, he, hk⟩ := hk.resolve_left hseq
      refine .inl ⟨e, mem_filter.mpr ⟨he, ?_⟩, hk⟩
      rw [decide_eq_true_eq, hk]
      exact hseq

theorem fires_modifyTouch {s : RsStore} {seq : Nat} {f : Touch → Touch} : fires (s.modifyTouch seq f) = fires s := by
  unfold fires modifyTouch
  rw [map_map]
  refine map_congr_left fun e _ => ?_
  rw [Function.comp_apply]
  split <;> rfl

theorem Waits.begin {touch : Touch} (hw : Waits h₀ h ids seqs) :
    Waits h₀ { h with store := { h.store with seq := h.store.seq + 1 }.insertTouch (h.store.seq + 1) touch } ids
      (seqs ++ [h.store.seq + 1]) where
  ids := hw.ids
  homed := hw.homed
  isPage := hw.isPage
  refs := hw.refs
  sets := hw.sets.trans (sameSets_of_eq rfl)
  seq := Nat.le_succ_of_le hw.seq
  called k hlt hle := by
    rw [mem_fires_insertTouch, mem_append, mem_singleton, or_comm]
    refine or_congr_left' fun hne => hw.called k hlt ?_
    have hle : k ≤ h.store.seq + 1 := hle
    omega
  others k hk := by
    have hk : k ≤ h₀.store.seq ∨ h.store.seq + 1 < k := hk
    have hseq := hw.seq
    rw [mem_fires_insertTouch, or_iff_right (by omega)]
    exact hw.others k (by omega)
  within k hk := by
    change h₀.store.seq < k ∧ k ≤ h.store.seq + 1
    have hseq := hw.seq
    rcases mem_append.mp hk with hk | hk
    · have hrange := hw.within k hk
      omega
    · rw [mem_singleton] at hk
      omega
  nodup := by
    refine nodup_append'.mpr ⟨hw.nodup, nodup_singleton _, fun k hk hk' => ?_⟩
    have hrange := hw.within k hk
    rw [mem_singleton] at hk'
    omega

theorem Waits.cancel {write : RsPreparedWrite} (hw : Waits h₀ h (write.allocated ++ ids) (write.seq :: seqs)) :
    Waits h₀ { h with store := h.store.cancelPrepared write } ids seqs := by
  obtain ⟨hbooks, hreturned, hfires⟩ := @cancelPrepared_returned h.store write
  obtain ⟨hnotin, hnodup⟩ := nodup_cons.mp hw.nodup
  have hseq : (h.store.cancelPrepared write).seq = h.store.seq := hbooks.seq
  have hparts := filter_append_perm (fun id => h.store.isPage id) write.allocated
  exact {
    ids := by
      refine Perm.trans (perm_iff_count.mpr fun a => ?_) hw.ids
      have hslots := hreturned.slots.count_eq a
      have hpages := hreturned.pages.count_eq a
      have hparts := hparts.count_eq a
      simp only [holdings, count_append] at hslots hpages hparts ⊢
      omega
    homed := fun h₀ => by
      obtain ⟨hs, hp⟩ := hw.homed h₀
      refine ⟨fun id hid => ?_, fun id hid => ?_⟩
      · rw [hbooks.isPage]
        rcases mem_append.mp hid with hid | hid
        · exact hs id (mem_append_left _ hid)
        · rcases mem_append.mp (hreturned.slots.mem_iff.mp hid) with hid | hid
          · exact hs id (mem_append_right _ hid)
          · exact (Bool.not_eq_true' _).mp (mem_filter.mp hid).2
      · rw [hbooks.isPage]
        rcases mem_append.mp hid with hid | hid
        · exact hp id (mem_append_left _ hid)
        · rcases mem_append.mp (hreturned.pages.mem_iff.mp hid) with hid | hid
          · exact hp id (mem_append_right _ hid)
          · exact (mem_filter.mp hid).2
    isPage := fun id => (hbooks.isPage id).trans (hw.isPage id)
    refs := hbooks.refs.trans hw.refs
    sets := hw.sets.trans (sameSets_of_eq hbooks.sets)
    seq := by
      rw [hseq]
      exact hw.seq
    called := fun k hlt hle => by
      rw [hseq] at hle
      rw [hfires, hw.called k hlt hle, mem_cons]
      constructor
      · exact fun ⟨hk, hne⟩ => hk.resolve_left hne
      · exact fun hk => ⟨.inr hk, fun heq => hnotin (by rw [← heq]; exact hk)⟩
    others := fun k hk => by
      rw [hseq] at hk
      have hrange := hw.within write.seq mem_cons_self
      rw [hfires, and_iff_left (by omega)]
      exact hw.others k hk
    within := fun k hk => by
      rw [hseq]
      exact hw.within k (mem_cons_of_mem _ hk)
    nodup := hnodup }

/-- The fire that set out last is the first one cancelled. -/
theorem Waits.swap {last : List RsSlotId} {seq : Nat} (hw : Waits h₀ h (ids ++ last) (seqs ++ [seq])) :
    Waits h₀ h (last ++ ids) (seq :: seqs) where
  ids := (Perm.append_left _ perm_append_comm).trans hw.ids
  homed := hw.homed
  isPage := hw.isPage
  refs := hw.refs
  sets := hw.sets
  seq := hw.seq
  called k hlt hle := by rw [hw.called k hlt hle, mem_append, mem_singleton, mem_cons, or_comm]
  others := hw.others
  within k hk := hw.within k ((perm_append_singleton seq seqs).mem_iff.mpr hk)
  nodup := (perm_append_singleton seq seqs).nodup_iff.mp hw.nodup

/-- A batch that is cancelled gives back all that it took. -/
theorem Waits.cancelAll {prepared : List RsPreparedWrite}
    (hw : Waits h₀ h (prepared.flatMap RsPreparedWrite.allocated) (prepared.map RsPreparedWrite.seq)) :
    Waits h₀ { h with store := h.store.cancelBatch prepared } [] [] := by
  induction prepared generalizing h with
  | nil => exact hw
  | cons write prepared ih => exact ih hw.cancel

end Steps

end Pie.Proof.Rollbacks
