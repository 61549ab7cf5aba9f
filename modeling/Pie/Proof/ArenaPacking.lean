import Pie.Lib.Fallible
import Pie.Lib.Loops
import Pie.Poem.Arena

/-!
# Packing rectangles

A column is placed where no column that may be live with it is. A member of a
column has the column's size and lives within its span, so two slots whose bytes
meet are never live together, or they are members of one column.
-/

namespace Pie.Proof.Packing

open List Pie.Poem Pie.Poem.Arena Lib ClassSet

/-! ## What may run together -/

variable {i : Nat} {a b : Span} {conc : Concurrency} {placed : List Placed} {placements : List Placement}
  {spans : List (Option Span)}

theorem has_bitsWhere {α : Type} {p : α → Bool} {l : List α} :
    Bits.has (bitsWhere p l) i = true ↔ ∃ x, l[i]? = some x ∧ p x = true := by
  have key : ∀ (l : List α) (k w : Nat), Bits.has ((l.zipIdx k).foldl (fun w x => if p x.1 then Bits.add w x.2 else w) w) i
      = true ↔ Bits.has w i = true ∨ (k ≤ i ∧ ∃ x, l[i - k]? = some x ∧ p x = true) := by
    intro l
    induction l with
    | nil => intro k w; simp
    | cons y l ih =>
      intro k w
      rw [zipIdx_cons, foldl_cons, ih (k + 1)]
      by_cases hk : i = k
      · subst hk
        rw [Nat.sub_self, getElem?_cons_zero]
        by_cases hp : p y = true
        · rw [if_pos hp, Bits.has_add, decide_eq_true rfl, Bool.or_true]
          simp [hp]
        · rw [if_neg hp]
          simp [hp]
      · have hw : Bits.has (if p y = true then Bits.add w k else w) i = Bits.has w i := by
          split
          · rw [Bits.has_add, decide_eq_false (Ne.symm hk), Bool.or_false]
          · rfl
        rw [hw]
        have hle : k + 1 ≤ i ↔ k ≤ i := by omega
        rw [hle]
        refine or_congr Iff.rfl (and_congr_right (fun hki => ?_))
        rw [show i - k = (i - (k + 1)) + 1 by omega, getElem?_cons_succ]
  unfold bitsWhere
  rw [key l 0 0, Bits.has_zero]
  simp

/-- Two spans are together when they touch, or meet the two sides of a fork pair. -/
def Together (conc : Concurrency) (a b : Span) : Prop :=
  touching a b = true ∨ ∃ p ∈ conc.paired, (meets p.1 a = true ∧ meets p.2 b = true)
    ∨ (meets p.2 a = true ∧ meets p.1 b = true)

theorem overlaps_iff : (conc.reach a).overlaps (conc.reach b) = true ↔ Together conc a b := by
  have hand : ∀ (p q : (Nat × Nat) × (Nat × Nat) → Bool),
      bitsWhere p conc.paired &&& bitsWhere q conc.paired ≠ 0 ↔ ∃ x ∈ conc.paired, p x = true ∧ q x = true := by
    intro p q
    rw [Ne, Bits.and_eq_zero]
    push Not
    constructor
    · rintro ⟨i, hp, hq⟩
      obtain ⟨x, hx, hpx⟩ := has_bitsWhere.mp hp
      obtain ⟨y, hy, hqy⟩ := has_bitsWhere.mp hq
      obtain rfl : x = y := Option.some.inj (hx.symm.trans hy)
      exact ⟨x, mem_of_getElem? hx, hpx, hqy⟩
    · rintro ⟨x, hx, hpx, hqx⟩
      obtain ⟨i, hi⟩ := getElem?_of_mem hx
      exact ⟨i, has_bitsWhere.mpr ⟨x, hi, hpx⟩, has_bitsWhere.mpr ⟨x, hi, hqx⟩⟩
  unfold Reach.overlaps Together Concurrency.reach
  dsimp only
  rw [Bool.or_eq_true, Bool.or_eq_true, decide_eq_true_eq, decide_eq_true_eq, hand, hand]
  constructor
  · rintro ((h | ⟨p, hp, h⟩) | ⟨p, hp, h⟩)
    · exact .inl h
    · exact .inr ⟨p, hp, .inl h⟩
    · exact .inr ⟨p, hp, .inr h⟩
  · rintro (h | ⟨p, hp, h | h⟩)
    · exact .inl (.inl h)
    · exact .inl (.inr ⟨p, hp, h⟩)
    · exact .inr ⟨p, hp, h⟩

/-- One span within another. -/
def Within (a b : Span) : Prop := b.first ≤ a.first ∧ a.last ≤ b.last

theorem Within.refl (a : Span) : Within a a := ⟨le_rfl, le_rfl⟩

theorem meets_mono {range : Nat × Nat} (h : Within a b) (hm : meets range a = true) : meets range b = true := by
  unfold meets at *
  rw [Bool.and_eq_true, decide_eq_true_eq, decide_eq_true_eq] at *
  exact ⟨hm.1.trans h.2, lt_of_le_of_lt h.1 hm.2⟩

theorem Together.mono {a b a' b' : Span} (ha : Within a a') (hb : Within b b')
    (h : Together conc a b) : Together conc a' b' := by
  rcases h with h | ⟨p, hp, h | h⟩
  · left
    unfold touching at *
    rw [Bool.and_eq_true, decide_eq_true_eq, decide_eq_true_eq] at *
    exact ⟨ha.1.trans (h.1.trans hb.2), hb.1.trans (h.2.trans ha.2)⟩
  · exact .inr ⟨p, hp, .inl ⟨meets_mono ha h.1, meets_mono hb h.2⟩⟩
  · exact .inr ⟨p, hp, .inr ⟨meets_mono ha h.1, meets_mono hb h.2⟩⟩

theorem Together.symm (h : Together conc a b) : Together conc b a := by
  rcases h with h | ⟨p, hp, h | h⟩
  · left
    unfold touching at *
    rwa [Bool.and_comm]
  · exact .inr ⟨p, hp, .inr ⟨h.2, h.1⟩⟩
  · exact .inr ⟨p, hp, .inl ⟨h.2, h.1⟩⟩

/-! ## First fit -/

instance : Std.Total pairLe := ⟨fun a b => by unfold pairLe; omega⟩

instance : IsTrans (Nat × Nat) pairLe := ⟨fun a b c h h' => by unfold pairLe at *; omega⟩

/-- **The place found is free**, and it is no place but the start or where a blocker ends. -/
theorem firstFit_spec {size : Nat} : ∀ {blockers : List (Nat × Nat)} {offset : Nat}, blockers.Pairwise pairLe →
    offset ≤ firstFit size blockers offset
      ∧ (∀ b ∈ blockers, b.2 ≤ firstFit size blockers offset ∨ firstFit size blockers offset + size ≤ b.1)
      ∧ (firstFit size blockers offset = offset ∨ ∃ b ∈ blockers, firstFit size blockers offset = b.2) := by
  intro blockers
  induction blockers with
  | nil => exact fun _ => ⟨le_rfl, nofun, .inl rfl⟩
  | cons b blockers ih =>
    intro offset hs
    obtain ⟨lo, hi⟩ := b
    unfold firstFit
    split
    · rename_i hfree
      refine ⟨le_rfl, forall_mem_cons.mpr ⟨.inr hfree, fun c hc => .inr ?_⟩, .inl rfl⟩
      have hle := rel_of_pairwise_cons hs hc
      unfold pairLe at hle
      dsimp only at hle
      omega
    · obtain ⟨h1, h2, h3⟩ := @ih (Nat.max offset hi) hs.tail
      refine ⟨(le_max_left _ _).trans h1, forall_mem_cons.mpr ⟨.inl ((le_max_right _ _).trans h1), h2⟩, ?_⟩
      rcases h3 with h3 | ⟨c, hc, h3⟩
      · rcases le_total offset hi with hle | hle
        · exact .inr ⟨_, mem_cons_self, h3.trans (max_eq_right hle)⟩
        · exact .inl (h3.trans (max_eq_left hle))
      · exact .inr ⟨c, mem_cons_of_mem _ hc, h3⟩

/-- Columns that may be live together are apart. -/
def Apart (conc : Concurrency) (p q : Placed) : Prop :=
  Together conc p.column.span q.column.span →
    p.offset + p.column.size ≤ q.offset ∨ q.offset + q.column.size ≤ p.offset

structure Laid (conc : Concurrency) (columns : List Column) (placed : List Placed) : Prop where
  columns : placed.map (·.column) = columns
  apart : placed.Pairwise (Apart conc)
  aligned : ∀ p ∈ placed, BIND_ALIGN ∣ p.offset

theorem placeOne_laid {columns : List Column} {column : Column}
    (h : Laid conc columns placed) (hsize : ∀ c ∈ columns ++ [column], BIND_ALIGN ∣ c.size) :
    Laid conc (columns ++ [column]) (placeOne conc placed column) := by
  unfold placeOne
  dsimp only
  obtain ⟨blockers, hb⟩ : ∃ blockers, blockers = (((placed.filter
      (fun p => (conc.reach p.column.span).overlaps (conc.reach column.span))).map
      (fun p => (p.offset, p.offset + p.column.size))).insertionSort pairLe) := ⟨_, rfl⟩
  have hmem : ∀ b, b ∈ blockers ↔ ∃ p ∈ placed, Together conc p.column.span column.span
      ∧ (p.offset, p.offset + p.column.size) = b := by
    intro b
    rw [hb, mem_insertionSort, mem_map]
    constructor
    · rintro ⟨p, hp, rfl⟩
      rw [mem_filter, overlaps_iff] at hp
      exact ⟨p, hp.1, hp.2, rfl⟩
    · rintro ⟨p, hp, ht, rfl⟩
      exact ⟨p, mem_filter.mpr ⟨hp, overlaps_iff.mpr ht⟩, rfl⟩
  obtain ⟨-, hfree, hwhere⟩ := @firstFit_spec column.size blockers 0 (by rw [hb]; exact pairwise_insertionSort _ _)
  rw [← hb]
  refine ⟨by rw [map_append, h.columns]; rfl, ?_, ?_⟩
  · refine pairwise_append.mpr ⟨h.apart, pairwise_singleton _ _, fun p hp q hq ht => ?_⟩
    obtain rfl := mem_singleton.mp hq
    exact hfree _ ((hmem _).mpr ⟨p, hp, ht, rfl⟩)
  · intro p hp
    rcases mem_append.mp hp with hp | hp
    · exact h.aligned p hp
    · obtain rfl := mem_singleton.mp hp
      show BIND_ALIGN ∣ firstFit column.size blockers 0
      rcases hwhere with h0 | ⟨b, hb, h0⟩
      · rw [h0]
        exact dvd_zero _
      · obtain ⟨q, hq, -, rfl⟩ := (hmem b).mp hb
        rw [h0]
        refine dvd_add (h.aligned q hq) (hsize _ (mem_append_left _ ?_))
        rw [← h.columns]
        exact mem_map_of_mem hq

theorem laid {columns : List Column} (hsize : ∀ c ∈ columns, BIND_ALIGN ∣ c.size) :
    Laid conc columns (columns.foldl (placeOne conc) []) := by
  have key : ∀ (todo done : List Column) (placed : List Placed), (∀ c ∈ done ++ todo, BIND_ALIGN ∣ c.size) →
      Laid conc done placed → Laid conc (done ++ todo) (todo.foldl (placeOne conc) placed) := by
    intro todo
    induction todo with
    | nil => intro done placed _ h; rwa [append_nil]
    | cons c todo ih =>
      intro done placed hs h
      have hstep := ih (done ++ [c]) (placeOne conc placed c) (by rwa [append_assoc])
        (placeOne_laid h (fun d hd => hs d (by simp at hd ⊢; tauto)))
      rwa [append_assoc, singleton_append] at hstep
  exact key columns [] [] hsize ⟨rfl, .nil, nofun⟩

/-- What an item says of the slot it is made from. -/
structure Listed (placements : List Placement) (spans : List (Option Span)) (item : Item) : Prop where
  slot : placements[item.id]? = some (.arena item.slot)
  span : spans[item.id]? = some (some item.span)
  size : item.size = aligned item.slot.bytes

theorem items_spec {its : List Item} (h : items placements spans = some its) :
    (its.map (·.id)).Nodup ∧ (∀ item ∈ its, Listed placements spans item)
      ∧ ∀ (id : Nat) slot, placements[id]? = some (.arena slot) → id ∈ its.map (·.id) := by
  unfold items at h
  obtain ⟨f, hsome, h⟩ : ∃ f : Placement × Nat → Option (Slot × Nat), (∀ p s, f p = some s ↔ p = (.arena s.1, s.2))
      ∧ (placements.zipIdx.filterMap f).mapM (fun p => do
          let span ← (spans[p.2]?).getD none
          some { size := aligned p.1.bytes, span := span, id := p.2, slot := p.1 }) = some its := by
    refine ⟨_, ?_, h⟩
    rintro ⟨placement, i⟩ ⟨slot, j⟩
    cases placement <;> simp
  rw [mapM_eq_some] at h
  have hmem : ∀ s, s ∈ placements.zipIdx.filterMap f ↔ placements[s.2]? = some (.arena s.1) := by
    intro s
    rw [mem_filterMap]
    constructor
    · rintro ⟨p, hp, heq⟩
      rw [(hsome p s).mp heq] at hp
      exact mem_zipIdx_iff_getElem?.mp hp
    · intro hs
      exact ⟨(.arena s.1, s.2), mem_zipIdx_iff_getElem?.mpr hs, (hsome _ s).mpr rfl⟩
  have hitem : Forall₂ (fun s item => item.id = s.2 ∧ Listed placements spans item)
      (placements.zipIdx.filterMap f) its := by
    refine Fallible.forall₂_imp_mem h (fun s item hs heq => ?_)
    obtain ⟨span, hspan, heq⟩ := Option.bind_eq_some_iff.mp heq
    obtain rfl := (Option.some.inj heq).symm
    refine ⟨rfl, (hmem s).mp hs, ?_, rfl⟩
    cases hs2 : spans[s.2]? with
    | none => rw [hs2] at hspan; cases hspan
    | some o => rw [hs2] at hspan; exact congrArg some hspan
  have hids : its.map (·.id) = (placements.zipIdx.filterMap f).map Prod.snd := by
    rw [← forall₂_eq_eq_eq, forall₂_map_left_iff, forall₂_map_right_iff]
    exact (Fallible.forall₂_imp_mem hitem (fun s item _ hab => hab.1)).flip
  refine ⟨?_, ?_, fun id slot hslot => ?_⟩
  · rw [hids]
    refine (map_filterMap_sublist ?_ _).nodup (nodup_zipIdx_map_snd placements)
    intro p s hps
    rw [(hsome p s).mp hps]
  · exact Fallible.forall₂_left hitem.flip (fun item s hab => hab.2)
  · rw [hids]
    exact mem_map_of_mem ((hmem (slot, id)).mpr hslot)

theorem items_exists
    (h : ∀ (i : Nat) slot, placements[i]? = some (.arena slot) → ∃ span, spans[i]? = some (some span)) :
    ∃ its, items placements spans = some its := by
  unfold items
  refine exists_mapM (fun s hs => ?_)
  obtain ⟨p, hp, heq⟩ := mem_filterMap.mp hs
  split at heq
  · rename_i slot hslot
    obtain rfl := (Option.some.inj heq).symm
    obtain ⟨span, hspan⟩ := h p.2 slot (by rw [mem_zipIdx_iff_getElem?.mp hp, hslot])
    exact ⟨_, by rw [hspan]; rfl⟩
  · cases heq

/-! ## Columns -/

/-- Live in classes, and in no class together. -/
structure Mates (liveIn : List ClassSet) (a b : Nat) : Prop where
  left : (liveIn.getD a ClassSet.empty).isEmpty = false
  right : (liveIn.getD b ClassSet.empty).isEmpty = false
  disjoint : (liveIn.getD a ClassSet.empty).disjoint (liveIn.getD b ClassSet.empty) = true

theorem Mates.symm {liveIn : List ClassSet} {a b : Nat} (h : Mates liveIn a b) : Mates liveIn b a := by
  refine ⟨h.right, h.left, ?_⟩
  have hd := h.disjoint
  rw [disjoint_iff] at hd ⊢
  exact fun c hc => hd c hc.symm

structure Filled (liveIn : List ClassSet) (order : List Item) (c : Column) : Prop where
  sized : ∃ item ∈ order, item.size = c.size
  member : ∀ id ∈ c.members, ∃ item ∈ order, item.id = id ∧ item.size = c.size ∧ pitchOf item.slot = c.pitch
    ∧ Within item.span c.span
  mates : c.members.Pairwise (fun a b => c.pitch.isSome = true ∧ Mates liveIn a b)
  covers : ∀ id ∈ c.members, ∀ k, (liveIn.getD id ClassSet.empty).contains k = true → c.classes.contains k = true

theorem joinFirst_spec {fits : Column → Bool} {add : Column → Column} : ∀ {columns columns' : List Column},
    joinFirst fits add columns = some columns' →
      ∃ l c r, columns = l ++ c :: r ∧ fits c = true ∧ columns' = l ++ add c :: r := by
  intro columns
  induction columns with
  | nil => exact nofun
  | cons d columns ih =>
    intro columns' h
    unfold joinFirst at h
    split at h
    · rename_i hd
      cases h
      exact ⟨[], d, columns, rfl, hd, rfl⟩
    · obtain ⟨rest, hrest, rfl⟩ := Option.map_eq_some_iff.mp h
      obtain ⟨l, c, r, rfl, hc, rfl⟩ := ih hrest
      exact ⟨d :: l, c, r, rfl, hc, rfl⟩

section Gather

variable {liveIn : List ClassSet} {order : List Item} {mode : Columns}

variable {item : Item}

theorem filled_new (hitem : item ∈ order) :
    Filled liveIn order ⟨item.size, item.span, liveIn.getD item.id empty, pitchOf item.slot, [item.id]⟩ := by
  refine ⟨⟨item, hitem, rfl⟩, fun id hid => ?_, pairwise_singleton _ _, fun id hid k hk => ?_⟩
  · obtain rfl := mem_singleton.mp hid
    exact ⟨item, hitem, rfl, rfl, rfl, Within.refl _⟩
  · obtain rfl := mem_singleton.mp hid
    exact hk

/-- A column that takes an item of its pitch and size, in no class of its own, stays filled. -/
theorem Filled.add {c : Column} (h : Filled liveIn order c) (hitem : item ∈ order)
    (hpitch : c.pitch = pitchOf item.slot) (hsome : (pitchOf item.slot).isSome = true) (hsize : c.size = item.size)
    (hdisjoint : c.classes.disjoint (liveIn.getD item.id empty) = true)
    (hlive : ∀ item ∈ order, (liveIn.getD item.id empty).isEmpty = false) :
    Filled liveIn order (Column.add (liveIn.getD item.id empty) item c) := by
  refine ⟨h.sized, fun id hid => ?_, ?_, fun id hid k hk => ?_⟩
  · rcases mem_append.mp hid with hid | hid
    · obtain ⟨i, hi, rfl, hsz, hp, hw⟩ := h.member id hid
      exact ⟨i, hi, rfl, hsz, hp, (min_le_left _ _).trans hw.1, hw.2.trans (le_max_left _ _)⟩
    · obtain rfl := mem_singleton.mp hid
      exact ⟨item, hitem, rfl, hsize.symm, hpitch.symm, min_le_right _ _, le_max_right _ _⟩
  · refine pairwise_append.mpr ⟨h.mates, pairwise_singleton _ _, fun a ha b hb => ?_⟩
    obtain rfl := mem_singleton.mp hb
    obtain ⟨i, hi, rfl, -⟩ := h.member a ha
    refine ⟨by rw [Column.add, hpitch]; exact hsome, hlive i hi, hlive item hitem, ?_⟩
    rw [disjoint_iff] at hdisjoint ⊢
    exact fun k hk => hdisjoint k ⟨h.covers _ ha k hk.1, hk.2⟩
  · rw [Column.add, contains_union, Bool.or_eq_true]
    rcases mem_append.mp hid with hid | hid
    · exact .inl (h.covers id hid k hk)
    · obtain rfl := mem_singleton.mp hid
      exact .inr hk

/-- The items are live all of them, or none. -/
def Even (liveIn : List ClassSet) (order : List Item) : Prop :=
  (∀ item ∈ order, (liveIn.getD item.id ClassSet.empty).isEmpty = false)
    ∨ ∀ item ∈ order, (liveIn.getD item.id ClassSet.empty).isEmpty = true

theorem gatherOne_spec {columns : List Column} (hitem : item ∈ order) (hlive : Even liveIn order)
    (h : ∀ c ∈ columns, Filled liveIn order c) :
    (∀ c ∈ gatherOne liveIn mode columns item, Filled liveIn order c)
      ∧ ((gatherOne liveIn mode columns item).flatMap (·.members)).Perm (columns.flatMap (·.members) ++ [item.id]) := by
  unfold gatherOne
  dsimp only
  split
  · rename_i columns' hjoin
    obtain ⟨l, c, r, rfl, hfits, rfl⟩ := joinFirst_spec hjoin
    simp only [Bool.and_eq_true, decide_eq_true_eq, Bool.not_eq_true'] at hfits
    obtain ⟨⟨⟨⟨⟨⟨-, hsome⟩, hne⟩, hpitch⟩, hsize⟩, -⟩, hdisjoint⟩ := hfits
    have hall := hlive.resolve_right (fun hnone => by rw [hnone item hitem] at hne; cases hne)
    refine ⟨fun d hd => ?_, ?_⟩
    · rcases mem_append.mp hd with hd | hd
      · exact h d (mem_append_left _ hd)
      · rcases mem_cons.mp hd with rfl | hd
        · exact (h c (by simp)).add hitem hpitch hsome hsize hdisjoint hall
        · exact h d (mem_append_right _ (mem_cons_of_mem _ hd))
    · simp only [flatMap_append, flatMap_cons, Column.add, append_assoc]
      refine Perm.append_left _ (Perm.append_left _ ?_)
      exact perm_append_comm
  · refine ⟨fun d hd => ?_, ?_⟩
    · rcases mem_append.mp hd with hd | hd
      · exact h d hd
      · obtain rfl := mem_singleton.mp hd
        exact filled_new hitem
    · rw [flatMap_append]
      exact Perm.refl _

/-- **Every item is in one column**, with those it shares it with. -/
theorem gather_spec (hlive : Even liveIn order) : (∀ c ∈ gather liveIn mode order, Filled liveIn order c)
      ∧ ((gather liveIn mode order).flatMap (·.members)).Perm (order.map (·.id)) := by
  have key : ∀ (todo : List Item) (columns : List Column), (∀ item ∈ todo, item ∈ order) →
      (∀ c ∈ columns, Filled liveIn order c) →
      (∀ c ∈ todo.foldl (gatherOne liveIn mode) columns, Filled liveIn order c)
        ∧ ((todo.foldl (gatherOne liveIn mode) columns).flatMap (·.members)).Perm
          (columns.flatMap (·.members) ++ todo.map (·.id)) := by
    intro todo
    induction todo with
    | nil => intro columns _ h; exact ⟨h, by rw [map_nil, append_nil]; exact Perm.refl _⟩
    | cons item todo ih =>
      intro columns hin h
      obtain ⟨hfilled, hperm⟩ := @gatherOne_spec liveIn order mode _ _ (hin item mem_cons_self) hlive h
      obtain ⟨hfilled, hperm'⟩ := ih _ (fun i hi => hin i (mem_cons_of_mem _ hi)) hfilled
      refine ⟨hfilled, hperm'.trans ?_⟩
      rw [map_cons, append_cons]
      exact hperm.append_right _
  have hall := key order [] (fun _ h => h) nofun
  exact ⟨hall.1, hall.2⟩

end Gather

/-! ## Settling -/

/-- A slot with this offset; anything else as it is. -/
def shift (offset : Nat) : Placement → Placement
  | .arena slot => .arena { slot with offset := offset }
  | placement => placement

theorem settleAt_get {offset : Nat} {id i : Nat} :
    (settleAt offset placements id)[i]? = if i = id then (placements[i]?).map (shift offset) else placements[i]? := by
  unfold settleAt
  split
  · rename_i slot hslot
    split
    · rename_i hi
      rw [hi, getElem?_set_self (List.getElem?_eq_some_iff.mp hslot).1, hslot]
      rfl
    · rename_i hi
      rw [getElem?_set_ne (Ne.symm hi)]
  · rename_i hnot
    split
    · rename_i hi
      rw [hi]
      cases hp : placements[id]? with
      | none => rfl
      | some placement =>
        cases placement with
        | arena slot => exact absurd hp (hnot slot)
        | _ => rfl
    · rfl

/-- The offset that each id gets. -/
def cells (placed : List Placed) : List (Nat × Nat) :=
  placed.flatMap (fun p => p.column.members.map (fun id => (id, p.offset)))

theorem settle_eq_cells (placed : List Placed) : ∀ placements : List Placement,
    placed.foldl settle placements = (cells placed).foldl (fun ps c => settleAt c.2 ps c.1) placements := by
  induction placed with
  | nil => exact fun _ => rfl
  | cons p placed ih =>
    intro placements
    rw [cells, flatMap_cons, foldl_append, foldl_map]
    exact ih _

theorem settle_of_not_mem {cells : List (Nat × Nat)} : ∀ {placements : List Placement},
    i ∉ cells.map Prod.fst → (cells.foldl (fun ps c => settleAt c.2 ps c.1) placements)[i]? = placements[i]? := by
  induction cells with
  | nil => exact fun _ => rfl
  | cons c cells ih =>
    intro placements hi
    rw [map_cons, mem_cons, not_or] at hi
    rw [foldl_cons, ih hi.2, settleAt_get, if_neg hi.1]

theorem settle_of_mem {cells : List (Nat × Nat)} {i offset : Nat} : ∀ {placements : List Placement},
    (cells.map Prod.fst).Nodup → (i, offset) ∈ cells →
      (cells.foldl (fun ps c => settleAt c.2 ps c.1) placements)[i]? = (placements[i]?).map (shift offset) := by
  induction cells with
  | nil => exact fun _ h => (nomatch h)
  | cons c cells ih =>
    intro placements hnd hmem
    rw [map_cons, nodup_cons] at hnd
    rw [foldl_cons]
    rcases mem_cons.mp hmem with rfl | hmem
    · rw [settle_of_not_mem hnd.1, settleAt_get, if_pos rfl]
    · have hne : i ≠ c.1 := by
        intro hic
        exact hnd.1 (hic ▸ mem_map_of_mem hmem)
      rw [ih hnd.2 hmem, settleAt_get, if_neg hne]

theorem aligned_spec (bytes : Nat) : bytes ≤ aligned bytes ∧ BIND_ALIGN ∣ aligned bytes := by
  refine ⟨?_, dvd_mul_left _ _⟩
  unfold aligned BIND_ALIGN
  omega

theorem le_reach : ∀ {bytes : Nat}, bytes ≤ placed.foldl
    (fun bytes p => Nat.max bytes (p.offset + p.column.size)) bytes
      ∧ ∀ p ∈ placed, p.offset + p.column.size ≤ placed.foldl
        (fun bytes p => Nat.max bytes (p.offset + p.column.size)) bytes := by
  induction placed with
  | nil => exact ⟨le_rfl, nofun⟩
  | cons p placed ih =>
    intro bytes
    rw [foldl_cons]
    obtain ⟨hle, hall⟩ := @ih (Nat.max bytes (p.offset + p.column.size))
    exact ⟨(le_max_left _ _).trans hle, forall_mem_cons.mpr ⟨(le_max_right _ _).trans hle, hall⟩⟩

/-! ## A packing -/

/-- What packing does to a table: slots get offsets, and those that meet are mates or never together. -/
structure Packed (conc : Concurrency) (lives : Lives) (ps ps' : List Placement) (bytes : Nat) : Prop where
  same : ∀ i : Nat, (∀ slot, ps[i]? ≠ some (.arena slot)) → ps'[i]? = ps[i]?
  moved : ∀ (i : Nat) slot, ps[i]? = some (.arena slot) → ∃ offset, ps'[i]? = some (.arena { slot with offset := offset })
    ∧ BIND_ALIGN ∣ offset ∧ offset + slot.bytes ≤ bytes
  apart : ∀ (a b : Nat) x y sa sb, a ≠ b → ps'[a]? = some (.arena x) → ps'[b]? = some (.arena y) →
    lives.spans[a]? = some (some sa) → lives.spans[b]? = some (some sb) → Together conc sa sb →
    x.offset < y.offset + y.bytes → y.offset < x.offset + x.bytes →
      x.offset = y.offset ∧ pitchOf x = pitchOf y ∧ (pitchOf x).isSome = true ∧ Mates lives.liveIn a b

theorem placed_of_mem (h : i ∈ (placed.map (·.column)).flatMap (·.members)) :
    ∃ p ∈ placed, i ∈ p.column.members ∧ (i, p.offset) ∈ cells placed := by
  obtain ⟨c, hc, hi⟩ := mem_flatMap.mp h
  obtain ⟨p, hp, rfl⟩ := mem_map.mp hc
  exact ⟨p, hp, hi, mem_flatMap.mpr ⟨p, hp, mem_map_of_mem hi⟩⟩

theorem cells_fst (placed : List Placed) :
    (cells placed).map Prod.fst = (placed.map (·.column)).flatMap (·.members) := by
  rw [cells, map_flatMap, flatMap_map]
  simp [Function.comp_def]

/-- A slot of the table in its place. -/
structure Home (lives : Lives) (ps : List Placement) (i : Nat) (slot : Slot) (p : Placed) : Prop where
  mem : i ∈ p.column.members
  get : ps[i]? = some (.arena { slot with offset := p.offset })
  size : slot.bytes ≤ p.column.size
  pitch : pitchOf slot = p.column.pitch
  within : ∀ span, lives.spans[i]? = some (some span) → Within span p.column.span

/-- **Slots that meet while they may be live together are mates.** -/
theorem Home.apart {lives : Lives} {ps : List Placement} {order : List Item}
    {a b : Nat} {x y : Slot} {p q : Placed} {sa sb : Span} (hp : p ∈ placed) (hq : q ∈ placed)
    (hapart : placed.Pairwise (Apart conc)) (hfilled : Filled lives.liveIn order p.column)
    (ha : Home lives ps a x p) (hb : Home lives ps b y q) (hne : a ≠ b) (hsa : lives.spans[a]? = some (some sa))
    (hsb : lives.spans[b]? = some (some sb)) (ht : Together conc sa sb) (hl : p.offset < q.offset + y.bytes)
    (hr : q.offset < p.offset + x.bytes) :
    p.offset = q.offset ∧ pitchOf x = pitchOf y ∧ (pitchOf x).isSome = true ∧ Mates lives.liveIn a b := by
  have hsym : Std.Symm (Apart conc) := ⟨fun p q h ht => (h ht.symm).symm⟩
  have htogether := ht.mono (ha.within sa hsa) (hb.within sb hsb)
  have hx := ha.size
  have hy := hb.size
  by_cases hpq : p = q
  · subst hpq
    have hmates : ∀ c d, (p.column.pitch.isSome = true ∧ Mates lives.liveIn c d) →
        (p.column.pitch.isSome = true ∧ Mates lives.liveIn d c) := fun c d h => ⟨h.1, h.2.symm⟩
    have hsym' : Std.Symm (fun c d => p.column.pitch.isSome = true ∧ Mates lives.liveIn c d) := ⟨hmates⟩
    obtain ⟨hsome, hm⟩ := hfilled.mates.forall ha.mem hb.mem hne
    exact ⟨rfl, ha.pitch.trans hb.pitch.symm, by rw [ha.pitch]; exact hsome, hm⟩
  · rcases hapart.forall hp hq hpq htogether with h | h <;> omega

theorem pack_spec {lives : Lives} {mode : Columns}
    (hspan : ∀ (i : Nat) slot, placements[i]? = some (.arena slot) → ∃ span, lives.spans[i]? = some (some span))
    (hlive : (∀ (i : Nat) slot, placements[i]? = some (.arena slot) → (lives.liveIn.getD i empty).isEmpty = false)
      ∨ ∀ (i : Nat) slot, placements[i]? = some (.arena slot) → (lives.liveIn.getD i empty).isEmpty = true) :
    ∃ ps bytes, pack placements lives conc mode = .ok (ps, bytes) ∧ Packed conc lives placements ps bytes := by
  obtain ⟨its, hits⟩ := items_exists hspan
  obtain ⟨hnd, hlisted, hall⟩ := items_spec hits
  obtain ⟨order, horder⟩ : ∃ order, order = its.insertionSort (fun a b => before a b = true) := ⟨_, rfl⟩
  have hperm : order.Perm its := by
    rw [horder]
    exact perm_insertionSort _ _
  replace hlisted : ∀ item ∈ order, Listed placements lives.spans item := fun item hi =>
    hlisted item (hperm.mem_iff.mp hi)
  have heven : Even lives.liveIn order :=
    hlive.imp (fun h item hi => h _ _ (hlisted item hi).slot) (fun h item hi => h _ _ (hlisted item hi).slot)
  obtain ⟨hfilled, hmembers⟩ := @gather_spec lives.liveIn order mode heven
  obtain ⟨columns, hcolumns⟩ : ∃ columns, columns = gather lives.liveIn mode order := ⟨_, rfl⟩
  rw [← hcolumns] at hfilled hmembers
  have hlaid : Laid conc columns (columns.foldl (placeOne conc) []) := laid (fun c hc => by
    obtain ⟨item, hi, hsize⟩ := (hfilled c hc).sized
    rw [← hsize, (hlisted item hi).size]
    exact (aligned_spec _).2)
  obtain ⟨placed, hplaced⟩ : ∃ placed, placed = columns.foldl (placeOne conc) [] := ⟨_, rfl⟩
  rw [← hplaced] at hlaid
  have hcolumn : ∀ p ∈ placed, p.column ∈ columns := fun p hp => by
    rw [← hlaid.columns]
    exact mem_map_of_mem hp
  have hids : (cells placed).map Prod.fst = columns.flatMap (·.members) := by rw [cells_fst, hlaid.columns]
  have hcells : ((cells placed).map Prod.fst).Nodup := by
    rw [hids, hmembers.nodup_iff, (hperm.map _).nodup_iff]
    exact hnd
  have hhome : ∀ (i : Nat) slot, placements[i]? = some (.arena slot) →
      ∃ p ∈ placed, Home lives (placed.foldl settle placements) i slot p := by
    intro i slot hslot
    have hi : i ∈ (placed.map (·.column)).flatMap (·.members) := by
      rw [hlaid.columns, hmembers.mem_iff, (hperm.map _).mem_iff]
      exact hall i slot hslot
    obtain ⟨p, hp, hip, hcell⟩ := placed_of_mem hi
    obtain ⟨item, hitem, rfl, hsize, hpitch, hwithin⟩ := (hfilled p.column (hcolumn p hp)).member i hip
    have hl := hlisted item hitem
    rw [hl.slot] at hslot
    cases hslot
    refine ⟨p, hp, hip, ?_, ?_, hpitch, fun span hs => ?_⟩
    · rw [settle_eq_cells, settle_of_mem hcells hcell, hl.slot]
      rfl
    · rw [← hsize, hl.size]
      exact (aligned_spec _).1
    · rw [hl.span] at hs
      cases hs
      exact hwithin
  have hsame : ∀ i : Nat, (∀ slot, placements[i]? ≠ some (.arena slot)) →
      (placed.foldl settle placements)[i]? = placements[i]? := by
    intro i hi
    rw [settle_eq_cells, settle_of_not_mem]
    rw [hids, hmembers.mem_iff, mem_map]
    rintro ⟨item, hitem, rfl⟩
    exact hi _ (hlisted item hitem).slot
  have hfrom : ∀ (i : Nat) x, (placed.foldl settle placements)[i]? = some (.arena x) →
      ∃ p ∈ placed, x.offset = p.offset ∧ Home lives (placed.foldl settle placements) i x p := by
    intro i x hx
    by_cases hi : ∃ slot, placements[i]? = some (.arena slot)
    · obtain ⟨slot, hslot⟩ := hi
      obtain ⟨p, hp, h⟩ := hhome i slot hslot
      have hget := h.get
      rw [hx] at hget
      cases hget
      exact ⟨p, hp, rfl, h.mem, h.get, h.size, h.pitch, h.within⟩
    · push Not at hi
      rw [hsame i hi] at hx
      exact absurd hx (hi x)
  refine ⟨placed.foldl settle placements,
    placed.foldl (fun bytes p => Nat.max bytes (p.offset + p.column.size)) 0, ?_, ?_, ?_, ?_⟩
  · unfold pack
    rw [hits, hplaced, hcolumns, horder]
  · exact hsame
  · intro i slot hslot
    obtain ⟨p, hp, h⟩ := hhome i slot hslot
    exact ⟨p.offset, h.get, hlaid.aligned p hp, (Nat.add_le_add_left h.size _).trans (le_reach.2 p hp)⟩
  · intro a b x y sa sb hne hx hy hsa hsb ht hl hr
    obtain ⟨p, hp, hxp, ha⟩ := hfrom a x hx
    obtain ⟨q, hq, hyq, hb⟩ := hfrom b y hy
    rw [hxp, hyq] at hl hr ⊢
    exact Home.apart hp hq hlaid.apart (hfilled p.column (hcolumn p hp)) ha hb hne hsa hsb ht hl hr

end Pie.Proof.Packing
