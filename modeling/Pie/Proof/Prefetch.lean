import Pie.Poem.Prefetch
import Mathlib.Tactic

/-!
# Slots of weights

A schedule has one row for each parameter, and the row says between which nodes the
trace reads it. In the order of the first reads, a slot is safe as soon as tenants one
round apart do not meet: the tenants between two of one slot are chained.

A refusal counts what is read during the life of one tenant. A later tenant that lives
longer needs more slots than that, and a tenant that is never read none at all.
-/

namespace Pie.Proof.Prefetch

open List Std Poem Poem.Prefetch Schedule

/-! ## Reading -/

/-- The node reads the parameter. -/
def ReadAt (trace : Trace) (param n : Nat) : Prop :=
  ∃ node, trace.nodes[n]? = some node ∧ ∃ id ∈ node.op.inputs, weightOf trace id = some param

/-- The span of the nodes of which `P` holds. -/
def SpanOf (P : Nat → Prop) : Option (Nat × Nat) → Prop
  | none => ∀ n, ¬P n
  | some (start, stop) => P start ∧ (∃ n, P n ∧ stop = n + 1) ∧ ∀ n, P n → start ≤ n ∧ n < stop

/-- The tally of the reads `P` of parameters at nodes. -/
structure Tallied (params : Nat) (P : Nat → Nat → Prop) (tally : Tally) : Prop where
  spans : tally.span.length = params
  counts : tally.reads.length = params
  bound : ∀ param n, P param n → param < params
  span : ∀ param had, tally.span[param]? = some had → SpanOf (P param) had
  count : ∀ param count, tally.reads[param]? = some count → (count = 0 ↔ ∀ n, ¬P param n)

variable {trace : Trace} {params param place n : Nat} {P Q : Nat → Nat → Prop} {tally tally' : Tally} {id : ValueId}

theorem SpanOf.congr {p q : Nat → Prop} {had : Option (Nat × Nat)} (h : ∀ n, p n ↔ q n) (hp : SpanOf p had) : SpanOf q had := by
  rwa [show q = p from funext fun n => propext (h n).symm]

theorem Tallied.congr (h : ∀ param n, P param n ↔ Q param n) (ht : Tallied params P tally) : Tallied params Q tally := by
  rwa [show Q = P from funext fun param => funext fun n => propext (h param n).symm]

theorem SpanOf.add {p : Nat → Prop} : ∀ {had : Option (Nat × Nat)}, SpanOf p had →
    SpanOf (fun n => p n ∨ n = place) (some (match had with
      | none => (place, place + 1)
      | some (start, stop) => (min start place, max stop (place + 1)))) := by
  intro had h
  cases had with
  | none =>
    refine ⟨.inr rfl, ⟨place, .inr rfl, rfl⟩, fun n hn => ?_⟩
    rcases hn with hn | rfl
    · exact absurd hn (h n)
    · exact ⟨Nat.le_refl n, Nat.lt_succ_self n⟩
  | some span =>
    obtain ⟨start, stop⟩ := span
    obtain ⟨hstart, ⟨last, hlast, rfl⟩, hall⟩ := h
    refine ⟨?_, ?_, fun n hn => ?_⟩
    · rcases le_total start place with hle | hle
      · exact .inl (by rwa [min_eq_left hle])
      · exact .inr (min_eq_right hle)
    · rcases le_total last place with hle | hle
      · exact ⟨place, .inr rfl, max_eq_right (Nat.succ_le_succ hle)⟩
      · exact ⟨last, .inl hlast, max_eq_left (Nat.succ_le_succ hle)⟩
    · rcases hn with hn | rfl
      · have := hall n hn
        exact ⟨(min_le_left _ _).trans this.1, this.2.trans_le (le_max_left _ _)⟩
      · exact ⟨min_le_right _ _, (Nat.lt_succ_self n).trans_le (le_max_right _ _)⟩

theorem readOperand_tallied (h : Tallied params P tally) (hread : readOperand trace place tally id = some tally') :
    Tallied params (fun param n => P param n ∨ (weightOf trace id = some param ∧ n = place)) tally' := by
  unfold readOperand at hread
  cases hrow : weightOf trace id with
  | none =>
    rw [hrow] at hread
    cases hread
    exact h.congr fun param n => ⟨.inl, fun h => h.resolve_right fun h => nomatch h.1⟩
  | some row =>
    rw [hrow] at hread
    dsimp only at hread
    simp only [Option.bind_eq_bind, Option.bind_eq_some_iff] at hread
    obtain ⟨count, hcount, had, hhad, hread⟩ := hread
    split at hread
    · cases hread
    · next hfits =>
        cases hread
        have hplace : min place wordMax = place := by omega
        have hlt : row < params := by
          rw [← h.counts]
          exact (List.getElem?_eq_some_iff.mp hcount).1
        have hother : ∀ param n, param ≠ row → (P param n ↔ P param n ∨ (some row = some param ∧ n = place)) :=
          fun param n hne => ⟨.inl, fun h => h.resolve_right fun h => hne (Option.some.inj h.1).symm⟩
        have hself : ∀ n, (P row n ∨ n = place ↔ P row n ∨ (some row = some row ∧ n = place)) := fun n => by
          rw [and_iff_right rfl]
        rw [hplace]
        refine ⟨by rw [length_set, h.spans], by rw [length_set, h.counts], fun param n hp => ?_, fun param span hspan => ?_,
          fun param c hc => ?_⟩
        · rcases hp with hp | ⟨hp, -⟩
          · exact h.bound param n hp
          · rwa [← Option.some.inj hp]
        · by_cases hne : param = row
          · subst hne
            rw [getElem?_set_self (by rw [h.spans]; exact hlt)] at hspan
            rw [← Option.some.inj hspan]
            exact (h.span param had hhad).add.congr hself
          · rw [getElem?_set_ne (Ne.symm hne)] at hspan
            exact (h.span param span hspan).congr fun n => hother param n hne
        · by_cases hne : param = row
          · subst hne
            rw [getElem?_set_self (by rw [h.counts]; exact hlt)] at hc
            rw [← Option.some.inj hc]
            exact ⟨fun h => absurd h (Nat.succ_ne_zero _), fun h => absurd (.inr ⟨rfl, rfl⟩) (h place)⟩
          · rw [getElem?_set_ne (Ne.symm hne)] at hc
            rw [h.count param c hc]
            exact forall_congr' fun n => not_congr (hother param n hne)

/-- A fold over reads, if each step adds its own. -/
theorem fold_tallied {α : Type} {step : Tally → α → Option Tally} {R : α → Nat → Nat → Prop}
    (hstep : ∀ P tally tally' a, Tallied params P tally → step tally a = some tally' →
      Tallied params (fun param n => P param n ∨ R a param n) tally') (l : List α) :
    ∀ {P tally}, Tallied params P tally → l.foldlM step tally = some tally' →
      Tallied params (fun param n => P param n ∨ ∃ a ∈ l, R a param n) tally' := by
  induction l with
  | nil =>
    intro P tally h hfold
    cases hfold
    exact h.congr fun param n => by simp
  | cons a l ih =>
    intro P tally h hfold
    rw [foldlM_cons] at hfold
    obtain ⟨next, hnext, hfold⟩ := Option.bind_eq_some_iff.mp hfold
    refine (ih (hstep _ _ _ _ h hnext) hfold).congr fun param n => ?_
    simp only [mem_cons, exists_eq_or_imp, or_assoc]

theorem readNode_tallied {node : Node × Nat} (h : Tallied params P tally) (hread : readNode trace tally node = some tally') :
    Tallied params (fun param n => P param n ∨ ∃ id ∈ node.1.op.inputs, weightOf trace id = some param ∧ n = node.2) tally' :=
  @fold_tallied params _ _ (readOperand trace node.2) (fun id param n => weightOf trace id = some param ∧ n = node.2)
    (fun _ _ _ _ h => readOperand_tallied h) node.1.op.inputs _ _ h hread

theorem nodes_tallied (hfold : trace.nodes.zipIdx.foldlM (readNode trace) ⟨replicate params none, replicate params 0⟩ = some tally) :
    Tallied params (ReadAt trace) tally := by
  have hstart : Tallied params (fun _ _ => False) ⟨replicate params none, replicate params 0⟩ := by
    refine ⟨length_replicate, length_replicate, fun _ _ => False.elim, fun param had hhad => ?_, fun param count hcount => ?_⟩
    · obtain rfl := eq_of_mem_replicate (mem_of_getElem? hhad)
      exact fun _ => id
    · obtain rfl := eq_of_mem_replicate (mem_of_getElem? hcount)
      exact ⟨fun _ _ => id, fun _ => rfl⟩
  refine (@fold_tallied params _ _ (readNode trace)
    (fun node param n => ∃ id ∈ node.1.op.inputs, weightOf trace id = some param ∧ n = node.2)
    (fun _ _ _ _ h => readNode_tallied h) _ _ _ hstart hfold).congr fun param n => ?_
  rw [false_or]
  constructor
  · rintro ⟨⟨node, place⟩, hmem, id, hid, hweight, rfl⟩
    exact ⟨node, mk_mem_zipIdx_iff_getElem?.mp hmem, id, hid, hweight⟩
  · rintro ⟨node, hnode, id, hid, hweight⟩
    exact ⟨(node, n), mk_mem_zipIdx_iff_getElem?.mpr hnode, id, hid, hweight, rfl⟩

/-! ## Rows -/

/-- The row says when its parameter is read. -/
structure RowRight (trace : Trace) (row : Reads) : Prop where
  unread : row.unread = true → row.start = 0 ∧ ∀ n, ¬ReadAt trace row.param n
  read : row.unread = false → SpanOf (ReadAt trace row.param) (some (row.start, row.stop))

/-- Every parameter has a row, and it is right. -/
structure ScheduleRight (trace : Trace) (schedule : Schedule) : Prop where
  nodup : (schedule.reads.map (·.param)).Nodup
  rows : ∀ row ∈ schedule.reads, RowRight trace row
  readOf : ∀ param row, schedule.readOf param = some row → row ∈ schedule.reads ∧ row.param = param

theorem RowRight.lt {row : Reads} (h : RowRight trace row) (hread : row.unread = false) : row.start < row.stop := by
  obtain ⟨hstart, -, hall⟩ := h.read hread
  exact (hall _ hstart).2

/-- Places of rows by their parameters, which differ. -/
theorem getElem?_places {f : Nat → Nat} {q v : Nat} : ∀ {rows : List Reads} {k : Nat} {places : TreeMap Nat Nat},
    (rows.map (·.param)).Nodup →
    (((rows.zipIdx k).foldl (fun places row => places.insert row.1.param (f row.2)) places)[q]? = some v
      ↔ (∃ i row, rows[i]? = some row ∧ row.param = q ∧ v = f (k + i))
        ∨ ((∀ row ∈ rows, row.param ≠ q) ∧ places[q]? = some v)) := by
  intro rows
  induction rows with
  | nil => exact fun _ => ⟨fun h => .inr ⟨nofun, h⟩, fun h => h.elim nofun And.right⟩
  | cons row rows ih =>
    intro k places hnodup
    rw [map_cons, nodup_cons] at hnodup
    rw [zipIdx_cons, foldl_cons, ih hnodup.2]
    constructor
    · rintro (⟨i, other, hother, hq, hv⟩ | ⟨hne, hget⟩)
      · exact .inl ⟨i + 1, other, hother, hq, by rw [hv, add_right_comm, add_assoc]⟩
      · by_cases hq : row.param = q
        · subst hq
          rw [Lib.Maps.getElem?_insert_self] at hget
          exact .inl ⟨0, row, rfl, rfl, (Option.some.inj hget).symm⟩
        · rw [Lib.Maps.getElem?_insert_ne hq] at hget
          exact .inr ⟨forall_mem_cons.mpr ⟨hq, hne⟩, hget⟩
    · rintro (⟨i, other, hother, hq, hv⟩ | ⟨hne, hget⟩)
      · cases i with
        | zero =>
          cases hother
          refine .inr ⟨fun other hmem heq => hnodup.1 ?_, ?_⟩
          · rw [hq, ← heq]
            exact mem_map_of_mem hmem
          · rw [← hq, Lib.Maps.getElem?_insert_self, hv, add_zero]
        | succ i => exact .inl ⟨i, other, hother, hq, by rw [hv, add_assoc, add_comm 1]⟩
      · rw [forall_mem_cons] at hne
        exact .inr ⟨hne.2, by rwa [Lib.Maps.getElem?_insert_ne hne.1]⟩

theorem sortRows_perm (rows : List Reads) : (sortRows rows).Perm rows := perm_insertionSort _ rows

theorem sortRows_sorted (rows : List Reads) : (sortRows rows).Pairwise fun a b => a.key ≤ b.key := by
  have : Std.Total fun a b : Reads => a.key ≤ b.key := ⟨fun a b => le_total a.key b.key⟩
  have : IsTrans Reads fun a b => a.key ≤ b.key := ⟨fun _ _ _ h h' => h.trans h'⟩
  exact pairwise_insertionSort _ rows

theorem key_le {a b : Reads} (h : a.key ≤ b.key) (hb : b.unread = false) : a.unread = false ∧ a.start ≤ b.start := by
  rcases (Prod.Lex.le_iff).mp h with hlt | ⟨heq, hle⟩
  · have hlt : a.unread < b.unread := hlt
    rw [hb] at hlt
    exact absurd hlt (by cases a.unread <;> decide)
  · refine ⟨heq.trans hb, ?_⟩
    rcases (Prod.Lex.le_iff).mp hle with hlt | ⟨heq, -⟩
    · exact Nat.le_of_lt hlt
    · exact heq.le

/-- **A schedule is right.** -/
theorem build_right {schedule : Schedule} (hbuild : build params trace = some schedule) : ScheduleRight trace schedule := by
  obtain ⟨tally, hfold, hbuild⟩ := Option.bind_eq_some_iff.mp hbuild
  cases hbuild
  have htally := nodes_tallied hfold
  have hnodup : ((sortRows ((range params).map fun param =>
      Reads.mk param ((tally.span.getD param none).getD (0, 0)).1 ((tally.span.getD param none).getD (0, 0)).2
        (tally.reads.getD param 0))).map (·.param)).Nodup := by
    rw [((sortRows_perm _).map _).nodup_iff, map_map]
    exact nodup_range.map_on (fun _ _ _ _ h => h)
  refine ⟨hnodup, fun row hrow => ?_, fun param row hrow => ?_⟩
  · obtain ⟨param, hparam, rfl⟩ := mem_map.mp ((sortRows_perm _).mem_iff.mp hrow)
    have hlt := mem_range.mp hparam
    have hspan : tally.span[param]? = some (tally.span.getD param none) := by
      rw [getD_eq_getElem?_getD, getElem?_eq_getElem (by rw [htally.spans]; exact hlt)]
      rfl
    have hcount : tally.reads[param]? = some (tally.reads.getD param 0) := by
      rw [getD_eq_getElem?_getD, getElem?_eq_getElem (by rw [htally.counts]; exact hlt)]
      rfl
    have hright := htally.span param _ hspan
    have hunread := htally.count param _ hcount
    cases hhad : tally.span.getD param none with
    | none =>
      rw [hhad] at hright
      refine ⟨fun _ => ⟨rfl, hright⟩, fun h => ?_⟩
      exact absurd (hunread.mpr hright) (of_decide_eq_false h)
    | some span =>
      rw [hhad] at hright
      refine ⟨fun h => ?_, fun _ => hright⟩
      exact absurd hright.1 (hunread.mp (of_decide_eq_true h) _)
  · obtain ⟨place, hplace, hget⟩ := Option.bind_eq_some_iff.mp hrow
    refine ⟨mem_of_getElem? hget, ?_⟩
    rcases (@getElem?_places id param place _ 0 ∅ hnodup).mp hplace with ⟨i, other, hother, hparam, hv⟩ | ⟨-, hempty⟩
    · rw [id, zero_add] at hv
      subst hv
      rwa [← Option.some.inj (hget.symm.trans hother)] at hparam
    · rw [TreeMap.getElem?_emptyc] at hempty
      cases hempty

/-! ## The queue -/

/-- Rows in the order of their first reads. -/
structure Queued (trace : Trace) (queue : List Reads) : Prop where
  nodup : (queue.map (·.param)).Nodup
  rows : ∀ row ∈ queue, RowRight trace row
  sorted : queue.Pairwise fun a b => a.key ≤ b.key

section Queue

variable {queue : List Reads} {a b row : Reads} {i j k slots : Nat}

theorem queue_right {schedule : Schedule} (h : ScheduleRight trace schedule) {spilled : List Nat} (hspilled : spilled.Nodup) :
    Queued trace (schedule.queue spilled) := by
  have hperm := sortRows_perm (spilled.filterMap schedule.readOf)
  refine ⟨?_, fun row hrow => ?_, sortRows_sorted _⟩
  · unfold queue
    rw [(hperm.map _).nodup_iff, map_filterMap]
    refine hspilled.filterMap fun param param' q hparam hparam' => ?_
    obtain ⟨row, hrow, rfl⟩ := Option.map_eq_some_iff.mp hparam
    obtain ⟨row', hrow', heq⟩ := Option.map_eq_some_iff.mp hparam'
    rw [← (h.readOf param row hrow).2, ← (h.readOf param' row' hrow').2, heq]
  · obtain ⟨param, -, hget⟩ := mem_filterMap.mp (hperm.mem_iff.mp hrow)
    exact h.rows row (h.readOf param row hget).1

theorem Queued.before (h : Queued trace queue) (hij : i ≤ j) (ha : queue[i]? = some a) (hb : queue[j]? = some b)
    (hread : b.unread = false) : a.unread = false ∧ a.start ≤ b.start := by
  rcases eq_or_lt_of_le hij with rfl | hlt
  · cases ha.symm.trans hb
    exact ⟨hread, le_rfl⟩
  · obtain ⟨hi, rfl⟩ := List.getElem?_eq_some_iff.mp ha
    obtain ⟨hj, rfl⟩ := List.getElem?_eq_some_iff.mp hb
    exact key_le (pairwise_iff_getElem.mp h.sorted i j hi hj hlt) hread

theorem length_filter_le {α : Type} {p : α → Bool} : ∀ {l : List α} {k : Nat},
    (∀ (i j : Nat) (x y : α), i ≤ j → l[i]? = some x → l[j]? = some y → p y = true → p x = true) →
    ((l.filter p).length ≤ k ↔ ∀ x, l[k]? = some x → p x = false) := by
  intro l
  induction l with
  | nil => exact fun _ => ⟨fun _ => nofun, fun _ => Nat.zero_le _⟩
  | cons x l ih =>
    intro k hfront
    have htail : ∀ (i j : Nat) (y z : α), i ≤ j → l[i]? = some y → l[j]? = some z → p z = true → p y = true :=
      fun i j y z hij hy hz => hfront (i + 1) (j + 1) y z (Nat.succ_le_succ hij) hy hz
    cases hx : p x with
    | true =>
      rw [filter_cons_of_pos hx, length_cons]
      cases k with
      | zero => exact ⟨fun h => absurd h (Nat.not_succ_le_zero _), fun h => absurd ((h x rfl).symm.trans hx) Bool.false_ne_true⟩
      | succ k => exact Nat.succ_le_succ_iff.trans (ih htail)
    | false =>
      have hnone : l.filter p = [] := filter_eq_nil_iff.mpr fun y hy hpy => by
        obtain ⟨i, hi⟩ := mem_iff_getElem?.mp hy
        exact absurd ((hfront 0 (i + 1) x y (Nat.zero_le _) rfl hi hpy).symm.trans hx) Bool.noConfusion
      rw [filter_cons_of_neg (by rw [hx]; exact Bool.false_ne_true), hnone]
      refine ⟨fun _ y hy => ?_, fun _ => Nat.zero_le k⟩
      cases hpy : p y with
      | false => rfl
      | true => exact absurd ((hfront 0 k x y (Nat.zero_le _) rfl hy hpy).symm.trans hx) Bool.noConfusion

theorem Queued.crowd_le (h : Queued trace queue) :
    crowd queue a ≤ k ↔ ∀ b, queue[k]? = some b → b.unread = false → a.stop ≤ b.start := by
  unfold crowd
  rw [length_filter_le]
  · refine forall_congr' fun b => imp_congr_right fun _ => ?_
    cases b.unread <;> simp
  · intro i j x y hij hx hy hp
    rw [Bool.and_eq_true, Bool.not_eq_true', decide_eq_true_eq] at hp ⊢
    obtain ⟨hread, hle⟩ := h.before hij hx hy hp.1
    exact ⟨hread, hle.trans_lt hp.2⟩

theorem mem_rounds : (a, b) ∈ queue.zip (queue.drop slots) ↔ ∃ i, queue[i]? = some a ∧ queue[i + slots]? = some b := by
  rw [mem_iff_getElem?]
  refine exists_congr fun i => ?_
  rw [getElem?_zip_eq_some, getElem?_drop, add_comm slots]

theorem conflict_eq_none : conflict slots queue = none
    ↔ ∀ i a b, queue[i]? = some a → queue[i + slots]? = some b → a.unread = false → a.stop ≤ b.start := by
  unfold conflict
  rw [find?_eq_none]
  constructor
  · intro h i a b ha hb hread
    have := h (a, b) (mem_rounds.mpr ⟨i, ha, hb⟩)
    simpa [hread] using this
  · rintro h ⟨a, b⟩ hab
    obtain ⟨i, ha, hb⟩ := mem_rounds.mp hab
    have := h i a b ha hb
    cases hread : a.unread with
    | true => simp [hread]
    | false => simpa [hread] using this hread

theorem conflict_eq_some (h : conflict slots queue = some (a, b)) :
    ∃ i, queue[i]? = some a ∧ queue[i + slots]? = some b ∧ a.unread = false ∧ b.start < a.stop
      ∧ ∀ j < i, ∀ c d, queue[j]? = some c → queue[j + slots]? = some d → c.unread = false → c.stop ≤ d.start := by
  unfold conflict at h
  obtain ⟨hp, i, hi, hget, hfirst⟩ := find?_eq_some_iff_getElem.mp h
  have hzip : (queue.zip (queue.drop slots))[i]? = some (a, b) := List.getElem?_eq_some_iff.mpr ⟨hi, hget⟩
  rw [getElem?_zip_eq_some, getElem?_drop, add_comm slots] at hzip
  rw [Bool.and_eq_true, Bool.not_eq_true', decide_eq_true_eq] at hp
  refine ⟨i, hzip.1, hzip.2, hp.1, hp.2, fun j hj c d hc hd hread => ?_⟩
  have hjzip : (queue.zip (queue.drop slots))[j]? = some (c, d) := by
    rw [getElem?_zip_eq_some, getElem?_drop, add_comm slots]
    exact ⟨hc, hd⟩
  obtain ⟨hj', hget'⟩ := List.getElem?_eq_some_iff.mp hjzip
  have := hfirst j hj
  rw [hget'] at this
  simpa [hread] using this

/-! ## Slots that serve -/

/-- So many slots serve the queue: nothing of it is read, or each row has a slot of its own, or all of it is read and
no more than the slots are read between a tenant and its last read. -/
def Fits (queue : List Reads) (slots : Nat) : Prop :=
  (∀ row ∈ queue, row.unread = true) ∨ queue.length ≤ slots
    ∨ ((∀ row ∈ queue, row.unread = false) ∧ ∀ i row, queue[i]? = some row → Schedule.crowd queue row ≤ i + slots)

/-- Where a row that is read and one that is not are in the queue, some read tenant has a successor that is not. -/
theorem Queued.last_round (h : Queued trace queue) (hslots : 0 < slots) (hlen : slots < queue.length)
    (hread : ∃ row ∈ queue, row.unread = false) (hunread : ∃ row ∈ queue, row.unread = true) :
    ∃ i a b, queue[i]? = some a ∧ queue[i + slots]? = some b ∧ a.unread = false ∧ b.unread = true := by
  by_contra hnone
  obtain ⟨row, hrow, hr⟩ := hread
  obtain ⟨row', hrow', hr'⟩ := hunread
  obtain ⟨i, hi⟩ := mem_iff_getElem?.mp hrow
  obtain ⟨j, hj⟩ := mem_iff_getElem?.mp hrow'
  -- a row is read if the one a round before it is
  have hstep : ∀ i a b, queue[i]? = some a → queue[i + slots]? = some b → a.unread = false → b.unread = false := by
    intro i a b ha hb hread
    cases hb' : b.unread with
    | false => rfl
    | true => exact absurd ⟨i, a, b, ha, hb, hread, hb'⟩ hnone
  have hall : ∀ (k : Nat) (b : Reads), queue[k]? = some b → b.unread = false := by
    intro k
    induction k using Nat.strongRecOn with
    | ind k ih =>
      intro b hb
      rcases lt_or_ge k slots with hk | hk
      · have h0 : queue[0]? = some queue[0] := getElem?_eq_getElem (by omega)
        have hround : queue[0 + slots]? = some queue[slots] := by
          rw [zero_add]
          exact getElem?_eq_getElem hlen
        have hfirst := (h.before (Nat.zero_le i) h0 hi hr).1
        have hslot := hstep 0 _ _ h0 hround hfirst
        rw [zero_add] at hround
        exact (h.before hk.le hb hround hslot).1
      · obtain ⟨k, rfl⟩ := Nat.exists_eq_add_of_le' hk
        have hlt : k < queue.length := by
          have := (List.getElem?_eq_some_iff.mp hb).1
          omega
        have hprev : queue[k]? = some queue[k] := getElem?_eq_getElem hlt
        exact hstep k _ b hprev hb (ih k (by omega) _ hprev)
  exact absurd ((hall j row' hj).symm.trans hr') Bool.noConfusion

/-- **Slots serve exactly where no round has a conflict.** -/
theorem Queued.fits_iff (h : Queued trace queue) (hslots : 0 < slots) : conflict slots queue = none ↔ Fits queue slots := by
  rw [conflict_eq_none]
  constructor
  · intro hnone
    by_cases hread : ∃ row ∈ queue, row.unread = false
    · by_cases hunread : ∃ row ∈ queue, row.unread = true
      · refine .inr (.inl (Nat.not_lt.mp fun hlen => ?_))
        obtain ⟨i, a, b, ha, hb, hra, hub⟩ := h.last_round hslots hlen hread hunread
        have hle := hnone i a b ha hb hra
        have hlt := (h.rows a (mem_of_getElem? ha)).lt hra
        have hzero := ((h.rows b (mem_of_getElem? hb)).unread hub).1
        omega
      · refine .inr (.inr ⟨fun row hrow => ?_, fun i row hi => ?_⟩)
        · cases hu : row.unread with
          | false => rfl
          | true => exact absurd ⟨row, hrow, hu⟩ hunread
        · refine h.crowd_le.mpr fun b hb _ => ?_
          refine hnone i row b hi hb ?_
          cases hu : row.unread with
          | false => rfl
          | true => exact absurd ⟨row, mem_of_getElem? hi, hu⟩ hunread
    · refine .inl fun row hrow => ?_
      cases hu : row.unread with
      | true => rfl
      | false => exact absurd ⟨row, hrow, hu⟩ hread
  · rintro (hall | hlen | ⟨hall, hcrowd⟩) i a b ha hb hread
    · exact absurd (hread.symm.trans (hall a (mem_of_getElem? ha))) Bool.noConfusion
    · have := (List.getElem?_eq_some_iff.mp hb).1
      omega
    · exact h.crowd_le.mp (hcrowd i a ha) b hb (hall b (mem_of_getElem? hb))

/-- Tenants of one slot follow each other: from one to the next of any later round. -/
theorem Queued.chain (h : Queued trace queue) (hnone : conflict slots queue = none) (ha : queue[i]? = some a)
    (hb : queue[i + (k + 1) * slots]? = some b) (hread : b.unread = false) : a.stop ≤ b.start := by
  rw [conflict_eq_none] at hnone
  induction k generalizing i a with
  | zero =>
    rw [zero_add, one_mul] at hb
    exact hnone i a b ha hb (h.before (Nat.le_add_right _ _) ha hb hread).1
  | succ k ih =>
    have hend : i + (k + 1 + 1) * slots = i + slots + (k + 1) * slots := by ring
    rw [hend] at hb
    have hlt : i + slots < queue.length := (Nat.le_add_right _ _).trans_lt (List.getElem?_eq_some_iff.mp hb).1
    have hnext : queue[i + slots]? = some queue[i + slots] := getElem?_eq_getElem hlt
    have hreadnext := (h.before (Nat.le_add_right _ _) hnext hb hread).1
    have hreada := (h.before (Nat.le_add_right _ _) ha hnext hreadnext).1
    have hle := hnone i a _ ha hnext hreada
    exact hle.trans (((h.rows _ (mem_of_getElem? hnext)).lt hreadnext).le.trans (ih hnext hb))

end Queue

/-! ## Slotting -/

/-- Of two parameters that the trace reads in one slot, the earlier in order is read for the last time before the later is
read at all. -/
def Safe (trace : Trace) (slotting : Slotting) : Prop :=
  ∀ i j p q : Nat, i < j → slotting.order[i]? = some p → slotting.order[j]? = some q → slotting.slotOf p = slotting.slotOf q →
    ∀ n n' : Nat, ReadAt trace p n → ReadAt trace q n' → n < n'

/-- A slotting is safe, and a refusal names a count of slots that serves. -/
def Right (trace : Trace) (schedule : Schedule) (spilled : List Nat) (slots : Nat) : Prop :=
  (∀ slotting, schedule.slotting spilled slots = .ok slotting → Safe trace slotting)
    ∧ ∀ overlap, schedule.slotting spilled slots = .error overlap → ∃ slotting, schedule.slotting spilled overlap.want = .ok slotting

/-- Weight rows are 32-bit words. -/
def Words (trace : Trace) : Prop := ∀ id row, weightOf trace id = some row → row < 2 ^ 32

section Slotting

variable {schedule : Schedule} {spilled : List Nat} {slots : Nat} {queue : List Reads}

theorem slotting_ok_iff (hslots : slots ≠ 0) :
    (∃ slotting, schedule.slotting spilled slots = .ok slotting) ↔ conflict slots (schedule.queue spilled) = none := by
  unfold slotting
  rw [if_neg hslots]
  dsimp only
  cases conflict slots (schedule.queue spilled) with
  | none => exact ⟨fun _ => rfl, fun _ => ⟨_, rfl⟩⟩
  | some pair => exact ⟨fun ⟨_, h⟩ => (nomatch h), nofun⟩

theorem Queued.place_lt (h : Queued trace queue) (hwords : Words trace) {i : Nat} {row : Reads} (hrow : queue[i]? = some row)
    (hread : row.unread = false) : i < 2 ^ 32 := by
  have hparams : ∀ k < i + 1, ∀ b, queue[k]? = some b → b.param < 2 ^ 32 := by
    intro k hk b hb
    have hread' := (h.before (Nat.le_of_lt_succ hk) hb hrow hread).1
    obtain ⟨⟨node, _, id, _, hweight⟩, -⟩ := (h.rows b (mem_of_getElem? hb)).read hread'
    exact hwords id b.param hweight
  have hlt := (List.getElem?_eq_some_iff.mp hrow).1
  have hsub : ((queue.take (i + 1)).map (·.param)) ⊆ range (2 ^ 32) := by
    intro q hq
    obtain ⟨b, hb, rfl⟩ := mem_map.mp hq
    obtain ⟨k, hk⟩ := mem_iff_getElem?.mp hb
    rw [getElem?_take] at hk
    split at hk
    · next hki => exact mem_range.mpr (hparams k hki b hk)
    · cases hk
  have hnodup : ((queue.take (i + 1)).map (·.param)).Nodup := (h.nodup).sublist ((take_sublist _ _).map _)
  have hcount := (hnodup.subperm hsub).length_le
  rw [length_map, length_take, length_range] at hcount
  omega

/-- **A slotting is safe.** -/
theorem slotting_safe (h : Queued trace (schedule.queue spilled)) (hwords : Words trace) {slotting : Slotting}
    (hok : schedule.slotting spilled slots = .ok slotting) : Safe trace slotting := by
  have hslots : slots ≠ 0 := by
    rintro rfl
    cases hok
  have hnone := (slotting_ok_iff hslots).mp ⟨slotting, hok⟩
  unfold Schedule.slotting at hok
  rw [if_neg hslots] at hok
  dsimp only at hok
  rw [hnone] at hok
  cases hok
  intro i j p q hij hp hq hslot n n' hn hn'
  dsimp only at hp hq
  rw [getElem?_map] at hp hq
  obtain ⟨a, ha, rfl⟩ := Option.map_eq_some_iff.mp hp
  obtain ⟨b, hb, rfl⟩ := Option.map_eq_some_iff.mp hq
  have hright := h.rows a (mem_of_getElem? ha)
  have hright' := h.rows b (mem_of_getElem? hb)
  have hreada : a.unread = false := by
    cases hu : a.unread with
    | false => rfl
    | true => exact absurd hn ((hright.unread hu).2 n)
  have hreadb : b.unread = false := by
    cases hu : b.unread with
    | false => rfl
    | true => exact absurd hn' ((hright'.unread hu).2 n')
  have hplace : ∀ {k : Nat} {c : Reads}, (schedule.queue spilled)[k]? = some c → c.unread = false →
      ((schedule.queue spilled).zipIdx.foldl (fun (places : TreeMap Nat Nat) row =>
        places.insert row.1.param (row.2 % 2 ^ 32 % slots)) ∅)[c.param]?
        = some (k % slots) := by
    intro k c hc hread
    refine (@getElem?_places (fun place => place % 2 ^ 32 % slots) c.param _ _ 0 ∅ h.nodup).mpr (.inl ⟨k, c, hc, rfl, ?_⟩)
    rw [zero_add, Nat.mod_eq_of_lt (h.place_lt hwords hc hread)]
  have hslot' : i % slots = j % slots := Option.some.inj ((hplace ha hreada).symm.trans (hslot.trans (hplace hb hreadb)))
  obtain ⟨k, hk⟩ : ∃ k, j = i + (k + 1) * slots := by
    obtain ⟨k, hk⟩ := (Nat.modEq_iff_dvd' hij.le).mp hslot'
    cases k with
    | zero => omega
    | succ k => exact ⟨k, by rw [mul_comm]; omega⟩
  subst hk
  have hle := h.chain hnone ha hb hreadb
  have hbefore := (hright.read hreada).2.2 n hn
  have hafter := (hright'.read hreadb).2.2 n' hn'
  omega

/-- The slots serve (one of them, where there are none); or all of the queue is read, and no tenant lives through more than
the first one does that the slots do not serve. -/
def Kept (queue : List Reads) (slots : Nat) : Prop :=
  Fits queue (max slots 1) ∨ (0 < slots ∧ (∀ row ∈ queue, row.unread = false)
    ∧ ∃ i evicted, queue[i]? = some evicted ∧ i + slots < Schedule.crowd queue evicted
      ∧ (∀ j < i, ∀ row, queue[j]? = some row → Schedule.crowd queue row ≤ j + slots)
      ∧ ∀ j row, queue[j]? = some row → Schedule.crowd queue row ≤ j + min (Schedule.crowd queue evicted) wordMax)

theorem crowd_pos {a : Reads} (h : Queued trace queue) (ha : a ∈ queue) (hread : a.unread = false) :
    0 < min (crowd queue a) wordMax := by
  have hmem : a ∈ queue.filter fun other => !other.unread && decide (other.start < a.stop) := by
    refine mem_filter.mpr ⟨ha, ?_⟩
    rw [hread, decide_eq_true ((h.rows a ha).lt hread)]
    rfl
  have hpos := length_pos_of_mem hmem
  exact Nat.lt_min.mpr ⟨hpos, by decide⟩

/-- What the count of the first conflict serves. -/
theorem Queued.fits_want (h : Queued trace queue) {a : Reads} (ha : a ∈ queue) (hread : a.unread = false) :
    Fits queue (min (crowd queue a) wordMax) ↔ (∀ row ∈ queue, row.unread = false)
      ∧ ∀ j row, queue[j]? = some row → crowd queue row ≤ j + min (crowd queue a) wordMax := by
  constructor
  · rintro (hall | hlen | hfits)
    · exact absurd (hread.symm.trans (hall a ha)) Bool.noConfusion
    · -- all rows are in the crowd of this one
      have hle : queue.length ≤ crowd queue a := hlen.trans (min_le_left _ _)
      have hsub : (queue.filter fun other => !other.unread && decide (other.start < a.stop)).Sublist queue := filter_sublist
      have hfilter := hsub.eq_of_length_le hle
      refine ⟨fun row hrow => ?_, fun j row _ => ?_⟩
      · rw [← hfilter] at hrow
        have := (mem_filter.mp hrow).2
        rw [Bool.and_eq_true, Bool.not_eq_true'] at this
        exact this.1
      · exact ((List.length_filter_le _ _).trans hlen).trans (Nat.le_add_left _ _)
    · exact hfits
  · exact fun h => .inr (.inr h)

/-- **Slotting is right exactly where the count of the first conflict is the largest.** -/
theorem slotting_right_iff (hbuild : Schedule.build params trace = some schedule) (hwords : Words trace) (hspilled : spilled.Nodup) :
    Right trace schedule spilled slots ↔ Kept (schedule.queue spilled) slots := by
  have hqueue := queue_right (build_right hbuild) hspilled
  unfold Right
  rw [and_iff_right fun slotting => slotting_safe hqueue hwords]
  rcases Nat.eq_zero_or_pos slots with rfl | hpos
  · -- no slots: one is promised
    have hone : (∃ slotting, schedule.slotting spilled 1 = .ok slotting) ↔ Fits (schedule.queue spilled) 1 :=
      (slotting_ok_iff Nat.one_ne_zero).trans (hqueue.fits_iff Nat.one_pos)
    constructor
    · intro h
      exact .inl (hone.mp (h _ rfl))
    · rintro (h | ⟨h, -⟩) overlap hrefused
      · cases hrefused
        exact hone.mpr h
      · exact absurd h (Nat.lt_irrefl 0)
  · have hmax : max slots 1 = slots := max_eq_left hpos
    unfold Kept
    rw [hmax, and_iff_right hpos]
    cases hconflict : Schedule.conflict slots (schedule.queue spilled) with
    | none =>
      obtain ⟨slotting, hok⟩ := (@slotting_ok_iff schedule spilled slots hpos.ne').mpr hconflict
      refine ⟨fun _ => .inl ((hqueue.fits_iff hpos).mp hconflict), fun _ overlap hrefused => ?_⟩
      rw [hok] at hrefused
      cases hrefused
    | some pair =>
      obtain ⟨a, b⟩ := pair
      obtain ⟨i, ha, hb, hread, hlt, hfirst⟩ := conflict_eq_some hconflict
      have hmem := mem_of_getElem? ha
      have hwant := crowd_pos hqueue hmem hread
      have hserves := (@slotting_ok_iff schedule spilled _ hwant.ne').trans ((hqueue.fits_iff hwant).trans (hqueue.fits_want hmem hread))
      have hrefused : ∀ overlap, schedule.slotting spilled slots = .error overlap ↔ overlap
          = ⟨slots, min (Schedule.crowd (schedule.queue spilled) a) wordMax, a.param, b.param, (a.start, a.stop), b.start⟩ := by
        intro overlap
        unfold Schedule.slotting
        rw [if_neg hpos.ne']
        dsimp only
        rw [hconflict]
        exact ⟨fun h => (Except.error.inj h).symm, fun h => congrArg _ h.symm⟩
      have hnot : ¬Fits (schedule.queue spilled) slots := fun h => by
        rw [(hqueue.fits_iff hpos).mpr h] at hconflict
        cases hconflict
      rw [or_iff_right hnot]
      simp only [hrefused, forall_eq]
      rw [hserves]
      refine and_congr_right fun hall => ?_
      have hnext : ∀ {j : Nat} {c : Reads}, (schedule.queue spilled)[j]? = some c → (Schedule.crowd (schedule.queue spilled) c ≤ j + slots
          ↔ ∀ d, (schedule.queue spilled)[j + slots]? = some d → c.stop ≤ d.start) := fun {j c} hc => by
        rw [hqueue.crowd_le]
        exact forall_congr' fun d => imp_congr_right fun hd => imp_iff_right (hall d (mem_of_getElem? hd))
      constructor
      · intro h
        refine ⟨i, a, ha, Nat.not_le.mp fun hle => ?_, fun j hj row hrow => ?_, h⟩
        · exact Nat.not_le.mpr hlt ((hnext ha).mp hle b hb)
        · exact (hnext hrow).mpr fun d hd => hfirst j hj row d hrow hd (hall row (mem_of_getElem? hrow))
      · rintro ⟨k, evicted, hk, hcrowd, hbefore, h⟩
        -- the first that is not served is the one of the conflict
        obtain rfl : k = i := by
          rcases Nat.lt_trichotomy k i with hki | hki | hki
          · refine absurd ((hnext hk).mpr fun d hd => ?_) (Nat.not_le.mpr hcrowd)
            exact hfirst k hki evicted d hk hd (hall evicted (mem_of_getElem? hk))
          · exact hki
          · exact absurd ((hnext ha).mp (hbefore i hki a ha) b hb) (Nat.not_le.mpr hlt)
        cases hk.symm.trans ha
        exact h

end Slotting

/-- A trace that reads weights and does nothing else. -/
def readsOf (nodes : List (List ValueId)) (weights : Nat) : Trace where
  caches := []
  values := (List.range weights).map fun row => ⟨.weight row, .tensor [] .f32⟩
  nodes := nodes.map fun inputs => ⟨⟨.linear, "read", inputs, [], []⟩, .always⟩
  seams := []

/-- Four weights, of which the second is read until the fourth comes. -/
def longLived : Trace := readsOf [[0], [0, 1], [2], [1, 3]] 4

theorem words_longLived : Words longLived := by
  intro id row h
  have hvalues : longLived.values = (range 4).map fun row => ⟨.weight row, .tensor [] .f32⟩ := rfl
  unfold weightOf Trace.defn at h
  rw [hvalues, getElem?_map] at h
  cases hrow : (range 4)[id]? with
  | none =>
    rw [hrow] at h
    cases h
  | some place =>
    rw [hrow] at h
    cases h
    exact (mem_range.mp (mem_of_getElem? hrow)).trans (by decide)

theorem slotting_right_longLived : ∃ schedule, Schedule.build 4 longLived = some schedule
    ∧ (Right longLived schedule [0, 1, 2, 3] 3 ↔ Kept (schedule.queue [0, 1, 2, 3]) 3) :=
  ⟨_, rfl, @slotting_right_iff longLived 4 _ _ _ rfl words_longLived (by decide)⟩

/-- With one slot two are promised, and the second weight needs a third. -/
theorem slotting_promise_fails : ∃ schedule, Schedule.build 4 longLived = some schedule
    ∧ ¬Right longLived schedule [0, 1, 2, 3] 1 := by
  refine ⟨_, rfl, fun h => ?_⟩
  have hserves := h.2 ⟨1, 2, 0, 1, (0, 2), 1⟩ rfl
  have hnone := (slotting_ok_iff (Nat.succ_ne_zero 1)).mp hserves
  revert hnone
  decide

end Pie.Proof.Prefetch
