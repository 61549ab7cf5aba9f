import Pie.Proof.WakerSlots
import Pie.Waker.Wait

/-!
# No wake is lost

A registered waker is in its slot until somebody takes it, and who takes it wakes
it. While it is there, whatever made the check ready after it was loaded still
has its call to make, and that call takes the waker.
-/

namespace Pie.Proof.Wakers

open List Pie.Waker Lib.Systems Function WakerTable

variable {slot : WakerSlotId} {waker : Waker} {observed target : Nat} {table : WakerTable} {c : Call}

/-! ## The entry of a waiter -/

/-- The waker is in the slot, with the epoch that its poll observed. -/
def Entry (slot : WakerSlotId) (waker : Waker) (observed : Nat) (table : WakerTable) : Prop :=
  ∃ state, table.slots[(splitId slot).2]? = some state ∧ isLive state (splitId slot).1 = true
    ∧ state.waiterEpoch = some observed ∧ state.waker = some waker

/-- The calls of a writer that set the flag. -/
def Sweeps (slot : WakerSlotId) (c : Call) : Prop := c = .wake slot ∨ c = .free slot

/-- The calls of a writer that raised the counter past the target. -/
def Passes (slot : WakerSlotId) (target : Nat) (c : Call) : Prop :=
  ∃ v, target < v ∧ v < epochNone ∧ (c = .wakePast slot v ∨ c = .publish slot v)

theorem published_eq (table : WakerTable) (slot : WakerSlotId) : table.published slot
    = match table.slots[(splitId slot).2]? with
      | none => none
      | some state => if isLive state (splitId slot).1 then some state.publishedEpoch else none := rfl

theorem Entry.congr {table' : WakerTable} (h : Entry slot waker observed table)
    (hs : table'.slots[(splitId slot).2]? = table.slots[(splitId slot).2]?) : Entry slot waker observed table' := by
  unfold Entry
  rw [hs]
  exact h

theorem published_congr {table' : WakerTable}
    (hs : table'.slots[(splitId slot).2]? = table.slots[(splitId slot).2]?) :
    table'.published slot = table.published slot := by
  rw [published_eq, published_eq, hs]

theorem Entry.live (h : Entry slot waker observed table) : table.live slot = true := by
  obtain ⟨state, hs, hl, -⟩ := h
  rw [live_of hs, hl]

theorem Entry.register (hl : (table.register slot waker observed).2 = true) :
    Entry slot waker observed (table.register slot waker observed).1 := by
  unfold WakerTable.register at hl ⊢
  split at hl
  · cases hl
  · rename_i ho
    rw [if_neg ho]
    by_cases hlive : table.live slot = true
    · obtain ⟨state, hs, hstate⟩ := exists_of_live hlive
      rw [locked_live hs hstate]
      exact ⟨_, getElem?_set_self (List.getElem?_eq_some_iff.mp hs).1, hstate, rfl, rfl⟩
    · rw [locked_stale (Bool.not_eq_true _ ▸ hlive)] at hl
      cases hl

/-- A call with another identifier leaves a live slot alone. -/
theorem exec_other (hl : table.live slot = true) (hne : c.id ≠ slot) :
    (c.exec table).1.slots[(splitId slot).2]? = table.slots[(splitId slot).2]? := by
  by_cases hlive : table.live c.id = true
  swap
  · rw [exec_stale (Bool.not_eq_true _ ▸ hlive)]
  obtain ⟨state, hs, hstate⟩ := exists_of_live hl
  obtain ⟨state', hs', hstate'⟩ := exists_of_live hlive
  -- two live identifiers of one index have one generation
  have hi : (splitId c.id).2 ≠ (splitId slot).2 := by
    intro hi
    rw [hi, hs] at hs'
    cases hs'
    exact hne (splitId_inj (Prod.ext ((isLive_iff.mp hstate').2.2.symm.trans (isLive_iff.mp hstate).2.2) hi))
  by_cases hfree : ∃ id, c = .free id
  · obtain ⟨id, rfl⟩ := hfree
    have heq := exec_free (show table.slots[(splitId id).2]? = some state' from hs') hstate'
    rw [heq]
    exact getElem?_set_ne hi
  · have hkeeps : Keeps table c.id (c.exec table).1 := (exec_keeps fun id heq => hfree ⟨id, heq⟩).2
    rcases hkeeps with heq | ⟨-, state'', -, -, heq⟩
    · rw [heq]
    · rw [heq]
      exact getElem?_set_ne hi

variable {state : SlotState}

theorem takeWaker_of {ring : Option Nat} (he : state.waiterEpoch = some observed)
    (hw : state.waker = some waker) : state.takeWaker ring
      = if ring.any (· ≤ observed) then (state, .filtered, none)
        else ({ state with waiterEpoch := none, waker := none }, .woken, some waker) := by
  unfold SlotState.takeWaker
  rw [he, hw]

theorem publish_of (epoch : Nat) (he : state.waiterEpoch = some observed)
    (hw : state.waker = some waker) : state.publish epoch
      = if max state.publishedEpoch epoch ≤ observed then
          ({ state with publishedEpoch := max state.publishedEpoch epoch }, .filtered, none)
        else
          ({ state with publishedEpoch := max state.publishedEpoch epoch, waiterEpoch := none, waker := none },
            .woken, some waker) := by
  have htake : SlotState.takeWaker { state with publishedEpoch := max state.publishedEpoch epoch }
      (some (max state.publishedEpoch epoch)) = _ := takeWaker_of he hw
  unfold SlotState.publish
  dsimp only
  rw [htake]
  by_cases h : max state.publishedEpoch epoch ≤ observed
  · rw [if_pos h, if_pos (by simpa using h)]
  · rw [if_neg h, if_neg (by simpa using h)]

theorem exec_wakePast {ring : Nat} (hs : table.slots[(splitId slot).2]? = some state)
    (hl : isLive state (splitId slot).1 = true) (hr : ring ≠ epochNone) : (Call.wakePast slot ring).exec table
      = ({ table with slots := table.slots.set (splitId slot).2 (state.takeWaker (some ring)).1 },
        ⟨(state.takeWaker (some ring)).2.2, none⟩) := by
  show ((table.wakePast slot ring).1, After.mk (table.wakePast slot ring).2.2 none) = _
  unfold wakePast wakeImpl
  rw [if_neg hr, locked_live hs hl]

theorem exec_publish {epoch : Nat} (hs : table.slots[(splitId slot).2]? = some state)
    (hl : isLive state (splitId slot).1 = true) (hr : firstCompletionEpoch ≤ epoch ∧ epoch < epochNone) :
    (Call.publish slot epoch).exec table
      = ({ table with slots := table.slots.set (splitId slot).2 (state.publish epoch).1 },
        ⟨(state.publish epoch).2.2, none⟩) := by
  show ((table.publish slot epoch).1, After.mk (table.publish slot epoch).2.2 none) = _
  unfold publish
  rw [if_pos hr, locked_live hs hl]

theorem exec_wakePast_reserved : (Call.wakePast slot epochNone).exec table = (table, .nothing) := by
  show ((table.wakePast slot epochNone).1, After.mk (table.wakePast slot epochNone).2.2 none) = _
  unfold wakePast
  rw [if_pos rfl]
  rfl

theorem exec_publish_reserved {epoch : Nat} (hr : ¬(firstCompletionEpoch ≤ epoch ∧ epoch < epochNone)) :
    (Call.publish slot epoch).exec table = (table, .nothing) := by
  show ((table.publish slot epoch).1, After.mk (table.publish slot epoch).2.2 none) = _
  unfold publish
  rw [if_neg hr]
  rfl

/-- **What a call does to a waiter**: it takes the waker, or it is no call that a writer owes,
and nothing was published past the epoch of the waiter. -/
theorem exec_entry (h : Entry slot waker observed table) (ho : Outside slot c) :
    (c.id = slot ∧ (c.exec table).2.waker = some waker)
      ∨ (Entry slot waker observed (c.exec table).1
        ∧ (((c.exec table).1.published slot).getD 0 = (table.published slot).getD 0
            ∨ ((c.exec table).1.published slot).getD 0 ≤ observed)
        ∧ ¬Sweeps slot c ∧ ∀ target, observed ≤ target → ¬Passes slot target c) := by
  by_cases hid : c.id = slot
  swap
  · have hs := exec_other h.live hid
    refine .inr ⟨h.congr hs, .inl (by rw [published_congr hs]), ?_, ?_⟩
    · rintro (rfl | rfl) <;> exact hid rfl
    · rintro target - ⟨v, -, -, rfl | rfl⟩ <;> exact hid rfl
  obtain ⟨state, hs, hl, he, hw⟩ := h
  obtain ⟨hreg, hdereg⟩ := ho hid
  have hset : ∀ state' : SlotState, (table.slots.set (splitId slot).2 state')[(splitId slot).2]? = some state' :=
    fun state' => getElem?_set_self (List.getElem?_eq_some_iff.mp hs).1
  cases c with
  | free id =>
    obtain rfl : id = slot := hid
    refine .inl ⟨rfl, ?_⟩
    rw [exec_free hs hl]
    show state.release.2.1 = _
    unfold SlotState.release
    dsimp only
    split <;> exact hw
  | register id other epoch =>
    obtain rfl : id = slot := hid
    exact absurd rfl (hreg other epoch)
  | deregister id =>
    obtain rfl : id = slot := hid
    exact absurd rfl hdereg
  | wake id =>
    obtain rfl : id = slot := hid
    refine .inl ⟨rfl, ?_⟩
    show (table.wakeImpl id none).2.2 = _
    unfold wakeImpl
    rw [locked_live hs hl, takeWaker_of he hw]
    rfl
  | wakePast id ring =>
    obtain rfl : id = slot := hid
    have hsweeps : ¬Sweeps id (.wakePast id ring) := by rintro (h | h) <;> cases h
    by_cases hnone : ring = epochNone
    · -- the reserved epoch is no counter that a writer owes a call for
      subst hnone
      rw [exec_wakePast_reserved]
      refine .inr ⟨⟨state, hs, hl, he, hw⟩, .inl rfl, hsweeps, ?_⟩
      rintro target - ⟨v, -, hv, heq | heq⟩ <;> cases heq
      exact absurd hv (lt_irrefl _)
    · rw [exec_wakePast hs hl hnone, takeWaker_of he hw]
      by_cases hring : ring ≤ observed
      · rw [if_pos (by simpa using hring)]
        refine .inr ⟨⟨state, hset state, hl, he, hw⟩, .inl ?_, hsweeps, ?_⟩
        · rw [published_congr ((hset state).trans hs.symm)]
        · rintro target hle ⟨v, hv, -, heq | heq⟩ <;> cases heq
          omega
      · rw [if_neg (by simpa using hring)]
        exact .inl ⟨rfl, rfl⟩
  | publish id epoch =>
    obtain rfl : id = slot := hid
    have hsweeps : ¬Sweeps id (.publish id epoch) := by rintro (h | h) <;> cases h
    by_cases hnone : firstCompletionEpoch ≤ epoch ∧ epoch < epochNone
    swap
    · rw [exec_publish_reserved hnone]
      refine .inr ⟨⟨state, hs, hl, he, hw⟩, .inl rfl, hsweeps, ?_⟩
      rintro target - ⟨v, hpos, hv, heq | heq⟩ <;> cases heq
      exact hnone ⟨Nat.succ_le_of_lt (Nat.zero_lt_of_lt hpos), hv⟩
    · rw [exec_publish hs hl hnone, publish_of epoch he hw]
      by_cases hring : max state.publishedEpoch epoch ≤ observed
      · rw [if_pos hring]
        refine .inr ⟨⟨_, hset _, hl, he, hw⟩, .inr ?_, hsweeps, ?_⟩
        · rw [published_eq]
          dsimp only
          rw [hset]
          dsimp only
          rw [if_pos (by exact hl)]
          exact hring
        · rintro target hle ⟨v, hv, -, heq | heq⟩ <;> cases heq
          omega
      · rw [if_neg hring]
        exact .inl ⟨rfl, rfl⟩

/-- A thread makes a call, or it changes nothing that a waiter sees; then it may wake the waker that
it has taken, and it keeps its calls. -/
theorem step_cases {s s' : Sys} {woken : Option Waker} (h : s.Step (Outside slot) woken s') :
    (∃ t c calls, s.threads t = .busy none none (c :: calls) ∧ woken = none ∧ s' = s.call t c calls)
      ∨ ∃ t pc, s'.threads = update s.threads t pc ∧ (∀ c ∈ (s.threads t).calls, c ∈ pc.calls)
        ∧ (∀ c ∈ pc.calls, c ∈ (s.threads t).calls ∨ Outside slot c)
        ∧ (s.threads t).taken.map Prod.snd = woken
        ∧ (s.table.live slot = true → s'.table.slots[(splitId slot).2]? = s.table.slots[(splitId slot).2]?) := by
  cases h with
  | begin hidle hids =>
    rename_i t calls
    refine .inr ⟨t, _, rfl, ?_, fun c hc => .inr (hids c hc).2, ?_, fun _ => rfl⟩
    · rw [hidle]
      nofun
    · rw [hidle]
      rfl
  | alloc hidle =>
    rename_i t
    refine .inr ⟨t, _, rfl, ?_, nofun, ?_, fun _ => rfl⟩
    · rw [hidle]
      nofun
    · rw [hidle]
      rfl
  | pop ht =>
    rename_i t
    refine .inr ⟨t, if s.table.free = [] then .grow else .reuse (s.table.free.headD 0), ?_, ?_, ?_, ?_, ?_⟩
    · unfold Sys.pop
      split <;> rename_i hfree <;> rw [hfree] <;> rfl
    · rw [ht]
      nofun
    · split <;> nofun
    · rw [ht]
      rfl
    · unfold Sys.pop
      split <;> exact fun _ => rfl
  | reuse ht =>
    rename_i t index
    have hquiet : ∃ pc, (s.reuse t index).threads = update s.threads t pc ∧ pc.calls = []
        ∧ (s.reuse t index).table = s.table := by
      unfold Sys.reuse
      split
      · exact ⟨_, rfl, rfl, rfl⟩
      · split <;> exact ⟨_, rfl, rfl, rfl⟩
    obtain ⟨pc, hpc, hcalls, htable⟩ := hquiet
    refine .inr ⟨t, pc, hpc, ?_, ?_, ?_, ?_⟩
    · rw [ht]
      nofun
    · rw [hcalls]
      nofun
    · rw [ht]
      rfl
    · rw [htable]
      exact fun _ => rfl
  | grow ht =>
    rename_i t
    refine .inr ⟨t, .idle, ?_, ?_, nofun, ?_, ?_⟩
    · unfold Sys.grow
      split <;> rfl
    · rw [ht]
      nofun
    · rw [ht]
      rfl
    · intro hl
      obtain ⟨state, hs, -⟩ := exists_of_live hl
      unfold Sys.grow
      split
      · exact getElem?_append_left (List.getElem?_eq_some_iff.mp hs).1
      · rfl
  | call ht =>
    rename_i t c calls
    exact .inl ⟨t, c, calls, ht, rfl, rfl⟩
  | recycle ht =>
    rename_i t index calls
    refine .inr ⟨t, _, rfl, ?_, ?_, ?_, fun _ => rfl⟩
    · rw [ht]
      exact fun c hc => hc
    · rw [ht]
      exact fun c hc => .inl hc
    · rw [ht]
      rfl
  | wake ht =>
    rename_i t id waker recycle calls
    refine .inr ⟨t, _, rfl, ?_, ?_, ?_, fun _ => rfl⟩
    · rw [ht]
      exact fun c hc => hc
    · rw [ht]
      exact fun c hc => .inl hc
    · rw [ht]
      rfl

/-! ## What is owed to a waiter -/

/-- The waker was woken since it was registered, or a thread took it from the slot and wakes it next. -/
def Taken (slot : WakerSlotId) (waker : Waker) (s : Sys) (since : List Waker) : Prop :=
  waker ∈ since ∨ ∃ t, (s.threads t).taken = some (slot, waker)

/-- A thread has such a call to make. -/
def Owed (p : Call → Prop) (s : Sys) : Prop := ∃ t, ∃ c ∈ (s.threads t).calls, p c

variable {s : Sys} {since : List Waker} {p : Call → Prop} {t : Nat}

theorem Taken.update (h : Taken slot waker s since) {s' : Sys} {pc : Pc} {woken : Option Waker}
    (hs : s'.threads = update s.threads t pc) (hw : (s.threads t).taken.map Prod.snd = woken) :
    Taken slot waker s' (since ++ woken.toList) := by
  rcases h with h | ⟨u, hu⟩
  · exact .inl (mem_append_left _ h)
  · by_cases hut : u = t
    · subst hut
      rw [hu] at hw
      exact .inl (mem_append_right _ (by rw [← hw]; exact mem_singleton.mpr rfl))
    · exact .inr ⟨u, by rw [hs, update_of_ne hut]; exact hu⟩

theorem Owed.update (h : Owed p s) {s' : Sys} {pc : Pc} (hs : s'.threads = update s.threads t pc)
    (hc : ∀ c ∈ (s.threads t).calls, p c → c ∈ pc.calls) : Owed p s' := by
  obtain ⟨u, c, hcu, hp⟩ := h
  by_cases hut : u = t
  · subst hut
    exact ⟨u, c, by rw [hs, update_self]; exact hc c hcu hp, hp⟩
  · exact ⟨u, c, by rw [hs, update_of_ne hut]; exact hcu, hp⟩

theorem Taken.of_call {calls : List Call} (hid : c.id = slot) (hw : (c.exec s.table).2.waker = some waker) :
    Taken slot waker (s.call t c calls) since := by
  refine .inr ⟨t, ?_⟩
  show (Function.update s.threads t _ t).taken = _
  rw [update_self, hw, hid]
  rfl

/-- What is owed to a poll that has registered, and has loaded this since. -/
structure Watched (slot : WakerSlotId) (check : Check) (waker : Waker) (observed : Nat) (loads : Loads)
    (w : World) : Prop where
  le : observed ≤ check.target
  held : Entry slot waker observed w.sys.table ∨ Taken slot waker w.sys w.since
  flag : loads.flag = some false → w.flag = true → Taken slot waker w.sys w.since ∨ Owed (Sweeps slot) w.sys
  count : ∀ count, loads.count = some count → count ≤ check.target → check.target < w.count slot check.source →
    Taken slot waker w.sys w.since ∨ Owed (Passes slot check.target) w.sys

section Watched

variable {check : Check} {loads : Loads} {w : World}

theorem Watched.thread (h : Watched slot check waker observed loads w)
    (hout : ∀ t, ∀ c ∈ (w.sys.threads t).calls, Outside slot c) {woken : Option Waker} {sys : Sys}
    (hs : w.sys.Step (Outside slot) woken sys) :
    Watched slot check waker observed loads { w with sys, since := w.since ++ woken.toList } := by
  rcases step_cases hs with ⟨t, c, calls, ht, rfl, rfl⟩ | ⟨t, pc, hthreads, hkeep, -, hwoken, hslots⟩
  · -- a call
    have htaken : Taken slot waker w.sys w.since → Taken slot waker (w.sys.call t c calls) (w.since ++ none.toList) :=
      fun hw => hw.update rfl (by rw [ht]; rfl)
    have howed : ∀ {p : Call → Prop}, ¬p c → Owed p w.sys → Owed p (w.sys.call t c calls) := by
      intro p hp ho
      refine ho.update rfl fun d hd hpd => ?_
      rw [ht] at hd
      rcases mem_cons.mp hd with rfl | hd
      · exact absurd hpd hp
      · exact hd
    rcases h.held with hentry | hw
    swap
    · exact ⟨h.le, .inr (htaken hw), fun _ _ => .inl (htaken hw), fun _ _ _ _ => .inl (htaken hw)⟩
    rcases exec_entry hentry (hout t c (by rw [ht]; exact mem_cons_self)) with
      ⟨hid, hw⟩ | ⟨hentry', hpub, hsweeps, hpasses⟩
    · have hw' : Taken slot waker (w.sys.call t c calls) (w.since ++ none.toList) := .of_call hid hw
      exact ⟨h.le, .inr hw', fun _ _ => .inl hw', fun _ _ _ _ => .inl hw'⟩
    · refine ⟨h.le, .inl hentry', fun hl hf => ?_, fun n hl hn hlt => ?_⟩
      · exact (h.flag hl hf).imp htaken (howed hsweeps)
      · refine (h.count n hl hn ?_).imp htaken (howed (hpasses _ h.le))
        -- nothing went past the target in this step
        unfold World.count at hlt ⊢
        cases hsrc : check.source with
        | counter =>
          rw [hsrc] at hlt
          exact hlt
        | published =>
          rw [hsrc] at hlt
          have hle := h.le
          rcases hpub with heq | hsmall
          · exact heq ▸ hlt
          · exact absurd (lt_of_lt_of_le hlt hsmall) (by omega)
  · have htaken : Taken slot waker w.sys w.since → Taken slot waker sys (w.since ++ woken.toList) :=
      fun hw => hw.update hthreads hwoken
    rcases h.held with hentry | hw
    swap
    · exact ⟨h.le, .inr (htaken hw), fun _ _ => .inl (htaken hw), fun _ _ _ _ => .inl (htaken hw)⟩
    have hsame := hslots hentry.live
    have howed : ∀ {p : Call → Prop}, Owed p w.sys → Owed p sys := fun ho => ho.update hthreads fun c hc _ => hkeep c hc
    refine ⟨h.le, .inl (hentry.congr hsame), fun hl hf => ?_, fun n hl hn hlt => ?_⟩
    · exact (h.flag hl hf).imp htaken howed
    · refine (h.count n hl hn ?_).imp htaken howed
      unfold World.count at hlt ⊢
      cases hsrc : check.source with
      | counter =>
        rw [hsrc] at hlt
        exact hlt
      | published =>
        rw [hsrc] at hlt
        exact published_congr hsame ▸ hlt

theorem Watched.begin (h : Watched slot check waker observed loads w) {calls : List Call} {counter : Nat} {flag : Bool}
    (hidle : w.sys.threads t = .idle)
    (hflag : flag = true → w.flag = true ∨ ∃ c ∈ calls, Sweeps slot c)
    (hcount : counter = w.counter ∨ ∃ c ∈ calls, check.target < counter → Passes slot check.target c) :
    Watched slot check waker observed loads
      { w with sys := w.sys.put t (.busy none none calls), counter, flag } := by
  have htaken : Taken slot waker w.sys w.since → Taken slot waker (w.sys.put t (.busy none none calls)) w.since := by
    intro hw
    have hupdate : Taken slot waker (w.sys.put t (.busy none none calls)) (w.since ++ (none : Option Waker).toList) :=
      hw.update rfl (by rw [hidle]; rfl)
    rwa [Option.toList_none, append_nil] at hupdate
  have howed : ∀ {p : Call → Prop}, Owed p w.sys → Owed p (w.sys.put t (.busy none none calls)) :=
    fun ho => ho.update rfl fun c hc _ => by rw [hidle] at hc; cases hc
  have hnew : ∀ {p : Call → Prop} {c : Call}, c ∈ calls → p c → Owed p (w.sys.put t (.busy none none calls)) :=
    fun hc hp => ⟨t, _, by rw [show (w.sys.put t _).threads t = _ from update_self _ _ _]; exact hc, hp⟩
  refine ⟨h.le, h.held.imp_right htaken, fun hl hf => ?_, fun n hl hn hlt => ?_⟩
  · rcases hflag hf with hf | ⟨c, hc, hp⟩
    · exact (h.flag hl hf).imp htaken howed
    · exact .inr (hnew hc hp)
  · cases hsrc : check.source with
    | counter =>
      rw [hsrc] at hlt
      rcases hcount with rfl | ⟨c, hc, hp⟩
      · exact (h.count n hl hn (by rw [hsrc]; exact hlt)).imp htaken howed
      · exact .inr (hnew hc (hp hlt))
    | published =>
      rw [hsrc] at hlt
      exact (h.count n hl hn (by rw [hsrc]; exact hlt)).imp htaken howed

end Watched

/-! ## The run -/

/-- What holds of a future, by where its poll is. -/
def StageSound (slot : WakerSlotId) (check : Check) (w : World) : Stage → Prop
  | .registering _ observed => observed ≤ check.target
  | .second waker observed loads => Watched slot check waker observed loads w
  | .resting (some waker) => ∃ observed count, count ≤ check.target
      ∧ Watched slot check waker observed ⟨some false, some count⟩ w
  | _ => True

structure WaitInv (slot : WakerSlotId) (w : World) : Prop where
  outside : ∀ t, ∀ c ∈ (w.sys.threads t).calls, Outside slot c
  sound : ∀ check stage, w.future = some ⟨check, stage⟩ → StageSound slot check w stage

section Run

variable {value : Nat → Prop} {w w' : World}

variable {check : Check}

theorem sound_of_watched {stage : Stage} (h : StageSound slot check w stage)
    (hw : ∀ {waker observed loads}, Watched slot check waker observed loads w →
      Watched slot check waker observed loads w') : StageSound slot check w' stage := by
  cases stage with
  | resting last =>
    cases last with
    | none => trivial
    | some waker =>
      obtain ⟨observed, count, hc, h⟩ := h
      exact ⟨observed, count, hc, hw h⟩
  | second waker observed loads => exact hw h
  | registering waker observed => exact h
  | first waker loads => trivial
  | refused waker => trivial
  | removing => trivial

theorem verdict_pending {loads : Loads} {again : Nat} (h : check.verdict loads = some (.pending again)) :
    loads = ⟨some false, some again⟩ ∧ again ≤ check.target := by
  obtain ⟨flag, count⟩ := loads
  unfold Check.verdict at h
  cases flag with
  | none =>
    cases count with
    | none => cases h
    | some count =>
      dsimp only at h
      split at h <;> cases h
  | some flag =>
    cases flag with
    | true => cases h
    | false =>
      cases count with
      | none => cases h
      | some count =>
        dsimp only at h
        split at h
        · cases h
        · rename_i hlt
          cases h
          exact ⟨rfl, Nat.le_of_not_lt hlt⟩

theorem outside_put {s : Sys} {t : Nat} {calls : List Call} (h : ∀ u, ∀ c ∈ (s.threads u).calls, Outside slot c)
    (hc : ∀ c ∈ calls, Outside slot c) : ∀ u, ∀ c ∈ ((s.put t (.busy none none calls)).threads u).calls, Outside slot c :=
  calls_put h hc

theorem outside_of_ne {c : Call} (h : (∀ waker observed, c ≠ .register slot waker observed) ∧ c ≠ .deregister slot) :
    Outside slot c := fun _ => h

theorem outside_step {s s' : Sys} {woken : Option Waker} (h : ∀ t, ∀ c ∈ (s.threads t).calls, Outside slot c)
    (hs : s.Step (Outside slot) woken s') : ∀ t, ∀ c ∈ (s'.threads t).calls, Outside slot c := by
  intro u d hd
  rcases step_cases hs with ⟨t, c, calls, ht, -, rfl⟩ | ⟨t, pc, hthreads, -, hcalls, -, -⟩
  · have hput : ∀ u, ∀ d ∈ ((s.call t c calls).threads u).calls, Outside slot d :=
      calls_put h fun d hd => h t d (by rw [ht]; exact mem_cons_of_mem _ hd)
    exact hput u d hd
  · rw [hthreads] at hd
    by_cases hu : u = t
    · subst hu
      rw [update_self] at hd
      rcases hcalls d hd with hd | hd
      · exact h u d hd
      · exact hd
    · rw [update_of_ne hu] at hd
      exact h u d hd

theorem waitInv_start (h : w.Start) : WaitInv slot w := by
  obtain ⟨hsys, -, hnone, -⟩ := h
  refine ⟨?_, fun check stage hf => ?_⟩
  · rw [hsys]
    nofun
  · rw [hnone] at hf
    cases hf

/-- The future goes on: only its own stage is to be looked at. -/
theorem WaitInv.become (h : WaitInv slot w) {stage : Stage}
    (hs : StageSound slot check (w.become check stage) stage) : WaitInv slot (w.become check stage) := by
  refine ⟨h.outside, fun check' stage' hf => ?_⟩
  cases hf
  exact hs

/-- **Every step keeps what is owed**, as long as no writer raises the counter to the reserved epoch. -/
theorem WaitInv.step (h : WaitInv slot w) (hvalue : ∀ v, value v → v < epochNone) (hs : w.Step value slot w') :
    WaitInv slot w' := by
  cases hs with
  | thread hs =>
    refine ⟨outside_step h.outside hs, fun check stage hf => ?_⟩
    exact sound_of_watched (h.sound check stage hf) fun hw => hw.thread h.outside hs
  | raise hidle hslot hv hraise hc =>
    rename_i t v c
    refine ⟨outside_put h.outside fun d hd => ?_, fun check stage hf => ?_⟩
    · obtain rfl := mem_singleton.mp hd
      rcases hc with rfl | rfl <;> exact outside_of_ne ⟨nofun, nofun⟩
    · refine sound_of_watched (h.sound check stage hf) fun hw => ?_
      exact hw.begin hidle (fun hf => .inl hf)
        (.inr ⟨c, mem_singleton.mpr rfl, fun hlt => ⟨v, hlt, hvalue v hv, hc⟩⟩)
  | setFlag hidle hslot hc =>
    rename_i t calls
    have hsweeps : ∃ c ∈ calls, Sweeps slot c := by
      rcases hc with rfl | ⟨ids, rfl, hin, -⟩
      · exact ⟨_, mem_singleton.mpr rfl, .inr rfl⟩
      · exact ⟨_, mem_map_of_mem hin, .inl rfl⟩
    refine ⟨outside_put h.outside fun d hd => ?_, fun check stage hf => ?_⟩
    · rcases hc with rfl | ⟨ids, rfl, -, -⟩
      · obtain rfl := mem_singleton.mp hd
        exact outside_of_ne ⟨nofun, nofun⟩
      · obtain ⟨id, -, rfl⟩ := mem_map.mp hd
        exact outside_of_ne ⟨nofun, nofun⟩
    · exact sound_of_watched (h.sound check stage hf) fun hw => hw.begin hidle (fun _ => .inr hsweeps) (.inl rfl)
  | new hnone hslot => exact h.become trivial
  | poll hf => exact h.become trivial
  | firstFlag hf hl => exact h.become trivial
  | firstCount hf hl => exact h.become trivial
  | firstReady hf hv => exact h.become trivial
  | firstPending hf hv => exact h.become (verdict_pending hv).2
  | register hf =>
    rename_i check waker observed
    refine ⟨h.outside, fun check' stage' hf' => ?_⟩
    cases hf'
    by_cases hok : (w.sys.table.register slot waker observed).2 = true
    · rw [if_pos hok]
      exact ⟨h.sound _ _ hf, .inl (Entry.register hok), nofun, nofun⟩
    · rw [if_neg hok]
      trivial
  | refused hf =>
    rename_i check waker
    refine ⟨h.outside, fun check' stage' hf' => ?_⟩
    cases hf'
    have htaken : Taken slot waker w.sys (w.since ++ [waker]) :=
      .inl (mem_append_right _ (mem_singleton.mpr rfl))
    exact ⟨0, 0, Nat.zero_le _, ⟨Nat.zero_le _, .inr htaken, fun _ _ => .inl htaken, fun _ _ _ _ => .inl htaken⟩⟩
  | secondFlag hf hl =>
    rename_i check waker observed loads
    have hw := h.sound _ _ hf
    refine h.become ⟨hw.le, hw.held, fun hl hf => ?_, hw.count⟩
    -- the flag was loaded just now
    exact absurd ((Option.some.inj hl).symm.trans hf) Bool.false_ne_true
  | secondCount hf hl =>
    rename_i check waker observed loads
    have hw := h.sound _ _ hf
    refine h.become ⟨hw.le, hw.held, hw.flag, fun n hl hn hlt => ?_⟩
    exact absurd (lt_of_lt_of_le hlt (Option.some.inj hl ▸ hn)) (lt_irrefl _)
  | secondReady hf hv => exact h.become trivial
  | secondPending hf hv =>
    rename_i check waker observed again loads
    obtain ⟨rfl, hle⟩ := verdict_pending hv
    have hw := h.sound _ _ hf
    exact h.become ⟨observed, again, hle, hw.le, hw.held, hw.flag, hw.count⟩
  | remove hf =>
    refine ⟨h.outside, fun check' stage' hf' => ?_⟩
    cases hf'
    trivial
  | drop hf => exact ⟨h.outside, nofun⟩

end Run

/-- The states in which threads use the table and a future waits on the slot. -/
def WaitReachable (value : Nat → Prop) (slot : WakerSlotId) (w : World) : Prop :=
  Reachable World.Start (World.Step value slot) w

theorem waitInv_reachable {value : Nat → Prop} (hvalue : ∀ v, value v → v < epochNone) {w : World}
    (h : WaitReachable value slot w) : WaitInv slot w :=
  h.invariant (fun _ h0 => waitInv_start h0) fun _ _ _ hi hs => hi.step hvalue hs

theorem WaitInv.attended {w : World} (h : WaitInv slot w) (hf : w.Finished slot) : w.Attended slot := by
  intro check waker hfuture
  obtain ⟨observed, count, hc, hw⟩ := h.sound _ _ hfuture
  have hwoken : Taken slot waker w.sys w.since → waker ∈ w.since := by
    rintro (hin | ⟨t, ht⟩)
    · exact hin
    · exact absurd ht ((hf t).2 waker)
  have howes : ∀ {p : Call → Prop}, (∀ c, p c → c.id = slot) → ¬Owed p w.sys := by
    rintro p hp ⟨t, c, hc, hpc⟩
    exact (hf t).1 c hc (hp c hpc)
  by_cases hready : w.isReady slot check
  swap
  · exact .inl hready
  right
  rcases hready with hflag | hcount
  · refine hwoken ((hw.flag rfl hflag).resolve_right (howes ?_))
    rintro c (rfl | rfl) <;> rfl
  · refine hwoken ((hw.count count rfl hc hcount).resolve_right (howes ?_))
    rintro c ⟨v, -, -, rfl | rfl⟩ <;> rfl

/-! ## The table -/

/-- **No wake is lost and no identifier comes back**: `alloc` never returns one twice, two that are in
use have different slots, and a call with one that was freed does nothing; and when every call on a
slot has returned, a future whose poll returned `Pending` has been woken or is still not ready. The
counters stay below the reserved epoch. -/
theorem wakers_sound : (∀ s, SlotsReachable s → s.issued.Nodup
      ∧ (∀ a ∈ s.issued, ∀ b ∈ s.issued, a ∉ s.freed → b ∉ s.freed → (splitId a).2 = (splitId b).2 → a = b)
      ∧ ∀ c : Call, c.id ∈ s.freed → c.exec s.table = (s.table, .nothing))
    ∧ ∀ slot w, WaitReachable (· < epochNone) slot w → w.Finished slot → w.Attended slot := by
  refine ⟨fun s hs => ?_, fun slot w hw hf => ?_⟩
  · have h := slotsInv_reachable hs
    refine ⟨h.generations.nodup, fun a ha b hb hfa hfb => h.generations.apart ha hb hfa hfb, fun c hc => ?_⟩
    exact exec_stale (h.generations.stale (h.sub _ hc) hc)
  · exact (waitInv_reachable (fun _ hv => hv) hw).attended hf

/-! A future waits for a counter to pass `0`; its poll returned `Pending` before a writer came. -/

def firstSlot : WakerSlotId := slotId 1 0

def pastZero : Check := ⟨.counter, 0⟩

/-- The slot was allocated. -/
def allocated : World := ⟨((Sys.new.put 0 .pop).pop 0).grow 0, 0, false, none, []⟩

/-- The future was polled. -/
def polled : World := (allocated.register firstSlot pastZero 7 0).become pastZero (.resting (some 7))

/-- A writer raised the counter and called `wake_past`. -/
def raised (v : Nat) : World :=
  { polled with
    sys := (polled.sys.put 0 (.busy none none [.wakePast firstSlot v])).call 0 (.wakePast firstSlot v) []
    counter := v }

/-- The writer woke the waker it took. -/
def woken (v : Nat) : World :=
  { raised v with sys := (raised v).sys.put 0 (.busy none none []), since := [7] }

variable {value : Nat → Prop}

theorem allocated_reachable : WaitReachable value firstSlot allocated := by
  have hstart : WaitReachable value firstSlot ⟨.new, 0, false, none, []⟩ := .init ⟨rfl, rfl, rfl, rfl⟩
  have halloc := hstart.step (.thread (.alloc (t := 0) rfl))
  have hpop := halloc.step (.thread (.pop (t := 0) rfl))
  exact hpop.step (.thread (.grow (t := 0) rfl))

theorem polled_reachable : WaitReachable value firstSlot polled := by
  have hnew : WaitReachable value firstSlot (allocated.become pastZero (.resting none)) :=
    allocated_reachable.step (.new rfl mem_cons_self)
  have hpoll : WaitReachable value firstSlot (allocated.become pastZero (.first 7 .none)) := hnew.step (.poll rfl)
  have hflag := hpoll.step (.firstFlag rfl rfl)
  have hcount := hflag.step (.firstCount rfl rfl)
  have hpending := hcount.step (.firstPending rfl rfl)
  have hregister := hpending.step (.register rfl)
  have hsecond := (hregister.step (.secondFlag rfl rfl)).step (.secondCount rfl rfl)
  exact hsecond.step (.secondPending rfl rfl)

theorem raised_reachable {v : Nat} (hv : value v) (hpos : 0 < v) : WaitReachable value firstSlot (raised v) := by
  have hpolled : WaitReachable value firstSlot polled := polled_reachable
  have hraise := hpolled.step (.raise (t := 0) rfl mem_cons_self hv hpos (.inl rfl))
  exact hraise.step (.thread (.call (t := 0) rfl))

theorem woken_reachable (hv : value 1) : WaitReachable value firstSlot (woken 1) :=
  (raised_reachable hv Nat.one_pos).step (.thread (.wake (t := 0) rfl))

theorem finished_of_idle {slot : WakerSlotId} {w : World} (h : ∀ t, w.sys.threads t = .idle) : w.Finished slot := by
  intro t
  rw [h t]
  exact ⟨nofun, nofun⟩

theorem polled_threads : polled.sys.threads = fun _ => .idle := by
  show update (update (update (fun _ => Pc.idle) 0 .pop) 0 .grow) 0 .idle = _
  rw [update_idem, update_idem]
  exact update_eq_self 0 _

/-- The writer is the only thread, and it is done. -/
theorem idle_update {threads : Nat → Pc} {pc : Pc} (h : threads = update (update polled.sys.threads 0 pc)
    0 .idle) (t : Nat) : threads t = .idle := by
  rw [h, update_idem, polled_threads]
  exact congrFun (update_eq_self 0 fun _ => Pc.idle) t

theorem wakers_sound_woken : (7 : Waker) ∈ (woken 1).since ∧ (woken 1).Attended firstSlot := by
  refine ⟨mem_cons_self, wakers_sound.2 firstSlot _ (woken_reachable (by decide)) (finished_of_idle ?_)⟩
  have hthreads : (woken 1).sys.threads
      = Function.update (Function.update polled.sys.threads 0 (.busy none none [.wakePast firstSlot 1])) 0 .idle :=
    Function.update_idem _ _ _
  exact idle_update hthreads

/-- A writer that raises the counter to the reserved epoch wakes nobody. -/
theorem reserved_epoch_lost : ∃ slot w, WaitReachable (· < 2 ^ 64) slot w ∧ w.Finished slot ∧ ¬w.Attended slot := by
  refine ⟨firstSlot, raised epochNone, raised_reachable (by decide) (by decide), finished_of_idle (idle_update rfl), ?_⟩
  intro h
  rcases h pastZero 7 rfl with hready | hin
  · exact hready (.inr (by decide))
  · cases hin

end Pie.Proof.Wakers
