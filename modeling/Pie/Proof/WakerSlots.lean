import Mathlib.Data.List.Nodup
import Pie.Lib.Systems
import Pie.Waker.Table

/-!
# Identifiers of slots

The generation of a slot only grows, and an index is in one place: behind an
identifier that was not freed, in the free list, or with a thread on its way
from one to the other. So `alloc` never repeats an identifier, and a call with
one that was freed finds another generation.
-/

namespace Pie.Proof.Wakers

open List Pie.Waker Lib.Systems WakerTable Function

variable {c : Call} {a b : WakerSlotId} {calls : List Call} {pc : Pc} {generation : Nat}

theorem splitId_slotId {generation index : Nat} (h : index < 2 ^ 32) :
    splitId (slotId generation index) = (generation, index) := by
  unfold splitId slotId
  rw [← Nat.shiftLeft_add_eq_or_of_lt h, Nat.shiftRight_eq_div_pow, Nat.shiftLeft_eq]
  congr 1 <;> omega

theorem slotId_splitId (id : WakerSlotId) : slotId (splitId id).1 (splitId id).2 = id := by
  show id >>> 32 <<< 32 ||| id % 2 ^ 32 = id
  rw [← Nat.shiftLeft_add_eq_or_of_lt (Nat.mod_lt _ (Nat.two_pow_pos 32)), Nat.shiftRight_eq_div_pow, Nat.shiftLeft_eq]
  exact Nat.div_add_mod' id (2 ^ 32)

/-- An identifier is its generation and its index. -/
theorem splitId_inj (h : splitId a = splitId b) : a = b := by
  rw [← slotId_splitId a, ← slotId_splitId b, h]

/-! ## Sections -/

variable {table : WakerTable} {id : WakerSlotId}

theorem live_of {state : SlotState} (h : table.slots[(splitId id).2]? = some state) :
    table.live id = isLive state (splitId id).1 := by
  unfold live
  rw [h]

theorem exists_of_live (h : table.live id = true) :
    ∃ state, table.slots[(splitId id).2]? = some state ∧ isLive state (splitId id).1 = true := by
  unfold live at h
  cases hs : table.slots[(splitId id).2]? with
  | none => rw [hs] at h; cases h
  | some state => rw [hs] at h; exact ⟨state, rfl, h⟩

theorem isLive_iff {state : SlotState} :
    isLive state generation = true ↔ generation ≠ 0 ∧ state.retired = false ∧ state.generation = generation := by
  unfold isLive
  simp only [Bool.and_eq_true, bne_iff_ne, ne_eq, Bool.not_eq_true', beq_iff_eq]
  constructor
  · rintro ⟨⟨⟨hg, hr⟩, -⟩, he⟩
    exact ⟨hg, hr, he⟩
  · rintro ⟨hg, hr, he⟩
    exact ⟨⟨⟨hg, hr⟩, he ▸ hg⟩, he⟩

section Locked

variable {α : Type} {stale : α} {f : SlotState → SlotState × α}

theorem locked_stale (h : table.live id = false) : table.locked id stale f = (table, stale) := by
  unfold locked
  unfold live at h
  cases hs : table.slots[(splitId id).2]? with
  | none => rfl
  | some state =>
    rw [hs] at h
    dsimp only at h ⊢
    rw [if_neg (by rw [h]; exact Bool.false_ne_true)]

theorem locked_live {state : SlotState} (h : table.slots[(splitId id).2]? = some state)
    (hl : isLive state (splitId id).1 = true) :
    table.locked id stale f
      = ({ table with slots := table.slots.set (splitId id).2 (f state).1 }, (f state).2) := by
  unfold locked
  rw [h]
  exact if_pos hl

end Locked

/-- **A call with another generation than the slot's does nothing.** -/
theorem exec_stale (h : table.live c.id = false) : c.exec table = (table, .nothing) := by
  cases c with
  | free id => exact locked_stale h
  | register id waker observed =>
    change table.live id = false at h
    show ((table.register id waker observed).1, _) = _
    unfold register
    split
    · rfl
    · rw [locked_stale h]
  | deregister id =>
    change table.live id = false at h
    show ((table.deregister id), _) = _
    unfold deregister
    rw [locked_stale h]
  | wake id =>
    change table.live id = false at h
    show ((table.wakeImpl id none).1, After.mk (table.wakeImpl id none).2.2 none) = _
    unfold wakeImpl
    rw [locked_stale h]
    rfl
  | wakePast id ring =>
    change table.live id = false at h
    show ((table.wakePast id ring).1, After.mk (table.wakePast id ring).2.2 none) = _
    unfold wakePast wakeImpl
    split
    · rfl
    · rw [locked_stale h]
      rfl
  | publish id epoch =>
    change table.live id = false at h
    show ((table.publish id epoch).1, After.mk (table.publish id epoch).2.2 none) = _
    unfold publish
    split
    · rw [locked_stale h]
      rfl
    · rfl

/-- The slot stays with who has it. -/
def SameOwner (state state' : SlotState) : Prop :=
  state'.generation = state.generation ∧ state'.retired = state.retired

theorem takeWaker_same (state : SlotState) (ring : Option Nat) : SameOwner state (state.takeWaker ring).1 := by
  unfold SlotState.takeWaker
  split
  · exact ⟨rfl, rfl⟩
  · split <;> exact ⟨rfl, rfl⟩

theorem publish_same (state : SlotState) (epoch : Nat) : SameOwner state (state.publish epoch).1 :=
  takeWaker_same { state with publishedEpoch := max state.publishedEpoch epoch } _

/-- At most the slot of `id` changed, and it stayed with who has it. -/
def Keeps (table : WakerTable) (id : WakerSlotId) (table' : WakerTable) : Prop :=
  table' = table ∨ ∃ state state', table.slots[(splitId id).2]? = some state ∧ SameOwner state state'
    ∧ table' = { table with slots := table.slots.set (splitId id).2 state' }

theorem locked_keeps {α : Type} {stale : α} {f : SlotState → SlotState × α} (hf : ∀ state, SameOwner state (f state).1) :
    Keeps table id (table.locked id stale f).1 := by
  by_cases hl : table.live id = true
  · obtain ⟨state, hs, hlive⟩ := exists_of_live hl
    rw [locked_live hs hlive]
    exact .inr ⟨state, _, hs, hf state, rfl⟩
  · rw [locked_stale (Bool.not_eq_true _ ▸ hl)]
    exact .inl rfl

theorem exec_keeps (hc : ∀ id, c ≠ .free id) :
    (c.exec table).2.recycle = none ∧ Keeps table c.id (c.exec table).1 := by
  cases c with
  | free id => exact absurd rfl (hc id)
  | register id waker observed =>
    refine ⟨rfl, ?_⟩
    show Keeps table id (table.register id waker observed).1
    unfold register
    split
    · exact .inl rfl
    · exact locked_keeps fun _ => ⟨rfl, rfl⟩
  | deregister id =>
    refine ⟨rfl, ?_⟩
    show Keeps table id (table.deregister id)
    exact locked_keeps fun _ => ⟨rfl, rfl⟩
  | wake id => exact ⟨rfl, locked_keeps fun state => takeWaker_same state none⟩
  | wakePast id ring =>
    refine ⟨rfl, ?_⟩
    show Keeps table id (table.wakePast id ring).1
    unfold wakePast
    split
    · exact .inl rfl
    · exact locked_keeps fun state => takeWaker_same state (some ring)
  | publish id epoch =>
    refine ⟨rfl, ?_⟩
    show Keeps table id (table.publish id epoch).1
    unfold publish
    split
    · exact locked_keeps fun state => publish_same state epoch
    · exact .inl rfl

theorem exec_free {state : SlotState} (hs : table.slots[(splitId id).2]? = some state)
    (hl : isLive state (splitId id).1 = true) :
    (Call.free id).exec table = ({ table with slots := table.slots.set (splitId id).2 state.release.1 },
      ⟨state.release.2.1, if state.release.2.2 then some (splitId id).2 else none⟩) :=
  locked_live hs hl

/-! ## Generations -/

/-- The state of a slot, seen from an identifier with its index: its generation until it is
freed, and then never again. -/
def Fits (freed : List WakerSlotId) (id : WakerSlotId) (state : SlotState) : Prop :=
  (id ∉ freed → state.retired = false ∧ state.generation = (splitId id).1)
    ∧ (id ∈ freed → state.retired = true ∨ (splitId id).1 < state.generation)

structure Generations (slots : List SlotState) (issued freed : List WakerSlotId) : Prop where
  nodup : issued.Nodup
  length : slots.length ≤ 2 ^ 32
  fits : ∀ id ∈ issued, (splitId id).1 ≠ 0 ∧ ∃ state, slots[(splitId id).2]? = some state ∧ Fits freed id state

/-- Nobody has the slot. -/
def Vacant (issued freed : List WakerSlotId) (index : Nat) : Prop :=
  ∀ id ∈ issued, (splitId id).2 = index → id ∈ freed

section Generations

variable {slots : List SlotState} {issued freed : List WakerSlotId} {index : Nat} {state : SlotState}

theorem Generations.apart (h : Generations slots issued freed) (ha : a ∈ issued) (hb : b ∈ issued)
    (hfa : a ∉ freed) (hfb : b ∉ freed) (hi : (splitId a).2 = (splitId b).2) : a = b := by
  obtain ⟨-, state, hs, hfits⟩ := h.fits a ha
  obtain ⟨-, state', hs', hfits'⟩ := h.fits b hb
  rw [hi, hs'] at hs
  cases hs
  exact splitId_inj (Prod.ext ((hfits.1 hfa).2.symm.trans (hfits'.1 hfb).2) hi)

theorem Generations.stale (h : Generations table.slots issued freed) (hid : id ∈ issued) (hf : id ∈ freed) :
    table.live id = false := by
  obtain ⟨-, state, hs, hfits⟩ := h.fits id hid
  rw [live_of hs, ← Bool.not_eq_true, isLive_iff]
  rintro ⟨-, hr, hg⟩
  rcases hfits.2 hf with hr' | hg'
  · rw [hr] at hr'
    cases hr'
  · omega

section

variable (h : Generations slots issued freed)
include h

theorem Generations.keep {state' : SlotState} (hs : slots[index]? = some state)
    (hsame : SameOwner state state') : Generations (slots.set index state') issued freed where
  nodup := h.nodup
  length := by rw [length_set]; exact h.length
  fits := by
    intro id hid
    obtain ⟨hg, old, hold, hfits⟩ := h.fits id hid
    refine ⟨hg, ?_⟩
    by_cases hi : index = (splitId id).2
    · subst hi
      rw [hs] at hold
      cases hold
      refine ⟨state', getElem?_set_self (List.getElem?_eq_some_iff.mp hs).1, ?_, ?_⟩
      · rw [hsame.1, hsame.2]
        exact hfits.1
      · rw [hsame.1, hsame.2]
        exact hfits.2
    · exact ⟨old, by rw [getElem?_set_ne hi]; exact hold, hfits⟩

/-- `alloc` takes a slot that nobody has. -/
theorem Generations.issue (hs : slots[index]? = some state)
    (hr : state.retired = false) (hg : state.generation ≠ 0) (hv : Vacant issued freed index)
    (hsub : ∀ id ∈ freed, id ∈ issued) : Generations slots (slotId state.generation index :: issued) freed := by
  have hlt : index < 2 ^ 32 := lt_of_lt_of_le (List.getElem?_eq_some_iff.mp hs).1 h.length
  have hsplit : splitId (slotId state.generation index) = (state.generation, index) := splitId_slotId hlt
  have hnew : slotId state.generation index ∉ issued := by
    intro hin
    obtain ⟨-, old, hold, hfits⟩ := h.fits _ hin
    rw [hsplit] at hold
    rw [hs] at hold
    cases hold
    -- the identifier was freed, so the generation is past it
    rcases hfits.2 (hv _ hin (by rw [hsplit])) with hr' | hg'
    · rw [hr] at hr'
      cases hr'
    · rw [hsplit] at hg'
      exact absurd hg' (lt_irrefl _)
  refine ⟨nodup_cons.mpr ⟨hnew, h.nodup⟩, h.length, ?_⟩
  intro id hid
  rcases mem_cons.mp hid with rfl | hid
  · rw [hsplit]
    exact ⟨hg, state, hs, fun _ => ⟨hr, by rw [hsplit]⟩, fun hf => absurd (hsub _ hf) hnew⟩
  · exact h.fits id hid

theorem Generations.grow (hlt : slots.length < 2 ^ 32)
    (hsub : ∀ id ∈ freed, id ∈ issued) :
    Generations (slots ++ [SlotState.new]) (slotId 1 slots.length :: issued) freed := by
  have hgrown : Generations (slots ++ [SlotState.new]) issued freed := by
    refine ⟨h.nodup, by rw [length_append]; exact hlt, ?_⟩
    intro id hid
    obtain ⟨hg, state, hs, hfits⟩ := h.fits id hid
    exact ⟨hg, state, by rw [getElem?_append_left (List.getElem?_eq_some_iff.mp hs).1]; exact hs, hfits⟩
  have hlast : (slots ++ [SlotState.new])[slots.length]? = some SlotState.new := by simp
  have hissue := hgrown.issue hlast rfl Nat.one_ne_zero
  refine hissue ?_ hsub
  -- every identifier has an index that was there before
  intro id hid hi
  obtain ⟨-, state, hs, -⟩ := h.fits id hid
  rw [hi] at hs
  exact absurd (List.getElem?_eq_some_iff.mp hs).1 (lt_irrefl _)

end

theorem release_past (state : SlotState) :
    state.release.1.retired = true ∨ state.generation < state.release.1.generation := by
  unfold SlotState.release
  dsimp only
  split
  · exact .inl rfl
  · exact .inr (Nat.lt_succ_self _)

theorem Generations.free (h : Generations slots issued freed) (hid : id ∈ issued)
    (hs : slots[(splitId id).2]? = some state) (hl : isLive state (splitId id).1 = true) :
    Generations (slots.set (splitId id).2 state.release.1) issued (id :: freed) where
  nodup := h.nodup
  length := by rw [length_set]; exact h.length
  fits := by
    intro other hother
    obtain ⟨hg, old, hold, hfits⟩ := h.fits other hother
    refine ⟨hg, ?_⟩
    by_cases hi : (splitId id).2 = (splitId other).2
    · rw [← hi] at hold ⊢
      rw [hs] at hold
      cases hold
      obtain ⟨-, hr, hgen⟩ := isLive_iff.mp hl
      refine ⟨_, getElem?_set_self (List.getElem?_eq_some_iff.mp hs).1, fun hf => ?_, fun hf => ?_⟩
      · -- the other one with this index is the one that is freed
        have hfree := fun h' => hf (mem_cons_of_mem _ h')
        have heq : other = id := splitId_inj (Prod.ext ((hfits.1 hfree).2.symm.trans hgen) hi.symm)
        exact absurd (heq ▸ mem_cons_self) hf
      · have hle : (splitId other).1 ≤ state.generation := by
          by_cases hfo : other ∈ freed
          · rcases hfits.2 hfo with hr' | hlt
            · rw [hr] at hr'
              cases hr'
            · exact hlt.le
          · exact (hfits.1 hfo).2.symm.le
        rcases release_past state with hr' | hlt
        · exact .inl hr'
        · exact .inr (lt_of_le_of_lt hle hlt)
    · refine ⟨old, by rw [getElem?_set_ne hi]; exact hold, fun hf => ?_, fun hf => ?_⟩
      · exact hfits.1 fun h' => hf (mem_cons_of_mem _ h')
      · rcases mem_cons.mp hf with rfl | hf
        · exact absurd rfl hi
        · exact hfits.2 hf

end Generations

/-! ## Spare indices -/

/-- The index is in the free list, or with a thread. -/
def Spare (free : List Nat) (holds : Nat → Option Nat) (index : Nat) : Prop :=
  index ∈ free ∨ ∃ t, holds t = some index

/-- Each spare index is in one place, and nobody has its slot. -/
structure Spares (length : Nat) (free : List Nat) (holds : Nat → Option Nat) (vacant : Nat → Prop) : Prop where
  nodup : free.Nodup
  vacant : ∀ index, Spare free holds index → index < length ∧ vacant index
  apart : ∀ t index, holds t = some index → index ∉ free ∧ ∀ u, holds u = some index → u = t

section Spares

variable {n : Nat} {free : List Nat} {holds : Nat → Option Nat} {vacant : Nat → Prop} {t index : Nat}

theorem update_some {u : Nat} {x : Option Nat} (h : update holds t x u = some index) :
    (u = t ∧ x = some index) ∨ (u ≠ t ∧ holds u = some index) := by
  by_cases hu : u = t
  · subst hu
    rw [update_self] at h
    exact .inl ⟨rfl, h⟩
  · rw [update_of_ne hu] at h
    exact .inr ⟨hu, h⟩

theorem Spares.mono (h : Spares n free holds vacant) {m : Nat} {vacant' : Nat → Prop} (hn : n ≤ m)
    (hv : ∀ index, Spare free holds index → vacant index → vacant' index) : Spares m free holds vacant' where
  nodup := h.nodup
  vacant := fun index hs =>
    ⟨lt_of_lt_of_le (h.vacant index hs).1 hn, hv index hs (h.vacant index hs).2⟩
  apart := h.apart

theorem Spares.drop (h : Spares n free holds vacant) (t : Nat) :
    Spares n free (update holds t none) vacant := by
  have hback : ∀ {u index}, update holds t none u = some index → holds u = some index := by
    intro u index hu
    rcases update_some hu with ⟨-, h'⟩ | ⟨-, h'⟩
    · cases h'
    · exact h'
  refine ⟨h.nodup, fun index hs => h.vacant index (hs.imp_right fun ⟨u, hu⟩ => ⟨u, hback hu⟩), ?_⟩
  intro u index hu
  obtain ⟨hf, hone⟩ := h.apart u index (hback hu)
  exact ⟨hf, fun v hv => hone v (hback hv)⟩

/-- An index that is not spare goes to a thread. -/
theorem Spares.take (h : Spares n free holds vacant) (hs : ¬Spare free holds index) (hlt : index < n)
    (hv : vacant index) : Spares n free (update holds t (some index)) vacant := by
  refine ⟨h.nodup, ?_, ?_⟩
  · rintro i (hi | ⟨u, hu⟩)
    · exact h.vacant i (.inl hi)
    · rcases update_some hu with ⟨-, hi⟩ | ⟨-, hi⟩
      · exact Option.some.inj hi ▸ ⟨hlt, hv⟩
      · exact h.vacant i (.inr ⟨u, hi⟩)
  · intro u i hu
    rcases update_some hu with ⟨rfl, hi⟩ | ⟨hne, hi⟩
    · cases hi
      refine ⟨fun hf => hs (.inl hf), fun v hv => ?_⟩
      rcases update_some hv with ⟨rfl, -⟩ | ⟨-, hv⟩
      · rfl
      · exact absurd (.inr ⟨v, hv⟩) hs
    · refine ⟨(h.apart u i hi).1, fun v hv => ?_⟩
      rcases update_some hv with ⟨-, hv⟩ | ⟨-, hv⟩
      · exact absurd (.inr ⟨u, Option.some.inj hv ▸ hi⟩) hs
      · exact (h.apart u i hi).2 v hv

theorem Spares.pop (h : Spares n (index :: free) holds vacant) :
    Spares n free (update holds t (some index)) vacant := by
  obtain ⟨hnot, hnodup⟩ := nodup_cons.mp h.nodup
  have hrest : Spares n free holds vacant :=
    ⟨hnodup, fun i hs => h.vacant i (hs.imp_left (mem_cons_of_mem _)),
      fun u i hu => ⟨fun hf => (h.apart u i hu).1 (mem_cons_of_mem _ hf), (h.apart u i hu).2⟩⟩
  obtain ⟨hlt, hv⟩ := h.vacant index (.inl mem_cons_self)
  refine hrest.take ?_ hlt hv
  rintro (hf | ⟨u, hu⟩)
  · exact hnot hf
  · exact (h.apart u index hu).1 mem_cons_self

theorem Spares.push (h : Spares n free holds vacant) (ht : holds t = some index) :
    Spares n (index :: free) (update holds t none) vacant := by
  obtain ⟨hnot, hone⟩ := h.apart t index ht
  have hdrop := h.drop t
  refine ⟨nodup_cons.mpr ⟨hnot, h.nodup⟩, ?_, ?_⟩
  · rintro i (hi | hu)
    · rcases mem_cons.mp hi with rfl | hi
      · exact h.vacant i (.inr ⟨t, ht⟩)
      · exact h.vacant i (.inl hi)
    · exact hdrop.vacant i (.inr hu)
  · intro u i hu
    refine ⟨fun hi => ?_, (hdrop.apart u i hu).2⟩
    rcases mem_cons.mp hi with rfl | hi
    · rcases update_some hu with ⟨-, hnone⟩ | ⟨hne, hu⟩
      · cases hnone
      · exact hne (hone u hu)
    · exact (hdrop.apart u i hu).1 hi

end Spares

/-! ## The invariant -/

structure SlotsInv (s : Sys) : Prop where
  generations : Generations s.table.slots s.issued s.freed
  sub : ∀ id ∈ s.freed, id ∈ s.issued
  calls : ∀ t, ∀ c ∈ (s.threads t).calls, c.id ∈ s.issued
  spares : Spares s.table.slots.length s.table.free (Pc.holds ∘ s.threads) (Vacant s.issued s.freed)

section Steps

variable {s : Sys} {t : Nat}

theorem slotsInv_new : SlotsInv .new where
  generations := ⟨nodup_nil, Nat.zero_le _, nofun⟩
  sub := nofun
  calls := nofun
  spares := ⟨nodup_nil, fun index h => by rcases h with h | ⟨u, hu⟩ <;> contradiction, nofun⟩

theorem holds_put (s : Sys) (t : Nat) (pc : Pc) :
    Pc.holds ∘ (s.put t pc).threads = update (Pc.holds ∘ s.threads) t pc.holds :=
  comp_update _ _ _ _

theorem calls_put {p : Call → Prop} (h : ∀ u, ∀ c ∈ (s.threads u).calls, p c) (hpc : ∀ c ∈ pc.calls, p c) :
    ∀ u, ∀ c ∈ ((s.put t pc).threads u).calls, p c := by
  intro u c hc
  by_cases hu : u = t
  · subst hu
    exact hpc c (by rwa [show (s.put u pc).threads u = pc from update_self _ _ _] at hc)
  · exact h u c (by rwa [show (s.put t pc).threads u = s.threads u from update_of_ne hu _ _] at hc)

/-- The thread goes on, with the index that it had or with none. -/
theorem SlotsInv.put (h : SlotsInv s) (hh : pc.holds = none ∨ pc.holds = (s.threads t).holds)
    (hc : ∀ c ∈ pc.calls, c.id ∈ s.issued) : SlotsInv (s.put t pc) where
  generations := h.generations
  sub := h.sub
  calls := calls_put h.calls hc
  spares := by
    rw [holds_put]
    rcases hh with hh | hh
    · rw [hh]
      exact h.spares.drop t
    · rw [hh, show (s.threads t).holds = (Pc.holds ∘ s.threads) t from rfl, update_eq_self]
      exact h.spares

/-- A new identifier leaves the other slots vacant. -/
theorem vacant_issue {issued freed : List WakerSlotId} {id : WakerSlotId} {index : Nat} (hv : Vacant issued freed index)
    (hne : (splitId id).2 ≠ index) : Vacant (id :: issued) freed index := by
  intro other hother hi
  rcases mem_cons.mp hother with rfl | hother
  · exact absurd hi hne
  · exact hv other hother hi

section

variable (h : SlotsInv s)
include h

theorem SlotsInv.reuse {index : Nat} (ht : s.threads t = .reuse index) : SlotsInv (s.reuse t index) := by
  have hholds : (Pc.holds ∘ s.threads) t = some index := by
    show (s.threads t).holds = _
    rw [ht]
    rfl
  obtain ⟨hlt, hv⟩ := h.spares.vacant index (.inr ⟨t, hholds⟩)
  unfold Sys.reuse
  split
  · exact h.put (.inl rfl) nofun
  · rename_i state hs
    unfold SlotState.reuse
    by_cases hstate : (state.retired || state.generation == 0) = true
    · rw [if_pos hstate]
      exact h.put (.inl rfl) nofun
    · rw [if_neg hstate]
      simp only [Bool.or_eq_true, beq_iff_eq, not_or, Bool.not_eq_true] at hstate
      have hsplit : splitId (slotId state.generation index) = (state.generation, index) :=
        splitId_slotId (lt_of_lt_of_le hlt h.generations.length)
      refine ⟨h.generations.issue hs hstate.1 hstate.2 hv h.sub, fun id hid => mem_cons_of_mem _ (h.sub id hid),
        calls_put (fun u c hc => mem_cons_of_mem _ (h.calls u c hc)) nofun, ?_⟩
      show Spares _ _ (Pc.holds ∘ (s.put t .idle).threads) _
      rw [holds_put]
      -- the index is not spare any more: the thread was the only one to have it
      refine (h.spares.drop t).mono le_rfl fun i hi hvi => vacant_issue hvi ?_
      rw [hsplit]
      rintro rfl
      obtain ⟨hnot, hone⟩ := h.spares.apart t _ hholds
      rcases hi with hi | ⟨u, hu⟩
      · exact hnot hi
      · rcases update_some hu with ⟨-, hnone⟩ | ⟨hne, hu⟩
        · cases hnone
        · exact hne (hone u hu)

theorem SlotsInv.grow : SlotsInv (s.grow t) := by
  unfold Sys.grow
  split
  swap
  · exact h.put (.inl rfl) nofun
  · rename_i hlt
    refine ⟨h.generations.grow hlt h.sub, fun id hid => mem_cons_of_mem _ (h.sub id hid),
      calls_put (fun u c hc => mem_cons_of_mem _ (h.calls u c hc)) nofun, ?_⟩
    show Spares (s.table.slots ++ [SlotState.new]).length _ (Pc.holds ∘ (s.put t .idle).threads) _
    rw [holds_put]
    refine (h.spares.drop t).mono (by rw [length_append]; exact Nat.le_add_right _ _) fun i hi hvi =>
      vacant_issue hvi ?_
    rw [splitId_slotId hlt]
    exact fun heq => absurd ((h.spares.drop t).vacant i hi).1 (heq ▸ lt_irrefl _)

theorem SlotsInv.pop : SlotsInv (s.pop t) := by
  unfold Sys.pop
  split
  · exact h.put (.inl rfl) nofun
  · rename_i index free hfree
    refine ⟨h.generations, h.sub, calls_put h.calls nofun, ?_⟩
    show Spares _ _ (Pc.holds ∘ (s.put t (.reuse index)).threads) _
    rw [holds_put]
    have hspares := h.spares
    rw [hfree] at hspares
    exact hspares.pop

theorem SlotsInv.recycle {index : Nat}
    (ht : s.threads t = .busy none (some index) calls) : SlotsInv (s.recycle t index calls) := by
  refine ⟨h.generations, h.sub, calls_put h.calls fun c hc => h.calls t c (by rw [ht]; exact hc), ?_⟩
  show Spares _ _ (Pc.holds ∘ (s.put t (.busy none none calls)).threads) _
  rw [holds_put]
  refine h.spares.push ?_
  show (s.threads t).holds = _
  rw [ht]
  rfl

theorem SlotsInv.call (ht : s.threads t = .busy none none (c :: calls)) :
    SlotsInv (s.call t c calls) := by
  have hcalls : ∀ d ∈ c :: calls, d.id ∈ s.issued := fun d hd => h.calls t d (by rw [ht]; exact hd)
  have hid := hcalls c mem_cons_self
  have hrest : ∀ d ∈ calls, d.id ∈ s.issued := fun d hd => hcalls d (mem_cons_of_mem _ hd)
  -- a call that gives no index back and frees nothing
  have hquiet : ∀ table' : WakerTable, (c.exec s.table).1 = table' → (c.exec s.table).2.recycle = none →
      (c.frees && s.table.live c.id) = false → Generations table'.slots s.issued s.freed →
      table'.slots.length = s.table.slots.length → table'.free = s.table.free → SlotsInv (s.call t c calls) := by
    intro table' htable hnone hfreed hgen hlen hfree
    unfold Sys.call
    rw [htable, hnone, if_neg (by rw [hfreed]; exact Bool.false_ne_true)]
    refine ⟨hgen, h.sub, calls_put h.calls hrest, ?_⟩
    show Spares table'.slots.length table'.free (Pc.holds ∘ (s.put t _).threads) _
    rw [holds_put, hlen, hfree]
    exact h.spares.drop t
  by_cases hfree : ∃ id, c = .free id
  · obtain ⟨id, rfl⟩ := hfree
    change id ∈ s.issued at hid
    by_cases hl : s.table.live id = true
    swap
    · have hstale := exec_stale (c := .free id) (Bool.not_eq_true _ ▸ hl)
      exact hquiet s.table (by rw [hstale]) (by rw [hstale]; rfl) (Bool.not_eq_true _ ▸ hl) h.generations rfl rfl
    · obtain ⟨state, hs, hlive⟩ := exists_of_live hl
      have hnew : id ∉ s.freed := fun hf => by
        rw [h.generations.stale hid hf] at hl
        cases hl
      unfold Sys.call
      rw [exec_free hs hlive, if_pos (show ((Call.free id).frees && s.table.live (Call.free id).id) = true from hl)]
      refine ⟨h.generations.free hid hs hlive, ?_, calls_put h.calls hrest, ?_⟩
      · intro other hother
        rcases mem_cons.mp hother with rfl | hother
        · exact hid
        · exact h.sub other hother
      · show Spares (s.table.slots.set _ _).length s.table.free (Pc.holds ∘ (s.put t _).threads) _
        rw [holds_put, length_set]
        have hmono : Spares s.table.slots.length s.table.free (Pc.holds ∘ s.threads)
            (Vacant s.issued (id :: s.freed)) :=
          h.spares.mono le_rfl fun i _ hv other hother hi => mem_cons_of_mem _ (hv other hother hi)
        show Spares _ _ (update _ t (if state.release.2.2 then some (splitId id).2 else none)) _
        split
        · -- the slot was taken, so its index was nowhere else
          refine hmono.take ?_ (List.getElem?_eq_some_iff.mp hs).1 ?_
          · exact fun hspare => hnew ((h.spares.vacant _ hspare).2 id hid rfl)
          · intro other hother hi
            by_cases hf : other ∈ s.freed
            · exact mem_cons_of_mem _ hf
            · rw [h.generations.apart hother hid hf hnew hi]
              exact mem_cons_self
        · exact hmono.drop t
  · have hnot : ∀ id, c ≠ .free id := fun id heq => hfree ⟨id, heq⟩
    have hmatch : (c.frees && s.table.live c.id) = false := by
      cases c with
      | free id => exact absurd rfl (hnot id)
      | _ => rfl
    have hkeeps : (c.exec s.table).2.recycle = none ∧ Keeps s.table c.id (c.exec s.table).1 := exec_keeps hnot
    obtain ⟨hnone, heq | ⟨state, state', hs, hsame, heq⟩⟩ := hkeeps
    · exact hquiet s.table heq hnone hmatch h.generations rfl rfl
    · exact hquiet _ heq hnone hmatch (h.generations.keep hs hsame) (length_set) rfl

/-- **Every thread keeps the invariant.** -/
theorem SlotsInv.step {allowed : Call → Prop} {woken : Option Waker} {s' : Sys}
    (hs : s.Step allowed woken s') : SlotsInv s' := by
  cases hs with
  | begin hidle hids => exact h.put (.inl rfl) fun c hc => (hids c hc).1
  | alloc hidle => exact h.put (.inl rfl) nofun
  | pop ht => exact h.pop
  | reuse ht => exact h.reuse ht
  | grow ht => exact h.grow
  | call ht => exact h.call ht
  | recycle ht => exact h.recycle ht
  | wake ht =>
    rename_i t id waker recycle calls
    exact h.put (.inr (by rw [ht]; rfl)) fun c hc => h.calls t c (by rw [ht]; exact hc)

end

end Steps

/-- The states of a table and its threads, whatever calls they make. -/
def SlotsReachable (s : Sys) : Prop :=
  Reachable (· = Sys.new) (fun s s' => ∃ woken, s.Step (fun _ => True) woken s') s

theorem slotsInv_reachable {s : Sys} (h : SlotsReachable s) : SlotsInv s :=
  h.invariant (fun _ h0 => h0 ▸ slotsInv_new) fun _ _ _ hi ⟨_, hs⟩ => hi.step hs

end Pie.Proof.Wakers
