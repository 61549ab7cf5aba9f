import Mathlib

/-!
# Generational maps

The arena both stores keep their working sets and trie nodes in. A slot carries
a generation; a key names a slot *and* the generation it was handed out under,
so a key that outlives its value never reads the slot's next tenant.

Two views of a map are used above this file. `get` says what a key reads now,
and `Issued` says that a key was handed out at some point: the key of an insert
is never an issued one, which is what keeps a stale location stale for good.

Generations are natural numbers: the source's `u32` wraps after `2^32` reuses of
one slot, which no statement here counts up to.
-/

namespace Pie.Store

open List

/-- A key into a `GenMap`; `M` only keeps the keys of two maps apart. -/
structure GenKey (M : Type) where
  index : Nat
  generation : Nat
deriving Repr

instance {M : Type} : DecidableEq (GenKey M) := fun a b =>
  decidable_of_iff (a.index = b.index ∧ a.generation = b.generation) (by
    cases a; cases b; simp)

structure Slot (T : Type) where
  generation : Nat
  value : Option T

/--
Slots, and the stack of indices that can be handed out again (top first). A
stacked index is vacant, and is stacked once.
-/
structure GenMap (M T : Type) where
  slots : List (Slot T)
  free : List Nat
  free_nodup : free.Nodup
  free_vacant : ∀ i ∈ free, ∃ g, slots[i]? = some ⟨g, none⟩

namespace GenMap

variable {M T : Type}

def empty : GenMap M T := ⟨[], [], List.nodup_nil, by simp⟩

def get (m : GenMap M T) (k : GenKey M) : Option T :=
  match m.slots[k.index]? with
  | none => none
  | some s => if s.generation = k.generation then s.value else none

def contains (m : GenMap M T) (k : GenKey M) : Bool := (m.get k).isSome

/-- `k` was handed out by an insert, whether or not its value is still there. -/
def Issued (m : GenMap M T) (k : GenKey M) : Prop :=
  ∃ s, m.slots[k.index]? = some s ∧
    (k.generation < s.generation ∨ (k.generation = s.generation ∧ s.value.isSome))

variable {v : T} {k k' : GenKey M} {m : GenMap M T} {l : List (Slot T)}

/-- A vacant slot stays vacant when a live one is written. -/
theorem vacant_set {slots : List (Slot T)} {i j g : Nat} {s : Slot T}
    (hi : slots[i]? = some s) (hs : s.value.isSome) (hj : slots[j]? = some ⟨g, none⟩)
    (w : Slot T) (_hw : w.value = some v) : (slots.set i w)[j]? = some ⟨g, none⟩ := by
  have hij : i ≠ j := by
    intro he
    subst he
    rw [hi] at hj
    cases hj
    simp at hs
  rw [getElem?_set_ne hij]
  exact hj

/-- Writing through `get_mut`: the slot keeps its generation. -/
def set (m : GenMap M T) (k : GenKey M) (v : T) : GenMap M T :=
  if h : (m.get k).isSome then
    { m with
      slots := m.slots.set k.index ⟨k.generation, some v⟩
      free_vacant := by
        intro j hj
        obtain ⟨g, hg⟩ := m.free_vacant j hj
        refine ⟨g, ?_⟩
        unfold get at h
        cases hi : m.slots[k.index]? with
        | none => rw [hi] at h; simp at h
        | some s =>
          rw [hi] at h
          dsimp only at h
          split at h
          · exact vacant_set hi h hg _ rfl
          · simp at h }
  else m

/-- Reuses the index stacked last, under its current generation, or grows the map. -/
def insert (m : GenMap M T) (v : T) : GenKey M × GenMap M T :=
  match hf : m.free with
  | i :: rest =>
    let g := (m.slots[i]?.map Slot.generation).getD 0
    (⟨i, g⟩,
      { slots := m.slots.set i ⟨g, some v⟩
        free := rest
        free_nodup := (List.nodup_cons.mp (hf ▸ m.free_nodup)).2
        free_vacant := by
          intro j hj
          have hnd := List.nodup_cons.mp (hf ▸ m.free_nodup)
          obtain ⟨g', hg'⟩ := m.free_vacant j (by rw [hf]; exact List.mem_cons_of_mem _ hj)
          have hij : i ≠ j := fun he => hnd.1 (he ▸ hj)
          exact ⟨g', by rw [List.getElem?_set_ne hij]; exact hg'⟩ })
  | [] =>
    (⟨m.slots.length, 0⟩,
      { slots := m.slots ++ [⟨0, some v⟩]
        free := []
        free_nodup := List.nodup_nil
        free_vacant := by simp })

/-- Empties a live slot and bumps its generation, so `k` reads nothing from now on. -/
def remove (m : GenMap M T) (k : GenKey M) : GenMap M T :=
  if h : (m.get k).isSome then
    { slots := m.slots.set k.index ⟨k.generation + 1, none⟩
      free := k.index :: m.free
      free_nodup := by
        refine List.nodup_cons.mpr ⟨?_, m.free_nodup⟩
        intro hmem
        obtain ⟨g, hg⟩ := m.free_vacant _ hmem
        unfold get at h
        rw [hg] at h
        dsimp only at h
        split at h <;> simp at h
      free_vacant := by
        have hlt : k.index < m.slots.length := by
          unfold get at h
          by_contra hge
          rw [List.getElem?_eq_none (by omega)] at h
          simp at h
        intro j hj
        rcases List.mem_cons.mp hj with rfl | hj
        · exact ⟨k.generation + 1, by simp [hlt]⟩
        · obtain ⟨g, hg⟩ := m.free_vacant j hj
          by_cases hij : k.index = j
          · subst hij; exact ⟨k.generation + 1, by simp [hlt]⟩
          · exact ⟨g, by rw [List.getElem?_set_ne hij]; exact hg⟩ }
  else m

/-- The live entries of a slot list whose first slot has index `n`. -/
def entriesFrom (M : Type) {T : Type} : Nat → List (Slot T) → List (GenKey M × T)
  | _, [] => []
  | n, s :: rest =>
    (match s.value with
      | some v => [(⟨n, s.generation⟩, v)]
      | none => []) ++ entriesFrom M (n + 1) rest

/-- `iter`: the live entries in slot order. -/
def entries (m : GenMap M T) : List (GenKey M × T) := entriesFrom M 0 m.slots

def keys (m : GenMap M T) : List (GenKey M) := m.entries.map Prod.fst

/-! ## What a key reads after an operation -/

theorem get_eq_some : m.get k = some v ↔ m.slots[k.index]? = some ⟨k.generation, some v⟩ := by
  unfold get
  cases h : m.slots[k.index]? with
  | none => simp
  | some s =>
    obtain ⟨g, w⟩ := s
    by_cases hg : g = k.generation
    · subst hg; simp
    · simp [hg]

theorem get_isSome : (m.get k).isSome ↔ ∃ v, m.get k = some v := Option.isSome_iff_exists

@[simp] theorem get_empty (k : GenKey M) : (empty : GenMap M T).get k = none := by
  simp [get, empty]

theorem lt_of_get (h : m.get k = some v) : k.index < m.slots.length := by
  rw [get_eq_some] at h
  exact (List.getElem?_eq_some_iff.mp h).1

theorem get_set_self {v w : T} (h : m.get k = some w) : (m.set k v).get k = some v := by
  have hs : (m.get k).isSome := by rw [h]; rfl
  rw [get_eq_some]
  simp only [set, hs, dite_true]
  simp [lt_of_get h]

theorem get_set_of_ne (hne : k' ≠ k) : (m.set k v).get k' = m.get k' := by
  unfold set
  split
  · rename_i h
    obtain ⟨w, hw⟩ := get_isSome.mp h
    by_cases hi : k.index = k'.index
    · have hg : k.generation ≠ k'.generation := by
        intro hg
        exact hne (by cases k; cases k'; simp_all)
      rw [get_eq_some, hi] at hw
      simp only [get, ← hi]
      rw [getElem?_set_self (lt_of_get (get_isSome.mp h).choose_spec), hi, hw]
      simp [hg]
    · simp only [get]
      rw [getElem?_set_ne hi]
  · rfl

theorem get_set {v w : T} (h : m.get k = some w) : (m.set k v).get k' = if k' = k then some v else m.get k' := by
  split
  · rename_i he; subst he; exact get_set_self h
  · rename_i hne; exact get_set_of_ne hne

theorem get_remove_self (m : GenMap M T) (k : GenKey M) : (m.remove k).get k = none := by
  unfold remove
  split
  · rename_i h
    have hlt := lt_of_get (get_isSome.mp h).choose_spec
    simp [get, hlt]
  · rename_i h
    exact Option.not_isSome_iff_eq_none.mp h

theorem get_remove_of_ne (hne : k' ≠ k) : (m.remove k).get k' = m.get k' := by
  unfold remove
  split
  · rename_i h
    obtain ⟨w, hw⟩ := get_isSome.mp h
    by_cases hi : k.index = k'.index
    · have hg : k.generation ≠ k'.generation := by
        intro hg
        exact hne (by cases k; cases k'; simp_all)
      have hlt := lt_of_get hw
      rw [get_eq_some, hi] at hw
      rw [hi] at hlt
      simp only [get, hi]
      rw [getElem?_set_self hlt, hw]
      simp [hg]
    · simp only [get]
      rw [getElem?_set_ne hi]
  · rfl

theorem get_remove : (m.remove k).get k' = if k' = k then none else m.get k' := by
  split
  · rename_i he; subst he; exact get_remove_self m k'
  · rename_i hne; exact get_remove_of_ne hne

/-- What an insert changes: one slot, vacant or new, under the key it hands out. -/
theorem insert_slots (m : GenMap M T) (v : T) : (∃ i g, m.slots[i]? = some ⟨g, none⟩ ∧ (m.insert v).1 = ⟨i, g⟩
      ∧ (m.insert v).2.slots = m.slots.set i ⟨g, some v⟩) ∨
    ((m.insert v).1 = ⟨m.slots.length, 0⟩ ∧ (m.insert v).2.slots = m.slots ++ [⟨0, some v⟩]) := by
  unfold insert
  split
  · rename_i i rest hf
    obtain ⟨g, hg⟩ := m.free_vacant i (by rw [hf]; exact mem_cons_self)
    exact .inl ⟨i, g, hg, by simp [hg], by simp [hg]⟩
  · exact .inr ⟨rfl, rfl⟩

theorem get_insert_self (m : GenMap M T) (v : T) : (m.insert v).2.get (m.insert v).1 = some v := by
  rw [get_eq_some]
  rcases insert_slots m v with ⟨i, g, hi, hk, hs⟩ | ⟨hk, hs⟩
  · have hlt := (List.getElem?_eq_some_iff.mp hi).1
    simp [hk, hs, hlt]
  · simp [hk, hs]

theorem get_insert_key (m : GenMap M T) (v : T) : m.get (m.insert v).1 = none := by
  rcases insert_slots m v with ⟨i, g, hi, hk, _⟩ | ⟨hk, _⟩
  · simp [get, hk, hi]
  · simp [get, hk]

theorem get_insert_of_ne (hne : k ≠ (m.insert v).1) : (m.insert v).2.get k = m.get k := by
  rcases insert_slots m v with ⟨i, g, hi, hk, hs⟩ | ⟨hk, hs⟩
  · by_cases he : i = k.index
    · have hlt := (List.getElem?_eq_some_iff.mp hi).1
      have hg : g ≠ k.generation := by
        intro hg
        exact hne (by rw [hk]; cases k; simp_all)
      subst he
      simp only [get, hs, hi]
      rw [getElem?_set_self hlt]
      simp [hg]
    · simp [get, hs, getElem?_set_ne he]
  · have hk' : k.index = m.slots.length → k.generation ≠ 0 := by
      intro h1 h2
      exact hne (by rw [hk]; cases k; simp_all)
    simp only [get, hs]
    rcases lt_trichotomy k.index m.slots.length with hlt | heq | hgt
    · rw [getElem?_append_left hlt]
    · rw [heq, getElem?_append_right le_rfl]
      simp [Ne.symm (hk' heq)]
    · rw [getElem?_eq_none (by simp; omega), getElem?_eq_none (by omega)]

theorem get_insert : (m.insert v).2.get k = if k = (m.insert v).1 then some v else m.get k := by
  split
  · rename_i he; subst he; exact get_insert_self m v
  · rename_i hne; exact get_insert_of_ne hne

theorem ne_insert_of_get {v w : T} (h : m.get k = some w) : k ≠ (m.insert v).1 := by
  intro he
  rw [he, get_insert_key] at h
  simp at h

/-! ## Issued keys -/

theorem issued_of_get (h : m.get k = some v) : m.Issued k := by
  rw [get_eq_some] at h
  exact ⟨_, h, .inr ⟨rfl, rfl⟩⟩

theorem not_issued_insert (m : GenMap M T) (v : T) : ¬ m.Issued (m.insert v).1 := by
  rintro ⟨s, hs, hg⟩
  rcases insert_slots m v with ⟨i, g, hi, hk, _⟩ | ⟨hk, _⟩
  · rw [hk] at hs hg
    rw [hi] at hs
    cases hs
    rcases hg with hg | ⟨_, hg⟩
    · exact lt_irrefl _ hg
    · simp at hg
  · rw [hk] at hs
    simp at hs

theorem issued_set (h : m.Issued k') : (m.set k v).Issued k' := by
  obtain ⟨s, hs, hg⟩ := h
  unfold set
  split
  · rename_i hk
    obtain ⟨w, hw⟩ := get_isSome.mp hk
    have hlt := lt_of_get hw
    rw [get_eq_some] at hw
    by_cases hi : k.index = k'.index
    · rw [hi] at hw hlt
      rw [hw] at hs
      cases hs
      refine ⟨⟨k.generation, some v⟩, by simp [hi, hlt], ?_⟩
      rcases hg with hg | ⟨hg, _⟩
      · exact .inl hg
      · exact .inr ⟨hg, rfl⟩
    · exact ⟨s, by rw [getElem?_set_ne hi]; exact hs, hg⟩
  · exact ⟨s, hs, hg⟩

theorem issued_remove (h : m.Issued k') : (m.remove k).Issued k' := by
  obtain ⟨s, hs, hg⟩ := h
  unfold remove
  split
  · rename_i hk
    obtain ⟨w, hw⟩ := get_isSome.mp hk
    have hlt := lt_of_get hw
    rw [get_eq_some] at hw
    by_cases hi : k.index = k'.index
    · rw [hi] at hw hlt
      rw [hw] at hs
      cases hs
      refine ⟨⟨k.generation + 1, none⟩, by simp [hi, hlt], .inl ?_⟩
      dsimp only at hg ⊢
      omega
    · exact ⟨s, by rw [getElem?_set_ne hi]; exact hs, hg⟩
  · exact ⟨s, hs, hg⟩

theorem issued_insert (h : m.Issued k) : (m.insert v).2.Issued k := by
  obtain ⟨s, hs, hg⟩ := h
  rcases insert_slots m v with ⟨i, g, hi, _, he⟩ | ⟨_, he⟩
  · have hlt := (List.getElem?_eq_some_iff.mp hi).1
    by_cases hik : i = k.index
    · subst hik
      rw [hi] at hs
      cases hs
      refine ⟨⟨g, some v⟩, by simp [he, hlt], ?_⟩
      rcases hg with hg | ⟨_, hg⟩
      · exact .inl hg
      · simp at hg
    · exact ⟨s, by rw [he, getElem?_set_ne hik]; exact hs, hg⟩
  · have hlt := (List.getElem?_eq_some_iff.mp hs).1
    exact ⟨s, by rw [he, getElem?_append_left hlt]; exact hs, hg⟩

/-! ## The entries, and what an operation does to them

Sums and counts over a map follow the entry list; each operation changes it at
one place and keeps both sides of that place as they are.
-/

theorem entriesFrom_append (n : Nat) (l₁ l₂ : List (Slot T)) :
    entriesFrom M n (l₁ ++ l₂) = entriesFrom M n l₁ ++ entriesFrom M (n + l₁.length) l₂ := by
  induction l₁ generalizing n with
  | nil => simp [entriesFrom]
  | cons s l₁ ih =>
    simp only [cons_append, entriesFrom, ih, append_assoc, length_cons]
    rw [show n + 1 + l₁.length = n + (l₁.length + 1) by omega]

/-- A slot list split at index `i`. -/
theorem slots_split {i : Nat} {s : Slot T} (h : l[i]? = some s) :
    ∃ l₁ l₂, l = l₁ ++ s :: l₂ ∧ l₁.length = i ∧ ∀ w, l.set i w = l₁ ++ w :: l₂ := by
  obtain ⟨hlt, he⟩ := List.getElem?_eq_some_iff.mp h
  refine ⟨l.take i, l.drop (i + 1), ?_, by simp; omega, ?_⟩
  · rw [← he, getElem_cons_drop, take_append_drop]
  · intro w
    rw [set_eq_take_append_cons_drop, if_pos hlt]

theorem entries_split (h : m.get k = some v) : ∃ l₁ l₂, m.entries = l₁ ++ (k, v) :: l₂
      ∧ (∀ w, (m.set k w).entries = l₁ ++ (k, w) :: l₂)
      ∧ (m.remove k).entries = l₁ ++ l₂ := by
  have hs : (m.get k).isSome := by rw [h]; rfl
  obtain ⟨l₁, l₂, hl, hn, hset⟩ := slots_split (get_eq_some.mp h)
  refine ⟨entriesFrom M 0 l₁, entriesFrom M (k.index + 1) l₂, ?_, ?_, ?_⟩
  · simp [entries, hl, entriesFrom_append, entriesFrom, hn]
  · intro w
    simp [entries, set, hs, hset, entriesFrom_append, entriesFrom, hn]
  · simp [entries, remove, hs, hset, entriesFrom_append, entriesFrom, hn]

theorem entries_insert (m : GenMap M T) (v : T) : ∃ l₁ l₂, m.entries = l₁ ++ l₂
      ∧ (m.insert v).2.entries = l₁ ++ ((m.insert v).1, v) :: l₂ := by
  rcases insert_slots m v with ⟨i, g, hi, hk, hs⟩ | ⟨hk, hs⟩
  · obtain ⟨l₁, l₂, hl, hn, hset⟩ := slots_split hi
    refine ⟨entriesFrom M 0 l₁, entriesFrom M (i + 1) l₂, ?_, ?_⟩
    · simp [entries, hl, entriesFrom_append, entriesFrom, hn]
    · simp [entries, hs, hset, hk, entriesFrom_append, entriesFrom, hn]
  · refine ⟨m.entries, [], by simp, ?_⟩
    simp [entries, hs, hk, entriesFrom_append, entriesFrom]

theorem mem_entriesFrom {n : Nat} : (k, v) ∈ entriesFrom M n l ↔
      n ≤ k.index ∧ l[k.index - n]? = some ⟨k.generation, some v⟩ := by
  induction l generalizing n with
  | nil => simp [entriesFrom]
  | cons s l ih =>
    obtain ⟨g, w⟩ := s
    simp only [entriesFrom, mem_append, ih]
    by_cases hn : k.index = n
    · subst hn
      cases w with
      | none => simp
      | some w =>
        cases k
        simp
        constructor
        · rintro ⟨rfl, rfl⟩; exact ⟨rfl, rfl⟩
        · rintro ⟨rfl, rfl⟩; exact ⟨rfl, rfl⟩
    · have hhead : (k, v) ∉ (match w with
          | some v => [((⟨n, g⟩ : GenKey M), v)]
          | none => []) := by
        cases w with
        | none => simp
        | some w => intro hm; simp at hm; exact hn (by rw [hm.1])
      constructor
      · rintro (hm | ⟨hle, hg⟩)
        · exact absurd hm hhead
        · refine ⟨by omega, ?_⟩
          rw [show k.index - n = (k.index - (n + 1)) + 1 by omega, getElem?_cons_succ]
          exact hg
      · rintro ⟨hle, hg⟩
        refine .inr ⟨by omega, ?_⟩
        rw [show k.index - n = (k.index - (n + 1)) + 1 by omega, getElem?_cons_succ] at hg
        exact hg

theorem mem_entries : (k, v) ∈ m.entries ↔ m.get k = some v := by
  rw [get_eq_some, entries, mem_entriesFrom]
  simp

theorem mem_keys : k ∈ m.keys ↔ ∃ v, m.get k = some v := by
  simp only [keys, mem_map, Prod.exists]
  constructor
  · rintro ⟨_, v, hm, rfl⟩; exact ⟨v, mem_entries.mp hm⟩
  · rintro ⟨v, hv⟩; exact ⟨k, v, mem_entries.mpr hv, rfl⟩

theorem entriesFrom_index_le {n : Nat} {e : GenKey M × T} (h : e ∈ entriesFrom M n l) : n ≤ e.1.index :=
  (mem_entriesFrom (k := e.1) (v := e.2).mp h).1

theorem entriesFrom_keys_nodup (n : Nat) (l : List (Slot T)) : ((entriesFrom M n l).map Prod.fst).Nodup := by
  induction l generalizing n with
  | nil => simp [entriesFrom]
  | cons s l ih =>
    obtain ⟨g, w⟩ := s
    cases w with
    | none => simpa [entriesFrom] using ih (n + 1)
    | some w =>
      simp only [entriesFrom, singleton_append, map_cons, nodup_cons]
      refine ⟨?_, ih (n + 1)⟩
      intro hm
      obtain ⟨e, he, hk⟩ := mem_map.mp hm
      have := entriesFrom_index_le he
      rw [hk] at this
      dsimp only at this
      omega

theorem keys_nodup (m : GenMap M T) : m.keys.Nodup := entriesFrom_keys_nodup 0 m.slots

theorem keys_length_le (m : GenMap M T) : m.keys.length ≤ m.slots.length := by
  have key : ∀ (l : List (Slot T)) (n : Nat), (entriesFrom M n l).length ≤ l.length := by
    intro l
    induction l with
    | nil => intro n; simp [entriesFrom]
    | cons s l ih =>
      intro n
      have := ih (n + 1)
      obtain ⟨g, w⟩ := s
      cases w <;> simp [entriesFrom] <;> omega
  simpa [keys, entries] using key m.slots 0

end GenMap

end Pie.Store
