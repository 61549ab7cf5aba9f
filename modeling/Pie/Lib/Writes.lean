import Mathlib.Data.List.Basic

/-!
# Writes to slots

Slots are written one write after another, and of some writes only where they start
is known. What the known ones say, short of what the others may have changed, is
certain. A log of the slots stays certain when an unknown write cuts it, and when the
rows of a known one replace what follows their start.
-/

namespace Pie.Lib.Writes

open List Option

variable {α : Type*}

/-- What a write left in the slots; below its cut it leaves nothing. -/
structure Write (α : Type*) where
  cut : Nat
  wrote : Nat → Option α
  known : Bool
  above : ∀ i, i < cut → wrote i = none

/-- Values for the slots from one on. -/
def rows (start : Nat) (values : List α) (i : Nat) : Option α :=
  if start ≤ i then values[i - start]? else none

theorem rows_below {start i : Nat} {values : List α} (h : i < start) : rows start values i = none :=
  if_neg (by omega)

/-- What a slot holds for certain after the writes, the latest of them first. -/
def certain : List (Write α) → Nat → Option α
  | [], _ => none
  | w :: older, i =>
    if w.known = true then (w.wrote i).or (certain older i)
    else if w.cut ≤ i then none
    else certain older i

/-- The log's entries are what its slots hold for certain. -/
def Agrees (log : List α) (writes : List (Write α)) : Prop :=
  ∀ i a, log[i]? = some a → certain writes i = some a

variable {writes newer older : List (Write α)} {w v : Write α} {log : List α} {i start : Nat} {a : α}

theorem certain_known (h : w.known = true) : certain (w :: older) i = (w.wrote i).or (certain older i) :=
  if_pos h

theorem certain_unknown (h : w.known = false) :
    certain (w :: older) i = if w.cut ≤ i then none else certain older i := by
  rw [certain, if_neg (by rw [h]; exact Bool.false_ne_true)]

theorem latest_of_certain (h : certain writes i = some a) : writes.findSome? (fun w => w.wrote i) = some a := by
  induction writes with
  | nil => cases h
  | cons w older ih =>
    rw [findSome?_cons]
    cases hk : w.known with
    | true =>
      rw [certain_known hk] at h
      cases hw : w.wrote i with
      | none =>
        rw [hw, none_or] at h
        exact ih h
      | some b =>
        rw [hw, some_or] at h
        exact h
    | false =>
      rw [certain_unknown hk] at h
      split at h
      · cases h
      · rename_i hcut
        rw [w.above i (by omega)]
        exact ih h

theorem replaced_of_certain (h : certain (newer ++ v :: older) i = some a) (hv : v.known = false) (hcut : v.cut ≤ i) :
    ∃ w ∈ newer, w.known = true ∧ (w.wrote i).isSome := by
  induction newer with
  | nil =>
    rw [nil_append, certain_unknown hv, if_pos hcut] at h
    cases h
  | cons w newer ih =>
    rw [cons_append] at h
    cases hk : w.known with
    | true =>
      cases hw : w.wrote i with
      | some b => exact ⟨w, mem_cons_self, hk, by rw [hw]; rfl⟩
      | none =>
        rw [certain_known hk, hw, none_or] at h
        obtain ⟨u, hu, hs⟩ := ih h
        exact ⟨u, mem_cons_of_mem _ hu, hs⟩
    | false =>
      rw [certain_unknown hk] at h
      split at h
      · cases h
      · obtain ⟨u, hu, hs⟩ := ih h
        exact ⟨u, mem_cons_of_mem _ hu, hs⟩

theorem Agrees.nil : Agrees [] writes := by
  intro i a h
  cases h

/-- Unknown writes change nothing below all their cuts. -/
theorem Agrees.cut {cut : Nat} (h : Agrees log older) (hnewer : ∀ w ∈ newer, w.known = false ∧ cut ≤ w.cut) :
    Agrees (log.take cut) (newer ++ older) := by
  intro i a hi
  rw [getElem?_take] at hi
  split at hi
  · rename_i hlt
    have hskip : certain (newer ++ older) i = certain older i := by
      clear h hi
      induction newer with
      | nil => rfl
      | cons w newer ih =>
        obtain ⟨hk, hcut⟩ := hnewer w mem_cons_self
        rw [cons_append, certain_unknown hk, if_neg (by omega)]
        exact ih fun u hu => hnewer u (mem_cons_of_mem _ hu)
    rw [hskip]
    exact h i a hi
  · cases hi

theorem Agrees.unknown (h : Agrees log older) (hk : w.known = false) : Agrees (log.take w.cut) (w :: older) := by
  have hone : ∀ v ∈ [w], v.known = false ∧ w.cut ≤ v.cut := by
    intro v hv
    rw [mem_singleton.mp hv]
    exact ⟨hk, Nat.le_refl _⟩
  exact h.cut hone

/-- The rows of a known write take the place of what follows their start. -/
theorem Agrees.rows (h : Agrees log older) (hk : w.known = true) {values : List α}
    (hw : w.wrote = Writes.rows start values) :
    Agrees (if (log.take start).length = start then log.take start ++ values else log.take start) (w :: older) := by
  have hbelow : ∀ i a, (log.take start)[i]? = some a → certain (w :: older) i = some a := by
    intro i a hi
    rw [getElem?_take] at hi
    split at hi
    · rename_i hlt
      rw [certain_known hk, hw, rows_below hlt, none_or]
      exact h i a hi
    · cases hi
  split
  · rename_i hlen
    intro i a hi
    rcases Nat.lt_or_ge i start with hlt | hge
    · rw [getElem?_append_left (by omega)] at hi
      exact hbelow i a hi
    · rw [getElem?_append_right (by omega), hlen] at hi
      rw [certain_known hk, hw, Writes.rows, if_pos hge, hi, some_or]
  · exact hbelow

end Pie.Lib.Writes
