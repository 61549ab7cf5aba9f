import Mathlib.Data.List.Basic
import Mathlib.Data.Nat.ModEq

/-!
# Rings

A sequence goes through a ring of cells: number `n` lies in the cell `n` modulo
the number of cells. The cells hold a window of the sequence, from the first
number that was not read to the first that was not written.
-/

namespace Pie.Lib.Rings

open List

variable {α : Type*} {cells seq : List α} {lo hi : Nat}

/-- The cells hold the numbers from `lo` up to `hi`. -/
structure Window (cells seq : List α) (lo hi : Nat) : Prop where
  le : lo ≤ hi
  within : hi ≤ seq.length
  holds : ∀ n, lo ≤ n → n < hi → cells[n % cells.length]? = seq[n]?

theorem Window.empty (h : lo ≤ seq.length) : Window cells seq lo lo :=
  ⟨le_rfl, h, fun _ hl hh => absurd hl (Nat.not_le_of_lt hh)⟩

/-- What comes later in the sequence does not matter. -/
theorem Window.append (h : Window cells seq lo hi) (more : List α) : Window cells (seq ++ more) lo hi where
  le := h.le
  within := le_trans h.within (by rw [length_append]; exact Nat.le_add_right _ _)
  holds n hl hh := by
    rw [h.holds n hl hh, getElem?_append_left (lt_of_lt_of_le hh h.within)]

theorem Window.advance (h : Window cells seq lo hi) (hlt : lo < hi) : Window cells seq (lo + 1) hi :=
  ⟨hlt, h.within, fun n hl hh => h.holds n (Nat.le_of_succ_le hl) hh⟩

theorem mod_ne {m n len : Nat} (hlt : m < n) (hn : n < m + len) : m % len ≠ n % len := by
  intro heq
  have hdvd : len ∣ n - m := (Nat.modEq_iff_dvd' (le_of_lt hlt)).mp heq
  have := Nat.le_of_dvd (by omega) hdvd
  omega

/-- Where there is room, the next of the sequence is written over a cell that was read. -/
theorem Window.write {a : α} (h : Window cells seq lo hi) (hroom : hi < lo + cells.length) (ha : seq[hi]? = some a) :
    Window (cells.set (hi % cells.length) a) seq lo (hi + 1) where
  le := Nat.le_succ_of_le h.le
  within := (List.getElem?_eq_some_iff.mp ha).1
  holds n hl hh := by
    have hlt : hi % cells.length < cells.length := Nat.mod_lt _ (by omega)
    rw [length_set]
    rcases lt_or_eq_of_le (Nat.le_of_lt_succ hh) with hn | rfl
    · have hne : hi % cells.length ≠ n % cells.length := (mod_ne hn (by omega)).symm
      rw [getElem?_set_ne hne]
      exact h.holds n hl hn
    · rw [getElem?_set_self hlt, ha]

section

variable {κ : Type*} [DecidableEq κ] {cell : Nat → κ} {m n : Nat}

/-- A number is written into its cell. -/
def write (cell : Nat → κ) (held : κ → Option Nat) (n : Nat) : κ → Option Nat :=
  fun c => if c = cell n then some n else held c

theorem foldl_write_keep {held : κ → Option Nat} {l : List Nat} {c : κ} (h : ∀ m ∈ l, cell m ≠ c) :
    l.foldl (write cell) held c = held c := by
  induction l generalizing held with
  | nil => rfl
  | cons m l ih =>
    obtain ⟨hm, hl⟩ := forall_mem_cons.mp h
    rw [foldl_cons, ih hl, write, if_neg (Ne.symm hm)]

/-- The numbers below `n` written one after the other: each is where it was written, if no later one has its cell. -/
theorem written_cell {held : κ → Option Nat} (hm : m < n) (h : ∀ k, m < k → k < n → cell k ≠ cell m) :
    (range n).foldl (write cell) held (cell m) = some m := by
  obtain ⟨d, rfl⟩ : ∃ d, n = m + 1 + d := ⟨n - (m + 1), by omega⟩
  rw [range_add, foldl_append, foldl_write_keep, range_succ, foldl_append, foldl_cons, foldl_nil, write, if_pos rfl]
  intro k hk
  obtain ⟨i, hi, rfl⟩ := mem_map.mp hk
  have := mem_range.mp hi
  exact h _ (by omega) (by omega)

end

end Pie.Lib.Rings
