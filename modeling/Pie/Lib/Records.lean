import Mathlib.Tactic

/-!
# Records of one width

Records written one after the other, and read where each begins.
-/

namespace Pie.Lib.Records

open List

variable {n here width k m : Nat} {γ : Type}

variable {α β : Type}

/-- `n` elements from a place on. -/
def slice (l : List α) (here n : Nat) : List α := (l.drop here).take n

variable {l a c : List α} {write : β → List α} {xs : List β}

theorem slice_append_slice : slice l here m ++ slice l (here + m) n = slice l here (m + n) := by
  rw [slice, slice, slice, ← drop_drop, ← take_add]

theorem slice_extend (h : m + n = k) : slice l 0 m ++ slice l m n = slice l 0 k := by
  rw [← h, ← slice_append_slice, zero_add]

theorem slice_whole : slice l 0 l.length = l := by
  rw [slice, drop_zero, take_length]

theorem slice_length (h : here + n ≤ l.length) : (slice l here n).length = n := by
  rw [slice, length_take, length_drop]
  omega

theorem slice_slice {here m off n : Nat} (h : off + n ≤ m) :
    slice (slice l here m) off n = slice l (here + off) n := by
  rw [slice, slice, slice, drop_take, take_take, drop_drop, min_eq_left (by omega)]

theorem slice_append {a b c : List α} (ha : a.length = here) (hb : b.length = n) :
    slice (a ++ b ++ c) here n = b := by
  rw [slice, append_assoc, drop_left' ha, take_left' hb]

/-- Records that follow each other are one slice. -/
theorem flatMap_slice : (range n).flatMap (fun k => slice l (here + width * k) width) = slice l here (width * n) := by
  induction n with
  | zero => rfl
  | succ n ih =>
    rw [range_succ, flatMap_append, flatMap_singleton, ih, slice_append_slice, Nat.mul_succ]

/-- What holds where a record is written holds at each record. -/
theorem records_at {P : List α → Nat → β → Prop}
    (hread : ∀ a x c, P (a ++ write x ++ c) a.length x) (hwidth : ∀ x, (write x).length = width) (hk : k < xs.length) : P (a ++ xs.flatMap write ++ c) (a.length + width * k) xs[k] := by
  have hsplit : a ++ xs.flatMap write ++ c
      = (a ++ (xs.take k).flatMap write) ++ write xs[k] ++ ((xs.drop (k + 1)).flatMap write ++ c) := by
    conv_lhs => rw [← take_append_drop k xs, drop_eq_getElem_cons hk]
    simp only [flatMap_append, flatMap_cons, append_assoc]
  have hlen : (a ++ (xs.take k).flatMap write).length = a.length + width * k := by
    have hsum : ((xs.take k).map fun x => (write x).length).sum = k * width := by
      simp only [hwidth, map_const', sum_replicate, length_take, min_eq_left (le_of_lt hk), smul_eq_mul]
    rw [length_append, length_flatMap, hsum, mul_comm]
  rw [hsplit, ← hlen]
  exact hread _ _ _

/-- What is read at each record is what was written. -/
theorem map_read {read : List α → Nat → γ} {view : β → γ}
    (hread : ∀ a x c, read (a ++ write x ++ c) a.length = view x) (hwidth : ∀ x, (write x).length = width) :
    (range xs.length).map (fun k => read (a ++ xs.flatMap write ++ c) (a.length + width * k)) = xs.map view := by
  refine ext_getElem (by rw [length_map, length_map, length_range]) fun k _ hk => ?_
  rw [length_map] at hk
  rw [getElem_map, getElem_map, getElem_range]
  exact records_at (P := fun b here x => read b here = view x) hread hwidth hk

/-- What is read at each record, beside what is there already. -/
theorem zipIdx_read {read : List α → Nat → γ → γ} {before view : β → γ}
    (hread : ∀ a x c, read (a ++ write x ++ c) a.length (before x) = view x) (hwidth : ∀ x, (write x).length = width) :
    (xs.map before).zipIdx.map (fun l => read (a ++ xs.flatMap write ++ c) (a.length + width * l.2) l.1) = xs.map view := by
  refine ext_getElem (by rw [length_map, length_zipIdx, length_map, length_map]) fun k _ hk => ?_
  rw [length_map] at hk
  rw [getElem_map, getElem_map, getElem_zipIdx, getElem_map, zero_add]
  exact records_at (P := fun b here x => read b here (before x) = view x) hread hwidth hk

theorem mapM_eq_pure {m : Type → Type} [Monad m] [LawfulMonad m] {f : α → m β} {g : α → β}
    (h : ∀ x ∈ l, f x = pure (g x)) : l.mapM f = pure (l.map g) := by
  induction l with
  | nil => rfl
  | cons x l ih =>
    rw [mapM_cons, h x mem_cons_self, pure_bind, ih fun y hy => h y (mem_cons_of_mem _ hy), pure_bind, map_cons]

end Pie.Lib.Records
