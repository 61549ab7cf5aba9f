import Pie.Lib.Tilings

/-!
# Pointers into a list

A list of numbers that never decrease cuts another list: a part goes from one
number to the next. The numbers may be stated, or be where the parts that were
written one after the other end.
-/

namespace Pie.Lib

open List

variable {α β : Type*}

theorem cutsFrom_getElem? : ∀ {ends : List Nat} {a i : Nat},
    (cutsFrom a ends)[i]? = ((a :: ends)[i]?).bind fun start => ends[i]?.map fun stop => (start, stop) := by
  intro ends
  induction ends with
  | nil =>
    intro a i
    cases i <;> rfl
  | cons e ends ih =>
    intro a i
    cases i with
    | zero => rfl
    | succ i => exact ih

theorem cutsFrom_map (f : Nat → Nat) : ∀ {ends : List Nat} {a : Nat},
    cutsFrom (f a) (ends.map f) = (cutsFrom a ends).map (Prod.map f f) := by
  intro ends
  induction ends with
  | nil => exact rfl
  | cons e ends ih => exact congrArg _ ih

theorem cutsFrom_length : ∀ {ends : List Nat} {a : Nat}, (cutsFrom a ends).length = ends.length := by
  intro ends
  induction ends with
  | nil => exact rfl
  | cons e ends ih => exact congrArg (· + 1) ih

/-- Ends that never decrease make pieces that follow each other, some of them empty. -/
theorem tiles_cutsFrom : ∀ {ends : List Nat} {a : Nat}, (a :: ends).Pairwise (· ≤ ·) →
    Tiles a ((a :: ends).getLast?.getD a) (cutsFrom a ends) := by
  intro ends
  induction ends with
  | nil => exact fun _ => rfl
  | cons e ends ih =>
    intro a h
    obtain ⟨hle, h⟩ := pairwise_cons.mp h
    have hlast : ((a :: e :: ends).getLast?).getD a = ((e :: ends).getLast?).getD e := by
      rw [getLast?_cons_cons, getLast?_eq_some_getLast (cons_ne_nil e ends)]
      rfl
    rw [hlast]
    exact ⟨rfl, hle e mem_cons_self, ih h⟩

/-- Pieces that follow each other share out what lies between their ends. -/
theorem Tiles.perm_filter {xs : List α} {f : α → Nat} : ∀ {cuts : List (Nat × Nat)} {a b : Nat}, Tiles a b cuts →
    (cuts.flatMap fun c => xs.filter fun x => decide (c.1 ≤ f x ∧ f x < c.2)).Perm
      (xs.filter fun x => decide (a ≤ f x ∧ f x < b)) := by
  intro cuts
  induction cuts with
  | nil =>
    intro a b h
    obtain rfl : a = b := h
    rw [flatMap_nil, filter_eq_nil_iff.mpr fun x _ => by simp]
  | cons c cuts ih =>
    intro a b h
    obtain ⟨rfl, hc, h⟩ := h
    rw [flatMap_cons]
    refine ((ih h).append_left _).trans ?_
    -- an element between the ends is in the first piece, or after it
    have hfirst : (xs.filter fun x => decide (c.1 ≤ f x ∧ f x < c.2)) =
        (xs.filter fun x => decide (c.1 ≤ f x ∧ f x < b)).filter fun x => decide (f x < c.2) := by
      rw [filter_filter]
      refine filter_congr fun x _ => ?_
      rw [← Bool.decide_and]
      exact decide_eq_decide.mpr ⟨fun ⟨h₁, h₂⟩ => ⟨h₂, h₁, h₂.trans_le h.le⟩, fun ⟨h₁, h₂, _⟩ => ⟨h₂, h₁⟩⟩
    have hrest : (xs.filter fun x => decide (c.2 ≤ f x ∧ f x < b)) =
        (xs.filter fun x => decide (c.1 ≤ f x ∧ f x < b)).filter fun x => !decide (f x < c.2) := by
      rw [filter_filter]
      refine filter_congr fun x _ => ?_
      rw [← decide_not, ← Bool.decide_and]
      refine decide_eq_decide.mpr ⟨fun ⟨h₁, h₂⟩ => ⟨not_lt.mpr h₁, hc.trans h₁, h₂⟩, fun ⟨h₁, _, h₂⟩ => ?_⟩
      exact ⟨not_lt.mp h₁, h₂⟩
    rw [hfirst, hrest]
    exact filter_append_perm _ _

/-! ## Parts that were written one after the other -/

/-- Where parts of these lengths end. -/
def offsets : Nat → List Nat → List Nat
  | _, [] => []
  | a, n :: ns => (a + n) :: offsets (a + n) ns

theorem offsets_length : ∀ {ns : List Nat} {a : Nat}, (offsets a ns).length = ns.length := by
  intro ns
  induction ns with
  | nil => exact rfl
  | cons n ns ih => exact congrArg (· + 1) ih

theorem offsets_tiles : ∀ {ns : List Nat} {a : Nat}, Tiles a (a + ns.sum) (cutsFrom a (offsets a ns)) := by
  intro ns
  induction ns with
  | nil => exact rfl
  | cons n ns ih =>
    intro a
    rw [sum_cons, ← add_assoc]
    exact ⟨rfl, Nat.le_add_right a n, ih⟩

theorem mem_offsets_le : ∀ {ns : List Nat} {a : Nat}, ∀ e ∈ a :: offsets a ns, e ≤ a + ns.sum := by
  intro ns
  induction ns with
  | nil =>
    intro a e he
    rw [mem_singleton.mp he, sum_nil]
    exact le_refl a
  | cons n ns ih =>
    intro a e he
    rw [sum_cons, ← add_assoc]
    rcases mem_cons.mp he with rfl | he
    · omega
    · exact ih e he

theorem stretch_offsets : ∀ {parts : List (List α)} {before : List α} {i : Nat} {c : Nat × Nat},
    (cutsFrom before.length (offsets before.length (parts.map length)))[i]? = some c →
      ∃ part, parts[i]? = some part ∧ stretch (before ++ parts.flatten) c = part := by
  intro parts
  induction parts with
  | nil =>
    intro before i c h
    cases i <;> cases h
  | cons part parts ih =>
    intro before i c h
    rw [map_cons, offsets, cutsFrom] at h
    cases i with
    | zero =>
      cases h
      refine ⟨part, rfl, ?_⟩
      rw [stretch, drop_left, flatten_cons, Nat.add_sub_cancel_left, take_left]
    | succ i =>
      rw [getElem?_cons_succ, ← length_append] at h
      obtain ⟨part', hpart, hstretch⟩ := ih h
      refine ⟨part', hpart, ?_⟩
      rw [flatten_cons, ← append_assoc]
      exact hstretch

end Pie.Lib
