import Pie.Lib.Climb
import Pie.Lib.Fallible
import Pie.Poem.Arena

/-!
# Aliases and their roots

A placement that is an alias points at another. Every operation on the table of
placements redirects one of them at a root, so climbing always ends and finding
a root never runs out of rounds. What is no alias keeps the rectangle it began
with.
-/

namespace Pie.Proof.Aliases

open List Pie.Poem Pie.Poem.Arena Lib

variable {placements : List Placement} {budgets : Budgets} {n : Nat} {value u : ValueId} {trace : Trace}
  {slot : Slot}

/-- What a placement points at. -/
def up (placements : List Placement) (value : ValueId) : Option ValueId :=
  match placements[value]? with
  | some (.alias up) => some up
  | _ => none

theorem up_eq_some : up placements value = some u ↔ placements[value]? = some (.alias u) := by
  unfold up
  constructor
  · intro h
    split at h
    · rename_i v hv
      rw [hv, Option.some.inj h]
    · cases h
  · intro h
    rw [h]

theorem up_of_arena (h : placements[value]? = some (.arena slot)) : up placements value = none := by
  unfold up
  rw [h]

theorem up_lt (h : up placements value = some u) :
    value < placements.length := (List.getElem?_eq_some_iff.mp (up_eq_some.mp h)).1

/-- Climbing from any value ends. -/
def Forest (placements : List Placement) : Prop := ∀ value, Grounded (up placements) value

/-- The root of a value: what climbing from it ends at. -/
def RootOf (placements : List Placement) (value r : ValueId) : Prop :=
  r ∈ path (up placements) value ∧ up placements r = none

theorem rootFrom_of_path {l : List ValueId} (h : IsPath (up placements) value l) : ∀ {fuel : Nat}, l.length ≤ fuel →
      ∃ r, rootFrom placements fuel value = .ok r ∧ RootOf placements value r := by
  induction h with
  | @root value hv =>
    intro fuel hf
    cases fuel with
    | zero => simp at hf
    | succ fuel =>
      refine ⟨value, ?_, by rw [RootOf, path_root hv]; exact ⟨mem_cons_self, hv⟩⟩
      unfold rootFrom
      split
      · rename_i u hu
        rw [up_eq_some.mpr hu] at hv
        cases hv
      · rfl
  | @step value u l hu hl ih =>
    intro fuel hf
    cases fuel with
    | zero => simp at hf
    | succ fuel =>
      obtain ⟨r, hr, hmem, hnone⟩ := ih (Nat.le_of_succ_le_succ hf)
      refine ⟨r, ?_, ?_, hnone⟩
      · rw [rootFrom, up_eq_some.mp hu]
        exact hr
      · rw [path_step hu hl.grounded]
        exact mem_cons_of_mem _ hmem

/-- **A root is found**: the rounds cover every path. -/
theorem root_spec (h : Forest placements) (value : ValueId) :
    ∃ r, root placements value = .ok r ∧ RootOf placements value r := by
  refine rootFrom_of_path (h value).isPath ?_
  rw [← @List.length_range placements.length]
  exact path_length_le_succ (h value) (fun a p hp => mem_range.mpr (up_lt hp))

/-! ## The table while it is built -/

/-- The rows that a rectangle of this pitch is carved for. -/
def carvedRows (budgets : Budgets) (rows : RowExpr) (width elem : Nat) : Nat :=
  match rows with
  | .readouts => readoutRows width elem budgets.tokens
  | _ => rows.max budgets

/-- A slot is as large as its rows at the ceilings. -/
structure Carved (budgets : Budgets) (slot : Slot) (elem : Nat) : Prop where
  sized : elemBytes slot.dtype = some elem
  bytes : slot.bytes = carvedRows budgets slot.rows slot.width elem * slot.width * elem
  fits : slot.bytes ≤ U64_MAX

structure Tabled (budgets : Budgets) (n : Nat) (placements : List Placement) : Prop where
  length : placements.length = n
  forest : Forest placements
  carved : ∀ (value : ValueId) slot, placements[value]? = some (.arena slot) → ∃ elem, Carved budgets slot elem

theorem checkedMul_eq_some {a b c : Nat} : checkedMul a b = some c ↔ a * b ≤ U64_MAX ∧ a * b = c := by
  unfold checkedMul
  split
  · rename_i h
    rw [Option.some.injEq]
    exact (and_iff_right h).symm
  · rename_i h
    exact ⟨nofun, fun hc => absurd hc.1 h⟩

theorem tensor_carved {shape : List Dim} {dtype : Dtype}
    (h : tensor budgets shape dtype = .ok slot) : ∃ elem, Carved budgets slot elem := by
  unfold tensor at h
  obtain ⟨⟨rows, width⟩, -, h⟩ := Fallible.bind_eq_ok.mp h
  dsimp only at h
  cases helem : elemBytes dtype with
  | none => rw [helem] at h; cases h
  | some elem =>
    rw [helem] at h
    dsimp only at h
    split at h
    · cases h
    · rename_i bytes hbytes
      cases h
      obtain ⟨area, harea, hbytes⟩ := Option.bind_eq_some_iff.mp hbytes
      obtain ⟨-, rfl⟩ := checkedMul_eq_some.mp harea
      obtain ⟨hfit, rfl⟩ := checkedMul_eq_some.mp hbytes
      exact ⟨elem, helem, rfl, hfit⟩

theorem rectangle_spec {decl : ValueDecl} : Sound (· ≠ .panic) (fun placement => (∀ u, placement ≠ .alias u)
      ∧ ∀ slot, placement = .arena slot → ∃ elem, Carved budgets slot elem) (rectangle budgets decl value) := by
  unfold rectangle
  split
  all_goals try exact ⟨nofun, nofun⟩
  all_goals
    split
    · exact ⟨nofun, nofun⟩
    · split
      · rename_i slot hslot
        refine ⟨nofun, fun slot' h => ?_⟩
        cases h
        exact tensor_carved hslot
      · exact nofun

theorem rectangles_spec : Sound (· ≠ .panic) (Tabled budgets trace.values.length) (rectangles trace budgets) := by
  refine (Sound.mapM (fun decl _ => rectangle_spec)).mono (fun placements h => ⟨?_, ?_, ?_⟩)
  · rw [h.1, length_zipIdx]
  · intro value
    refine grounded_root ?_
    cases hu : up placements value with
    | none => rfl
    | some u => exact absurd rfl ((h.2 _ (mem_of_getElem? (up_eq_some.mp hu))).1 u)
  · exact fun value slot hslot => (h.2 _ (mem_of_getElem? hslot)).2 slot rfl

/-- Pointing a placement at a root keeps the table. -/
theorem Tabled.redirect {s r : ValueId}
    (h : Tabled budgets n placements) (hs : s < placements.length) (hr : up placements r = none) (hne : r ≠ s) :
    Tabled budgets n (placements.set s (.alias r)) := by
  have hsame : ∀ a, a ≠ s → up (placements.set s (.alias r)) a = up placements a := by
    intro a ha
    unfold up
    rw [getElem?_set_ne (Ne.symm ha)]
  refine ⟨by rw [length_set]; exact h.length, fun value => ?_, fun value slot hslot => ?_⟩
  · refine grounded_redirect (up_eq_some.mpr ?_) ((hsame r hne).trans hr) hsame (h.forest value)
    rw [getElem?_set_self hs]
  · by_cases hv : value = s
    · rw [hv, getElem?_set_self hs] at hslot
      cases hslot
    · rw [getElem?_set_ne (Ne.symm hv)] at hslot
      exact h.carved value slot hslot

theorem root_sound (h : Forest placements) (value : ValueId) :
    Sound (· ≠ .panic) (RootOf placements value) (root placements value) := by
  obtain ⟨r, hr, hroot⟩ := root_spec h value
  rw [hr]
  exact hroot

section

variable (h : Tabled budgets n placements)
include h

theorem share_spec {kind : Share} {holds shares : ValueId} :
    Sound (· ≠ .panic) (Tabled budgets n) (share kind placements holds shares) := by
  unfold share
  refine (root_sound h.forest holds).bind (fun hd hhd => (root_sound h.forest shares).bind (fun s hs => ?_))
  split
  · exact h
  · rename_i hne
    split
    · rename_i a b ha hb
      split
      · split
        · exact h.redirect (List.getElem?_eq_some_iff.mp hb).1 hhd.2 hne
        · exact nofun
      · split
        · exact nofun
        · exact h
    · exact nofun

theorem foldInPlace_spec : Sound (· ≠ .panic) (Tabled budgets n) (foldInPlace trace placements) :=
  Sound.foldlM (fun _ _ _ hp => share_spec hp) h

theorem foldMerges_spec : Sound (· ≠ .panic) (Tabled budgets n) (foldMerges trace placements) :=
  Sound.foldlM (fun _ _ _ hp => share_spec hp) h

theorem flattenOne_spec {id : Nat} : Sound (· ≠ .panic) (Tabled budgets n) (flattenOne placements id) := by
  unfold flattenOne
  split
  · rename_i u hu
    have hup : up placements id = some u := up_eq_some.mpr hu
    refine (root_sound h.forest u).bind (fun r hr => h.redirect (up_lt hup) hr.2 ?_)
    -- a root is not an alias
    intro hrid
    rw [← hrid, hr.2] at hup
    cases hup
  · exact h

theorem flatten_spec : Sound (· ≠ .panic) (Tabled budgets n) (flatten placements) :=
  Sound.foldlM (fun _ _ _ hp => flattenOne_spec hp) h

end

end Pie.Proof.Aliases
