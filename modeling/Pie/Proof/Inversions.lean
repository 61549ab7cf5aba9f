import Pie.Lib.Tallies
import Pie.Poem.Law
import Mathlib.LinearAlgebra.Matrix.NonsingularInverse
import Mathlib.Data.Fin.Tuple.Sort
import Mathlib.Data.List.GetD

/-!
# Inverted bases

The pivots go through the choices of rows in their lexicographic order, and none
is passed over. A recipe weighs the numbers of its pivots by the solution that
Cramer's rule gives, so what the steps move them by comes out as the coordinate.
-/

namespace Pie.Proof.Inversions

open List Lib Pie.Poem Fit Basis Matrix

variable {b : Basis} {pivots : Fin b.k → Fin b.width} {origin : List Int}

/-! ## Determinants -/

theorem determinant_eq : ∀ (n : Nat) (a : Square n), determinant n a = (Matrix.of a).det
  | 0, _ => det_fin_zero.symm
  | 1, a => (det_fin_one (Matrix.of a)).symm
  | 2, a => (det_fin_two (Matrix.of a)).symm
  | n + 3, a => by
    rw [determinant, Tallies.foldl_sum, zero_add, ← Fin.sum_univ_def, det_succ_row_zero]
    refine Finset.sum_congr rfl fun col _ => ?_
    rw [determinant_eq (n + 2)]
    congr 2
    split
    · rw [Even.neg_one_pow (Nat.even_iff.mpr ‹_›)]
    · rw [Odd.neg_one_pow (Nat.odd_iff.mpr (by omega))]

/-- The steps of the chosen numbers. -/
abbrev steps (b : Basis) (pivots : Fin b.k → Fin b.width) : Matrix (Fin b.k) (Fin b.k) Int := Matrix.of (b.table pivots)

theorem numerator_eq (axis pivot : Fin b.k) :
    b.numerator pivots axis pivot = (steps b pivots).transpose.cramer (Pi.single axis 1) pivot := by
  rw [numerator, determinant_eq, cramer_apply]
  congr 1
  ext row col
  by_cases h : col = pivot
  · subst h
    simp [updateCol_self, Pi.single_apply]
  · simp [updateCol_ne h, Function.update_of_ne h, Fit.transpose]

/-- Cramer's rule: where every quotient is whole, they solve the equations. -/
theorem quotients_solve {axis : Fin b.k} (hdet : determinant b.k (b.table pivots) ≠ 0)
    (hwhole : ∀ pivot, (b.numerator pivots axis pivot).tmod (determinant b.k (b.table pivots)) = 0) (col : Fin b.k) :
    ∑ pivot, b.table pivots pivot col * (b.numerator pivots axis pivot).tdiv (determinant b.k (b.table pivots))
      = if col = axis then 1 else 0 := by
  have hcramer := congrFun (mulVec_cramer (steps b pivots).transpose (Pi.single axis 1)) col
  rw [det_transpose, ← determinant_eq, Pi.smul_apply, smul_eq_mul, Pi.single_apply] at hcramer
  refine mul_left_cancel₀ hdet (Eq.trans ?_ hcramer)
  rw [Finset.mul_sum]
  refine Finset.sum_congr rfl fun pivot _ => ?_
  rw [mul_left_comm, Int.mul_tdiv_cancel' (Int.dvd_of_tmod_eq_zero (hwhole pivot)), numerator_eq]
  rfl

/-! ## Recipes -/

/-- The number of a class table that a row stands for. -/
def number (table : List (Nat × Nat)) (row : Nat) : Int :=
  if row % 2 = 0 then (table.getD (row / 2) (0, 0)).1 else (table.getD (row / 2) (0, 0)).2

theorem at_eq (recipe : Recipe) (table : List (Nat × Nat)) : recipe.at_ table = recipe.konst +
    (∑ c ∈ Finset.range table.length, recipe.rows.getD c 0 * ((table.getD c (0, 0)).1 : Int) +
      ∑ c ∈ Finset.range table.length, recipe.lanes.getD c 0 * ((table.getD c (0, 0)).2 : Int)) := by
  have hfold : ∀ (l : List (Nat × Nat)) (n : Nat) (s : Int),
      (l.zipIdx n).foldl (fun sum p => sum + recipe.rows.getD p.2 0 * p.1.1 + recipe.lanes.getD p.2 0 * p.1.2) s = s +
        ∑ c ∈ Finset.range l.length, (recipe.rows.getD (n + c) 0 * ((l.getD c (0, 0)).1 : Int) +
          recipe.lanes.getD (n + c) 0 * ((l.getD c (0, 0)).2 : Int)) := by
    intro l
    induction l with
    | nil => intro n s; simp
    | cons e l ih =>
      intro n s
      rw [zipIdx_cons, foldl_cons, ih, length_cons, Finset.sum_range_succ']
      simp only [getD_cons_succ, getD_cons_zero, Nat.add_zero, Nat.add_right_comm n 1, Nat.add_assoc]
      ring
  rw [Recipe.at_, hfold, ← Finset.sum_add_distrib]
  simp only [Nat.zero_add]

theorem sum_modify {l : List Int} {c n : Nat} (hc : c < l.length) (hn : c < n) (w : Int) (f : Nat → Int) :
    ∑ j ∈ Finset.range n, (l.modify c (· + w)).getD j 0 * f j = ∑ j ∈ Finset.range n, l.getD j 0 * f j + w * f c := by
  have hterm : ∀ j, (l.modify c (· + w)).getD j 0 * f j = l.getD j 0 * f j + if c = j then w * f j else 0 := by
    intro j
    rw [getD_eq_getElem?_getD, getD_eq_getElem?_getD, getElem?_modify]
    split
    · rename_i h
      subst h
      rw [getElem?_eq_getElem hc]
      exact add_mul _ _ _
    · rw [add_zero]
      cases l[j]? <;> rfl
  simp only [hterm, Finset.sum_add_distrib, Finset.sum_ite_eq, Finset.mem_range, if_pos hn]

/-- A weight adds what its number has moved by. -/
theorem weigh_at {coefficients : Fin b.k → Int} {recipe : Recipe} {table : List (Nat × Nat)} (hlen : table.length = b.classes.length)
    (hrows : recipe.rows.length = b.classes.length) (hlanes : recipe.lanes.length = b.classes.length) (pivot : Fin b.k) :
    (b.weigh pivots coefficients recipe pivot).at_ table =
      recipe.at_ table + coefficients pivot * (number table (pivots pivot) - number b.classes (pivots pivot)) := by
  have hlt : (pivots pivot).val / 2 < b.classes.length := Nat.div_lt_of_lt_mul (pivots pivot).2
  have hget : b.classes.get ⟨_, hlt⟩ = b.classes.getD ((pivots pivot).val / 2) (0, 0) := (getD_eq_getElem _ _ hlt).symm
  unfold weigh number
  dsimp only
  rw [hget]
  split
  · rw [at_eq, at_eq, sum_modify (by omega) (by omega)]
    ring
  · rw [at_eq, at_eq, sum_modify (by omega) (by omega)]
    ring

theorem foldl_weigh_at {coefficients : Fin b.k → Int} {table : List (Nat × Nat)} (hlen : table.length = b.classes.length) :
    ∀ {l : List (Fin b.k)} {recipe : Recipe}, recipe.rows.length = b.classes.length → recipe.lanes.length = b.classes.length →
      (l.foldl (b.weigh pivots coefficients) recipe).at_ table = recipe.at_ table +
        (l.map fun pivot => coefficients pivot * (number table (pivots pivot) - number b.classes (pivots pivot))).sum
  | [], recipe, _, _ => by simp
  | pivot :: l, recipe, hrows, hlanes => by
    have hkept : (b.weigh pivots coefficients recipe pivot).rows.length = b.classes.length ∧
        (b.weigh pivots coefficients recipe pivot).lanes.length = b.classes.length := by
      unfold weigh
      dsimp only
      split <;> simp [hrows, hlanes]
    rw [foldl_cons, foldl_weigh_at hlen hkept.1 hkept.2, weigh_at hlen hrows hlanes, map_cons, sum_cons, add_assoc]

/-- A class table is the origin's, and the steps of the axes as often as the coordinates say. -/
structure Stands (axes : List Axis) (classes : List (Nat × Nat)) (origin : List Int) (x : Fin axes.length → Int)
    (table : List (Nat × Nat)) : Prop where
  length : table.length = classes.length
  rows : ∀ c, ((table.getD c (0, 0)).1 : Int) = (classes.getD c (0, 0)).1 +
    ∑ axis, (x axis - origin.getD axis 0) * ((axes.get axis).step.getD c (0, 0)).1
  lanes : ∀ c, ((table.getD c (0, 0)).2 : Int) = (classes.getD c (0, 0)).2 +
    ∑ axis, (x axis - origin.getD axis 0) * ((axes.get axis).step.getD c (0, 0)).2

theorem Stands.number {x : Fin b.k → Int} {table : List (Nat × Nat)} (h : Stands b.axes b.classes origin x table) (row : Fin b.width) :
    number table row - number b.classes row = ∑ axis, (x axis - origin.getD axis 0) * b.column row axis := by
  have hlt : ∀ axis, row.val / 2 < (b.axes.get axis).step.length := fun axis =>
    (b.steps _ (get_mem ..)).symm ▸ Nat.div_lt_of_lt_mul row.2
  unfold Inversions.number column
  split
  · rw [h.rows, add_sub_cancel_left]
    exact Finset.sum_congr rfl fun axis _ => by rw [getD_eq_getElem _ _ (hlt axis)]; rfl
  · rw [h.lanes, add_sub_cancel_left]
    exact Finset.sum_congr rfl fun axis _ => by rw [getD_eq_getElem _ _ (hlt axis)]; rfl

/-- A recipe reads the coordinate back out of every class table. -/
def ReadsBack (b : Basis) (origin : List Int) (axis : Fin b.k) (recipe : Recipe) : Prop :=
  ∀ x table, Stands b.axes b.classes origin x table → recipe.at_ table = x axis

theorem recipe_readsBack {axis : Fin b.k} (hdet : determinant b.k (b.table pivots) ≠ 0)
    (hwhole : ∀ pivot, (b.numerator pivots axis pivot).tmod (determinant b.k (b.table pivots)) = 0) :
    ReadsBack b origin axis ((List.finRange b.k).foldl
      (b.weigh pivots fun pivot => (b.numerator pivots axis pivot).tdiv (determinant b.k (b.table pivots)))
      ⟨origin.getD axis 0, replicate b.classes.length 0, replicate b.classes.length 0⟩) := by
  intro x table h
  have hzero : (⟨origin.getD axis 0, replicate b.classes.length 0, replicate b.classes.length 0⟩ : Recipe).at_ table
      = origin.getD axis 0 := by
    have hget : ∀ c, (replicate b.classes.length (0 : Int)).getD c 0 = 0 := fun c => by
      rw [getD_eq_getElem?_getD, getElem?_replicate]; split <;> rfl
    rw [at_eq]
    simp only [hget, zero_mul, Finset.sum_const_zero, add_zero]
  rw [foldl_weigh_at h.length (length_replicate) (length_replicate), hzero, ← Fin.sum_univ_def]
  simp only [h.number, Finset.mul_sum]
  rw [Finset.sum_comm]
  have hterm : ∀ col, ∑ pivot, (b.numerator pivots axis pivot).tdiv (determinant b.k (b.table pivots)) *
      ((x col - origin.getD col 0) * b.column (pivots pivot) col) = (x col - origin.getD col 0) * if col = axis then 1 else 0 := by
    intro col
    rw [← quotients_solve hdet hwhole col, Finset.mul_sum]
    exact Finset.sum_congr rfl fun pivot _ => by rw [Basis.table]; ring
  simp only [hterm, mul_ite, mul_one, mul_zero, Finset.sum_ite_eq', Finset.mem_univ, if_true]
  ring

theorem recipes_outcome (horigin : origin.length = b.k) (hdet : determinant b.k (b.table pivots) ≠ 0) :
    ∀ l : List (Fin b.k), ∃ found, b.recipes pivots origin l = .ok found ∧
      (∀ recipes, found = some recipes → Forall₂ (ReadsBack b origin) l recipes) ∧
      (found = none → ∃ axis pivot, (b.numerator pivots axis pivot).tmod (determinant b.k (b.table pivots)) ≠ 0)
  | [] => ⟨some [], rfl, fun _ h => Option.some.inj h ▸ .nil, nofun⟩
  | axis :: rest => by
    rw [recipes]
    dsimp only
    split
    · rename_i hany
      rcases any_eq_true.mp hany with ⟨pivot, -, h⟩
      exact ⟨none, rfl, nofun, fun _ => ⟨axis, pivot, of_decide_eq_true h⟩⟩
    · rename_i hany
      have hwhole : ∀ pivot, (b.numerator pivots axis pivot).tmod (determinant b.k (b.table pivots)) = 0 := fun pivot =>
        not_not.mp fun h => hany (any_eq_true.mpr ⟨pivot, mem_finRange pivot, decide_eq_true h⟩)
      have hkonst : index origin axis = .ok (origin.getD axis 0) := by
        have hlt : axis.val < origin.length := by omega
        rw [index, getElem?_eq_getElem hlt, getD_eq_getElem _ _ hlt]
      rcases recipes_outcome horigin hdet rest with ⟨found, hfound, hsome, hnone⟩
      rw [hkonst, hfound]
      refine ⟨_, rfl, ?_, ?_⟩
      · intro recipes h
        rcases Option.map_eq_some_iff.mp h with ⟨rest, hrest, rfl⟩
        exact .cons (recipe_readsBack hdet hwhole) (hsome rest hrest)
      · exact fun h => hnone (Option.map_eq_none_iff.mp h)

theorem tryPivots_outcome (horigin : origin.length = b.k) (pivots : Fin b.k → Fin b.width) :
    ∃ found, b.tryPivots pivots origin = .ok found ∧
      (∀ recipes, found = some recipes → Forall₂ (ReadsBack b origin) (List.finRange b.k) recipes) ∧
      (found = none → ¬IsUnit (steps b pivots)) := by
  unfold tryPivots
  split
  · rename_i hdet
    rw [determinant_eq] at hdet
    exact ⟨none, rfl, nofun, fun _ h => not_isUnit_zero (hdet ▸ (isUnit_iff_isUnit_det _).mp h)⟩
  · rename_i hdet
    rcases recipes_outcome horigin hdet (List.finRange b.k) with ⟨found, hfound, hsome, hnone⟩
    refine ⟨found, hfound, hsome, fun h hunit => ?_⟩
    rcases hnone h with ⟨axis, pivot, hrest⟩
    rw [determinant_eq] at hrest
    exact hrest (Int.tmod_eq_zero_of_dvd ((isUnit_iff_isUnit_det _).mp hunit).dvd)

theorem movable_last : ∀ {n : Nat} (h : n ≤ b.k) (j : Fin b.k), j.val < n → (∀ i, b.movable pivots n h = some i → i.1 < j) →
    b.width ≤ pivots j + (b.k - j)
  | n + 1, h, j, hj, hlast => by
    rw [movable] at hlast
    split at hlast
    · exact absurd (hlast _ rfl) (by rw [Fin.lt_def]; dsimp only; omega)
    · rename_i hm
      rcases Nat.lt_succ_iff_lt_or_eq.mp hj with hj | rfl
      · exact movable_last _ j hj hlast
      · exact not_lt.mp hm

theorem strictMono_gap {q : Fin b.k → Fin b.width} (hq : StrictMono q) (i : Fin b.k) :
    ∀ n (hn : i.val + n < b.k), (q i).val + n ≤ q ⟨i + n, hn⟩
  | 0, _ => le_rfl
  | n + 1, hn => Nat.succ_le_of_lt ((strictMono_gap hq i n (by omega)).trans_lt (hq (Fin.lt_def.mpr (Nat.lt_succ_self _))))

theorem advance_next {q : Fin b.k → Fin b.width} (hq : StrictMono q) (hlt : toLex pivots < toLex q) :
    ∃ pivots', b.advance pivots = some pivots' ∧ toLex pivots' ≤ toLex q := by
  rcases hlt with ⟨i, hsame, hi⟩
  have hsame : ∀ j < i, pivots j = q j := hsame
  have hi : (pivots i).val < q i := hi
  -- a choice leaves room for those after it
  have hroom := strictMono_gap hq i (b.k - i - 1) (by omega)
  have hlast := @movable_last b pivots _ (le_refl b.k)
  unfold advance
  cases hm : b.movable pivots b.k le_rfl with
  | none =>
    have := hlast i i.2 (by rw [hm]; nofun)
    omega
  | some m =>
    refine ⟨_, rfl, ?_⟩
    have hle : i ≤ m.1 := not_lt.mp fun hmi => by
      have := hlast i i.2 fun m' h => by rw [hm] at h; cases h; exact hmi
      omega
    rcases hle.lt_or_eq with him | rfl
    · refine le_of_lt ⟨i, fun j hj => ?_, ?_⟩
      · exact (if_pos (hj.trans him)).trans (hsame j hj)
      · show (if i < m.1 then pivots i else _) < q i
        rw [if_pos him]
        exact hi
    · refine Pi.toLex_monotone fun j => ?_
      rcases lt_or_ge j m.1 with hj | hj
      · exact ((if_pos hj).trans (hsame j hj)).le
      · show (if j < m.1 then pivots j else _) ≤ q j
        rw [if_neg hj.not_gt]
        have hle : m.1.val ≤ j := hj
        have hgap := strictMono_gap hq m.1 (j - m.1) (by omega)
        have hj' : (⟨m.1 + (j.val - m.1), by omega⟩ : Fin b.k) = j := Fin.ext (by dsimp only; omega)
        rw [hj'] at hgap
        exact Fin.le_def.mpr (by dsimp only; omega)

/-! ## The search -/

/-- The refusals are told apart by how they begin. -/
theorem noPivots_head : b.noPivots.why.toList.head? = some 'n' := by
  unfold noPivots
  simp only [String.toList_append, toString]
  rfl

theorem checkSites_outcome {recipe : List Recipe} {every : List (List (Nat × Nat) × List Int)} :
    checkSites recipe every = .ok recipe ∨
      ∃ r : Refusal, checkSites recipe every = .error (.error r) ∧ r.why.toList.head? = some 't' := by
  unfold checkSites
  split
  · refine .inr ⟨_, rfl, ?_⟩
    simp only [String.toList_append, toString]
    rfl
  · exact .inl rfl

theorem search_outcome (horigin : origin.length = b.k) (every : List (List (Nat × Nat) × List Int)) (pivots : Fin b.k → Fin b.width) :
    b.search origin every pivots ≠ .error .panic ∧
      (∀ recipes, b.search origin every pivots = .ok recipes → Forall₂ (ReadsBack b origin) (List.finRange b.k) recipes) ∧
      (b.search origin every pivots = .error (.error b.noPivots) →
        ∀ q, StrictMono q → toLex pivots ≤ toLex q → ¬IsUnit (steps b q)) := by
  fun_induction search b origin every pivots with
  | case1 pivots e he =>
    rcases tryPivots_outcome horigin pivots with ⟨found, hfound, -⟩
    rw [hfound] at he
    cases he
  | case2 pivots recipe hrecipe =>
    rcases tryPivots_outcome horigin pivots with ⟨found, hfound, hsome, -⟩
    cases hfound.symm.trans hrecipe
    rcases @checkSites_outcome recipe every with h | ⟨r, h, hhead⟩
    · rw [h]
      exact ⟨nofun, fun recipes h => Except.ok.inj h ▸ hsome _ rfl, nofun⟩
    · rw [h]
      refine ⟨nofun, nofun, fun hno => ?_⟩
      cases hno
      exact absurd (hhead.symm.trans noPivots_head) (by decide)
  | case3 pivots hnone hadv =>
    rcases tryPivots_outcome horigin pivots with ⟨found, hfound, -, hunit⟩
    cases hfound.symm.trans hnone
    refine ⟨nofun, nofun, fun _ q hq hle => ?_⟩
    rcases hle.lt_or_eq with hlt | heq
    · rcases advance_next hq hlt with ⟨_, h, -⟩
      rw [hadv] at h
      cases h
    · exact toLex.injective heq ▸ hunit rfl
  | case4 pivots hnone pivots' hadv ih =>
    rcases tryPivots_outcome horigin pivots with ⟨found, hfound, -, hunit⟩
    cases hfound.symm.trans hnone
    refine ⟨ih.1, ih.2.1, fun hno q hq hle => ?_⟩
    rcases hle.lt_or_eq with hlt | heq
    · rcases advance_next hq hlt with ⟨_, h, hnext⟩
      cases hadv.symm.trans h
      exact ih.2.2 hno q hq hnext
    · exact toLex.injective heq ▸ hunit rfl

end Pie.Proof.Inversions
