import Pie.Lib.Tallies
import Pie.Poem.Law
import Mathlib.Data.Rat.Floor
import Mathlib.Tactic.Ring

/-!
# Fitted laws

A law that is found reproduces the samples, for it is checked against them. The
line is the one the samples come from: two samples that differ along one axis
differ by its slope. A staircase is found where there is one: the samples bound
its offset from both sides, and the widest offset they leave serves as well.
-/

namespace Pie.Proof.Fits

open List Lib Pie.Poem Fit

/-! ## Lines -/

section

variable {axes : List Axis} {observed : List Observed} {points : List (List Int × Int)} {law : Law}

theorem bind_ok {α β : Type} {x : Fitted α} {f : α → Fitted β} {b : β} (h : x >>= f = .ok b) : ∃ a, x = .ok a ∧ f a = .ok b := by
  cases x with
  | error e => cases h
  | ok a => exact ⟨a, rfl, h⟩

theorem forM_checkPoint : ∀ {points : List (List Int × Int)}, points.forM (checkPoint law) = .ok () →
    ∀ p ∈ points, law.at_ p.1 0 = some p.2
  | [], _, p, hp => nomatch hp
  | q :: points, h, p, hp => by
    rcases bind_ok h with ⟨_, hq, hrest⟩
    rcases mem_cons.mp hp with rfl | hp
    · unfold checkPoint at hq
      split at hq
      · cases hq
      · rename_i got hgot
        split at hq
        · rename_i heq
          rw [hgot, heq]
        · cases hq
    · exact forM_checkPoint hrest p hp

theorem affine_reproduces (h : affine axes points = .ok law) :
    (∃ base slope, law = .affine base slope) ∧ ∀ p ∈ points, law.at_ p.1 0 = some p.2 := by
  rcases bind_ok h with ⟨here, -, h⟩
  rcases bind_ok h with ⟨slope, -, h⟩
  rcases bind_ok h with ⟨_, hcheck, h⟩
  obtain rfl := Except.ok.inj h
  exact ⟨⟨_, _, rfl⟩, forM_checkPoint hcheck⟩

theorem tile_reproduces {mul div alpha : Int} (h : tile observed mul div alpha = some law) :
    (∃ beta, law = .ceil mul alpha beta div) ∧ ∀ o ∈ observed, law.at_ o.coords o.rows = some o.value := by
  unfold tile at h
  dsimp only at h
  split at h
  · split at h
    · cases h
    · split at h
      · rename_i hall
        obtain rfl := Option.some.inj h
        exact ⟨⟨_, rfl⟩, fun o ho => by simpa using all_eq_true.mp hall o ho⟩
      · cases h
  · cases h

theorem mem_upTo {lo hi x : Int} : x ∈ upTo lo hi ↔ lo ≤ x ∧ x ≤ hi := by
  refine mem_map.trans ⟨?_, fun h => ⟨(x - lo).toNat, ?_, ?_⟩⟩
  · intro ⟨i, hi, hx⟩
    have := mem_range.mp hi
    omega
  · exact mem_range.mpr (by omega)
  · omega

/-- A staircase that was found is among those searched. -/
theorem ceiling_found (h : ceiling observed = some law) : 2 ≤ crossings observed ∧
    ∃ mul div alpha, 1 ≤ mul ∧ (2 ≤ div ∧ div ≤ MAX_TILE) ∧ (1 ≤ alpha ∧ alpha ≤ MAX_NUMERATOR_SCALE) ∧
      tile observed mul div alpha = some law := by
  unfold ceiling at h
  split at h
  · cases h
  · rename_i hcross
    dsimp only at h
    split at h
    · cases h
    · rcases exists_of_findSome?_eq_some h with ⟨mul, hmul, h⟩
      rcases exists_of_findSome?_eq_some h with ⟨div, hdiv, h⟩
      rcases exists_of_findSome?_eq_some h with ⟨alpha, halpha, h⟩
      exact ⟨not_lt.mp hcross, mul, div, alpha, (mem_upTo.mp (mem_filter.mp hmul).1).1, mem_upTo.mp hdiv, mem_upTo.mp halpha, h⟩

theorem component_reproduces (h : component axes observed = .ok (some law)) :
    ∀ o ∈ observed, law.at_ o.coords o.rows = some o.value := by
  rcases bind_ok h with ⟨first, -, h⟩
  split at h
  · cases h
  · split at h
    · rename_i haff
      obtain rfl := Option.some.inj (Except.ok.inj h)
      rcases affine_reproduces haff with ⟨⟨base, slope, rfl⟩, hall⟩
      exact fun o ho => hall (o.coords, o.value) (mem_map_of_mem ho)
    · cases h
    · split at h
      · rename_i hceil
        obtain rfl := Option.some.inj (Except.ok.inj h)
        rcases ceiling_found hceil with ⟨-, _, _, _, -, -, -, ht⟩
        exact (tile_reproduces ht).2
      · cases h

end

/-! ## The line the samples come from -/

section

/-- What a line adds to its base. -/
def dot (slope xs : List Int) : Int := ((slope.zip xs).map fun p => p.1 * p.2).sum

theorem affine_at (base : Int) (slope xs : List Int) (rows : Int) :
    (Law.affine base slope).at_ xs rows = some (base + dot slope xs) :=
  congrArg some (Tallies.foldl_sum ..)

/-- Coordinates that differ in one place and in no other. -/
def DifferOnly (k : Nat) (xa xb : List Int) : Prop := ∀ i, xa[i]? ≠ xb[i]? ↔ i = k

theorem dot_differ : ∀ (slope : List Int) {xa xb : List Int} {k : Nat}, xa.length = xb.length → DifferOnly k xa xb →
    ∃ p q, xa[k]? = some p ∧ xb[k]? = some q ∧ p ≠ q ∧ dot slope xb - dot slope xa = slope.getD k 0 * (q - p)
  | _, [], [], k, _, h => absurd rfl ((h k).mpr rfl)
  | [], x :: xa, y :: xb, 0, hlen, h =>
    ⟨x, y, rfl, rfl, fun e => (h 0).mpr rfl (congrArg some e), by simp [dot]⟩
  | b :: slope, x :: xa, y :: xb, 0, hlen, h => by
    have hrest : xa = xb := ext_getElem? fun i => not_not.mp fun hi => absurd ((h (i + 1)).mp hi) (by omega)
    refine ⟨x, y, rfl, rfl, fun e => (h 0).mpr rfl (congrArg some e), ?_⟩
    simp only [dot, hrest, zip_cons_cons, map_cons, sum_cons, getD_cons_zero]
    ring
  | slope, x :: xa, y :: xb, k + 1, hlen, h => by
    have hhead : x = y := Option.some.inj (not_not.mp fun hi => absurd ((h 0).mp hi) (by omega))
    have htail : DifferOnly k xa xb := fun i => (h (i + 1)).trans (by omega)
    cases slope with
    | nil =>
      rcases dot_differ [] (Nat.succ.inj hlen) htail with ⟨p, q, hp, hq, hne, -⟩
      exact ⟨p, q, hp, hq, hne, by simp [dot]⟩
    | cons b slope =>
      rcases dot_differ slope (Nat.succ.inj hlen) htail with ⟨p, q, hp, hq, hne, hdot⟩
      refine ⟨p, q, hp, hq, hne, ?_⟩
      rw [getD_cons_succ, ← hdot, hhead]
      simp only [dot, zip_cons_cons, map_cons, sum_cons]
      ring

theorem mem_moved {xa xb : List Int} {i : Nat} :
    i ∈ moved xa xb ↔ ∃ p q, xa[i]? = some p ∧ xb[i]? = some q ∧ p ≠ q := by
  unfold moved
  simp only [mem_map, mem_filter, mem_zipIdx_iff_getElem?, getElem?_zip_eq_some, bne_iff_ne, Prod.exists]
  constructor
  · intro ⟨p, q, j, ⟨⟨hp, hq⟩, hne⟩, hj⟩
    exact ⟨p, q, hj ▸ hp, hj ▸ hq, hne⟩
  · intro ⟨p, q, hp, hq, hne⟩
    exact ⟨p, q, i, ⟨⟨hp, hq⟩, hne⟩, rfl⟩

theorem moved_eq_iff {xa xb : List Int} {k : Nat} (hlen : xa.length = xb.length) :
    moved xa xb = [k] ↔ DifferOnly k xa xb := by
  have hmem : ∀ i, i ∈ moved xa xb ↔ xa[i]? ≠ xb[i]? := by
    intro i
    rw [mem_moved]
    constructor
    · intro ⟨p, q, hp, hq, hne⟩ h
      exact hne (Option.some.inj (hp.symm.trans (h.trans hq)))
    · intro hne
      rcases Nat.lt_or_ge i xa.length with hi | hi
      · exact ⟨xa[i], xb[i], getElem?_eq_getElem hi, getElem?_eq_getElem (hlen ▸ hi), fun e => hne
          (by rw [getElem?_eq_getElem hi, getElem?_eq_getElem (hlen ▸ hi), e])⟩
      · exact absurd ((getElem?_eq_none hi).trans (getElem?_eq_none (hlen ▸ hi)).symm) hne
  have hnodup : (moved xa xb).Nodup :=
    (by rw [zipIdx_map_snd]; exact nodup_range' : ((xa.zip xb).zipIdx.map Prod.snd).Nodup).sublist (filter_sublist.map _)
  constructor
  · intro h i
    rw [← hmem, h, mem_singleton]
  · intro h
    have hperm : moved xa xb ~ [k] := (perm_ext_iff_of_nodup hnodup (nodup_singleton k)).mpr fun i => by
      rw [hmem, h i, mem_singleton]
    exact perm_singleton.mp hperm

theorem mem_pairs {α : Type} {p q : α} : ∀ {l : List α}, (p, q) ∈ pairs l → p ∈ l ∧ q ∈ l
  | [], h => nomatch h
  | a :: l, h => by
    rcases mem_append.mp h with h | h
    · rcases mem_map.mp h with ⟨b, hb, he⟩
      cases he
      exact ⟨mem_cons_self, mem_cons_of_mem _ hb⟩
    · exact ⟨mem_cons_of_mem _ (mem_pairs h).1, mem_cons_of_mem _ (mem_pairs h).2⟩

theorem pairs_mem {α : Type} {p q : α} (hne : p ≠ q) : ∀ {l : List α}, p ∈ l → q ∈ l → (p, q) ∈ pairs l ∨ (q, p) ∈ pairs l
  | [], h, _ => nomatch h
  | a :: l, hp, hq => by
    rcases mem_cons.mp hp with rfl | hpl
    · exact .inl (mem_append_left _ (mem_map_of_mem ((mem_cons.mp hq).resolve_left hne.symm)))
    · rcases mem_cons.mp hq with rfl | hql
      · exact .inr (mem_append_left _ (mem_map_of_mem hpl))
      · exact (pairs_mem hne hpl hql).imp (mem_append_right _) (mem_append_right _)

variable {base : Int} {slope : List Int} {points : List (List Int × Int)}

/-- The points are on the line, with as many coordinates each. -/
structure OnLine (base : Int) (slope : List Int) (points : List (List Int × Int)) : Prop where
  length : ∀ p ∈ points, ∀ q ∈ points, p.1.length = q.1.length
  value : ∀ p ∈ points, p.2 = base + dot slope p.1

theorem stepped_onLine (h : OnLine base slope points) (axis : Axis) {k : Nat} {seen : Option Int}
    {pair : (List Int × Int) × List Int × Int} (hpair : pair ∈ pairs points) (hseen : seen = none ∨ seen = some (slope.getD k 0)) :
    stepped axis k seen pair = .ok (if moved pair.1.1 pair.2.1 = [k] then some (slope.getD k 0) else seen) := by
  rcases mem_pairs hpair with ⟨h1, h2⟩
  unfold stepped
  by_cases hk : moved pair.1.1 pair.2.1 = [k]
  · rw [if_neg (not_not.mpr hk), if_pos hk]
    rcases dot_differ slope (h.length _ h1 _ h2) ((moved_eq_iff (h.length _ h1 _ h2)).mp hk) with ⟨p, q, hp, hq, hpq, hdot⟩
    have hrise : pair.2.2 - pair.1.2 = slope.getD k 0 * (q - p) := by rw [h.value _ h1, h.value _ h2, ← hdot]; ring
    have hrun : q - p ≠ 0 := sub_ne_zero.mpr (Ne.symm hpq)
    simp only [index, hp, hq, bind, Except.bind, hrise, Int.mul_tmod_left, Int.mul_tdiv_cancel _ hrun]
    rcases hseen with rfl | rfl
    · simp
    · simp
  · rw [if_pos hk, if_neg hk]

theorem foldlM_stepped (h : OnLine base slope points) (axis : Axis) {k : Nat} : ∀ {l : List ((List Int × Int) × List Int × Int)}
    {seen : Option Int}, (∀ pair ∈ l, pair ∈ pairs points) → seen = none ∨ seen = some (slope.getD k 0) →
    l.foldlM (stepped axis k) seen =
      .ok (if ∃ pair ∈ l, moved pair.1.1 pair.2.1 = [k] then some (slope.getD k 0) else seen)
  | [], seen, _, _ => by simp; rfl
  | pair :: l, seen, hl, hseen => by
    rw [foldlM_cons, stepped_onLine h axis (hl pair mem_cons_self) hseen]
    refine (foldlM_stepped h axis (fun p hp => hl p (mem_cons_of_mem _ hp)) ?_).trans ?_
    · split
      · exact .inr rfl
      · exact hseen
    · by_cases hk : moved pair.1.1 pair.2.1 = [k]
      · rw [if_pos hk, ite_self, if_pos ⟨pair, mem_cons_self, hk⟩]
      · rw [if_neg hk]
        exact congrArg _ (if_congr (by simp [hk]) rfl rfl)

theorem slopeOf_onLine (h : OnLine base slope points) (axis : Axis) {k : Nat}
    (hseen : ∃ p ∈ points, ∃ q ∈ points, DifferOnly k p.1 q.1) : slopeOf points (axis, k) = .ok (slope.getD k 0) := by
  rcases hseen with ⟨p, hp, q, hq, hpq⟩
  have hne : p ≠ q := fun e => (hpq k).mpr rfl (by rw [e])
  have hfound : ∃ pair ∈ pairs points, moved pair.1.1 pair.2.1 = [k] := by
    rcases pairs_mem hne hp hq with hmem | hmem
    · exact ⟨_, hmem, (moved_eq_iff (h.length p hp q hq)).mpr hpq⟩
    · exact ⟨_, hmem, (moved_eq_iff (h.length q hq p hp)).mpr fun i => ne_comm.trans (hpq i)⟩
  rw [slopeOf, foldlM_stepped h axis (fun _ hp => hp) (.inl rfl), if_pos hfound]
  rfl

theorem mapM_zipIdx {f : Axis × Nat → Fitted Int} : ∀ {axes : List Axis} {slope : List Int} {n : Nat}, slope.length = axes.length →
    (∀ i axis, axes[i]? = some axis → f (axis, n + i) = .ok (slope.getD i 0)) → (axes.zipIdx n).mapM f = .ok slope
  | [], [], _, _, _ => rfl
  | axis :: axes, b :: slope, n, hlen, h => by
    have hrest := mapM_zipIdx (f := f) (n := n + 1) (Nat.succ.inj hlen) fun i a ha => by
      rw [Nat.add_assoc, Nat.add_comm 1]; exact h (i + 1) a ha
    rw [zipIdx_cons, mapM_cons, show f (axis, n) = .ok b from h 0 axis rfl, hrest]
    rfl

theorem affine_onLine {axes : List Axis} (h : OnLine base slope points) (hlen : slope.length = axes.length) (hne : points ≠ [])
    (hseen : ∀ k < axes.length, ∃ p ∈ points, ∃ q ∈ points, DifferOnly k p.1 q.1) :
    affine axes points = .ok (.affine base slope) := by
  rcases exists_cons_of_ne_nil hne with ⟨here, rest, rfl⟩
  have hslope : axes.zipIdx.mapM (slopeOf (here :: rest)) = .ok slope := mapM_zipIdx hlen fun i axis hi => by
    rw [Nat.zero_add]
    exact slopeOf_onLine h axis (hseen i (List.getElem?_eq_some_iff.mp hi).1)
  have hbase : here.2 - ((slope.zip here.1).map fun p => p.1 * p.2).sum = base := by
    rw [h.value here mem_cons_self, dot]; ring
  have hcheck : ∀ l : List (List Int × Int), (∀ p ∈ l, p ∈ here :: rest) → l.forM (checkPoint (.affine base slope)) = .ok () := by
    intro l
    induction l with
    | nil => intro _; rfl
    | cons p l ih =>
      intro hl
      have hp : checkPoint (.affine base slope) p = .ok () := by
        rw [checkPoint, affine_at]
        exact if_pos (h.value p (hl p mem_cons_self)).symm
      exact (congrArg (· >>= fun _ => l.forM _) hp).trans (ih fun q hq => hl q (mem_cons_of_mem _ hq))
  rw [affine, hslope]
  show (do (here :: rest).forM _; _ : Fitted Law) = _
  rw [hbase, hcheck _ fun _ hp => hp]
  rfl

end

/-! ## Staircases -/

section

variable {observed : List Observed} {mul div alpha beta : Int}

theorem ceil_eq_iff {n w : Int} (hdiv : 0 < div) : ⌈(n : ℚ) / div⌉ = w ↔ div * (w - 1) < n ∧ n ≤ div * w := by
  have hpos : (0 : ℚ) < div := Int.cast_pos.mpr hdiv
  rw [Int.ceil_eq_iff, lt_div_iff₀ hpos, div_le_iff₀ hpos, mul_comm _ (div : ℚ), mul_comm _ (div : ℚ)]
  norm_cast

theorem ceil_at (hdiv : 0 < div) (coords : List Int) (rows : Int) : (Law.ceil mul alpha beta div).at_ coords rows =
    some (mul * ⌈((alpha * rows + beta : Int) : ℚ) / div⌉) := by
  generalize hn : alpha * rows + beta = n
  have hceil : ⌈(n : ℚ) / div⌉ = n / div + if n % div ≠ 0 then 1 else 0 := by
    refine (ceil_eq_iff hdiv).mpr ?_
    have hmod := Int.mul_ediv_add_emod n div
    have hlt := Int.emod_lt_of_pos n hdiv
    have hnn := Int.emod_nonneg n hdiv.ne'
    split <;> simp only [mul_sub, mul_add, mul_one, mul_zero] <;> omega
  rw [hceil, mul_add, ← hn]
  rfl

/-- The samples are on a staircase. -/
def OnStairs (observed : List Observed) (mul div alpha beta : Int) : Prop :=
  ∀ o ∈ observed, o.value = mul * ⌈((alpha * o.rows + beta : Int) : ℚ) / div⌉

theorem tile_isSome (hmul : 1 ≤ mul) (hdiv : 2 ≤ div) (hne : observed ≠ []) (h : OnStairs observed mul div alpha beta) :
    (tile observed mul div alpha).isSome := by
  have hwhole : ∀ o ∈ observed, o.value.tmod mul = 0 ∧ mul * o.value.tdiv mul = o.value ∧
      div * (o.value.tdiv mul - 1) < alpha * o.rows + beta ∧ alpha * o.rows + beta ≤ div * o.value.tdiv mul := by
    intro o ho
    have hval := h o ho
    have hquot : o.value.tdiv mul = ⌈((alpha * o.rows + beta : Int) : ℚ) / div⌉ := by
      rw [hval, Int.mul_tdiv_cancel_left _ (by omega)]
    rw [hquot, ← hval]
    exact ⟨by rw [hval, Int.mul_tmod_right], rfl, (ceil_eq_iff (by omega)).mp rfl⟩
  have hlo : (observed.map fun o => div * (o.value.tdiv mul - 1) - alpha * o.rows) ≠ [] := by simpa using hne
  have hhi : (observed.map fun o => div * o.value.tdiv mul - alpha * o.rows) ≠ [] := by simpa using hne
  rcases Option.isSome_iff_exists.mp (isSome_max?_of_ne_nil hlo) with ⟨lo, hlo⟩
  rcases Option.isSome_iff_exists.mp (isSome_min?_of_ne_nil hhi) with ⟨hi, hhi⟩
  have hlo' := max?_eq_some_iff.mp hlo
  have hhi' := min?_eq_some_iff.mp hhi
  rcases mem_map.mp hlo'.1 with ⟨o₁, ho₁, hlow⟩
  rcases mem_map.mp hhi'.1 with ⟨o₂, ho₂, hhigh⟩
  have hroom : lo < hi := by
    have h1 := (hwhole o₁ ho₁).2.2.1
    have h2 := (hwhole o₂ ho₂).2.2.2
    omega
  have hfits : ∀ o ∈ observed, (Law.ceil mul alpha hi div).at_ o.coords o.rows = some o.value := by
    intro o ho
    have h1 := hlo'.2 _ (mem_map_of_mem ho)
    have h2 := hhi'.2 _ (mem_map_of_mem ho)
    rw [ceil_at (by omega), (ceil_eq_iff (w := o.value.tdiv mul) (by omega)).mpr ⟨by omega, by omega⟩, (hwhole o ho).2.1]
  have hany : (observed.any fun o => o.value.tmod mul ≠ 0) = false :=
    any_eq_false.mpr fun o ho => by simp [(hwhole o ho).1]
  unfold tile
  simp only [hlo, hhi, hany]
  rw [if_neg (by simpa using hroom), if_pos (all_eq_true.mpr fun o ho => by simp [hfits o ho])]
  rfl

theorem dvd_gcd (d a b : Int) : d ∣ Fit.gcd a b ↔ d ∣ a ∧ d ∣ b := by
  fun_induction Fit.gcd a b with
  | case1 a => simp
  | case2 a b hb ih =>
    have h := Int.mul_tdiv_add_tmod a b
    rw [ih, and_comm]
    refine and_congr_left fun hd => ?_
    conv_rhs => rw [← h]
    exact (Int.dvd_add_right (hd.mul_right _)).symm

theorem gcd_nonneg (a b : Int) (ha : 0 ≤ a) (hb : 0 ≤ b) : 0 ≤ Fit.gcd a b := by
  fun_induction Fit.gcd a b with
  | case1 => exact ha
  | case2 a b _ ih => exact ih hb (Int.tmod_nonneg b ha)

theorem dvd_common (d : Int) : ∀ (observed : List Observed) {init : Int}, 0 ≤ init →
    0 ≤ observed.foldl (fun common o => Fit.gcd common |o.value|) init ∧
      (d ∣ observed.foldl (fun common o => Fit.gcd common |o.value|) init ↔ d ∣ init ∧ ∀ o ∈ observed, d ∣ o.value)
  | [], _, h => ⟨h, by simp⟩
  | o :: observed, init, h => by
    rcases dvd_common d observed (gcd_nonneg init |o.value| h (abs_nonneg _)) with ⟨hnn, hdvd⟩
    refine ⟨hnn, hdvd.trans ?_⟩
    rw [dvd_gcd, dvd_abs, forall_mem_cons, and_assoc]

theorem byRows_value {k v : Int} (h : (byRows observed)[k]? = some v) : ∃ o ∈ observed, o.value = v := by
  have hrun : ∀ (l : List Observed) (m : Std.TreeMap Int Int), (l.foldl (fun m o => m.insert o.rows o.value) m)[k]? = some v →
      m[k]? = some v ∨ ∃ o ∈ l, o.value = v := by
    intro l
    induction l with
    | nil => exact fun m h => .inl h
    | cons o l ih =>
      intro m h
      rcases ih _ h with h | ⟨o', ho', hv⟩
      · rw [Std.TreeMap.getElem?_insert] at h
        split at h
        · exact .inr ⟨o, mem_cons_self, Option.some.inj h⟩
        · exact .inl h
      · exact .inr ⟨o', mem_cons_of_mem _ ho', hv⟩
  exact (hrun observed ∅ h).resolve_left (by simp)

theorem crossings_values (h : 2 ≤ crossings observed) : ∃ o ∈ observed, o.value ≠ 0 := by
  rcases exists_mem_of_length_pos (show 0 < crossings observed by omega) with ⟨⟨k, v⟩, hmem⟩
  rw [mem_filter] at hmem
  have hk := Std.TreeMap.mem_toList_iff_getElem?_eq_some.mp hmem.1
  rcases (Option.any_eq_true _ _).mp hmem.2 with ⟨w, hw, hne⟩
  rcases byRows_value hk with ⟨o, ho, rfl⟩
  rcases byRows_value hw with ⟨o', ho', rfl⟩
  by_cases hz : o.value = 0
  · exact ⟨o', ho', fun h => by simp [hz, h] at hne⟩
  · exact ⟨o, ho, hz⟩

theorem ceiling_isSome_iff : (ceiling observed).isSome ↔ 2 ≤ crossings observed ∧ ∃ mul div alpha beta : Int, 1 ≤ mul ∧
    (2 ≤ div ∧ div ≤ MAX_TILE) ∧ (1 ≤ alpha ∧ alpha ≤ MAX_NUMERATOR_SCALE) ∧ OnStairs observed mul div alpha beta := by
  constructor
  · intro h
    rcases Option.isSome_iff_exists.mp h with ⟨law, hlaw⟩
    rcases ceiling_found hlaw with ⟨hcross, mul, div, alpha, hmul, hdiv, halpha, ht⟩
    rcases tile_reproduces ht with ⟨⟨beta, rfl⟩, hall⟩
    refine ⟨hcross, mul, div, alpha, beta, hmul, hdiv, halpha, fun o ho => ?_⟩
    exact Option.some.inj ((hall o ho).symm.trans (ceil_at (by omega) _ _))
  · intro ⟨hcross, mul, div, alpha, beta, hmul, hdiv, halpha, hfit⟩
    rcases crossings_values hcross with ⟨o, ho, hval⟩
    have hcommon := fun d => dvd_common d observed (le_refl 0)
    have hdvd := ((hcommon mul).2.mpr ⟨dvd_zero _, fun o ho => ⟨_, hfit o ho⟩⟩)
    have hself := ((hcommon _).2.mp (dvd_refl _)).2 o ho
    unfold ceiling
    rw [if_neg (by omega)]
    dsimp only
    generalize observed.foldl (fun common o => Fit.gcd common |o.value|) 0 = common at *
    have hne : common ≠ 0 := fun e => hval (zero_dvd_iff.mp (e ▸ hself))
    rw [if_neg hne]
    have hle := Int.le_of_dvd (lt_of_le_of_ne (hcommon 0).1 hne.symm) hdvd
    simp only [findSome?_isSome_iff]
    exact ⟨mul, mem_filter.mpr ⟨mem_upTo.mpr ⟨hmul, hle⟩, decide_eq_true (Int.tmod_eq_zero_of_dvd hdvd)⟩, div, mem_upTo.mpr hdiv,
      alpha, mem_upTo.mpr halpha, tile_isSome hmul hdiv.1 (ne_nil_of_mem ho) hfit⟩

end

theorem fitted_laws_right :
    (∀ axes observed law, component axes observed = .ok (some law) → ∀ o ∈ observed, law.at_ o.coords o.rows = some o.value) ∧
    (∀ (axes : List Axis) (observed : List Observed) (base : Int) (slope : List Int), slope.length = axes.length →
      (∃ o ∈ observed, ∃ o' ∈ observed, o.value ≠ o'.value) →
      (∀ o ∈ observed, ∀ o' ∈ observed, o.coords.length = o'.coords.length) →
      (∀ o ∈ observed, o.value = base + dot slope o.coords) →
      (∀ k < axes.length, ∃ o ∈ observed, ∃ o' ∈ observed, DifferOnly k o.coords o'.coords) →
      component axes observed = .ok (some (.affine base slope))) ∧
    (∀ observed : List Observed, (ceiling observed).isSome ↔ 2 ≤ crossings observed ∧ ∃ mul div alpha beta : Int, 1 ≤ mul ∧
      (2 ≤ div ∧ div ≤ MAX_TILE) ∧ (1 ≤ alpha ∧ alpha ≤ MAX_NUMERATOR_SCALE) ∧
      ∀ o ∈ observed, o.value = mul * ⌈((alpha * o.rows + beta : Int) : ℚ) / div⌉) := by
  refine ⟨fun _ _ _ => component_reproduces, ?_, fun _ => ceiling_isSome_iff⟩
  intro axes observed base slope hlen hvary hwidth hvalue hseen
  rcases hvary with ⟨o, ho, o', ho', hne⟩
  rcases exists_cons_of_ne_nil (ne_nil_of_mem ho) with ⟨first, rest, hobs⟩
  have honline : OnLine base slope (observed.map fun o => (o.coords, o.value)) :=
    ⟨by simpa using hwidth, by simpa using hvalue⟩
  have haff : affine axes _ = _ := affine_onLine honline hlen (by simpa using ne_nil_of_mem ho) fun k hk => by
    rcases hseen k hk with ⟨o, ho, o', ho', hdiff⟩
    exact ⟨_, mem_map_of_mem ho, _, mem_map_of_mem ho', hdiff⟩
  have hall : ¬(observed.all fun o => o.value = first.value) = true := by
    intro hall
    have hsame := fun x hx => of_decide_eq_true (all_eq_true.mp hall x hx)
    exact hne ((hsame o ho).trans (hsame o' ho').symm)
  have hfirst : index observed 0 = .ok first := by rw [hobs]; rfl
  unfold component
  rw [hfirst]
  show (if _ then _ else _) = _
  rw [if_neg hall, haff]

theorem fitted_laws_right_two : component [⟨"a lane", [(1, 1)]⟩] [⟨[0], 1, 5⟩, ⟨[2], 3, 9⟩] = .ok (some (.affine 5 [2])) :=
  fitted_laws_right.2.1 [⟨"a lane", [(1, 1)]⟩] [⟨[0], 1, 5⟩, ⟨[2], 3, 9⟩] 5 [2] rfl
    ⟨_, mem_cons_self, _, mem_cons_of_mem _ mem_cons_self, by decide⟩ (by simp) (by simp [dot])
    fun k hk => ⟨_, mem_cons_self, _, mem_cons_of_mem _ mem_cons_self, fun i => by
      obtain rfl : k = 0 := Nat.lt_one_iff.mp hk
      cases i <;> simp⟩

end Pie.Proof.Fits
