import Pie.Eta.Value

/-!
# Reduction trees

Each lane of a level tells of some entries of the row, and two lanes together of
the entries of both. What the last lane tells is of all of them, in some order
that starts as the row does.
-/

namespace Pie.Proof.Reductions

open List Eta

/-! ## One level -/

section

variable {α : Type} {identity : α} {combine : α → α → α} {S : List α → α → Prop}

/-- `S` relates entries, in any order, to the value they are combined to. -/
structure Summary (identity : α) (combine : α → α → α) (S : List α → α → Prop) : Prop where
  none : S [] identity
  both : ∀ {xs ys a b}, S xs a → S ys b → S (xs ++ ys) (combine a b)

theorem zipWith_summary (hS : Summary identity combine S) {xs ys : List (List α)} {as bs : List α}
    (hx : Forall₂ S xs as) (hy : Forall₂ S ys bs) : Forall₂ S (zipWith (· ++ ·) xs ys) (zipWith combine as bs) := by
  induction hx generalizing ys bs with
  | nil => exact .nil
  | cons h _ ih =>
    cases hy with
    | nil => exact .nil
    | cons h' hy => exact .cons (hS.both h h') (ih hy)

theorem flatten_zipWith : ∀ {xs ys : List (List α)}, xs.length = ys.length →
    (zipWith (· ++ ·) xs ys).flatten ~ xs.flatten ++ ys.flatten
  | [], [], _ => .nil
  | x :: xs, y :: ys, h => by
    have hrest : y ++ (zipWith (· ++ ·) xs ys).flatten ~ xs.flatten ++ (y ++ ys.flatten) :=
      ((flatten_zipWith (Nat.succ.inj h)).append_left y).trans
        (by rw [← append_assoc, ← append_assoc]; exact perm_append_comm.append_right _)
    rw [zipWith_cons_cons, flatten_cons, flatten_cons, flatten_cons, append_assoc, append_assoc]
    exact hrest.append_left x

/-- The lanes tell of `parts`, the parts of some entries. The first part is not empty and starts as the entries do. -/
structure Told (S : List α → α → Prop) (entries lanes : List α) (parts : List (List α)) : Prop where
  each : Forall₂ S parts lanes
  perm : parts.flatten ~ entries
  head : ∃ x rest, parts.head? = some (x :: rest) ∧ entries.head? = some x

theorem Told.fold (hS : Summary identity combine S) {entries lanes : List α} {parts : List (List α)} {k : Nat}
    (h : Told S entries (lanes.take (k + k)) parts) (hk : 0 < k) (hlen : k + k ≤ lanes.length) :
    ∃ parts', Told S entries ((foldLanes combine lanes k).take k) parts' := by
  have hparts : parts.length = k + k := h.each.length_eq.trans (length_take_of_le hlen)
  have hlanes : (foldLanes combine lanes k).take k
      = zipWith combine ((lanes.take (k + k)).take k) ((lanes.take (k + k)).drop k) := by
    have hzip : (zipWith combine (lanes.take k) (lanes.drop k)).length = k := by simp; omega
    rw [foldLanes, take_append_of_le_length hzip.ge, take_of_length_le hzip.le, take_take, min_eq_left (by omega),
      drop_take, Nat.add_sub_cancel]
    have hmin : min k (lanes.length - k) = k := min_eq_left (by omega)
    rw [zipWith_eq_zipWith_take_min, length_take_of_le (by omega), length_drop, hmin, take_take, Nat.min_self]
  rcases h.head with ⟨x, rest, hhead, hentries⟩
  refine ⟨zipWith (· ++ ·) (parts.take k) (parts.drop k), ⟨?_, ?_, ?_⟩⟩
  · rw [hlanes]
    exact zipWith_summary hS (forall₂_take k h.each) (forall₂_drop k h.each)
  · refine (flatten_zipWith (by simp; omega)).trans ?_
    rw [← flatten_append, take_append_drop]
    exact h.perm
  · cases parts with
    | nil => cases hhead
    | cons p parts =>
      obtain rfl := Option.some.inj hhead
      obtain ⟨k, rfl⟩ := Nat.exists_eq_succ_of_ne_zero hk.ne'
      cases hdrop : ((x :: rest) :: parts).drop (k + 1) with
      | nil => exact absurd (congrArg length hdrop) (by simp at hparts ⊢; omega)
      | cons q qs => exact ⟨x, rest ++ q, rfl, hentries⟩

/-- A lane that tells of at least one entry. -/
def Shown (S : List α → α → Prop) (part : List α) (lane : α) : Prop := S part lane ∧ part ≠ []

theorem reduceChunk_shown (hS : Summary identity combine S) {chunk : List α} {parts : List (List α)}
    (h : Forall₂ (Shown S) parts chunk) (hne : chunk ≠ []) (hlen : chunk.length ≤ 32) :
    ∃ order, Shown S order (reduceChunk identity combine chunk) ∧ order ~ parts.flatten ∧
      order.head? = parts.flatten.head? := by
  have hpad : Forall₂ S (replicate (32 - chunk.length) []) (replicate (32 - chunk.length) identity) := by
    induction 32 - chunk.length with
    | zero => exact .nil
    | succ n ih => exact .cons hS.none ih
  have hpads : (replicate (32 - chunk.length) ([] : List α)).flatten = [] := by simp
  have hfull : (chunk ++ replicate (32 - chunk.length) identity).length = 32 := by simp; omega
  have htold : Told S parts.flatten ((chunk ++ replicate (32 - chunk.length) identity).take (16 + 16))
      (parts ++ replicate (32 - chunk.length) []) := by
    refine ⟨?_, by rw [flatten_append, hpads, append_nil], ?_⟩
    · rw [take_of_length_le hfull.le]
      exact rel_append (h.imp fun _ _ => And.left) hpad
    · cases h with
      | nil => exact absurd rfl hne
      | cons hp _ =>
        rcases exists_cons_of_ne_nil hp.2 with ⟨x, rest, rfl⟩
        exact ⟨x, rest, rfl, rfl⟩
  -- each step halves the lanes that count, and keeps all of them
  have hstep : ∀ {lanes : List α} {k parts'}, lanes.length = 32 → 0 < k → k + k ≤ 32 →
      Told S parts.flatten (lanes.take (k + k)) parts' → (foldLanes combine lanes k).length = 32 ∧
        ∃ parts', Told S parts.flatten ((foldLanes combine lanes k).take k) parts' := by
    intro lanes k parts' hl hk hkk ht
    exact ⟨by simp [foldLanes]; omega, ht.fold hS hk (by omega)⟩
  rcases hstep hfull (by decide) (by decide) htold with ⟨h16, _, t16⟩
  rcases hstep (k := 8) h16 (by decide) (by decide) t16 with ⟨h8, _, t8⟩
  rcases hstep (k := 4) h8 (by decide) (by decide) t8 with ⟨h4, _, t4⟩
  rcases hstep (k := 2) h4 (by decide) (by decide) t4 with ⟨h2, _, t2⟩
  rcases hstep (k := 1) h2 (by decide) (by decide) t2 with ⟨h1, last, t1⟩
  rw [reduceChunk, foldl_cons, foldl_cons, foldl_cons, foldl_cons, foldl_cons, foldl_nil]
  generalize foldLanes combine _ 1 = lanes at h1 t1
  cases lanes with
  | nil => cases h1
  | cons a lanes =>
    rcases t1 with ⟨heach, hperm, x, rest, hhead, hentries⟩
    cases heach with
    | cons ha hnone =>
      cases hnone
      obtain rfl := Option.some.inj hhead
      exact ⟨_, ⟨ha, cons_ne_nil _ _⟩, by rwa [flatten_singleton] at hperm, hentries.symm⟩

theorem chunks32_shown (hS : Summary identity combine S) : ∀ {fuel : Nat} {level : List α} {parts : List (List α)},
    level.length ≤ fuel → Forall₂ (Shown S) parts level →
    ∃ orders, Forall₂ (Shown S) orders ((chunks32 fuel level).map (reduceChunk identity combine)) ∧
      orders.flatten ~ parts.flatten ∧ orders.flatten.head? = parts.flatten.head?
  | 0, [], _, _, h => ⟨[], .nil, by cases h; exact .nil, by cases h; rfl⟩
  | fuel + 1, [], _, _, h => ⟨[], .nil, by cases h; exact .nil, by cases h; rfl⟩
  | fuel + 1, x :: xs, parts, hfuel, h => by
    rcases reduceChunk_shown hS (forall₂_take 32 h) (cons_ne_nil _ _) (length_take_le _ _) with ⟨order, ho, hperm, hhead⟩
    have hlen : ((x :: xs).drop 32).length ≤ fuel := by simp at hfuel ⊢; omega
    rcases chunks32_shown hS hlen (forall₂_drop 32 h) with ⟨orders, hos, hperms, hheads⟩
    refine ⟨order :: orders, .cons ho hos, ?_, ?_⟩
    · rw [flatten_cons, ← take_append_drop 32 parts, flatten_append]
      exact hperm.append hperms
    · rw [flatten_cons, ← take_append_drop 32 parts, flatten_append, head?_append, head?_append, hhead, hheads]

end

/-! ## The levels -/

section

variable {α : Type} {identity : α} {combine : α → α → α}

/-- One turn of the loop. -/
def nextLevel (identity : α) (combine : α → α → α) (level : List α) : List α :=
  (chunks32 level.length level).map (reduceChunk identity combine)

theorem chunks32_length : ∀ {fuel : Nat} {level : List α}, level.length ≤ fuel →
    level.length ≤ 32 * (chunks32 fuel level).length ∧ 32 * (chunks32 fuel level).length < level.length + 32
  | 0, [], _ => by simp [chunks32]
  | fuel + 1, [], _ => by simp [chunks32]
  | fuel + 1, x :: xs, h => by
    have hlen : ((x :: xs).drop 32).length ≤ fuel := by simp at h ⊢; omega
    have hrest := chunks32_length hlen
    rw [length_drop, length_cons] at hrest
    rw [chunks32, length_cons, length_cons]
    rw [length_cons] at h
    omega

theorem nextLevel_length {level : List α} (h : 1 < level.length) :
    0 < (nextLevel identity combine level).length ∧ (nextLevel identity combine level).length < level.length := by
  have hlen := chunks32_length (le_refl level.length)
  rw [nextLevel, length_map]
  omega

theorem reduceLevels_rounds : ∀ {fuel : Nat} {level : List α}, level.length ≤ fuel →
    ∃ rounds ≤ fuel, (∀ r < rounds, 1 < ((nextLevel identity combine)^[r] level).length) ∧
      ((nextLevel identity combine)^[rounds] level).length ≤ 1 ∧
      reduceLevels identity combine fuel level = ((nextLevel identity combine)^[rounds] level).headD identity
  | 0, level, h => ⟨0, le_rfl, nofun, by simp at h; simp [h], rfl⟩
  | fuel + 1, level, h => by
    by_cases hlen : 1 < level.length
    · have hnext : (nextLevel identity combine level).length < level.length := (nextLevel_length hlen).2
      rcases reduceLevels_rounds (show (nextLevel identity combine level).length ≤ fuel by omega) with ⟨rounds, hle, hmore, hone, heq⟩
      refine ⟨rounds + 1, by omega, ?_, hone, by rw [reduceLevels, if_pos hlen]; exact heq⟩
      intro r hr
      cases r with
      | zero => exact hlen
      | succ r => exact hmore r (by omega)
    · exact ⟨0, by omega, nofun, by simpa using hlen, by rw [reduceLevels, if_neg hlen]; rfl⟩

theorem nextLevel_rounds_shown {S : List α → α → Prop} (hS : Summary identity combine S) : ∀ (rounds : Nat) {level : List α}
    {parts : List (List α)}, Forall₂ (Shown S) parts level →
    ∃ orders, Forall₂ (Shown S) orders ((nextLevel identity combine)^[rounds] level) ∧
      orders.flatten ~ parts.flatten ∧ orders.flatten.head? = parts.flatten.head?
  | 0, _, parts, h => ⟨parts, h, .refl _, rfl⟩
  | rounds + 1, level, parts, h => by
    rcases chunks32_shown hS le_rfl h with ⟨orders, hos, hperm, hhead⟩
    rcases nextLevel_rounds_shown hS rounds hos with ⟨orders', hos', hperm', hhead'⟩
    exact ⟨orders', hos', hperm'.trans hperm, hhead'.trans hhead⟩

theorem canonicalReduce_summary {S : List α → α → Prop} (hS : Summary identity combine S) {row : List α}
    (hone : ∀ x ∈ row, S [x] x) : ∃ order, order ~ row ∧ order.head? = row.head? ∧
      S order (canonicalReduce row identity combine) := by
  rcases @reduceLevels_rounds _ identity combine _ _ (le_refl row.length) with
    ⟨rounds, -, -, hlen, heq⟩
  have hrow : Forall₂ (Shown S) (row.map ([·])) row :=
    forall₂_map_left_iff.mpr (forall₂_same.mpr fun x hx => ⟨hone x hx, cons_ne_nil _ _⟩)
  rcases nextLevel_rounds_shown hS rounds hrow with ⟨orders, hos, hperm, hhead⟩
  have hflat : (row.map ([·])).flatten = row := by rw [← flatMap_def]; exact flatMap_singleton' row
  rw [hflat] at hperm hhead
  rw [canonicalReduce, heq]
  generalize (nextLevel identity combine)^[rounds] row = level at hlen hos
  match level, hos with
  | [], .nil => exact ⟨[], hperm, hhead, hS.none⟩
  | [_], .cons h .nil =>
    rw [flatten_singleton] at hperm hhead
    exact ⟨_, hperm, hhead, h.1⟩

end

section

variable {α : Type} {identity : α} {combine : α → α → α} [Std.Associative combine] [Std.Commutative combine]

theorem fold_summary (hid : ∀ x, combine identity x = x) :
    Summary identity combine (fun xs a => xs.foldl combine identity = a) where
  none := rfl
  both := by
    intro xs ys a b ha hb
    have hright : combine a identity = a := (Std.Commutative.comm a identity).trans (hid a)
    calc (xs ++ ys).foldl combine identity
        = ys.foldl combine (combine a identity) := by rw [foldl_append, ha, hright]
      _ = combine a b := by rw [foldl_assoc, hb]

theorem canonicalReduce_foldl (hid : ∀ x, combine identity x = x) (row : List α) :
    canonicalReduce row identity combine = row.foldl combine identity := by
  rcases canonicalReduce_summary (fold_summary hid) (fun x (_ : x ∈ row) => hid x) with ⟨order, hperm, -, heq⟩
  exact heq.symm.trans (hperm.foldl_op_eq)

end

/-! ## The largest entry -/

section

variable (F : F32Ops) {L : Type} [LinearOrder L] {key : F32 → L}

/-- The comparisons of numbers are those of their keys. -/
def Ordered (key : F32 → L) : Prop := ∀ x y, F32.isNan x = false → F32.isNan y = false →
  (F.lt x y = true ↔ key x < key y) ∧ (F.eq x y = true ↔ key x = key y)

/-- `c` is found, and no later or smaller than `x`; or `x` is missing. -/
def Better (key : F32 → L) (c x : ArgmaxCandidate) : Prop := x.have_ = true →
  c.have_ = true ∧ (key x.value < key c.value ∨ key x.value = key c.value ∧ c.index ≤ x.index)

theorem Better.trans {a b c : ArgmaxCandidate} (h : Better key a b) (h' : Better key b c) : Better key a c := by
  intro hc
  rcases h' hc with ⟨hb, hbc⟩
  refine ⟨(h hb).1, ?_⟩
  rcases (h hb).2 with hab | ⟨hab, hi⟩ <;> rcases hbc with hbc | ⟨hbc, hj⟩
  · exact .inl (hbc.trans hab)
  · exact .inl (hbc ▸ hab)
  · exact .inl (hab ▸ hbc)
  · exact .inr ⟨hbc.trans hab, hi.trans hj⟩

theorem combineArgmax_better (hF : Ordered F key) {a b : ArgmaxCandidate} (ha : a.have_ = true → F32.isNan a.value = false)
    (hb : b.have_ = true → F32.isNan b.value = false) :
    combineArgmax F a b = a ∧ Better key a b ∨ combineArgmax F a b = b ∧ b.have_ = true ∧ Better key b a := by
  unfold combineArgmax Better
  cases hl : a.have_ with
  | false => cases b.have_ <;> simp
  | true =>
    cases hr : b.have_ with
    | false => simp
    | true =>
      have hlt := (hF _ _ (ha hl) (hb hr)).1
      have heq := (hF _ _ (hb hr) (ha hl)).2
      simp only [Bool.or_eq_true, Bool.and_eq_true, hlt, heq, decide_eq_true_iff]
      split
      · rename_i h
        exact .inr ⟨rfl, trivial, fun _ => ⟨trivial, h.imp id fun h => ⟨h.1.symm, h.2.le⟩⟩⟩
      · rename_i h
        rw [not_or, not_and, not_lt, not_lt] at h
        exact .inl ⟨rfl, fun _ => ⟨trivial, h.1.lt_or_eq.imp id fun he => ⟨he, h.2 he⟩⟩⟩

/-- `c` is as good as all, and it is one of them; or nothing was found, and the index is that of the first. -/
structure Best (key : F32 → L) (xs : List ArgmaxCandidate) (c : ArgmaxCandidate) : Prop where
  number : c.have_ = true → F32.isNan c.value = false
  better : ∀ x ∈ xs, Better key c x
  found : c.have_ = true → c ∈ xs
  first : c.have_ = false → c.index = 0 ∨ ∃ x, xs.head? = some x ∧ c.index = x.index

theorem best_summary (hF : Ordered F key) : Summary ⟨F32.negInfinity, 0, false⟩ (combineArgmax F) (Best key) where
  none := ⟨nofun, nofun, nofun, fun _ => .inl rfl⟩
  both := by
    intro xs ys a b ha hb
    rcases combineArgmax_better F hF ha.number hb.number with ⟨heq, hbetter⟩ | ⟨heq, hfound, hbetter⟩
    · rw [heq]
      refine ⟨ha.number, fun x hx => ?_, fun h => mem_append_left _ (ha.found h), fun h => (ha.first h).imp_right ?_⟩
      · exact (mem_append.mp hx).elim (ha.better x) fun hx => hbetter.trans (hb.better x hx)
      · intro ⟨x, hx, hi⟩
        exact ⟨x, by rw [head?_append, hx]; rfl, hi⟩
    · rw [heq]
      refine ⟨hb.number, fun x hx => ?_, fun h => mem_append_right _ (hb.found h), fun h => absurd hfound (by rw [h]; decide)⟩
      exact (mem_append.mp hx).elim (fun hx => hbetter.trans (ha.better x hx)) (hb.better x)

/-- `i` is the smallest index of a maximal number. -/
def FirstLargest (key : F32 → L) (row : List F32) (i : Nat) : Prop := ∃ x, row[i]? = some x ∧ F32.isNan x = false ∧
  ∀ j y, row[j]? = some y → F32.isNan y = false → key y < key x ∨ key y = key x ∧ i ≤ j

theorem argmaxRow_firstLargest (hF : Ordered F key) {row : List F32} (hlen : row.length ≤ 2 ^ 32) :
    (∀ x ∈ row, F32.isNan x = true) ∧ argmaxRow F row = 0 ∨
      ∃ i, FirstLargest key row i ∧ argmaxRow F row = BitVec.ofNat 32 i := by
  have hsmall : ∀ {i x}, row[i]? = some x → i % 2 ^ 32 = i := fun h => Nat.mod_eq_of_lt (by grind)
  have hone : ∀ x ∈ row.zipIdx.map (fun p => (⟨p.1, p.2 % 2 ^ 32, !F32.isNan p.1⟩ : ArgmaxCandidate)), Best key [x] x := by
    intro c hc
    rcases mem_map.mp hc with ⟨⟨x, i⟩, -, rfl⟩
    exact ⟨fun h => by simpa using h, fun y hy => by rw [mem_singleton.mp hy]; exact fun h => ⟨h, .inr ⟨rfl, le_rfl⟩⟩,
      fun _ => mem_singleton_self _, fun _ => .inr ⟨_, rfl, rfl⟩⟩
  rcases canonicalReduce_summary (best_summary F hF) hone with ⟨order, hperm, hhead, hbest⟩
  rw [argmaxRow]
  generalize canonicalReduce _ _ _ = c at hbest
  have hmem : ∀ {i x}, row[i]? = some x → (⟨x, i % 2 ^ 32, !F32.isNan x⟩ : ArgmaxCandidate) ∈ order := fun hi =>
    hperm.mem_iff.mpr (mem_map.mpr ⟨(_, _), mem_zipIdx_iff_getElem?.mpr hi, rfl⟩)
  cases hfound : c.have_ with
  | true =>
    rcases mem_map.mp (hperm.subset (hbest.found hfound)) with ⟨⟨x, i⟩, hx, rfl⟩
    have hi := mem_zipIdx_iff_getElem?.mp hx
    refine .inr ⟨i, ⟨x, hi, hbest.number hfound, fun j y hj hy => ?_⟩, by rw [hsmall hi]⟩
    have h := (hbest.better _ (hmem hj) (by rw [hy]; rfl)).2
    rwa [hsmall hi, hsmall hj] at h
  | false =>
    refine .inl ⟨fun x hx => ?_, ?_⟩
    · rcases getElem?_of_mem hx with ⟨i, hi⟩
      refine (Bool.eq_false_or_eq_true _).resolve_right fun hx => ?_
      have h := (hbest.better _ (hmem hi) (by rw [hx]; rfl)).1
      rw [hfound] at h
      cases h
    · rcases hbest.first hfound with h | ⟨x, hx, h⟩
      · rw [h]; rfl
      · rw [hhead] at hx
        cases row with
        | nil => cases hx
        | cons y row =>
          obtain rfl := Option.some.inj hx
          rw [h]; rfl

end

/-! ## Rows of integers -/

section

/-- What is reduced, over the integers. A row without entries leaves the identity of the code. -/
def exact : ReduceKind → List Int → Int
  | .sum, row => row.sum
  | .max, row => row.max?.getD (-2 ^ 63)
  | .min, row => row.min?.getD (2 ^ 63 - 1)

/-- Words that are combined as the integers they stand for. -/
theorem canonicalReduce_toInt {f : BitVec 64 → BitVec 64 → BitVec 64} {g : Int → Int → Int} {e : BitVec 64}
    [Std.Associative g] [Std.Commutative g] (h : ∀ a b, (f a b).toInt = g a.toInt b.toInt) (he : ∀ a : BitVec 64, g e.toInt a.toInt = a.toInt)
    (row : List (BitVec 64)) : (canonicalReduce row e f).toInt = (row.map BitVec.toInt).foldl g e.toInt := by
  have : Std.Associative f := ⟨fun a b c => BitVec.toInt_inj.mp (by rw [h, h, h, h, @Std.Associative.assoc _ g])⟩
  have : Std.Commutative f := ⟨fun a b => BitVec.toInt_inj.mp (by rw [h, h, @Std.Commutative.comm _ g])⟩
  rw [canonicalReduce_foldl (fun a => BitVec.toInt_inj.mp ((h e a).trans (he a)))]
  generalize e = a
  induction row generalizing a with
  | nil => rfl
  | cons b row ih => rw [foldl_cons, ih, h, map_cons, foldl_cons]

theorem setWidth_ofInt (a : BitVec 64) : a.setWidth 32 = BitVec.ofInt 32 a.toInt :=
  (BitVec.signExtend_eq_setWidth_of_le a (by decide)).symm

theorem foldl_setWidth : ∀ (row : List (BitVec 64)) (a : BitVec 64),
    (row.foldl (· + ·) a).setWidth 32 = a.setWidth 32 + BitVec.ofInt 32 (row.map BitVec.toInt).sum
  | [], _ => by simp
  | b :: row, a => by
    rw [foldl_cons, foldl_setWidth row, BitVec.setWidth_add _ _ (by decide), map_cons, sum_cons, BitVec.ofInt_add,
      ← setWidth_ofInt, BitVec.add_assoc]

theorem reduceI64_exact (kind : ReduceKind) (row : List (BitVec 64)) :
    (reduceI64 kind row).setWidth 32 = BitVec.ofInt 32 (exact kind (row.map BitVec.toInt)) := by
  cases kind with
  | sum =>
    have hfold : reduceI64 .sum row = row.foldl (· + ·) 0 := canonicalReduce_foldl (fun a => BitVec.zero_add a) row
    rw [hfold, foldl_setWidth, exact]
    exact BitVec.zero_add _
  | max =>
    have hmax : ∀ a b, (maxI64 a b).toInt = max a.toInt b.toInt := fun a b => by
      unfold maxI64; split <;> rename_i h <;> rw [BitVec.slt_iff_toInt_lt] at h <;> omega
    have hlow : ∀ a : BitVec 64, max (-2 ^ 63) a.toInt = a.toInt := fun a => max_eq_right a.le_toInt
    rw [setWidth_ofInt, reduceI64, canonicalReduce_toInt (e := BitVec.intMin 64) hmax hlow, exact]
    cases row with
    | nil => rfl
    | cons a row => exact congrArg (fun x => BitVec.ofInt 32 ((row.map BitVec.toInt).foldl max x)) (hlow a)
  | min =>
    have hmin : ∀ a b, (minI64 a b).toInt = min a.toInt b.toInt := fun a b => by
      unfold minI64; split <;> rename_i h <;> rw [BitVec.slt_iff_toInt_lt] at h <;> omega
    have hhigh : ∀ a : BitVec 64, min (2 ^ 63 - 1) a.toInt = a.toInt := fun a => min_eq_right (Int.le_sub_one_of_lt a.toInt_lt)
    rw [setWidth_ofInt, reduceI64, canonicalReduce_toInt (e := BitVec.intMax 64) hmin hhigh, exact]
    cases row with
    | nil => rfl
    | cons a row => exact congrArg (fun x => BitVec.ofInt 32 ((row.map BitVec.toInt).foldl min x)) (hhigh a)

theorem rowSlices_map {α β : Type} (f : α → β) (x : List α) (rows : Nat) :
    rowSlices (x.map f) rows = (rowSlices x rows).map (map f) := by
  simp [rowSlices, map_take, map_drop]

end

end Pie.Proof.Reductions
