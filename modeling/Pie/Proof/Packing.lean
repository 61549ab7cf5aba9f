import Pie.Exec.Packing
import Pie.Lib.Tilings

/-!
# A packed selection

The lanes of a fire tile its rows. A selection of them is refused when there is a
gap among its rows; what is written otherwise is a rearrangement of these rows.
The lanes are written in the order of their groups, and in each group the lanes
without references come first, so two passes over the sorted lanes agree on where
a group begins and ends.
-/

namespace Pie.Proof.Packing

open List Pie.Exec Lib Chosen

variable {g r a : Nat} {f : Nat → Int} {id : UInt32} {p : Chosen → Bool} {values : Chosen → List Int}
  {e : UInt32 × Nat}

/-! ## Groups of lanes -/

/-- The groups stated so far have numbers of their own, all of them given out. -/
structure Stated (stated : List (UInt32 × Nat)) (next : Nat) : Prop where
  below : ∀ e ∈ stated, e.2 < next
  distinct : ∀ e ∈ stated, ∀ e' ∈ stated, e.2 = e'.2 → e.1 = e'.1

/-- Two lanes state the same group. -/
def SameGroup (groups : List (Option UInt32)) (i j : Nat) : Prop :=
  ∃ id, groups[i]? = some (some id) ∧ groups[j]? = some (some id)

variable {stated : List (UInt32 × Nat)} {next : Nat} {groups : List (Option UInt32)} {i j : Nat}

theorem find_stated (h : stated.find? (·.1 == id) = some e) : e ∈ stated ∧ e.1 = id :=
  ⟨mem_of_find?_eq_some h, by simpa using find?_some h⟩

theorem Stated.push (h : Stated stated next) : Stated (stated ++ [(id, next)]) (next + 1) := by
  have hmem : ∀ e ∈ stated ++ [(id, next)], e ∈ stated ∨ e = (id, next) := by
    intro e he
    simpa using he
  constructor
  · intro e he
    rcases hmem e he with he | rfl
    · exact Nat.lt_succ_of_lt (h.below e he)
    · exact Nat.lt_succ_self next
  · intro e he e' he' heq
    rcases hmem e he with he | rfl
    · rcases hmem e' he' with he' | rfl
      · exact h.distinct e he e' he' heq
      · exact absurd heq (ne_of_lt (h.below e he))
    · rcases hmem e' he' with he' | rfl
      · exact absurd heq.symm (ne_of_lt (h.below e' he'))
      · rfl

theorem Stated.mono (h : Stated stated next) : Stated stated (next + 1) :=
  ⟨fun e he => Nat.lt_succ_of_lt (h.below e he), h.distinct⟩

theorem groupsFrom_length : (groupsFrom stated next groups).length = groups.length := by
  induction groups generalizing stated next with
  | nil => rfl
  | cons g groups ih =>
    cases g with
    | none => simp only [groupsFrom, length_cons, ih]
    | some id =>
      unfold groupsFrom
      split <;> simp only [length_cons, ih]

/-- A lane's number: that of its group when it is stated, a new one otherwise. -/
theorem groupsFrom_cases (stated : List (UInt32 × Nat)) (next : Nat) {g : Option UInt32} (hg : groups[i]? = some g) :
    (∃ id e, g = some id ∧ stated.find? (·.1 == id) = some e ∧ (groupsFrom stated next groups)[i]? = some e.2)
      ∨ (∀ id, g = some id → stated.find? (·.1 == id) = none)
        ∧ ∃ d, (groupsFrom stated next groups)[i]? = some d ∧ next ≤ d := by
  induction groups generalizing stated next i with
  | nil => cases hg
  | cons g' groups ih =>
    cases i with
    | zero =>
      obtain rfl : g' = g := Option.some.inj hg
      cases g' with
      | none => exact .inr ⟨nofun, next, rfl, le_refl next⟩
      | some id =>
        cases hfind : stated.find? (·.1 == id) with
        | some e => exact .inl ⟨id, e, rfl, hfind, by simp [groupsFrom, hfind]⟩
        | none => exact .inr ⟨fun id' h => (Option.some.inj h) ▸ hfind, next, by simp [groupsFrom, hfind]⟩
    | succ i =>
      rw [getElem?_cons_succ] at hg
      cases g' with
      | none =>
        rcases ih stated (next + 1) hg with h | ⟨hnone, d, hd, hle⟩
        · exact .inl h
        · exact .inr ⟨hnone, d, hd, Nat.le_of_succ_le hle⟩
      | some id =>
        cases hfind : stated.find? (·.1 == id) with
        | some e =>
          simp only [groupsFrom, hfind, getElem?_cons_succ]
          exact ih stated next hg
        | none =>
          simp only [groupsFrom, hfind, getElem?_cons_succ]
          rcases ih (stated ++ [(id, next)]) (next + 1) hg with
            ⟨id', e, rfl, he, hd⟩ | ⟨hnone, d, hd, hle⟩
          · rw [find?_append] at he
            cases hold : stated.find? (·.1 == id') with
            | some e' =>
              rw [hold, Option.some_or] at he
              exact .inl ⟨id', e, rfl, he ▸ hold, hd⟩
            | none =>
              rw [hold, Option.none_or] at he
              obtain ⟨hin, -⟩ := find_stated he
              obtain rfl := mem_singleton.mp hin
              exact .inr ⟨fun id'' h => (Option.some.inj h) ▸ hold, next, hd, le_refl next⟩
          · refine .inr ⟨fun id' h => ?_, d, hd, Nat.le_of_succ_le hle⟩
            have := hnone id' h
            rw [find?_append, Option.or_eq_none_iff] at this
            exact this.1

theorem Stated.value_unique (h : Stated stated next) {id id' : UInt32} {e e' : UInt32 × Nat}
    (he : stated.find? (·.1 == id) = some e) (he' : stated.find? (·.1 == id') = some e') (heq : e.2 = e'.2) :
    id = id' := by
  obtain ⟨hmem, hid⟩ := find_stated he
  obtain ⟨hmem', hid'⟩ := find_stated he'
  rw [← hid, ← hid', h.distinct e hmem e' hmem' heq]

theorem sameGroup_comm : SameGroup groups i j ↔ SameGroup groups j i :=
  ⟨fun ⟨id, h, h'⟩ => ⟨id, h', h⟩, fun ⟨id, h, h'⟩ => ⟨id, h', h⟩⟩

/-- The first lane has the number of a later one when the two state one group. -/
theorem groupsFrom_head (hs : Stated stated next) {g : Option UInt32} (hj : j < groups.length) :
    (groupsFrom stated next (g :: groups))[0]? = (groupsFrom stated next (g :: groups))[j + 1]?
      ↔ SameGroup (g :: groups) 0 (j + 1) := by
  obtain ⟨g', hg'⟩ : ∃ g', groups[j]? = some g' := ⟨_, getElem?_eq_getElem hj⟩
  have hsame : SameGroup (g :: groups) 0 (j + 1) ↔ ∃ id, g = some id ∧ g' = some id := by
    simp only [SameGroup, getElem?_cons_zero, getElem?_cons_succ, hg', Option.some.injEq]
  rw [hsame]
  cases g with
  | none =>
    -- a number of its own is below those that come after it, and above those stated before
    simp only [groupsFrom, getElem?_cons_zero, getElem?_cons_succ]
    rcases groupsFrom_cases stated (next + 1) hg' with ⟨id, e, -, he, hd⟩ | ⟨-, d, hd, hle⟩
    · have := hs.below e (find_stated he).1
      rw [hd]
      simp
      omega
    · rw [hd]
      simp
      omega
  | some id =>
    cases hfind : stated.find? (·.1 == id) with
    | some e =>
      simp only [groupsFrom, hfind, getElem?_cons_zero, getElem?_cons_succ]
      have hlt := hs.below e (find_stated hfind).1
      rcases groupsFrom_cases stated next hg' with ⟨id', e', rfl, he', hd⟩ | ⟨hnone, d, hd, hle⟩
      · rw [hd]
        simp only [Option.some.injEq, exists_eq_left']
        constructor
        · exact fun heq => (hs.value_unique hfind he' heq).symm
        · intro hid
          rw [hid, hfind] at he'
          rw [Option.some.inj he']
      · rw [hd]
        simp only [Option.some.injEq, exists_eq_left']
        constructor
        · omega
        · intro hid
          rw [hnone id hid] at hfind
          cases hfind
    | none =>
      simp only [groupsFrom, hfind, getElem?_cons_zero, getElem?_cons_succ]
      have hself : (stated ++ [(id, next)]).find? (·.1 == id) = some (id, next) := by
        rw [find?_append, hfind]
        simp
      rcases groupsFrom_cases (stated ++ [(id, next)]) (next + 1) hg' with
        ⟨id', e', rfl, he', hd⟩ | ⟨hnone, d, hd, hle⟩
      · rw [hd]
        simp only [Option.some.injEq, exists_eq_left']
        constructor
        · exact fun heq => (hs.push.value_unique hself he' heq).symm
        · intro hid
          rw [hid, hself] at he'
          rw [← Option.some.inj he']
      · rw [hd]
        simp only [Option.some.injEq, exists_eq_left']
        constructor
        · omega
        · intro hid
          rw [hnone id hid] at hself
          cases hself

theorem groupsFrom_eq_iff (hs : Stated stated next) (hi : i < groups.length) (hj : j < groups.length) :
    (groupsFrom stated next groups)[i]? = (groupsFrom stated next groups)[j]? ↔ i = j ∨ SameGroup groups i j := by
  induction groups generalizing stated next i j with
  | nil => cases hi
  | cons g groups ih =>
    rw [length_cons] at hi hj
    cases i with
    | zero =>
      cases j with
      | zero => simp
      | succ j =>
        rw [groupsFrom_head hs (by omega)]
        simp
    | succ i =>
      cases j with
      | zero =>
        rw [eq_comm, groupsFrom_head hs (by omega), sameGroup_comm]
        simp
      | succ j =>
        have hstep (stated : List (UInt32 × Nat)) (next : Nat) (hs : Stated stated next) :
            (groupsFrom stated next groups)[i]? = (groupsFrom stated next groups)[j]?
              ↔ i + 1 = j + 1 ∨ SameGroup (g :: groups) (i + 1) (j + 1) := by
          rw [ih hs (by omega) (by omega), Nat.add_right_cancel_iff]
          rfl
        cases g with
        | none => exact hstep stated (next + 1) hs.mono
        | some id =>
          unfold groupsFrom
          split
          · exact hstep stated next hs
          · exact hstep _ (next + 1) hs.push

/-! ## Selected rows -/

/-- The lane holds the row. -/
def Holds (row : LaneRow) (r : Nat) : Prop :=
  row.rowOffset.toNat ≤ r ∧ r < row.rowOffset.toNat + row.rows.toNat

/-- Each row below `n` is in one lane, and each lane has rows. -/
structure Tiling (lanes : List LaneRow) (n : Nat) : Prop where
  positive : ∀ row ∈ lanes, 0 < row.rows.toNat
  within : ∀ row ∈ lanes, row.rowOffset.toNat + row.rows.toNat ≤ n
  apart : lanes.Pairwise fun a b => ∀ r, Holds a r → ¬Holds b r
  cover : ∀ r < n, ∃ row ∈ lanes, Holds row r

/-- A selected lane holds the row. -/
def Selected (select : Selection) (lanes : List LaneRow) (r : Nat) : Prop :=
  ∃ row ∈ lanes, select.holds row.word = true ∧ Holds row r

/-- The rows of the selected lanes are one run. -/
def Consecutive (select : Selection) (lanes : List LaneRow) : Prop :=
  ∃ a b, ∀ r, Selected select lanes r ↔ a ≤ r ∧ r < b

/-- Some range of the list has the number. -/
def Covered (ranges : List (Nat × Nat)) (r : Nat) : Prop := ∃ c ∈ ranges, c.1 ≤ r ∧ r < c.1 + c.2

variable {ranges : List (Nat × Nat)} {start stop : Nat}

theorem covered_cons {c : Nat × Nat} : Covered (c :: ranges) r ↔ c.1 ≤ r ∧ r < c.1 + c.2 ∨ Covered ranges r := by
  simp [Covered]

theorem runEnd_ok (h : runEnd start ranges = .ok stop) :
    stop = start + (ranges.map Prod.snd).sum ∧ ∀ r, Covered ranges r ↔ start ≤ r ∧ r < stop := by
  induction ranges generalizing start with
  | nil =>
    obtain rfl : start = stop := Except.ok.inj h
    refine ⟨rfl, fun r => ⟨fun ⟨_, hc, _⟩ => (not_mem_nil hc).elim, fun hr => ?_⟩⟩
    exact absurd hr.2 (not_lt.mpr hr.1)
  | cons c ranges ih =>
    unfold runEnd at h
    split at h
    · cases h
    · rename_i hstart
      obtain rfl : c.1 = start := not_not.mp hstart
      obtain ⟨hstop, hcover⟩ := ih h
      refine ⟨by rw [hstop, map_cons, sum_cons, add_assoc], fun r => ?_⟩
      rw [covered_cons, hcover]
      omega

theorem runEnd_error {found expected : Nat} (hsort : ranges.Pairwise fun a b => a.1 + a.2 ≤ b.1)
    (hpos : ∀ c ∈ ranges, 0 < c.2) (hstart : ∀ c ∈ ranges, start ≤ c.1)
    (h : runEnd start ranges = .error (found, expected)) :
    start ≤ expected ∧ expected < found ∧ Covered ranges found ∧ ¬Covered ranges expected := by
  induction ranges generalizing start with
  | nil => cases h
  | cons c ranges ih =>
    obtain ⟨hc, hsort⟩ := pairwise_cons.mp hsort
    have hcpos := hpos c mem_cons_self
    have hcstart := hstart c mem_cons_self
    unfold runEnd at h
    split at h
    · rename_i hne
      cases h
      refine ⟨le_rfl, by omega, covered_cons.mpr (.inl ⟨le_rfl, by omega⟩), ?_⟩
      -- all others come after this one
      intro ⟨d, hd, hcover⟩
      rcases mem_cons.mp hd with rfl | hd
      · omega
      · have := hc d hd
        omega
    · rename_i heq
      obtain rfl : c.1 = start := not_not.mp heq
      obtain ⟨hle, hlt, hfound, hgap⟩ :=
        ih hsort (fun d hd => hpos d (mem_cons_of_mem _ hd)) hc h
      refine ⟨by omega, hlt, covered_cons.mpr (.inr hfound), fun hcover => ?_⟩
      rcases covered_cons.mp hcover with h | h
      · omega
      · exact hgap h

/-! ## Vectors that are written in place -/

def rowsOf (lanes : List Chosen) : Nat := (lanes.map Chosen.rows).sum

/-- The values of some lanes one after the other, from a place on in `n` places that hold `-1` elsewhere. -/
def spread (values : Chosen → List Int) (origin n : Nat) (lanes : List Chosen) : List Int :=
  List.replicate origin (-1) ++ lanes.flatMap values ++ List.replicate (n - origin - rowsOf lanes) (-1)

theorem writeRows_eq {a : List Int} {m n : Nat} (h : n ≤ m) : writeRows (a ++ replicate m (-1)) a.length f n
      = a ++ (range n).map f ++ replicate (m - n) (-1) := by
  induction n with
  | zero => simp [writeRows]
  | succ n ih =>
    have hrest : replicate (m - n) (-1 : Int) = -1 :: replicate (m - (n + 1)) (-1) := by
      rw [← replicate_succ]
      congr 1
      omega
    unfold writeRows at *
    rw [range_succ, foldl_append, ih (by omega), foldl_cons, foldl_nil, hrest, map_append, map_singleton]
    have hlen : a.length + n = (a ++ (range n).map f).length := by simp
    rw [hlen, set_append_right _ _ le_rfl, Nat.sub_self, set_cons_zero]
    simp

theorem rowsOf_append {a b : List Chosen} : rowsOf (a ++ b) = rowsOf a + rowsOf b := by
  rw [rowsOf, map_append, sum_append]
  rfl

@[simp] theorem rowsOf_singleton {c : Chosen} : rowsOf [c] = c.rows := add_zero _

/-- The lanes that have a property, and the others. -/
theorem rowsOf_filter {lanes : List Chosen} :
    rowsOf (lanes.filter p) + rowsOf (lanes.filter (!p ·)) = rowsOf lanes := by
  rw [← rowsOf_append]
  exact ((filter_append_perm p lanes).map rows).sum_eq

/-- One more lane is written behind the others. -/
theorem writeRows_spread {origin n : Nat} {lanes : List Chosen} {c : Chosen}
    (hvalues : ∀ c, (values c).length = c.rows) (hc : values c = (range c.rows).map f)
    (hfit : origin + rowsOf (lanes ++ [c]) ≤ n) :
    writeRows (spread values origin n lanes) (origin + rowsOf lanes) f c.rows = spread values origin n (lanes ++ [c]) := by
  have hlen : (replicate origin (-1 : Int) ++ lanes.flatMap values).length = origin + rowsOf lanes := by
    rw [length_append, length_replicate, length_flatMap]
    congr 2
    exact map_congr_left fun c _ => hvalues c
  rw [rowsOf_append, rowsOf_singleton] at hfit
  unfold spread
  rw [← hlen, writeRows_eq (by omega), rowsOf_append, rowsOf_singleton, flatMap_append, flatMap_singleton,
    hc, append_assoc, append_assoc, append_assoc, append_assoc, Nat.sub_add_eq]

/-! ## The first pass -/

/-- The rows of a lane. -/
def Chosen.sources (c : Chosen) : List Nat := List.range' c.offset c.rows

def permuted (c : Chosen) : List Int := (Chosen.sources c).map asI32

def tagged (c : Chosen) : List Int := List.replicate c.rows c.tag

def classed (classes : List (Option (List Int))) (c : Chosen) : List Int := (List.range c.rows).map (classAt classes c.row)

/-- The lane refers to others, or does not, in its group. -/
def refers (g : Nat) (c : Chosen) : Bool := decide (c.group = g ∧ c.stream = REFERENCE)

def plain (g : Nat) (c : Chosen) : Bool := decide (c.group = g ∧ c.stream ≠ REFERENCE)

def below (g : Nat) (c : Chosen) : Bool := decide (c.group < g)

/-- Where each lane begins, and where the last one ends. -/
def laneBounds (origin : Nat) (lanes : List Chosen) : List Int :=
  (List.range (lanes.length + 1)).map fun k => asI32 (origin + rowsOf (lanes.take k))

theorem laneBounds_append {origin : Nat} {lanes : List Chosen} {c : Chosen} :
    laneBounds origin (lanes ++ [c]) = laneBounds origin lanes ++ [asI32 (origin + rowsOf lanes + c.rows)] := by
  unfold laneBounds
  have hinit : ∀ k ∈ range (lanes.length + 1),
      asI32 (origin + rowsOf ((lanes ++ [c]).take k)) = asI32 (origin + rowsOf (lanes.take k)) := by
    intro k hk
    rw [take_append_of_le_length (Nat.le_of_lt_succ (mem_range.mp hk))]
  rw [length_append, length_singleton, range_succ, map_append, map_singleton,
    map_congr_left hinit, take_of_length_le (by rw [length_append, length_singleton]),
    rowsOf_append, rowsOf_singleton, add_assoc origin]

/-- What has been written of the lanes so far. -/
structure Written (classes : List (Option (List Int))) (origin groups n : Nat) (done : List Chosen) (w : Writing) : Prop where
  packed : w.packed = origin + rowsOf done
  cursor : w.cursorGroup = done.getLast?.map Chosen.group
  first : ∀ c ∈ done, w.groupFirst.getD c.group 0 = origin + rowsOf (done.filter (below c.group))
  firstLength : w.groupFirst.length = groups
  seen : ∀ g < groups, w.seenReference[g]? = some (done.any (refers g))
  references : ∀ g < groups, w.references[g]? = some (done.countP (refers g))
  starts : ∀ g < groups,
    w.referenceStart[g]? = some (if done.any (refers g) then asI32 (rowsOf (done.filter (plain g))) else 0)
  laneIndptr : w.laneIndptr = laneBounds origin done
  permutation : w.permutation = spread permuted origin n done
  referenceTag : w.referenceTag = spread tagged origin n done
  attnClass : w.attnClass = spread (classed classes) origin n done

variable {classes : List (Option (List Int))} {origin count n : Nat} {done : List Chosen} {w : Writing} {c : Chosen}

theorem written_start (h : origin ≤ n) : Written classes origin count n [] (.start origin count n) := by
  have hspread (values : Chosen → List Int) : replicate n (-1 : Int) = spread values origin n [] := by
    have hsplit : n = origin + (n - origin) := by omega
    rw [spread, flatMap_nil, append_nil, replicate_append_replicate]
    exact congrArg (replicate · _) hsplit
  constructor
  case packed => rfl
  case cursor => rfl
  case first => exact fun c hc => (not_mem_nil hc).elim
  case firstLength => exact length_replicate
  case seen => exact fun g hg => getElem?_replicate_of_lt hg
  case references => exact fun g hg => getElem?_replicate_of_lt hg
  case starts => exact fun g hg => getElem?_replicate_of_lt hg
  case laneIndptr => rfl
  case permutation => exact hspread _
  case referenceTag => exact hspread _
  case attnClass => exact hspread _

/-- The first reference of its group. -/
def starting (w : Writing) (c : Chosen) : Bool := decide (c.stream = REFERENCE) && !w.seenReference.getD c.group false

def firstAfter (w : Writing) (c : Chosen) : List Nat :=
  if w.cursorGroup ≠ some c.group then w.groupFirst.set c.group w.packed else w.groupFirst

theorem place_eq : place classes w c =
    { packed := w.packed + c.rows
      cursorGroup := some c.group
      groupFirst := firstAfter w c
      seenReference := if starting w c then w.seenReference.set c.group true else w.seenReference
      references := if c.stream = REFERENCE then w.references.modify c.group (· + 1) else w.references
      referenceStart :=
        if starting w c then w.referenceStart.set c.group (asI32 (w.packed - (firstAfter w c).getD c.group 0))
        else w.referenceStart
      laneIndptr := w.laneIndptr ++ [asI32 (w.packed + c.rows)]
      permutation := writeRows w.permutation w.packed (fun j => asI32 (c.offset + j)) c.rows
      referenceTag := writeRows w.referenceTag w.packed (fun _ => c.tag) c.rows
      attnClass := writeRows w.attnClass w.packed (classAt classes c.row) c.rows } := by
  have henter : enter w c = { w with cursorGroup := some c.group, groupFirst := firstAfter w c } := by
    unfold enter firstAfter
    split
    · rfl
    · rename_i h
      rw [← not_not.mp h]
  unfold place copy refer
  rw [henter]
  unfold starting
  by_cases href : c.stream = REFERENCE
  · cases hseen : w.seenReference.getD c.group false
    · simp only [href, hseen, if_true, decide_true, Bool.not_false, Bool.and_self, Bool.false_eq_true, if_false]
    · simp only [href, hseen, if_true, Bool.not_true, Bool.and_false, Bool.false_eq_true, if_false]
  · simp only [href, if_false, decide_false, Bool.false_and, Bool.false_eq_true]

theorem Chosen.le_group {a b : Chosen} (h : Chosen.le a b) : a.group ≤ b.group := by
  rcases h with h | ⟨h, -⟩
  · exact le_of_lt h
  · exact le_of_eq h

/-- The groups of the lanes so far come before the group of the next one, or it is the last of them. -/
theorem getLast_group (hsort : (done ++ [c]).Pairwise Chosen.le) :
    done.getLast?.map group = some c.group ↔ ∃ d ∈ done, d.group = c.group := by
  obtain ⟨hdone, -, hc⟩ := pairwise_append.mp hsort
  rcases eq_nil_or_concat done with rfl | ⟨init, last, rfl⟩
  · simp
  · rw [concat_eq_append] at *
    rw [getLast?_append, getLast?_singleton, Option.some_or, Option.map_some, Option.some.injEq]
    constructor
    · exact fun h => ⟨last, by simp, h⟩
    · intro ⟨d, hd, hgroup⟩
      have hlast := Chosen.le_group (hc last (by simp) c mem_cons_self)
      have hle : d.group ≤ last.group := by
        rcases mem_append.mp hd with hd | hd
        · exact Chosen.le_group ((pairwise_append.mp hdone).2.2 d hd last mem_cons_self)
        · rw [mem_singleton.mp hd]
      omega

theorem rowsOf_filter_append :
    rowsOf ((done ++ [c]).filter p) = rowsOf (done.filter p) + if p c then c.rows else 0 := by
  rw [filter_append, rowsOf_append, filter_singleton]
  cases p c <;> simp [rowsOf]

theorem firstAfter_eq (h : Written classes origin count n done w) (hsort : (done ++ [c]).Pairwise Chosen.le)
    (hgroup : c.group < count) :
    ∀ d ∈ done ++ [c], (firstAfter w c).getD d.group 0 = origin + rowsOf ((done ++ [c]).filter (below d.group)) := by
  have hc := (pairwise_append.mp hsort).2.2
  intro d hd
  have hle : d.group ≤ c.group := by
    rcases mem_append.mp hd with hd | hd
    · exact Chosen.le_group (hc d hd c mem_cons_self)
    · rw [mem_singleton.mp hd]
  have hnot : below d.group c = false := by
    rw [below, decide_eq_false_iff_not]
    omega
  rw [rowsOf_filter_append, hnot, if_neg Bool.false_ne_true, add_zero]
  unfold firstAfter
  rw [h.cursor]
  by_cases hlast : done.getLast?.map group = some c.group
  · -- the group goes on
    rw [if_neg (not_not.mpr hlast)]
    obtain ⟨e, he, hegroup⟩ := (getLast_group hsort).mp hlast
    rcases mem_append.mp hd with hd | hd
    · exact h.first d hd
    · rw [mem_singleton.mp hd, ← hegroup]
      exact h.first e he
  · rw [if_pos hlast]
    have hnone : ∀ e ∈ done, e.group < c.group := by
      intro e he
      have := Chosen.le_group (hc e he c mem_cons_self)
      have hne : e.group ≠ c.group := fun heq => hlast ((getLast_group hsort).mpr ⟨e, he, heq⟩)
      omega
    rcases mem_append.mp hd with hd | hd
    · have hne := (hnone d hd).ne'
      rw [getD_eq_getElem?_getD, getElem?_set_ne hne, ← getD_eq_getElem?_getD]
      exact h.first d hd
    · -- the group begins: all lanes so far belong to groups before it
      have hall : done.filter (below c.group) = done := filter_eq_self.mpr fun e he => decide_eq_true (hnone e he)
      rw [mem_singleton.mp hd, getD_eq_getElem?_getD, getElem?_set_self (by rw [h.firstLength]; exact hgroup),
        Option.getD_some, h.packed, hall]

theorem refers_eq : refers g c = (decide (c.group = g) && decide (c.stream = REFERENCE)) := Bool.decide_and ..

/-- Among lanes of a group and those before it without references there are the plain ones and those of groups before. -/
theorem rowsOf_plain (hle : ∀ d ∈ done, d.group ≤ g) (hnone : done.any (refers g) = false) :
    rowsOf done = rowsOf (done.filter (below g)) + rowsOf (done.filter (plain g)) := by
  rw [← rowsOf_filter (p := below g)]
  congr 2
  refine filter_congr fun d hd => ?_
  have hd' := hle d hd
  have hnot : refers g d = false := by
    rw [any_eq_false] at hnone
    simpa using hnone d hd
  rw [refers, decide_eq_false_iff_not, not_and] at hnot
  rw [below, plain, Bool.eq_iff_iff, Bool.not_eq_true', decide_eq_false_iff_not, decide_eq_true_eq]
  constructor
  · intro h
    have heq : d.group = g := by omega
    exact ⟨heq, hnot heq⟩
  · intro h
    omega

section

variable (h : Written classes origin count n done w)
include h

theorem starting_eq (hgroup : c.group < count) :
    starting w c = (decide (c.stream = REFERENCE) && !done.any (refers c.group)) := by
  rw [starting, getD_eq_getElem?_getD, h.seen c.group hgroup, Option.getD_some]

theorem place_written (hsort : (done ++ [c]).Pairwise Chosen.le)
    (hgroup : c.group < count) (hstream : c.stream ≤ REFERENCE) (hfit : origin + rowsOf (done ++ [c]) ≤ n) :
    Written classes origin count n (done ++ [c]) (place classes w c) := by
  have hc := (pairwise_append.mp hsort).2.2
  have hle : ∀ d ∈ done, d.group ≤ c.group := fun d hd => Chosen.le_group (hc d hd c mem_cons_self)
  have hany (g : Nat) : (done ++ [c]).any (refers g) = (done.any (refers g) || refers g c) := by
    rw [any_append, any_cons, any_nil, Bool.or_false]
  have hfirst := firstAfter_eq h hsort hgroup
  rw [place_eq, starting_eq h hgroup]
  constructor
  case packed =>
    dsimp only
    rw [h.packed, rowsOf_append, rowsOf_singleton, add_assoc]
  case cursor =>
    rw [getLast?_append, getLast?_singleton, Option.some_or]
    rfl
  case first => exact hfirst
  case firstLength =>
    dsimp only [firstAfter]
    split
    · rw [length_set, h.firstLength]
    · exact h.firstLength
  case seen =>
    intro g hg
    dsimp only
    rw [hany, refers_eq]
    by_cases heq : c.group = g
    · subst heq
      by_cases href : c.stream = REFERENCE
      · cases hseen : done.any (refers c.group)
        · rw [if_pos (by simp [href]), getElem?_set_self]
          · simp [href]
          · have := h.seen c.group hg
            exact (List.getElem?_eq_some_iff.mp this).1
        · rw [if_neg (by simp), h.seen c.group hg, hseen]
          simp
      · rw [if_neg (by simp [href]), h.seen c.group hg]
        simp [href]
    · have hkeep : (if (decide (c.stream = REFERENCE) && !done.any (refers c.group)) = true
          then w.seenReference.set c.group true else w.seenReference)[g]? = w.seenReference[g]? := by
        split
        · exact getElem?_set_ne heq
        · rfl
      rw [hkeep, h.seen g hg]
      simp [heq]
  case references =>
    intro g hg
    dsimp only
    rw [countP_append, countP_singleton, refers_eq]
    by_cases href : c.stream = REFERENCE
    · rw [if_pos href, getElem?_modify, h.references g hg]
      by_cases heq : c.group = g <;> simp [heq, href]
    · rw [if_neg href, h.references g hg]
      simp [href]
  case starts =>
    intro g hg
    dsimp only
    rw [hany, refers_eq, rowsOf_filter_append]
    by_cases heq : c.group = g
    · subst heq
      by_cases href : c.stream = REFERENCE
      · have hplain : plain c.group c = false := by simp [plain, href]
        rw [hplain]
        cases hseen : done.any (refers c.group)
        · -- the first reference comes behind the plain lanes of its group
          have hlen : c.group < w.referenceStart.length := (List.getElem?_eq_some_iff.mp (h.starts c.group hg)).1
          have hbelow : below c.group c = false := by simp [below]
          rw [if_pos (by simp [href]), getElem?_set_self hlen, h.packed, hfirst c (by simp), rowsOf_filter_append,
            hbelow, rowsOf_plain hle hseen]
          simp [href, Nat.add_sub_add_left]
        · rw [if_neg (by simp), h.starts c.group hg, hseen]
          simp
      · -- no reference can come before a plain lane of its group
        have hnone : done.any (refers c.group) = false := by
          rw [any_eq_false]
          intro d hd hrefers
          obtain ⟨hdgroup, hdstream⟩ := of_decide_eq_true hrefers
          rcases hc d hd c mem_cons_self with hlt | ⟨-, hlt | ⟨hst, -⟩⟩
          · omega
          · rw [hdstream] at hlt
            exact absurd hlt (UInt8.not_lt.mpr hstream)
          · exact href (hst ▸ hdstream)
        rw [if_neg (by simp [href]), h.starts c.group hg, hnone]
        simp [href]
    · have hkeep : (if (decide (c.stream = REFERENCE) && !done.any (refers c.group)) = true
          then w.referenceStart.set c.group (asI32 (w.packed - (firstAfter w c).getD c.group 0))
          else w.referenceStart)[g]? = w.referenceStart[g]? := by
        split
        · exact getElem?_set_ne heq
        · rfl
      rw [hkeep, h.starts g hg]
      simp [heq, plain]
  case laneIndptr =>
    dsimp only
    rw [laneBounds_append, h.laneIndptr, h.packed]
  case permutation =>
    dsimp only
    rw [h.permutation, h.packed]
    refine writeRows_spread (fun c => by simp [permuted, Chosen.sources]) ?_ hfit
    rw [permuted, Chosen.sources, range'_eq_map_range, map_map, Function.comp_def]
  case referenceTag =>
    dsimp only
    rw [h.referenceTag, h.packed]
    refine writeRows_spread (fun c => length_replicate) ?_ hfit
    rw [tagged, map_const', length_range]
  case attnClass =>
    dsimp only
    rw [h.attnClass, h.packed]
    exact writeRows_spread (fun c => by simp [classed]) rfl hfit

theorem foldl_written {order : List Chosen}
    (hsort : (done ++ order).Pairwise Chosen.le) (hgroup : ∀ c ∈ order, c.group < count)
    (hstream : ∀ c ∈ order, c.stream ≤ REFERENCE) (hfit : origin + rowsOf (done ++ order) ≤ n) :
    Written classes origin count n (done ++ order) (order.foldl (place classes) w) := by
  induction order generalizing done w with
  | nil => rwa [append_nil]
  | cons c order ih =>
    have hsplit : done ++ c :: order = done ++ [c] ++ order := by simp
    have hprefix : (done ++ [c]).Pairwise Chosen.le := by
      rw [hsplit] at hsort
      exact (pairwise_append.mp hsort).1
    have hle : rowsOf (done ++ [c]) ≤ rowsOf (done ++ c :: order) := by
      rw [hsplit, rowsOf_append (a := done ++ [c])]
      exact Nat.le_add_right _ _
    have hstep := place_written h hprefix (hgroup c mem_cons_self) (hstream c mem_cons_self) (by omega)
    rw [hsplit] at hsort hfit ⊢
    exact ih hstep hsort (fun d hd => hgroup d (mem_cons_of_mem _ hd))
      (fun d hd => hstream d (mem_cons_of_mem _ hd)) hfit

end

/-! ## The second pass -/

/-- The lanes of one group. -/
def within (g : Nat) (c : Chosen) : Bool := decide (c.group = g)

theorem below_succ : below (g + 1) c = (below g c || within g c) := by
  rw [below, below, within, ← Bool.decide_or, decide_eq_decide]
  omega

/-- The groups whose bounds have been found. -/
structure Bounded (origin : Nat) (order : List Chosen) (seen : List Bool) (starts : List Int) (k : Nat) (b : Bounding) :
    Prop where
  bound : b.bound = origin + rowsOf (order.filter (below k))
  rest : b.rest = order.filter (!below k ·)
  groupIndptr : b.groupIndptr = (List.range k).map fun g => asI32 (origin + rowsOf (order.filter (below g)))
  startsLength : b.referenceStart.length = starts.length
  starts : ∀ g < starts.length, b.referenceStart[g]? =
    if g < k ∧ seen.getD g false = false then some (asI32 (rowsOf (order.filter (within g)))) else starts[g]?

variable {order : List Chosen} {seen : List Bool} {starts : List Int} {k : Nat} {b : Bounding}

/-- What is left begins with the lanes of the next group. -/
theorem rest_split (hsort : order.Pairwise Chosen.le) :
    (order.filter (!below k ·)).takeWhile (within k) = order.filter (within k)
      ∧ (order.filter (!below k ·)).dropWhile (within k) = order.filter (!below (k + 1) ·) := by
  have hturn : (order.filter (!below k ·)).Pairwise fun a b => within k b = true → within k a = true := by
    refine (hsort.sublist filter_sublist).imp_of_mem fun ha _ hle hb => ?_
    have hle := Chosen.le_group hle
    have hnot := (mem_filter.mp ha).2
    rw [within, decide_eq_true_eq] at *
    rw [below, Bool.not_eq_true', decide_eq_false_iff_not] at hnot
    omega
  rw [Spans.takeWhile_eq_filter hturn, Spans.dropWhile_eq_filter hturn, filter_filter, filter_filter]
  constructor
  · refine filter_congr fun c _ => ?_
    rw [within, below, Bool.eq_iff_iff, Bool.and_eq_true, Bool.not_eq_true', decide_eq_false_iff_not, decide_eq_true_eq]
    omega
  · refine filter_congr fun c _ => ?_
    rw [below_succ, Bool.not_or, Bool.and_comm]

theorem rowsOf_below_succ : rowsOf (order.filter (below (k + 1)))
    = rowsOf (order.filter (below k)) + rowsOf (order.filter (within k)) := by
  rw [← rowsOf_filter (p := below k), filter_filter, filter_filter]
  congr 2
  · refine filter_congr fun c _ => ?_
    rw [below_succ, Bool.and_or_distrib_left, Bool.and_self]
    cases below k c <;> rfl
  · refine filter_congr fun c _ => ?_
    rw [below_succ, within, below, Bool.eq_iff_iff, Bool.and_eq_true, Bool.or_eq_true, Bool.not_eq_true',
      decide_eq_false_iff_not, decide_eq_true_eq, decide_eq_true_eq]
    omega

theorem boundGroup_bounded (hsort : order.Pairwise Chosen.le) (h : Bounded origin order seen starts k b) :
    Bounded origin order seen starts (k + 1) (boundGroup seen b k) := by
  obtain ⟨htake, hdrop⟩ := rest_split (k := k) hsort
  have hcount : ((b.rest.takeWhile (·.group = k)).map rows).sum = rowsOf (order.filter (within k)) := by
    rw [h.rest, ← htake]
    rfl
  constructor
  case bound =>
    show b.bound + _ = _
    rw [hcount, h.bound, rowsOf_below_succ, add_assoc]
  case rest =>
    rw [← hdrop, ← h.rest]
    rfl
  case groupIndptr =>
    show b.groupIndptr ++ [asI32 b.bound] = _
    rw [h.groupIndptr, h.bound, range_succ, map_append, map_singleton]
  case startsLength =>
    dsimp only [boundGroup]
    split
    · exact h.startsLength
    · rw [length_set, h.startsLength]
  case starts =>
    intro g hg
    dsimp only [boundGroup]
    rw [hcount]
    by_cases hgk : k = g
    · subst hgk
      cases hseen : seen.getD k false
      · rw [if_neg Bool.false_ne_true, getElem?_set_self (by rw [h.startsLength]; exact hg),
          if_pos ⟨Nat.lt_succ_self k, rfl⟩]
      · rw [if_pos rfl, h.starts k hg, if_neg (by simp), if_neg (by simp)]
    · have hkeep : (if seen.getD k false = true then b.referenceStart
          else b.referenceStart.set k (asI32 (rowsOf (order.filter (within k)))))[g]? = b.referenceStart[g]? := by
        split
        · rfl
        · exact getElem?_set_ne hgk
      have hiff : g < k + 1 ↔ g < k := by omega
      rw [hkeep, h.starts g hg]
      simp only [hiff]

theorem foldl_bounded (hsort : order.Pairwise Chosen.le) :
    Bounded origin order seen starts k ((range k).foldl (boundGroup seen) ⟨origin, order, [], starts⟩) := by
  induction k with
  | zero =>
    have hnone : order.filter (below 0) = [] := filter_eq_nil_iff.mpr fun c _ => by simp [below]
    have hall : order.filter (!below 0 ·) = order := filter_eq_self.mpr fun c _ => by simp [below]
    exact ⟨by rw [hnone]; rfl, hall.symm, rfl, rfl, fun g _ => by rw [if_neg (by simp)]; rfl⟩
  | succ k ih =>
    rw [range_succ, foldl_append]
    exact boundGroup_bounded hsort ih

/-! ## What is selected -/

variable {select : Selection} {lanes : List LaneRow} {facts : List LaneFacts} {ids : List Nat}

theorem mem_chosen : c ∈ chosen select lanes facts ids ↔
    lanes[c.index]? = some c.row ∧ select.holds c.row.word = true ∧ c.group = ids.getD c.index 0
      ∧ c.stream = (facts[c.row.source.toNat]?.map (·.stream)).getD 0 := by
  simp only [chosen, mem_map, mem_filter, Prod.exists, mem_zipIdx_iff_getElem?]
  constructor
  · intro ⟨row, index, ⟨hrow, hholds⟩, heq⟩
    subst heq
    exact ⟨hrow, hholds, rfl, rfl⟩
  · intro ⟨hrow, hholds, hgroup, hstream⟩
    refine ⟨c.row, c.index, ⟨hrow, hholds⟩, ?_⟩
    rw [← hgroup, ← hstream]

theorem chosen_index_nodup : ((chosen select lanes facts ids).map index).Nodup := by
  rw [chosen, map_map]
  have hsub : ((lanes.zipIdx.filter fun l => select.holds l.1.word).map Prod.snd).Sublist (lanes.zipIdx.map Prod.snd) :=
    filter_sublist.map _
  rw [zipIdx_map_snd] at hsub
  exact hsub.nodup nodup_range'

theorem chosen_apart (h : Tiling lanes n) :
    (chosen select lanes facts ids).Pairwise fun a b => ∀ r, Holds a.row r → ¬Holds b.row r := by
  rw [chosen, pairwise_map]
  refine Pairwise.filter _ ?_
  have hlanes := h.apart
  rw [← zipIdx_map_fst 0 lanes, pairwise_map] at hlanes
  exact hlanes

/-- The ranges of the selected lanes, by where they begin. -/
def ranged (order : List Chosen) : List (Nat × Nat) := (order.map fun c => (c.offset, c.rows)).insertionSort Spans.le

theorem covered_ranged (hperm : order.Perm (chosen select lanes facts ids)) :
    Covered (ranged order) r ↔ Selected select lanes r := by
  constructor
  · intro ⟨e, he, hr⟩
    rw [ranged, mem_insertionSort] at he
    obtain ⟨c, hc, rfl⟩ := mem_map.mp he
    obtain ⟨hrow, hholds, -⟩ := mem_chosen.mp (hperm.mem_iff.mp hc)
    exact ⟨c.row, mem_of_getElem? hrow, hholds, hr⟩
  · intro ⟨row, hrow, hholds, hr⟩
    obtain ⟨i, hi⟩ := mem_iff_getElem?.mp hrow
    let c : Chosen :=
      { group := ids.getD i 0, stream := (facts[row.source.toNat]?.map (·.stream)).getD 0, index := i, row := row }
    refine ⟨(c.offset, c.rows), ?_, hr⟩
    rw [ranged, mem_insertionSort]
    exact mem_map.mpr ⟨c, hperm.mem_iff.mpr (mem_chosen.mpr ⟨hi, hholds, rfl, rfl⟩), rfl⟩

section

variable (h : Tiling lanes n) (hperm : order.Perm (chosen select lanes facts ids))
include h hperm

theorem order_positive :
    ∀ c ∈ order, 0 < c.rows := by
  intro c hc
  obtain ⟨hrow, -⟩ := mem_chosen.mp (hperm.mem_iff.mp hc)
  exact h.positive c.row (mem_of_getElem? hrow)

theorem order_apart :
    order.Pairwise fun a b => ∀ r, Holds a.row r → ¬Holds b.row r :=
  (hperm.pairwise_iff fun hab r hb ha => hab r ha hb).mpr (chosen_apart h)

theorem ranged_positive :
    ∀ e ∈ ranged order, 0 < e.2 := by
  intro e he
  rw [ranged, mem_insertionSort] at he
  obtain ⟨c, hc, rfl⟩ := mem_map.mp he
  exact order_positive h hperm c hc

/-- Sorted ranges without a common row end before the next begins. -/
theorem ranged_follow :
    (ranged order).Pairwise fun a b => a.1 + a.2 ≤ b.1 := by
  have hapart : (ranged order).Pairwise fun a b => ∀ r, a.1 ≤ r ∧ r < a.1 + a.2 → ¬(b.1 ≤ r ∧ r < b.1 + b.2) := by
    refine ((perm_insertionSort Spans.le _).pairwise_iff fun hab r hb ha => hab r ha hb).mpr ?_
    rw [pairwise_map]
    exact order_apart h hperm
  refine ((Spans.sort_start _).and hapart).imp_of_mem fun {a b} _ hb ⟨hle, hab⟩ => ?_
  have hpos := ranged_positive h hperm b hb
  have := hab b.1
  omega

end

theorem rowsOf_ranged : ((ranged order).map Prod.snd).sum = rowsOf order := by
  rw [ranged, ((perm_insertionSort Spans.le _).map Prod.snd).sum_eq, map_map]
  rfl

theorem runEnd_consecutive (h : Tiling lanes n) (hperm : order.Perm (chosen select lanes facts ids)) {origin stop : Nat}
    (horigin : origin = ((ranged order).head?.map Prod.fst).getD 0) (hrun : runEnd origin (ranged order) = .ok stop) :
    stop = origin + rowsOf order ∧ stop ≤ n ∧ ∀ r, Selected select lanes r ↔ origin ≤ r ∧ r < stop := by
  obtain ⟨hstop, hcover⟩ := runEnd_ok hrun
  rw [rowsOf_ranged] at hstop
  have hselected : ∀ r, Selected select lanes r ↔ origin ≤ r ∧ r < stop :=
    fun r => (covered_ranged hperm).symm.trans (hcover r)
  refine ⟨hstop, ?_, hselected⟩
  cases hranged : ranged order with
  | nil =>
    rw [hranged] at horigin hrun
    obtain rfl : origin = stop := Except.ok.inj hrun
    rw [horigin]
    exact Nat.zero_le n
  | cons e rest =>
    -- the last of the rows is in a lane
    have hpos : 0 < e.2 := ranged_positive h hperm e (by rw [hranged]; exact mem_cons_self)
    have hle : e.2 ≤ rowsOf order := by
      rw [← rowsOf_ranged, hranged, map_cons, sum_cons]
      exact Nat.le_add_right _ _
    obtain ⟨row, hrow, -, hr⟩ := (hselected (stop - 1)).mpr (by omega)
    have := h.within row hrow
    have := hr.2
    omega

theorem runEnd_scattered (h : Tiling lanes n) (hperm : order.Perm (chosen select lanes facts ids)) {origin : Nat}
    (horigin : origin = ((ranged order).head?.map Prod.fst).getD 0) {fault : Nat × Nat}
    (hrun : runEnd origin (ranged order) = .error fault) : ¬Consecutive select lanes := by
  intro ⟨a, b, hrows⟩
  cases hranged : ranged order with
  | nil =>
    rw [hranged] at hrun
    cases hrun
  | cons e rest =>
    have hfollow := ranged_follow h hperm
    have hpos := ranged_positive h hperm
    have hcovered : ∀ r, Covered (ranged order) r ↔ a ≤ r ∧ r < b := fun r => (covered_ranged hperm).trans (hrows r)
    rw [hranged] at hrun horigin hfollow hpos hcovered
    obtain rfl : origin = e.1 := horigin
    have hepos := hpos e mem_cons_self
    have hstart : ∀ c ∈ e :: rest, e.1 ≤ c.1 := by
      intro c hc
      rcases mem_cons.mp hc with rfl | hc
      · exact le_rfl
      · have := (pairwise_cons.mp hfollow).1 c hc
        omega
    obtain ⟨hle, hlt, hfound, hgap⟩ := runEnd_error hfollow hpos hstart hrun
    -- the gap lies between the first row and one behind it
    have hfirst := (hcovered e.1).mp (covered_cons.mpr (.inl (by omega)))
    have hlast := (hcovered _).mp hfound
    exact hgap ((hcovered _).mpr (by omega))

/-! ## The rows that are written -/

theorem asI32_eq (h : a < 2 ^ 32) : asI32 a = if a < 2 ^ 31 then (a : Int) else (a : Int) - 2 ^ 32 := by
  unfold asI32
  rw [Int.bmod_def]
  omega

theorem asI32_inj {a b : Nat} (ha : a < 2 ^ 32) (hb : b < 2 ^ 32) (h : asI32 a = asI32 b) : a = b := by
  rw [asI32_eq ha, asI32_eq hb] at h
  omega

attribute [local irreducible] asI32

theorem sources_perm (h : Tiling lanes n) (hperm : order.Perm (chosen select lanes facts ids)) {origin stop : Nat}
    (hselected : ∀ r, Selected select lanes r ↔ origin ≤ r ∧ r < stop) :
    (order.flatMap Chosen.sources).Perm (range' origin (stop - origin)) := by
  have hnodup : (order.flatMap Chosen.sources).Nodup := by
    rw [nodup_flatMap]
    refine ⟨fun c _ => nodup_range', (order_apart h hperm).imp fun hab => ?_⟩
    intro r ha hb
    exact hab r (mem_range'_1.mp ha) (mem_range'_1.mp hb)
  refine (perm_ext_iff_of_nodup hnodup nodup_range').mpr fun r => ?_
  rw [mem_range'_1, mem_flatMap]
  have hiff : (∃ c ∈ order, r ∈ Chosen.sources c) ↔ Selected select lanes r := by
    rw [← covered_ranged hperm]
    simp only [Covered, ranged, mem_insertionSort, mem_map, exists_exists_and_eq_and]
    exact exists_congr fun c => and_congr_right fun _ => mem_range'_1
  rw [hiff, hselected]
  omega

theorem spread_permuted {k : Nat} (hk : k < rowsOf order) :
    (spread permuted origin n order)[origin + k]? = ((order.flatMap Chosen.sources)[k]?).map asI32 := by
  have hmap : order.flatMap permuted = (order.flatMap Chosen.sources).map asI32 := (map_flatMap ..).symm
  have hlen : (order.flatMap Chosen.sources).length = rowsOf order := by
    rw [length_flatMap]
    exact congrArg sum (map_congr_left fun c _ => length_range')
  rw [spread, append_assoc, getElem?_append_right (by simp), length_replicate, Nat.add_sub_cancel_left,
    hmap, getElem?_append_left (by rw [length_map, hlen]; exact hk), getElem?_map]

theorem spread_outside (hvalues : ∀ c, (values c).length = c.rows) {q : Nat} (hq : q < n)
    (hfit : origin + rowsOf order ≤ n) (hout : ¬(origin ≤ q ∧ q < origin + rowsOf order)) :
    (spread values origin n order)[q]? = some (-1) := by
  have hlen : (order.flatMap values).length = rowsOf order := by
    rw [length_flatMap]
    exact congrArg sum (map_congr_left fun c _ => hvalues c)
  rw [spread]
  by_cases hlt : q < origin
  · rw [append_assoc, getElem?_append_left (by rw [length_replicate]; exact hlt), getElem?_replicate_of_lt hlt]
  · rw [getElem?_append_right (by rw [length_append, length_replicate, hlen]; omega), getElem?_replicate_of_lt]
    rw [length_append, length_replicate, hlen]
    omega

/-! ## The whole -/

/-- Where the lanes of a group are: those without references first. -/
def GroupAt (order : List Chosen) (p : Exec.Packed) (g : Nat) : Prop :=
  ∃ before plains references after, order = before ++ (plains ++ references) ++ after
    ∧ (∀ c ∈ before, c.group < g) ∧ (∀ c ∈ plains, c.group = g ∧ c.stream ≠ REFERENCE)
    ∧ (∀ c ∈ references, c.group = g ∧ c.stream = REFERENCE) ∧ (∀ c ∈ after, g < c.group)
    ∧ p.groupIndptr[g]? = some (asI32 (p.origin + rowsOf before))
    ∧ p.groupIndptr[g + 1]? = some (asI32 (p.origin + rowsOf before + rowsOf (plains ++ references)))
    ∧ p.referenceStart[g]? = some (asI32 (rowsOf plains))
    ∧ p.references[g]? = some references.length

/-- The order of the lanes in a packed selection. -/
def Before (a b : Chosen) : Prop :=
  a.group < b.group ∨ a.group = b.group ∧ (a.stream < b.stream ∨ a.stream = b.stream ∧ a.index < b.index)

/-- What is packed of a selection: its lanes in order, and what each vector holds of them. -/
structure Packs (select : Selection) (lanes : List LaneRow) (facts : List LaneFacts)
    (classes : List (Option (List Int))) (n : Nat) (order : List Chosen) (p : Exec.Packed) : Prop where
  picked : order.Perm (chosen select lanes facts (groupOfLane lanes facts))
  sorted : order.Pairwise Before
  laneCount : p.lanes = order.length
  rows : p.rows = rowsOf order
  selected : ∀ r, Selected select lanes r ↔ p.origin ≤ r ∧ r < p.origin + p.rows
  permutation : p.permutation = spread permuted p.origin n order
  onto : (order.flatMap Chosen.sources).Perm (List.range' p.origin p.rows)
  oneToOne : ∀ k k', k < p.rows → k' < p.rows →
    p.permutation[p.origin + k]? = p.permutation[p.origin + k']? → k = k'
  elsewhere : ∀ q < n, ¬(p.origin ≤ q ∧ q < p.origin + p.rows) → p.permutation[q]? = some (-1)
  referenceTag : p.referenceTag = spread tagged p.origin n order
  attnClass : p.attnClass = spread (classed classes) p.origin n order
  laneIndptr : p.laneIndptr = laneBounds p.origin order
  groupCount : p.groupIndptr.length = groupsOf (groupOfLane lanes facts) + 1
  groups : ∀ g < groupsOf (groupOfLane lanes facts), GroupAt order p g
  grouped : ∀ c ∈ order, c.group < groupsOf (groupOfLane lanes facts)

theorem lt_groupsOf {ids : List Nat} (h : g ∈ ids) : g < groupsOf ids := by
  have hle : ∀ (l : List Nat) (a : Nat), a ≤ l.foldl max a ∧ ∀ x ∈ l, x ≤ l.foldl max a := by
    intro l
    induction l with
    | nil => exact fun a => ⟨le_refl a, fun x hx => (not_mem_nil hx).elim⟩
    | cons y l ih =>
      intro a
      obtain ⟨hmax, hall⟩ := ih (max a y)
      refine ⟨(le_max_left a y).trans hmax, fun x hx => ?_⟩
      rcases mem_cons.mp hx with rfl | hx
      · exact (le_max_right a x).trans hmax
      · exact hall x hx
  exact (hle _ 0).2 (g + 1) (mem_map_of_mem h)

theorem groupOfLane_length : (groupOfLane lanes facts).length = lanes.length := by
  rw [groupOfLane, groupsFrom_length, length_map]

theorem order_grouped (hperm : order.Perm (chosen select lanes facts (groupOfLane lanes facts))) :
    ∀ c ∈ order, c.group < groupsOf (groupOfLane lanes facts) := by
  intro c hc
  obtain ⟨hrow, -, hgroup, -⟩ := mem_chosen.mp (hperm.mem_iff.mp hc)
  have hlt : c.index < (groupOfLane lanes facts).length := by
    rw [groupOfLane_length]
    exact (List.getElem?_eq_some_iff.mp hrow).1
  rw [hgroup, getD_eq_getElem?_getD, getElem?_eq_getElem hlt, Option.getD_some]
  exact lt_groupsOf (getElem_mem hlt)

theorem order_streams (hperm : order.Perm (chosen select lanes facts ids)) (hfacts : ∀ fact ∈ facts, fact.stream < 6) :
    ∀ c ∈ order, c.stream ≤ REFERENCE := by
  intro c hc
  obtain ⟨-, -, -, hstream⟩ := mem_chosen.mp (hperm.mem_iff.mp hc)
  cases hfact : facts[c.row.source.toNat]? with
  | none =>
    rw [hfact, Option.map_none, Option.getD_none] at hstream
    rw [hstream]
    decide
  | some fact =>
    rw [hfact, Option.map_some, Option.getD_some] at hstream
    have := UInt8.lt_iff_toNat_lt.mp (hfacts fact (mem_of_getElem? hfact))
    rw [hstream, UInt8.le_iff_toNat_le]
    exact Nat.le_of_lt_succ this

theorem order_before (hperm : order.Perm (chosen select lanes facts ids)) (hsort : order.Pairwise Chosen.le) :
    order.Pairwise Before := by
  have hnodup : (order.map index).Nodup := (hperm.map index).nodup_iff.mpr chosen_index_nodup
  rw [Nodup, pairwise_map] at hnodup
  refine (hsort.and hnodup).imp fun ⟨hle, hne⟩ => ?_
  rcases hle with h | ⟨hgroup, h | ⟨hstream, hindex⟩⟩
  · exact .inl h
  · exact .inr ⟨hgroup, .inl h⟩
  · exact .inr ⟨hgroup, .inr ⟨hstream, lt_of_le_of_ne hindex hne⟩⟩

/-- The lanes of the groups before, the plain ones and the references of a group, and the rest. -/
theorem order_split (hsort : order.Pairwise Chosen.le) (hstream : ∀ c ∈ order, c.stream ≤ REFERENCE) (g : Nat) :
    order = order.filter (below g) ++ (order.filter (plain g) ++ order.filter (refers g))
      ++ order.filter (fun c => decide (g < c.group)) := by
  have hturn (k : Nat) : order.Pairwise fun a b => below k b = true → below k a = true := by
    refine hsort.imp fun hle hb => ?_
    have := Chosen.le_group hle
    rw [below, decide_eq_true_eq] at *
    omega
  have hwithin : (order.filter (within g)).Pairwise fun a b =>
      decide (b.stream ≠ REFERENCE) = true → decide (a.stream ≠ REFERENCE) = true := by
    refine (hsort.sublist filter_sublist).imp_of_mem fun {a b} ha hb hle hplain => ?_
    have hagroup := of_decide_eq_true (mem_filter.mp ha).2
    have hbgroup := of_decide_eq_true (mem_filter.mp hb).2
    rw [decide_eq_true_eq] at *
    rcases hle with h | ⟨-, h | ⟨h, -⟩⟩
    · omega
    · -- no stream comes behind the references
      intro href
      rw [href] at h
      exact absurd h (UInt8.not_lt.mpr (hstream b (mem_of_mem_filter hb)))
    · rwa [h]
  have hgroup : order.filter (plain g) ++ order.filter (refers g) = order.filter (within g) := by
    rw [← Spans.filter_append_filter_not hwithin, filter_filter, filter_filter]
    congr 1
    · refine filter_congr fun c _ => ?_
      rw [plain, within, Bool.decide_and, Bool.and_comm]
    · refine filter_congr fun c _ => ?_
      rw [refers_eq, within, decide_not, Bool.not_not, Bool.and_comm]
  have hsucc : order.filter (below g) ++ order.filter (within g) = order.filter (below (g + 1)) := by
    have hsub := (hturn g).sublist (filter_sublist (p := below (g + 1)) (l := order))
    rw [← Spans.filter_append_filter_not hsub, filter_filter, filter_filter]
    congr 1
    · refine filter_congr fun c _ => ?_
      rw [below_succ]
      cases below g c <;> rfl
    · refine filter_congr fun c _ => ?_
      rw [below_succ, below, within, Bool.eq_iff_iff]
      simp only [decide_eq_true_eq, Bool.and_eq_true, Bool.not_eq_true', decide_eq_false_iff_not, Bool.or_eq_true]
      omega
  rw [hgroup, hsucc]
  nth_rewrite 1 [← Spans.filter_append_filter_not (hturn (g + 1))]
  congr 1
  refine filter_congr fun c _ => ?_
  rw [below, ← decide_not, decide_eq_decide]
  omega

theorem insertionSort_sorted {l : List Chosen} : (l.insertionSort Chosen.le).Pairwise Chosen.le := by
  have htotal : Std.Total Chosen.le := ⟨fun a b => by
    unfold Chosen.le
    simp only [UInt8.lt_iff_toNat_lt, ← UInt8.toNat_inj]
    omega⟩
  have htrans : IsTrans Chosen Chosen.le := ⟨fun a b c hab hbc => by
    unfold Chosen.le at *
    simp only [UInt8.lt_iff_toNat_lt, ← UInt8.toNat_inj] at *
    omega⟩
  exact pairwise_insertionSort _ _

theorem groupAt_of_passes {p : Exec.Packed} (hsort : order.Pairwise Chosen.le)
    (hstream : ∀ c ∈ order, c.stream ≤ REFERENCE) (hw : Written classes origin count n order w)
    (hb : Bounded origin order w.seenReference w.referenceStart count b) (hg : g < count) (horigin : p.origin = origin)
    (hindptr : p.groupIndptr = b.groupIndptr ++ [asI32 b.bound]) (hstart : p.referenceStart = b.referenceStart)
    (hreferences : p.references = w.references) : GroupAt order p g := by
  have hbounds (k : Nat) (hk : k ≤ count) :
      p.groupIndptr[k]? = some (asI32 (origin + rowsOf (order.filter (below k)))) := by
    rw [hindptr, hb.groupIndptr, hb.bound]
    rcases lt_or_eq_of_le hk with hk | rfl
    · rw [getElem?_append_left (by simpa using hk), getElem?_map, getElem?_range hk, Option.map_some]
    · rw [getElem?_append_right (by simp)]
      simp
  have hsplit : rowsOf (order.filter (within g))
      = rowsOf (order.filter (plain g)) + rowsOf (order.filter (refers g)) := by
    rw [← rowsOf_filter (p := plain g), filter_filter, filter_filter]
    congr 2
    · refine filter_congr fun c _ => ?_
      rw [plain, within, Bool.decide_and]
      cases decide (c.group = g) <;> simp
    · refine filter_congr fun c _ => ?_
      rw [plain, refers_eq, within, Bool.decide_and]
      cases decide (c.group = g) <;> simp
  refine ⟨_, _, _, _, order_split hsort hstream g, ?_, ?_, ?_, ?_, ?_, ?_, ?_, ?_⟩
  · exact fun c hc => of_decide_eq_true (mem_filter.mp hc).2
  · exact fun c hc => of_decide_eq_true (mem_filter.mp hc).2
  · exact fun c hc => of_decide_eq_true (mem_filter.mp hc).2
  · exact fun c hc => of_decide_eq_true (mem_filter.mp hc).2
  · rw [horigin]
    exact hbounds g (le_of_lt hg)
  · rw [hbounds (g + 1) hg, rowsOf_below_succ, hsplit, horigin, rowsOf_append, add_assoc]
  · have hstarts := hw.starts g hg
    have hlen : g < w.referenceStart.length := (List.getElem?_eq_some_iff.mp hstarts).1
    rw [hstart, hb.starts g hlen, getD_eq_getElem?_getD, hw.seen g hg, Option.getD_some]
    cases hany : order.any (refers g) with
    | true => rw [if_neg (by simp), hstarts, hany, if_pos rfl]
    | false =>
      -- the rows of a group without references are all plain
      rw [if_pos ⟨hg, rfl⟩, hsplit]
      have hnone : order.filter (refers g) = [] :=
        filter_eq_nil_iff.mpr fun c hc => by
          rw [any_eq_false] at hany
          exact hany c hc
      rw [hnone]
      rfl
  · rw [hreferences, hw.references g hg, countP_eq_length_filter]

theorem packs_of_run {stop : Nat} (htiling : Tiling lanes n) (hn : n < 2 ^ 32)
    (hperm : order.Perm (chosen select lanes facts (groupOfLane lanes facts))) (hsort : order.Pairwise Chosen.le)
    (hstream : ∀ c ∈ order, c.stream ≤ REFERENCE)
    (horigin : origin = ((ranged order).head?.map Prod.fst).getD 0) (hrun : runEnd origin (ranged order) = .ok stop)
    (hw : Written classes origin (groupsOf (groupOfLane lanes facts)) n order w)
    (hb : Bounded origin order w.seenReference w.referenceStart (groupsOf (groupOfLane lanes facts)) b) :
    Packs select lanes facts classes n order
      { select, origin, rows := stop - origin, lanes := order.length, groupIndptr := b.groupIndptr ++ [asI32 b.bound],
        laneIndptr := w.laneIndptr, referenceTag := w.referenceTag, permutation := w.permutation,
        referenceStart := b.referenceStart, references := w.references, attnClass := w.attnClass } := by
  obtain ⟨hstop, hle, hselected⟩ := runEnd_consecutive htiling hperm horigin hrun
  have hrows : stop - origin = rowsOf order := by omega
  have honto := sources_perm htiling hperm hselected
  constructor
  case picked => exact hperm
  case sorted => exact order_before hperm hsort
  case laneCount => rfl
  case rows => exact hrows
  case selected =>
    intro r
    dsimp only
    rw [hselected, hrows, hstop]
  case permutation => exact hw.permutation
  case onto => exact honto
  case oneToOne =>
    intro k k' hk hk' heq
    dsimp only at hk hk' heq
    have hlen : (order.flatMap Chosen.sources).length = stop - origin := by rw [honto.length_eq, length_range']
    have hsmall : ∀ r ∈ order.flatMap Chosen.sources, r < 2 ^ 32 := by
      intro r hr
      have := (mem_range'_1.mp (honto.mem_iff.mp hr)).2
      omega
    rw [hw.permutation, spread_permuted (hrows ▸ hk), spread_permuted (hrows ▸ hk'), getElem?_eq_getElem (hlen ▸ hk),
      getElem?_eq_getElem (hlen ▸ hk'), Option.map_some, Option.map_some, Option.some.injEq] at heq
    have hnodup := honto.nodup_iff.mpr nodup_range'
    exact (hnodup.getElem_inj_iff).mp (asI32_inj (hsmall _ (getElem_mem _)) (hsmall _ (getElem_mem _)) heq)
  case elsewhere =>
    intro q hq hout
    dsimp only at hout ⊢
    rw [hw.permutation]
    refine spread_outside (fun c => by simp [permuted, Chosen.sources]) hq (by omega) ?_
    rwa [hrows] at hout
  case referenceTag => exact hw.referenceTag
  case attnClass => exact hw.attnClass
  case laneIndptr => exact hw.laneIndptr
  case groupCount =>
    dsimp only
    rw [hb.groupIndptr, length_append, length_map, length_range, length_singleton]
  case groups => exact fun g hg => groupAt_of_passes hsort hstream hw hb hg rfl rfl rfl rfl
  case grouped => exact order_grouped hperm

/-- A selection of lanes that tile the rows is refused when its rows are not one run, and otherwise packed by group,
by stream and in the order of the lanes; two lanes are in one group when they state it. -/
theorem packWithClasses_packs {select : Selection} {lanes : List LaneRow} {facts : List LaneFacts} {fireRows : UInt32}
    {classes : List (Option (List Int))} (htiling : Tiling lanes fireRows.toNat)
    (hfacts : ∀ fact ∈ facts, fact.stream < 6) :
    (match packWithClasses select lanes facts (groupOfLane lanes facts) fireRows classes with
      | .error _ => ¬Consecutive select lanes
      | .ok p => Consecutive select lanes ∧ ∃ order, Packs select lanes facts classes fireRows.toNat order p)
    ∧ ∀ i j, i < lanes.length → j < lanes.length →
      ((groupOfLane lanes facts)[i]? = (groupOfLane lanes facts)[j]? ↔
        i = j ∨ SameGroup (lanes.map (statedGroup facts)) i j) := by
  refine ⟨?_, fun i j hi hj => ?_⟩
  · obtain ⟨order, horder⟩ :
      ∃ order, order = (chosen select lanes facts (groupOfLane lanes facts)).insertionSort Chosen.le := ⟨_, rfl⟩
    have hperm : order.Perm (chosen select lanes facts (groupOfLane lanes facts)) :=
      horder ▸ perm_insertionSort _ _
    have hsort : order.Pairwise Chosen.le := horder ▸ insertionSort_sorted
    have hstream := order_streams hperm hfacts
    unfold packWithClasses
    dsimp only
    rw [← horder, show (order.map fun c => (c.offset, c.rows)).insertionSort Spans.le = ranged order from rfl]
    obtain ⟨origin, horigin⟩ : ∃ origin, origin = ((ranged order).head?.map Prod.fst).getD 0 := ⟨_, rfl⟩
    rw [← horigin]
    cases hrun : runEnd origin (ranged order) with
    | error fault => exact runEnd_scattered htiling hperm horigin hrun
    | ok stop =>
      obtain ⟨hstop, hle, hselected⟩ := runEnd_consecutive htiling hperm horigin hrun
      have hfit : origin + rowsOf ([] ++ order) ≤ fireRows.toNat := by
        rw [nil_append]
        omega
      have hw : Written classes origin (groupsOf (groupOfLane lanes facts)) fireRows.toNat ([] ++ order) _ :=
        foldl_written (written_start (by omega)) (by rwa [nil_append]) (order_grouped hperm) hstream hfit
      rw [nil_append] at hw
      exact ⟨⟨origin, stop, hselected⟩, order,
        packs_of_run htiling fireRows.toNat_lt hperm hsort hstream horigin hrun hw (foldl_bounded hsort)⟩
  · exact groupsFrom_eq_iff ⟨nofun, nofun⟩ (by rwa [length_map]) (by rwa [length_map])

/-- A text lane, an image lane and a reference of one group. -/
def threeLanes : List LaneRow :=
  [⟨0, 1, 0, 0, 2, 0, 0, 0, 0, 0, 0, 0, 0⟩, ⟨1, 2, 0, 2, 3, 0, 0, 0, 0, 0, 0, 0, 0⟩,
    ⟨2, 32, 0, 5, 2, 0, 0, 0, 0, 0, 0, 0, 0⟩]

def threeFacts : List LaneFacts := [⟨0, some 0⟩, ⟨1, some 0⟩, ⟨5, some 0⟩]

theorem packWithClasses_packs_threeLanes :
    ∃ p order, packWithClasses .all threeLanes threeFacts (groupOfLane threeLanes threeFacts) 7 [] = .ok p
      ∧ Packs .all threeLanes threeFacts [] 7 order p := by
  have htiling : Tiling threeLanes 7 := by
    constructor
    · decide
    · decide
    · have hends : threeLanes.Pairwise fun a b => a.rowOffset.toNat + a.rows.toNat ≤ b.rowOffset.toNat := by decide
      refine hends.imp fun hle r ha hb => ?_
      have := ha.2
      have := hb.1
      omega
    · intro r hr
      simp only [threeLanes, Holds, mem_cons, not_mem_nil]
      simp
      omega
  have hpacks := (@packWithClasses_packs .all threeLanes threeFacts 7 [] htiling (by decide)).1
  have hok : (packWithClasses .all threeLanes threeFacts (groupOfLane threeLanes threeFacts) 7 []).toOption.isSome := by decide
  cases hp : packWithClasses .all threeLanes threeFacts (groupOfLane threeLanes threeFacts) 7 [] with
  | error fault =>
    rw [hp] at hok
    cases hok
  | ok p =>
    rw [hp] at hpacks
    obtain ⟨-, order, h⟩ := hpacks
    exact ⟨p, order, rfl, h⟩

end Pie.Proof.Packing
