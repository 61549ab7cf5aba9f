import Pie.Poem.Fork
import Pie.Proof.Streams

/-!
# Forked groups in order

Every region is either outside of the groups that were forked, or belongs to one of
them: it opens it, has a seat, was left on the main stream, or is the one that waits
for all seats. Events are numbered group by group, so an event tells the group and
the region.

Within a group nothing but the stream orders two members. All else is in order:
what comes before a group comes before its opening event, and what comes after it
comes after the region that waits.
-/

namespace Pie.Proof.Forks

open List Pie.Poem Lib Relation Streams UInt32

variable {i m a b j base : Nat} {r ra rb : Region} {e : EventId} {lane : UInt32} {p : UInt32 × UInt32}
  {regions' : List Region}

/-! ## Seats -/

section

variable {cheap : Nat → Nat → Bool} {side : UInt32} {start stop : Nat}

theorem mem_membersOf : m ∈ membersOf start stop ↔ start < m ∧ m < stop := by
  unfold membersOf
  rw [mem_range'_1]
  omega

theorem seatsOf_get (h : (seatsOf cheap side start stop)[j]? = some (m, lane)) :
    lane = 1 + ofNat j % side ∧ start < m ∧ m < stop ∧ cheap start m = false := by
  unfold seatsOf at h
  rw [getElem?_mapIdx, Option.map_eq_some_iff] at h
  obtain ⟨x, hx, heq⟩ := h
  cases heq
  obtain ⟨hmem, hcheap⟩ := mem_filter.mp (mem_of_getElem? hx)
  obtain ⟨h1, h2⟩ := mem_membersOf.mp hmem
  exact ⟨rfl, h1, h2, by simpa using hcheap⟩

theorem seatsOf_map_fst :
    (seatsOf cheap side start stop).map Prod.fst = (membersOf start stop).filter (fun member => !cheap start member) := by
  refine ext_getElem? (fun i => ?_)
  unfold seatsOf
  rw [getElem?_map, getElem?_mapIdx, Option.map_map]
  exact Option.map_id'

theorem seatsOf_nodup : ((seatsOf cheap side start stop).map Prod.fst).Nodup := by
  rw [seatsOf_map_fst]
  exact (nodup_range' _).filter _

theorem seatsOf_length_le : (seatsOf cheap side start stop).length ≤ stop - (start + 1) := by
  rw [← length_map (f := Prod.fst), seatsOf_map_fst]
  exact (length_filter_le _ _).trans (by rw [membersOf, length_range'])

theorem lane_ne_zero (hside : side ≠ 0) (j : Nat) : 1 + ofNat j % side ≠ 0 := by
  intro h
  have hpos : 0 < side.toNat := Nat.pos_of_ne_zero (fun h0 => hside (UInt32.toNat_inj.mp h0))
  have hlt : (ofNat j % side).toNat < side.toNat := by
    rw [UInt32.toNat_mod]
    exact Nat.mod_lt _ hpos
  have hmax := side.toNat_lt
  have hsum : (1 + ofNat j % side).toNat = 1 + (ofNat j % side).toNat := by
    rw [UInt32.toNat_add]
    exact Nat.mod_eq_of_lt (by show 1 + _ < _; omega)
  rw [h] at hsum
  exact absurd hsum (by show 0 ≠ _; omega)

end

/-! ## One group forked -/

/-- The event of a number. -/
abbrev event (number : Nat) : EventId := UInt32.ofNat number

/-- A forked group, and the number of its first event. -/
structure Fork where
  start : Nat
  stop : Nat
  base : Nat

section

variable (cheap : Nat → Nat → Bool) (side : UInt32)

def Fork.seats (fork : Fork) : List (Nat × UInt32) := seatsOf cheap side fork.start fork.stop

/-- What a group that was forked looks like. -/
structure Forked (regions out : List Region) (fork : Fork) : Prop where
  first : ∀ r, regions[fork.start]? = some r → out[fork.start]? = some { r with opens := some (event fork.base) }
  seat : ∀ (j m : Nat) (lane : UInt32), (fork.seats cheap side)[j]? = some (m, lane) → ∀ r, regions[m]? = some r →
    out[m]? = some { r with
      stream := lane, wait := r.wait ++ [event fork.base], close := some (event (fork.base + 1 + j)) }
  left : ∀ m, fork.start < m → m < fork.stop → m ∉ (fork.seats cheap side).map Prod.fst → out[m]? = regions[m]?
  last : ∀ r, regions[fork.stop]? = some r →
    out[fork.stop]? = some { r with
      wait := r.wait ++ (List.range (fork.seats cheap side).length).map (fun j => event (fork.base + 1 + j)) }

end

/-- What the members seated so far look like. -/
structure Seated (enter : EventId) (base : Nat) (forks : Forks) (seen : List (Nat × UInt32)) (st : Forks × List EventId) :
    Prop where
  events : st.1.events = event (base + seen.length)
  exits : st.2 = (List.range seen.length).map (fun j => event (base + j))
  pairs : st.1.pairs = forks.pairs
  length : st.1.regions.length = forks.regions.length
  others : ∀ i, i ∉ seen.map Prod.fst → st.1.regions[i]? = forks.regions[i]?
  seat : ∀ (j m : Nat) (lane : UInt32), seen[j]? = some (m, lane) → ∀ r, forks.regions[m]? = some r →
    st.1.regions[m]? = some { r with stream := lane, wait := r.wait ++ [enter], close := some (event (base + j)) }

theorem event_succ (n : Nat) : event n + 1 = event (n + 1) := (ofNat_add n 1).symm

theorem seatMember_seated {enter : EventId} {forks : Forks} {seen : List (Nat × UInt32)}
    {st : Forks × List EventId} {a : Nat × UInt32} (hnew : a.1 ∉ seen.map Prod.fst) (h : Seated enter base forks seen st) :
    Seated enter base forks (seen ++ [a]) (seatMember enter st a) := by
  refine ⟨?_, ?_, h.pairs, ?_, fun i hi => ?_, fun j m lane hj r hr => ?_⟩
  · show st.1.events + 1 = _
    rw [h.events, event_succ, length_append, length_singleton, add_assoc]
  · show st.2 ++ [st.1.events] = _
    rw [h.exits, h.events, length_append, length_singleton, range_succ, map_append, map_singleton]
  · exact (length_modify _ _ _).trans h.length
  · rw [map_append, mem_append, not_or, map_singleton, mem_singleton] at hi
    exact (getElem?_modify_ne _ _ (Ne.symm hi.2)).trans (h.others i hi.1)
  · rcases lt_or_ge j seen.length with hlt | hge
    · -- a member seated before
      rw [getElem?_append_left hlt] at hj
      have hne : a.1 ≠ m := by
        rintro rfl
        exact hnew (mem_map.mpr ⟨_, mem_of_getElem? hj, rfl⟩)
      exact (getElem?_modify_ne _ _ hne).trans (h.seat j m lane hj r hr)
    · rw [getElem?_append_right hge, getElem?_singleton] at hj
      split at hj
      · rename_i h0
        cases hj
        have hj : j = seen.length := by omega
        subst hj
        refine (getElem?_modify_eq _ _ _).trans ?_
        rw [h.others m hnew, hr, h.events]
        rfl
      · cases hj

/-- The last loop of `seat`. -/
theorem foldl_exits (stop : Nat) : ∀ (exits : List EventId) (regions : List Region), exits.foldl (fun regions exit =>
        regions.modify stop (fun region => { region with wait := region.wait ++ [exit] })) regions
      = regions.modify stop (fun region => { region with wait := region.wait ++ exits }) := by
  intro exits
  induction exits with
  | nil =>
    intro regions
    refine ext_getElem? (fun i => ?_)
    rw [getElem?_modify]
    simp
  | cons exit exits ih =>
    intro regions
    rw [foldl_cons, ih]
    refine ext_getElem? (fun i => ?_)
    rw [getElem?_modify, getElem?_modify, getElem?_modify]
    cases regions[i]? with
    | none => rfl
    | some region =>
      by_cases h : stop = i
      · simp [h]
      · simp [h]

section

variable {cheap : Nat → Nat → Bool} {side : UInt32}

/-- **One group forked.** The group has the form it should have, and no other region changed. -/
theorem seat_spec {start stop base : Nat} {forks : Forks} (hlt : start + 1 < stop)
    (hseats : seatsOf cheap side start stop ≠ []) (hevents : forks.events = event base) :
    let after := seat cheap side start stop forks
    Forked cheap side forks.regions after.regions ⟨start, stop, base⟩
      ∧ (∀ i, i < start ∨ stop < i → after.regions[i]? = forks.regions[i]?)
      ∧ after.regions.length = forks.regions.length
      ∧ after.events = event (base + 1 + (seatsOf cheap side start stop).length)
      ∧ after.pairs = forks.pairs ++ pairsOf ((start, 0) :: seatsOf cheap side start stop) := by
  have hopened : Seated (event base) (base + 1)
      { forks with
        regions := forks.regions.modify start (fun region => { region with opens := some (event base) })
        events := event base + 1 } []
      ({ forks with
          regions := forks.regions.modify start (fun region => { region with opens := some (event base) })
          events := event base + 1 }, []) :=
    ⟨event_succ base, rfl, rfl, rfl, fun _ _ => rfl, fun j _ _ hj => (nomatch hj)⟩
  have hrun := foldl_seen_rule (f := seatMember (event base))
    (fun seen st => (seen.map Prod.fst).Nodup → Seated (event base) (base + 1) _ seen st)
    (fun seen a st h hnd => by
      rw [map_append, map_singleton, nodup_append] at hnd
      exact seatMember_seated (fun hmem => hnd.2.2 _ hmem _ (mem_singleton_self _) rfl) (h hnd.1))
    (l := seatsOf cheap side start stop) (fun _ => hopened)
  rw [nil_append] at hrun
  have h := hrun seatsOf_nodup
  unfold seat
  rw [if_neg hseats]
  dsimp only
  rw [hevents, foldl_exits]
  generalize (seatsOf cheap side start stop).foldl (seatMember (event base)) _ = st at h ⊢
  have hne : stop ≠ start := by omega
  have hmem : ∀ {m : Nat}, m ∈ (seatsOf cheap side start stop).map Prod.fst → start < m ∧ m < stop := by
    intro m hm
    rw [seatsOf_map_fst] at hm
    exact mem_membersOf.mp (mem_filter.mp hm).1
  have hout : ∀ m, m ≠ start → m ≠ stop → m ∉ (seatsOf cheap side start stop).map Prod.fst →
      (st.1.regions.modify stop (fun region => { region with wait := region.wait ++ st.2 }))[m]? = forks.regions[m]? :=
    fun m h1 h2 h3 => (getElem?_modify_ne _ _ (Ne.symm h2)).trans
      ((h.others m h3).trans (getElem?_modify_ne _ _ (Ne.symm h1)))
  refine ⟨⟨fun r hr => ?_, fun j m lane hj r hr => ?_, fun m h1 h2 h3 => ?_, fun r hr => ?_⟩, fun i hi => ?_, ?_, h.events,
    congrArg (· ++ _) h.pairs⟩
  · have hns : start ∉ (seatsOf cheap side start stop).map Prod.fst := fun hm => lt_irrefl _ (hmem hm).1
    refine (getElem?_modify_ne _ _ hne).trans ((h.others start hns).trans ?_)
    rw [getElem?_modify_eq, hr]
    rfl
  · obtain ⟨-, h1, h2, -⟩ := seatsOf_get hj
    refine (getElem?_modify_ne _ _ (ne_of_gt h2)).trans (h.seat j m lane hj r ?_)
    exact (getElem?_modify_ne _ _ (ne_of_lt h1)).trans hr
  · exact hout m (ne_of_gt h1) (ne_of_lt h2) h3
  · have hns : stop ∉ (seatsOf cheap side start stop).map Prod.fst := fun hm => lt_irrefl _ (hmem hm).2
    rw [getElem?_modify_eq, h.others stop hns, getElem?_modify_ne _ _ (Ne.symm hne), hr, h.exits]
    rfl
  · exact hout i (by omega) (by omega) (fun hm => by have := hmem hm; omega)
  · rw [length_modify, h.length, length_modify]

end

/-! ## Groups -/

section

variable {regions : List Region} {after : List Nat}

/-- Members come after none of their group, and share no class with one. -/
structure Group (regions : List Region) (after : List Nat) (start stop : Nat) : Prop where
  forkable : ∀ i, start ≤ i → i < stop → ∃ r, regions[i]? = some r ∧ forkable r = true
  apart : ∀ a b, start ≤ a → a < b → b < stop → candidates regions after a b = true

theorem Group.lt {start stop : Nat} (h : Group regions after start stop) (hlt : start < stop) : stop ≤ regions.length := by
  obtain ⟨r, hr, -⟩ := h.forkable (stop - 1) (by omega) (by omega)
  have := (List.getElem?_eq_some_iff.mp hr).1
  omega

variable {start : Nat}

theorem groupEnd_group : ∀ {fuel stop : Nat}, Group regions after start stop →
    stop ≤ groupEnd regions after start fuel stop ∧ Group regions after start (groupEnd regions after start fuel stop) := by
  intro fuel
  induction fuel with
  | zero => exact fun h => ⟨le_rfl, h⟩
  | succ fuel ih =>
    intro stop h
    unfold groupEnd
    split
    · rename_i hstep
      rw [Bool.and_eq_true, Option.any_eq_true, all_eq_true] at hstep
      obtain ⟨⟨r, hr, hfork⟩, hall⟩ := hstep
      have hgrown : Group regions after start (stop + 1) := by
        refine ⟨fun i hi hlt => ?_, fun a b ha hab hb => ?_⟩
        · rcases Nat.lt_succ_iff_lt_or_eq.mp hlt with hlt | rfl
          · exact h.forkable i hi hlt
          · exact ⟨r, hr, hfork⟩
        · rcases Nat.lt_succ_iff_lt_or_eq.mp hb with hb | rfl
          · exact h.apart a b ha hab hb
          · exact hall a (mem_range'_1.mpr (by omega))
      obtain ⟨h1, h2⟩ := ih hgrown
      exact ⟨by omega, h2⟩
    · exact ⟨le_rfl, h⟩

theorem groupAt_group {start stop : Nat} (h : groupAt regions after start = some stop) :
    start + 2 ≤ stop ∧ Group regions after start stop := by
  unfold groupAt at h
  split at h
  · rename_i hfork
    dsimp only at h
    split at h
    · rename_i hwide
      cases h
      rw [Option.any_eq_true] at hfork
      obtain ⟨r, hr, hfork⟩ := hfork
      obtain ⟨-, hgroup⟩ := @groupEnd_group regions after start regions.length (start + 1)
        ⟨fun i hi hlt => by
          obtain rfl : i = start := by omega
          exact ⟨r, hr, hfork⟩, fun a b ha hab hb => by omega⟩
      exact ⟨by omega, hgroup⟩
    · cases h
  · cases h

theorem groupEnd_congr (hsame : ∀ i, start ≤ i → regions'[i]? = regions[i]?) :
    ∀ {fuel stop : Nat}, start ≤ stop → groupEnd regions' after start fuel stop = groupEnd regions after start fuel stop := by
  intro fuel
  induction fuel with
  | zero => exact fun _ => rfl
  | succ fuel ih =>
    intro stop hle
    have hcand : (range' start (stop - start)).all (fun held => candidates regions' after held stop)
        = (range' start (stop - start)).all (fun held => candidates regions after held stop) := by
      rw [Bool.eq_iff_iff, all_eq_true, all_eq_true]
      refine forall₂_congr (fun held hheld => ?_)
      unfold candidates
      rw [hsame held (mem_range'_1.mp hheld).1, hsame stop hle]
    unfold groupEnd
    rw [hsame stop hle, hcand, ih (Nat.le_succ_of_le hle)]

theorem groupAt_congr (hlen : regions'.length = regions.length)
    (hsame : ∀ i, start ≤ i → regions'[i]? = regions[i]?) : groupAt regions' after start = groupAt regions after start := by
  unfold groupAt
  rw [hsame start (le_refl start), hlen, groupEnd_congr hsame (Nat.le_succ start)]

end

/-! ## All groups -/

/-- The groups that are forked: a region follows them, and a member is not too cheap. That region is no group's. -/
def forkedGroups (cheap : Nat → Nat → Bool) (regions : List Region) (after : List Nat) : Nat → Nat → List (Nat × Nat)
  | 0, _ => []
  | fuel + 1, start =>
    if start < regions.length then
      match groupAt regions after start with
      | none => forkedGroups cheap regions after fuel (start + 1)
      | some stop =>
        if stop < regions.length ∧ (membersOf start stop).any (fun member => !cheap start member) then
          (start, stop) :: forkedGroups cheap regions after fuel (stop + 1)
        else forkedGroups cheap regions after fuel stop
    else []

variable {cheap : Nat → Nat → Bool} {side : UInt32} {start stop : Nat}

theorem seatsOf_eq_nil :
    seatsOf cheap side start stop = [] ↔ ¬(membersOf start stop).any (fun member => !cheap start member) = true := by
  unfold seatsOf
  rw [mapIdx_eq_nil_iff, filter_eq_nil_iff, any_eq_true]
  push Not
  rfl

section

variable (cheap : Nat → Nat → Bool) (side : UInt32) (regions : List Region) (after : List Nat)

/-- The groups forked among the first `k` regions, with `count` events. -/
structure Laid (k count : Nat) (forked : List Fork) (forks : Forks) : Prop where
  length : forks.regions.length = regions.length
  outside : ∀ i, (∀ f ∈ forked, i < f.start ∨ f.stop < i) → forks.regions[i]? = regions[i]?
  form : ∀ f ∈ forked, Forked cheap side regions forks.regions f
  group : ∀ f ∈ forked, Group regions after f.start f.stop
  wide : ∀ f ∈ forked, f.start + 2 ≤ f.stop ∧ f.stop < regions.length ∧ f.seats cheap side ≠ []
  apart : forked.Pairwise (fun f g => f.stop < g.start ∧ f.base + 1 + (f.seats cheap side).length ≤ g.base)
  below : ∀ f ∈ forked, f.stop ≤ k ∧ f.base + 1 + (f.seats cheap side).length ≤ count
  events : forks.events = event count
  pairs : forks.pairs = forked.flatMap (fun f => pairsOf ((f.start, 0) :: f.seats cheap side))
  count : count ≤ k
  reach : k ≤ regions.length

end

section

variable {cheap : Nat → Nat → Bool} {side : UInt32} {regions : List Region} {after : List Nat}

theorem forkedGroups_end {fuel start : Nat} (h : regions.length ≤ start) : forkedGroups cheap regions after fuel start = [] := by
  cases fuel with
  | zero => rfl
  | succ fuel =>
    unfold forkedGroups
    rw [if_neg (not_lt.mpr h)]

variable {forked : List Fork} {forks : Forks} {count k : Nat}

theorem Laid.mono {k k' count : Nat} (h : Laid cheap side regions after k count forked forks)
    (hle : k ≤ k') (hreach : k' ≤ regions.length) : Laid cheap side regions after k' count forked forks :=
  { h with
    below := fun f hf => ⟨(h.below f hf).1.trans hle, (h.below f hf).2⟩
    count := h.count.trans hle
    reach := hreach }

/-- The region after a group waits, so no group starts there. -/
theorem Laid.groupAt_stop (h : Laid cheap side regions after k count forked forks) {f : Fork} (hf : f ∈ forked) :
    groupAt forks.regions after f.stop = none := by
  obtain ⟨-, hlt, hseats⟩ := h.wide f hf
  have hlast := (h.form f hf).last _ (getElem?_eq_getElem hlt)
  unfold groupAt
  rw [hlast, if_neg]
  rw [Option.any_some]
  unfold forkable
  simp [hseats]

theorem Laid.groupAt_eq (h : Laid cheap side regions after k count forked forks) (hfree : ∀ f ∈ forked, f.stop ≠ k) :
    groupAt forks.regions after k = groupAt regions after k := by
  refine groupAt_congr h.length (fun i hi => h.outside i (fun f hf => .inr ?_))
  have h1 := (h.below f hf).1
  have h2 := hfree f hf
  omega

/-- **The step.** One group forked after the others. -/
theorem Laid.seat {k count stop : Nat}
    (h : Laid cheap side regions after k count forked forks) (hfree : ∀ f ∈ forked, f.stop ≠ k)
    (hgroup : groupAt regions after k = some stop) (hstop : stop < regions.length)
    (hseats : seatsOf cheap side k stop ≠ []) :
    Laid cheap side regions after stop (count + 1 + (seatsOf cheap side k stop).length) (forked ++ [⟨k, stop, count⟩])
      (seat cheap side k stop forks) := by
  obtain ⟨hwide, hg⟩ := groupAt_group hgroup
  obtain ⟨hform, hothers, hlen, hevents, hpairs⟩ := seat_spec (by omega) hseats h.events
  have hbefore : ∀ f ∈ forked, f.stop < k := fun f hf => lt_of_le_of_ne (h.below f hf).1 (hfree f hf)
  have hsame : ∀ i, k ≤ i → forks.regions[i]? = regions[i]? :=
    fun i hi => h.outside i (fun f hf => .inr (lt_of_lt_of_le (hbefore f hf) hi))
  refine ⟨hlen.trans h.length, fun i hi => ?_, fun f hf => ?_, fun f hf => ?_, fun f hf => ?_, ?_, fun f hf => ?_,
    hevents, ?_, ?_, le_of_lt hstop⟩
  · rw [forall_mem_append, forall_mem_singleton] at hi
    exact (hothers i hi.2).trans (h.outside i hi.1)
  · rcases mem_append.mp hf with hf | hf
    · -- an earlier group keeps its form
      have hkeep : ∀ i, i ≤ f.stop → (Poem.seat cheap side k stop forks).regions[i]? = forks.regions[i]? :=
        fun i hi => hothers i (.inl (lt_of_le_of_lt hi (hbefore f hf)))
      have hf' := h.form f hf
      have hw := (h.wide f hf).1
      refine ⟨fun r hr => (hkeep _ (by omega)).trans (hf'.first r hr), fun j m lane hj r hr => ?_,
        fun m h1 h2 h3 => (hkeep m (le_of_lt h2)).trans (hf'.left m h1 h2 h3),
        fun r hr => (hkeep _ le_rfl).trans (hf'.last r hr)⟩
      exact (hkeep m (le_of_lt (seatsOf_get hj).2.2.1)).trans (hf'.seat j m lane hj r hr)
    · obtain rfl := mem_singleton.mp hf
      refine ⟨fun r hr => hform.first r ((hsame _ (le_refl k)).trans hr), fun j m lane hj r hr => ?_,
        fun m h1 h2 h3 => (hform.left m h1 h2 h3).trans (hsame m (le_of_lt h1)),
        fun r hr => hform.last r ((hsame stop (by omega)).trans hr)⟩
      exact hform.seat j m lane hj r ((hsame m (le_of_lt (seatsOf_get hj).2.1)).trans hr)
  · rcases mem_append.mp hf with hf | hf
    · exact h.group f hf
    · obtain rfl := mem_singleton.mp hf
      exact hg
  · rcases mem_append.mp hf with hf | hf
    · exact h.wide f hf
    · obtain rfl := mem_singleton.mp hf
      exact ⟨hwide, hstop, hseats⟩
  · rw [pairwise_append]
    refine ⟨h.apart, pairwise_singleton _ _, fun f hf g hg => ?_⟩
    obtain rfl := mem_singleton.mp hg
    exact ⟨hbefore f hf, (h.below f hf).2⟩
  · rcases mem_append.mp hf with hf | hf
    · have := h.below f hf
      exact ⟨by omega, by omega⟩
    · obtain rfl := mem_singleton.mp hf
      exact ⟨le_refl stop, le_rfl⟩
  · rw [hpairs, h.pairs, flatMap_append, flatMap_singleton]
    rfl
  · have h1 := h.count
    have h2 := @seatsOf_length_le cheap side k stop
    omega

/-- **The loop.** The groups forked are those of the scan. -/
theorem forkGroups_laid : ∀ {fuel k count : Nat} {forked : List Fork} {forks : Forks},
    Laid cheap side regions after k count forked forks → regions.length ≤ k + fuel →
    ∀ (fuel' next : Nat), regions.length ≤ next + fuel' →
      ((∀ f ∈ forked, f.stop ≠ k) ∧ next = k ∨ (∃ f ∈ forked, f.stop = k) ∧ next = k + 1) →
      ∃ (k' count' : Nat) (forked' : List Fork),
        Laid cheap side regions after k' count' forked' (forkGroups cheap side after fuel k forks)
          ∧ forked'.map (fun f => (f.start, f.stop))
            = forked.map (fun f => (f.start, f.stop)) ++ forkedGroups cheap regions after fuel' next := by
  intro fuel
  induction fuel with
  | zero =>
    intro k count forked forks h hfuel fuel' next _ hnext
    refine ⟨k, count, forked, h, ?_⟩
    rw [forkedGroups_end (by rcases hnext with ⟨-, rfl⟩ | ⟨-, rfl⟩ <;> omega), append_nil]
  | succ fuel ih =>
    intro k count forked forks h hfuel fuel' next hfuel' hnext
    unfold forkGroups
    by_cases hk : k < forks.regions.length
    · rw [if_pos hk]
      rw [h.length] at hk
      rcases hnext with ⟨hfree, rfl⟩ | ⟨⟨f, hf, rfl⟩, rfl⟩
      · obtain ⟨fuel', rfl⟩ : ∃ n, fuel' = n + 1 := ⟨fuel' - 1, by omega⟩
        rw [h.groupAt_eq hfree]
        unfold forkedGroups
        rw [if_pos hk]
        have hskip : ∀ k', next < k' → k' ≤ regions.length → (∀ f ∈ forked, f.stop ≠ k') := by
          intro k' hlt _ f hf heq
          have := (h.below f hf).1
          omega
        cases hgroup : groupAt regions after next with
        | none =>
          exact ih (h.mono (Nat.le_succ next) hk) (by omega) fuel' (next + 1) (by omega)
            (.inl ⟨hskip _ (Nat.lt_succ_self next) hk, rfl⟩)
        | some stop =>
          dsimp only
          obtain ⟨hwide, hg⟩ := groupAt_group hgroup
          have hreach := hg.lt (by omega)
          rw [h.length]
          by_cases hfork : stop < regions.length ∧ (membersOf next stop).any (fun member => !cheap next member) = true
          · rw [if_pos hfork.1, if_pos hfork]
            have hseats : seatsOf cheap side next stop ≠ [] := fun hnil => seatsOf_eq_nil.mp hnil hfork.2
            obtain ⟨k', count', forked', hlaid, hmap⟩ := ih (h.seat hfree hgroup hfork.1 hseats) (by omega) fuel' (stop + 1)
              (by omega) (.inr ⟨⟨_, mem_append_right _ (mem_singleton_self _), rfl⟩, rfl⟩)
            refine ⟨k', count', forked', hlaid, hmap.trans ?_⟩
            rw [map_append, append_assoc]
            rfl
          · rw [if_neg hfork]
            have hsame : (if stop < regions.length then seat cheap side next stop forks else forks) = forks := by
              split
              · rename_i hstop
                unfold seat
                rw [if_pos (seatsOf_eq_nil.mpr (fun hany => hfork ⟨hstop, hany⟩))]
              · rfl
            rw [hsame]
            exact ih (h.mono (by omega) hreach) (by omega) fuel' stop (by omega)
              (.inl ⟨hskip stop (by omega) hreach, rfl⟩)
      · rw [h.groupAt_stop hf]
        refine ih (h.mono (Nat.le_succ _) hk) (by omega) fuel' (f.stop + 1) hfuel' (.inl ⟨fun g hg heq => ?_, rfl⟩)
        have := (h.below g hg).1
        omega
    · rw [if_neg hk]
      rw [h.length] at hk
      refine ⟨k, count, forked, h, ?_⟩
      rw [forkedGroups_end (by rcases hnext with ⟨-, rfl⟩ | ⟨-, rfl⟩ <;> omega), append_nil]

end

/-! ## Before -/

/-- The moments of a region: all it waits for is done and its opening event recorded, or it is done. -/
inductive Moment where
  | joined (region : Nat)
  | done (region : Nat)

def Moment.region : Moment → Nat
  | joined r => r
  | done r => r

/-- One moment directly before another: a stream runs its regions in turn, and a region joins the events it
waits on, which are recorded when their region is done, or before it runs when they open a group. -/
inductive Before (regions : List Region) : Moment → Moment → Prop
  | runs (r : Nat) : Before regions (.joined r) (.done r)
  | stream {a b : Nat} {ra rb : Region} (ha : regions[a]? = some ra) (hb : regions[b]? = some rb) (hab : a < b)
      (h : ra.stream = rb.stream) : Before regions (.done a) (.joined b)
  | closes {a b : Nat} {ra rb : Region} {e : EventId} (ha : regions[a]? = some ra) (hb : regions[b]? = some rb)
      (he : ra.close = some e) (hw : e ∈ rb.wait) : Before regions (.done a) (.joined b)
  | opens {a b : Nat} {ra rb : Region} {e : EventId} (ha : regions[a]? = some ra) (hb : regions[b]? = some rb)
      (he : ra.opens = some e) (hw : e ∈ rb.wait) : Before regions (.joined a) (.joined b)

/-- One region is done before another runs. -/
def Precedes (regions : List Region) (a b : Nat) : Prop := TransGen (Before regions) (.done a) (.joined b)

/-- No region has been forked yet. -/
def Fresh (regions : List Region) : Prop :=
  ∀ r ∈ regions, r.stream = 0 ∧ r.wait = [] ∧ r.opens = none ∧ r.close = none

/-- What became of region `i`, which was `r`. -/
inductive Shape (cheap : Nat → Nat → Bool) (side : UInt32) (forked : List Fork) (i : Nat) (r : Region) : Region → Prop
  | plain : Shape cheap side forked i r r
  | first {f : Fork} (hf : f ∈ forked) (hi : i = f.start) :
      Shape cheap side forked i r { r with opens := some (event f.base) }
  | seat {f : Fork} {j : Nat} {lane : UInt32} (hf : f ∈ forked) (hj : (f.seats cheap side)[j]? = some (i, lane)) :
      Shape cheap side forked i r { r with
        stream := lane, wait := r.wait ++ [event f.base], close := some (event (f.base + 1 + j)) }
  | last {f : Fork} (hf : f ∈ forked) (hi : i = f.stop) :
      Shape cheap side forked i r { r with
        wait := r.wait ++ (List.range (f.seats cheap side).length).map (fun j => event (f.base + 1 + j)) }

namespace Laid

section

variable {cheap : Nat → Nat → Bool} {side : UInt32} {regions : List Region} {after : List Nat} {k count : Nat}
  {forked : List Fork} {forks : Forks} (h : Laid cheap side regions after k count forked forks)

include h

theorem get_of_lt (hi : i < regions.length) : ∃ r, forks.regions[i]? = some r :=
  ⟨_, getElem?_eq_getElem (h.length.symm ▸ hi)⟩

variable {f : Fork}

theorem seat_lt (hf : f ∈ forked) (hj : (f.seats cheap side)[j]? = some (m, lane)) :
    f.start < m ∧ m < f.stop ∧ m < regions.length := by
  obtain ⟨-, h1, h2, -⟩ := seatsOf_get hj
  exact ⟨h1, h2, h2.trans (h.wide f hf).2.1⟩

theorem shape {r' : Region} (hr : forks.regions[i]? = some r') :
    ∃ r, regions[i]? = some r ∧ Shape cheap side forked i r r' := by
  have hlt : i < regions.length := h.length ▸ (List.getElem?_eq_some_iff.mp hr).1
  have hget := getElem?_eq_getElem hlt
  refine ⟨_, hget, ?_⟩
  have hplain : forks.regions[i]? = regions[i]? → Shape cheap side forked i regions[i] r' := by
    intro heq
    cases hr.symm.trans (heq.trans hget)
    exact .plain
  by_cases hin : ∃ f ∈ forked, f.start ≤ i ∧ i ≤ f.stop
  · obtain ⟨f, hf, h1, h2⟩ := hin
    have hform := h.form f hf
    rcases lt_or_eq_of_le h1 with h1 | rfl
    · rcases lt_or_eq_of_le h2 with h2 | rfl
      · by_cases hseat : i ∈ (f.seats cheap side).map Prod.fst
        · obtain ⟨⟨_, lane⟩, hp, rfl⟩ := mem_map.mp hseat
          obtain ⟨j, hj⟩ := mem_iff_getElem?.mp hp
          cases hr.symm.trans (hform.seat j _ lane hj _ hget)
          exact .seat hf hj
        · exact hplain (hform.left i h1 h2 hseat)
      · cases hr.symm.trans (hform.last _ hget)
        exact .last hf rfl
    · cases hr.symm.trans (hform.first _ hget)
      exact .first hf rfl
  · refine hplain (h.outside i (fun f hf => ?_))
    by_contra hout
    exact hin ⟨f, hf, by omega, by omega⟩

/-- Of two groups one ends before the other starts. -/
theorem apart_of {f g : Fork} (hf : f ∈ forked) (hg : g ∈ forked) :
    f = g ∨ (f.stop < g.start ∧ f.base + (f.seats cheap side).length < g.base)
      ∨ (g.stop < f.start ∧ g.base + (g.seats cheap side).length < f.base) := by
  let R (f g : Fork) := f = g ∨ (f.stop < g.start ∧ f.base + (f.seats cheap side).length < g.base)
    ∨ (g.stop < f.start ∧ g.base + (g.seats cheap side).length < f.base)
  refine Pairwise.forall_of_forall_of_flip (R := R) (fun _ _ => .inl rfl) (h.apart.imp (fun hR => ?_))
    (h.apart.imp (fun hR => ?_)) hf hg
  · exact .inr (.inl ⟨hR.1, by omega⟩)
  · exact .inr (.inr ⟨hR.1, by omega⟩)

theorem fork_unique {f g : Fork} (hf : f ∈ forked) (hg : g ∈ forked) (hfi : f.start ≤ i ∧ i ≤ f.stop)
    (hgi : g.start ≤ i ∧ i ≤ g.stop) : f = g := by
  rcases h.apart_of hf hg with heq | ⟨hlt, -⟩ | ⟨hlt, -⟩
  · exact heq
  · omega
  · omega

theorem stream_seat (hf : f ∈ forked)
    (hj : (f.seats cheap side)[j]? = some (m, lane)) (hr : forks.regions[m]? = some r) : r.stream = lane := by
  obtain ⟨-, -, hlt⟩ := h.seat_lt hf hj
  cases hr.symm.trans ((h.form f hf).seat j m lane hj _ (getElem?_eq_getElem hlt))
  rfl

theorem stream_main (hfresh : Fresh regions) (hnone : ∀ f ∈ forked, i ∉ (f.seats cheap side).map Prod.fst) (hr : forks.regions[i]? = some r) : r.stream = 0 := by
  obtain ⟨r₀, hr₀, hshape⟩ := h.shape hr
  have hzero := (hfresh r₀ (mem_of_getElem? hr₀)).1
  cases hshape with
  | seat hf hj => exact absurd (mem_map.mpr ⟨_, mem_of_getElem? hj, rfl⟩) (hnone _ hf)
  | _ => exact hzero

/-! ### Events -/

/-- Two events of one number belong to one group. -/
theorem event_unique (hlen : regions.length ≤ 2 ^ 32) {f g : Fork} (hf : f ∈ forked) (hg : g ∈ forked) {x y : Nat}
    (hx : x ≤ (f.seats cheap side).length) (hy : y ≤ (g.seats cheap side).length)
    (heq : event (f.base + x) = event (g.base + y)) : f = g ∧ x = y := by
  have hf' := (h.below f hf).2
  have hg' := (h.below g hg).2
  have hcount := h.count.trans h.reach
  have hnat : f.base + x = g.base + y := by
    have := congrArg toNat heq
    rwa [toNat_ofNat', toNat_ofNat', Nat.mod_eq_of_lt (by omega), Nat.mod_eq_of_lt (by omega)] at this
  rcases h.apart_of hf hg with rfl | ⟨-, hlt⟩ | ⟨-, hlt⟩
  · exact ⟨rfl, by omega⟩
  · omega
  · omega

section

variable (hfresh : Fresh regions) (hr : forks.regions[i]? = some r)
include hfresh hr

theorem opens_inv
    (he : r.opens = some e) : ∃ f ∈ forked, i = f.start ∧ e = event (f.base + 0) := by
  obtain ⟨r₀, hr₀, hshape⟩ := h.shape hr
  obtain ⟨-, -, hnone, -⟩ := hfresh r₀ (mem_of_getElem? hr₀)
  cases hshape with
  | first hf hi => exact ⟨_, hf, hi, (Option.some.inj he).symm⟩
  | _ => exact (nomatch hnone.symm.trans he)

theorem close_inv (he : r.close = some e) :
    ∃ f ∈ forked, ∃ (j : Nat) (lane : UInt32), (f.seats cheap side)[j]? = some (i, lane) ∧ e = event (f.base + (1 + j)) := by
  obtain ⟨r₀, hr₀, hshape⟩ := h.shape hr
  obtain ⟨-, -, -, hnone⟩ := hfresh r₀ (mem_of_getElem? hr₀)
  cases hshape with
  | seat hf hj =>
    refine ⟨_, hf, _, _, hj, ?_⟩
    rw [← add_assoc]
    exact (Option.some.inj he).symm
  | _ => exact (nomatch hnone.symm.trans he)

theorem wait_inv (he : e ∈ r.wait) :
    ∃ f ∈ forked, (e = event (f.base + 0) ∧ ∃ (j : Nat) (lane : UInt32), (f.seats cheap side)[j]? = some (i, lane))
      ∨ (i = f.stop ∧ ∃ j < (f.seats cheap side).length, e = event (f.base + (1 + j))) := by
  obtain ⟨r₀, hr₀, hshape⟩ := h.shape hr
  obtain ⟨-, hnil, -, -⟩ := hfresh r₀ (mem_of_getElem? hr₀)
  cases hshape with
  | seat hf hj =>
    rw [show _ = r₀.wait ++ [_] from rfl, hnil, nil_append, mem_singleton] at he
    exact ⟨_, hf, .inl ⟨he, _, _, hj⟩⟩
  | last hf hi =>
    rw [show _ = r₀.wait ++ _ from rfl, hnil, nil_append, mem_map] at he
    obtain ⟨j, hj, rfl⟩ := he
    refine ⟨_, hf, .inr ⟨hi, j, mem_range.mp hj, ?_⟩⟩
    rw [← add_assoc]
  | _ =>
    rw [hnil] at he
    cases he

end

/-- Only the region after a group waits for a seat of it. -/
theorem closes_inv (hfresh : Fresh regions) (hlen : regions.length ≤ 2 ^ 32)
    (ha : forks.regions[a]? = some ra) (hb : forks.regions[b]? = some rb) (he : ra.close = some e)
    (hw : e ∈ rb.wait) : ∃ f ∈ forked, f.start < a ∧ a < f.stop ∧ b = f.stop := by
  obtain ⟨f, hf, j, lane, hj, rfl⟩ := h.close_inv hfresh ha he
  have hjlt := (List.getElem?_eq_some_iff.mp hj).1
  obtain ⟨h1, h2, -⟩ := h.seat_lt hf hj
  obtain ⟨g, hg, ⟨heq, -⟩ | ⟨rfl, j', hj', heq⟩⟩ := h.wait_inv hfresh hb hw
  · have := (h.event_unique hlen hf hg (by omega) (Nat.zero_le _) heq).2
    omega
  · obtain ⟨rfl, -⟩ := h.event_unique hlen hf hg (by omega) (by omega) heq
    exact ⟨f, hf, h1, h2, rfl⟩

/-- Only the seats of a group wait for its opening. -/
theorem opens_wait_inv (hfresh : Fresh regions) (hlen : regions.length ≤ 2 ^ 32)
    (ha : forks.regions[a]? = some ra) (hb : forks.regions[b]? = some rb) (he : ra.opens = some e)
    (hw : e ∈ rb.wait) : ∃ f ∈ forked, a = f.start ∧ f.start < b ∧ b < f.stop := by
  obtain ⟨f, hf, rfl, rfl⟩ := h.opens_inv hfresh ha he
  obtain ⟨g, hg, ⟨heq, j, lane, hj⟩ | ⟨-, j, hj, heq⟩⟩ := h.wait_inv hfresh hb hw
  · obtain ⟨rfl, -⟩ := h.event_unique hlen hf hg (Nat.zero_le _) (Nat.zero_le _) heq
    obtain ⟨h1, h2, -⟩ := h.seat_lt hf hj
    exact ⟨f, hf, rfl, h1, h2⟩
  · have := (h.event_unique hlen hf hg (Nat.zero_le _) (by omega) heq).2
    omega

/-! ### What comes before what -/

/-- A seat comes after the opening of its group. -/
theorem before_seat (hf : f ∈ forked)
    (hj : (f.seats cheap side)[j]? = some (m, lane)) : Before forks.regions (.joined f.start) (.joined m) := by
  obtain ⟨h1, -, hlt⟩ := h.seat_lt hf hj
  have hform := h.form f hf
  exact .opens (hform.first _ (getElem?_eq_getElem (h1.trans hlt))) (hform.seat j m lane hj _ (getElem?_eq_getElem hlt))
    rfl (mem_append_right _ (mem_singleton_self _))

/-- The region after a group comes after its seats. -/
theorem before_stop (hf : f ∈ forked)
    (hj : (f.seats cheap side)[j]? = some (m, lane)) : Before forks.regions (.done m) (.joined f.stop) := by
  obtain ⟨-, -, hlt⟩ := h.seat_lt hf hj
  have hform := h.form f hf
  have hjlt := (List.getElem?_eq_some_iff.mp hj).1
  exact .closes (hform.seat j m lane hj _ (getElem?_eq_getElem hlt))
    (hform.last _ (getElem?_eq_getElem (h.wide f hf).2.1)) rfl
    (mem_append_right _ (mem_map.mpr ⟨j, mem_range.mpr hjlt, rfl⟩))

theorem not_seat (hf : f ∈ forked) (hout : i ≤ f.start ∨ f.stop ≤ i) : i ∉ (f.seats cheap side).map Prod.fst := by
  intro hmem
  obtain ⟨⟨_, lane⟩, hp, rfl⟩ := mem_map.mp hmem
  obtain ⟨j, hj⟩ := mem_iff_getElem?.mp hp
  have := h.seat_lt hf hj
  omega

section

variable (hfresh : Fresh regions)
include hfresh

/-- A region of the main stream comes before all later ones that are not seats of its group. -/
theorem precedes_main (hab : a < b) (hb : b < regions.length)
    (hmain : ∀ f ∈ forked, a ∉ (f.seats cheap side).map Prod.fst)
    (hout : ∀ f ∈ forked, f.start ≤ a → b < f.stop → False) : Precedes forks.regions a b := by
  obtain ⟨ra, hra⟩ := h.get_of_lt (hab.trans hb)
  obtain ⟨rb, hrb⟩ := h.get_of_lt hb
  have hzero := h.stream_main hfresh hmain hra
  by_cases hseat : ∃ f ∈ forked, b ∈ (f.seats cheap side).map Prod.fst
  · -- through the opening of the group of `b`
    obtain ⟨f, hf, hmem⟩ := hseat
    obtain ⟨⟨_, lane⟩, hp, rfl⟩ := mem_map.mp hmem
    obtain ⟨j, hj⟩ := mem_iff_getElem?.mp hp
    obtain ⟨h1, h2, -⟩ := h.seat_lt hf hj
    have hlt : a < f.start := by
      by_contra hge
      exact hout f hf (not_lt.mp hge) h2
    obtain ⟨rs, hrs⟩ := h.get_of_lt (h1.trans hb)
    have hstart : rs.stream = 0 := by
      refine h.stream_main hfresh (fun g hg hmem => ?_) hrs
      by_cases hgf : g = f
      · subst hgf
        exact h.not_seat hg (.inl le_rfl) hmem
      · refine h.not_seat hg ?_ hmem
        rcases h.apart_of hg hf with heq | ⟨hlt, -⟩ | ⟨hlt, -⟩
        · exact absurd heq hgf
        · exact .inr (le_of_lt hlt)
        · have := (h.wide f hf).1
          exact .inl (by omega)
    exact (TransGen.single (.stream hra hrs hlt (hzero.trans hstart.symm))).tail (h.before_seat hf hj)
  · exact TransGen.single (.stream hra hrb hab (hzero.trans
      (h.stream_main hfresh (fun f hf hmem => hseat ⟨f, hf, hmem⟩) hrb).symm))

/-- **Outside of a group all is in order.** -/
theorem precedes_of_apart (hab : a < b) (hb : b < regions.length)
    (hout : ∀ f ∈ forked, f.start ≤ a → b < f.stop → False) : Precedes forks.regions a b := by
  by_cases hseat : ∃ f ∈ forked, a ∈ (f.seats cheap side).map Prod.fst
  · obtain ⟨f, hf, hmem⟩ := hseat
    obtain ⟨⟨_, lane⟩, hp, rfl⟩ := mem_map.mp hmem
    obtain ⟨j, hj⟩ := mem_iff_getElem?.mp hp
    obtain ⟨h1, h2, -⟩ := h.seat_lt hf hj
    have hstop : f.stop ≤ b := by
      by_contra hlt
      exact hout f hf (le_of_lt h1) (not_le.mp hlt)
    have hjoin := TransGen.single (h.before_stop hf hj)
    rcases lt_or_eq_of_le hstop with hlt | rfl
    · refine (hjoin.tail (.runs f.stop)).trans (h.precedes_main hfresh hlt hb (fun g hg hmem => ?_) (fun g hg h3 h4 => ?_))
      · have hgf : g = f := by
          have := (h.wide f hf).1
          rcases mem_map.mp hmem with ⟨⟨_, lane'⟩, hp', hx⟩
          obtain ⟨j', hj'⟩ := mem_iff_getElem?.mp hp'
          have hlt' := h.seat_lt hg hj'
          dsimp only at hx
          exact h.fork_unique hg hf (i := f.stop) (by omega) (by omega)
        subst hgf
        exact h.not_seat hg (.inr le_rfl) hmem
      · have hgf : g = f := by
          have := (h.wide f hf).1
          exact h.fork_unique hg hf (i := f.stop) (by omega) (by omega)
        subst hgf
        omega
    · exact hjoin
  · exact h.precedes_main hfresh hab hb (fun f hf hmem => hseat ⟨f, hf, hmem⟩) hout

theorem before_lt (hlen : regions.length ≤ 2 ^ 32) {x y : Moment} (hxy : Before forks.regions x y) :
    x.region < y.region ∨ ∃ r, x = .joined r ∧ y = .done r := by
  cases hxy with
  | runs r => exact .inr ⟨r, rfl, rfl⟩
  | stream _ _ hab _ => exact .inl hab
  | closes ha hb he hw =>
    obtain ⟨f, -, -, hlt, rfl⟩ := h.closes_inv hfresh hlen ha hb he hw
    exact .inl hlt
  | opens ha hb he hw =>
    obtain ⟨f, -, rfl, hlt, -⟩ := h.opens_wait_inv hfresh hlen ha hb he hw
    exact .inl hlt

theorem lt_of_precedes (hlen : regions.length ≤ 2 ^ 32)
    (hab : Precedes forks.regions a b) : a < b := by
  have key : ∀ x, TransGen (Before forks.regions) (.done a) x → a < x.region := by
    intro x hx
    induction hx with
    | single hstep =>
      rcases h.before_lt hfresh hlen hstep with hlt | ⟨r, hr, -⟩
      · exact hlt
      · cases hr
    | tail _ hstep ih =>
      rcases h.before_lt hfresh hlen hstep with hlt | ⟨r, rfl, rfl⟩
      · exact ih.trans hlt
      · exact ih
  exact key _ hab

/-- **Within a group only the stream orders.** Whatever a member leads to is on its stream, or after the group. -/
theorem stream_of_precedes (hlen : regions.length ≤ 2 ^ 32) (hf : f ∈ forked) (ha : f.start ≤ a) (hb : b < f.stop) (hra : forks.regions[a]? = some ra)
    (hrb : forks.regions[b]? = some rb) (hab : Precedes forks.regions a b) : ra.stream = rb.stream := by
  have hlt := h.lt_of_precedes hfresh hlen hab
  have key : ∀ x, TransGen (Before forks.regions) (.done a) x →
      f.stop ≤ x.region ∨ (a < x.region ∧ ∃ r, forks.regions[x.region]? = some r ∧ r.stream = ra.stream) := by
    -- one step from a member of the stream, which is not the first of the group unless it is `a`
    have hdone : ∀ {c : Nat} {rc : Region} {y : Moment}, a ≤ c → forks.regions[c]? = some rc → rc.stream = ra.stream →
        Before forks.regions (.done c) y →
        f.stop ≤ y.region ∨ (a < y.region ∧ ∃ r, forks.regions[y.region]? = some r ∧ r.stream = ra.stream) := by
      intro c rc y hc hrc hs hstep
      by_cases hstop : f.stop ≤ c
      · rcases h.before_lt hfresh hlen hstep with hlt | ⟨r, hr, -⟩
        · exact .inl (hstop.trans (le_of_lt hlt))
        · cases hr
      · cases hstep with
        | stream ha' hb' hab' heq =>
          cases hrc.symm.trans ha'
          exact .inr ⟨lt_of_le_of_lt hc hab', _, hb', heq.symm.trans hs⟩
        | closes ha' hb' he hw =>
          obtain ⟨g, hg, h1, h2, rfl⟩ := h.closes_inv hfresh hlen ha' hb' he hw
          obtain rfl := h.fork_unique hg hf (i := c) (by omega) (by omega)
          exact .inl le_rfl
    intro x hx
    induction hx with
    | single hstep => exact hdone (le_refl a) hra rfl hstep
    | @tail x y _ hstep ih =>
      rcases ih with hstop | ⟨hax, r, hr, hs⟩
      · rcases h.before_lt hfresh hlen hstep with hlt | ⟨r, rfl, rfl⟩
        · exact .inl (hstop.trans (le_of_lt hlt))
        · exact .inl hstop
      · cases x with
        | done c => exact hdone (le_of_lt hax) hr hs hstep
        | joined c =>
          by_cases hstop : f.stop ≤ c
          · rcases h.before_lt hfresh hlen hstep with hlt | ⟨r, hr, rfl⟩
            · exact .inl (hstop.trans (le_of_lt hlt))
            · cases hr
              exact .inl hstop
          · cases hstep with
            | runs => exact .inr ⟨hax, r, hr, hs⟩
            | opens ha' hb' he hw =>
              obtain ⟨g, hg, rfl, h1, h2⟩ := h.opens_wait_inv hfresh hlen ha' hb' he hw
              have hax' : a < g.start := hax
              obtain rfl := h.fork_unique hg hf (i := g.start) (by omega) (by omega)
              omega
  rcases key _ hab with hstop | ⟨-, r, hr, hs⟩
  · have : f.stop ≤ b := hstop
    omega
  · cases hrb.symm.trans hr
    exact hs.symm

end

end

end Laid

/-! ## The pairs -/

theorem mem_sortPairs {pairs : List (UInt32 × UInt32)} : p ∈ sortPairs pairs ↔ p ∈ pairs := by
  unfold sortPairs
  rw [mem_dedup, mem_insertionSort]

theorem of_mem_pairsOf : ∀ {l : List (Nat × UInt32)}, p ∈ pairsOf l →
    ∃ x ∈ l, ∃ y ∈ l, p = (ofNat x.1, ofNat y.1) := by
  intro l
  induction l with
  | nil => exact nofun
  | cons a l ih =>
    intro hp
    rcases mem_append.mp hp with hp | hp
    · obtain ⟨y, hy, rfl⟩ := mem_map.mp hp
      exact ⟨a, mem_cons_self, y, mem_cons_of_mem _ (mem_filter.mp hy).1, rfl⟩
    · obtain ⟨x, hx, y, hy, rfl⟩ := ih hp
      exact ⟨x, mem_cons_of_mem _ hx, y, mem_cons_of_mem _ hy, rfl⟩

theorem mem_pairsOf {x y : Nat × UInt32} (hlt : x.1 < y.1) (hne : x.2 ≠ y.2) : ∀ {l : List (Nat × UInt32)},
    (l.map Prod.fst).Pairwise (· < ·) → x ∈ l → y ∈ l → (ofNat x.1, ofNat y.1) ∈ pairsOf l := by
  intro l
  induction l with
  | nil => exact fun _ hx => (nomatch hx)
  | cons a l ih =>
    intro hsorted hx hy
    rw [map_cons, pairwise_cons] at hsorted
    unfold pairsOf
    rcases mem_cons.mp hy with rfl | hyl
    · -- nothing of the list is before its first
      rcases mem_cons.mp hx with rfl | hx
      · exact absurd hlt (lt_irrefl _)
      · exact absurd (hlt.trans (hsorted.1 _ (mem_map_of_mem hx))) (lt_irrefl _)
    · rcases mem_cons.mp hx with rfl | hx
      · exact mem_append_left _ (mem_map.mpr ⟨y, mem_filter.mpr ⟨hyl, bne_iff_ne.mpr hne⟩, rfl⟩)
      · exact mem_append_right _ (ih hsorted.2 hx hyl)

/-- The stream of a member of a group in which no member stays. -/
def laneOf (side : UInt32) (start member : Nat) : UInt32 :=
  if member = start then 0 else 1 + UInt32.ofNat (member - (start + 1)) % side

theorem seat_of_none_cheap
    (hnone : ∀ m, start < m → m < stop → cheap start m = false) (h1 : start < m) (h2 : m < stop) :
    (seatsOf cheap side start stop)[m - (start + 1)]? = some (m, laneOf side start m) := by
  have hall : (membersOf start stop).filter (fun member => !cheap start member) = membersOf start stop := by
    refine filter_eq_self.mpr (fun m hm => ?_)
    obtain ⟨h1, h2⟩ := mem_membersOf.mp hm
    rw [hnone m h1 h2]
    rfl
  unfold seatsOf laneOf
  rw [hall, getElem?_mapIdx, membersOf, getElem?_range' (by omega), if_neg (by omega)]
  have : start + 1 + 1 * (m - (start + 1)) = m := by omega
  rw [this]
  rfl

theorem group_sorted : (((start, (0 : UInt32)) :: seatsOf cheap side start stop).map Prod.fst).Pairwise (· < ·) := by
  rw [map_cons, seatsOf_map_fst, pairwise_cons]
  refine ⟨fun m hm => (mem_membersOf.mp (mem_filter.mp hm).1).1, Pairwise.filter _ ?_⟩
  exact pairwise_lt_range'

/-! ## The plan -/

/-- Conflicting regions keep their order, and regions of two streams that nothing orders are listed. -/
structure Listed (trace : Trace) (profile : DeviceProfile) (regions out : List Region) (pairs : List (UInt32 × UInt32)) :
    Prop where
  ordered : ∀ (a b : Nat) (ra rb : Region), a < b → regions[a]? = some ra → regions[b]? = some rb →
    Conflict trace profile ra rb → Precedes out a b
  listed : ∀ (a b : Nat) (ra rb : Region), a < b → out[a]? = some ra → out[b]? = some rb → ra.stream ≠ rb.stream →
    ¬Precedes out a b → ¬Precedes out b a → (UInt32.ofNat a, UInt32.ofNat b) ∈ pairs

/-- No member of a group stays on the main stream, and members that conflict share a stream. -/
structure Clean (trace : Trace) (profile : DeviceProfile) (regions : List Region) (cheap : Nat → Nat → Bool)
    (start stop : Nat) : Prop where
  seated : ∀ m, start < m → m < stop → cheap start m = false
  shared : ∀ (a b : Nat) (ra rb : Region), start ≤ a → a < b → b < stop → regions[a]? = some ra → regions[b]? = some rb →
    Conflict trace profile ra rb → laneOf profile.sideStreams start a = laneOf profile.sideStreams start b

section

variable {trace : Trace} {profile : DeviceProfile} {regions : List Region} {cheap : Nat → Nat → Bool} {after : List Nat}
  {k count : Nat} {forked : List Fork} {forks : Forks}

section

variable (h : Laid cheap profile.sideStreams regions after k count forked forks) (hfresh : Fresh regions)
include h hfresh

theorem Laid.stream_of_seated {f : Fork} (hf : f ∈ forked) (hnone : ∀ m, f.start < m → m < f.stop → cheap f.start m = false) (h1 : f.start ≤ m) (h2 : m < f.stop) (hr : forks.regions[m]? = some r) :
    r.stream = laneOf profile.sideStreams f.start m := by
  rcases lt_or_eq_of_le h1 with h1 | rfl
  · exact h.stream_seat hf (seat_of_none_cheap hnone h1 h2) hr
  · unfold laneOf
    rw [if_pos rfl]
    refine h.stream_main hfresh (fun g hg hmem => ?_) hr
    by_cases hgf : g = f
    · subst hgf
      exact h.not_seat hg (.inl le_rfl) hmem
    · refine h.not_seat hg ?_ hmem
      rcases h.apart_of hg hf with heq | ⟨hlt, -⟩ | ⟨hlt, -⟩
      · exact absurd heq hgf
      · exact .inr (le_of_lt hlt)
      · exact .inl (by omega)

theorem Laid.listed_of_clean
    (hclean : ∀ f ∈ forked, Clean trace profile regions cheap f.start f.stop) :
    Listed trace profile regions forks.regions (sortPairs forks.pairs) := by
  refine ⟨fun a b ra rb hab ha hb hconflict => ?_, fun a b ra rb hab ha hb hne hopen _ => ?_⟩
  · have hlt := (List.getElem?_eq_some_iff.mp hb).1
    by_cases hin : ∃ f ∈ forked, f.start ≤ a ∧ b < f.stop
    · obtain ⟨f, hf, h1, h2⟩ := hin
      have hlane := (hclean f hf).shared a b ra rb h1 hab h2 ha hb hconflict
      obtain ⟨ra', hra'⟩ := h.get_of_lt (hab.trans hlt)
      obtain ⟨rb', hrb'⟩ := h.get_of_lt hlt
      refine TransGen.single (.stream hra' hrb' hab ?_)
      rw [h.stream_of_seated hfresh hf (hclean f hf).seated h1 (hab.trans h2) hra',
        h.stream_of_seated hfresh hf (hclean f hf).seated (h1.trans (le_of_lt hab)) h2 hrb', hlane]
    · exact h.precedes_of_apart hfresh hab hlt (fun f hf h1 h2 => hin ⟨f, hf, h1, h2⟩)
  · have hlt : b < regions.length := h.length ▸ (List.getElem?_eq_some_iff.mp hb).1
    by_cases hin : ∃ f ∈ forked, f.start ≤ a ∧ b < f.stop
    · obtain ⟨f, hf, h1, h2⟩ := hin
      have hmem : ∀ m, f.start ≤ m → m < f.stop →
          (m, laneOf profile.sideStreams f.start m) ∈ (f.start, 0) :: f.seats cheap profile.sideStreams := by
        intro m h1 h2
        rcases lt_or_eq_of_le h1 with h1 | rfl
        · exact mem_cons_of_mem _ (mem_of_getElem? (seat_of_none_cheap (hclean f hf).seated h1 h2))
        · unfold laneOf
          rw [if_pos rfl]
          exact mem_cons_self
      rw [h.stream_of_seated hfresh hf (hclean f hf).seated h1 (hab.trans h2) ha,
        h.stream_of_seated hfresh hf (hclean f hf).seated (h1.trans (le_of_lt hab)) h2 hb] at hne
      rw [mem_sortPairs, h.pairs]
      exact mem_flatMap.mpr ⟨f, hf, mem_pairsOf (x := (a, _)) (y := (b, _)) hab hne group_sorted
        (hmem a h1 (hab.trans h2)) (hmem b (h1.trans (le_of_lt hab)) h2)⟩
    · exact absurd (h.precedes_of_apart hfresh hab hlt (fun f hf h1 h2 => hin ⟨f, hf, h1, h2⟩)) hopen

theorem Laid.clean_of_listed
    (hlen : regions.length ≤ 2 ^ 32) (hside : profile.sideStreams ≠ 0)
    (hlisted : Listed trace profile regions forks.regions (sortPairs forks.pairs)) {f : Fork} (hf : f ∈ forked) :
    Clean trace profile regions cheap f.start f.stop := by
  have hseated : ∀ m, f.start < m → m < f.stop → cheap f.start m = false := by
    intro m h1 h2
    by_contra hcheap
    -- a seat of the group and the member that stayed: side by side, and not listed
    obtain ⟨-, hstop, hseats⟩ := h.wide f hf
    obtain ⟨⟨d, lane⟩, hd⟩ := exists_mem_of_ne_nil _ hseats
    obtain ⟨j, hj⟩ := mem_iff_getElem?.mp hd
    obtain ⟨hlane, hd1, hd2, hdcheap⟩ := seatsOf_get hj
    have hmd : m ≠ d := by
      rintro rfl
      exact hcheap hdcheap
    have hstays : ∀ g ∈ forked, m ∉ (g.seats cheap profile.sideStreams).map Prod.fst := by
      intro g hg hmem
      obtain ⟨⟨x, lane'⟩, hp, hx⟩ := mem_map.mp hmem
      obtain rfl : x = m := hx
      obtain ⟨j', hj'⟩ := mem_iff_getElem?.mp hp
      have hm := h.seat_lt hg hj'
      obtain rfl := h.fork_unique hg hf (i := x) (by omega) (by omega)
      exact hcheap (seatsOf_get hj').2.2.2
    obtain ⟨rm, hrm⟩ := h.get_of_lt (h2.trans hstop)
    obtain ⟨rd, hrd⟩ := h.get_of_lt (hd2.trans hstop)
    have hstream : rm.stream ≠ rd.stream := by
      rw [h.stream_main hfresh hstays hrm, h.stream_seat hf hj hrd, hlane]
      exact (lane_ne_zero hside j).symm
    have hopen : ∀ {a b : Nat} {ra rb : Region}, f.start ≤ a → b < f.stop → forks.regions[a]? = some ra →
        forks.regions[b]? = some rb → ra.stream ≠ rb.stream → ¬Precedes forks.regions a b :=
      fun ha hb hra hrb hne hab => hne (h.stream_of_precedes hfresh hlen hf ha hb hra hrb hab)
    have hpair : (ofNat m, ofNat d) ∈ sortPairs forks.pairs
        ∨ (ofNat d, ofNat m) ∈ sortPairs forks.pairs := by
      rcases Nat.lt_or_gt_of_ne hmd with hlt | hlt
      · exact .inl (hlisted.listed m d rm rd hlt hrm hrd hstream (hopen (le_of_lt h1) hd2 hrm hrd hstream)
          (hopen (le_of_lt hd1) h2 hrd hrm (Ne.symm hstream)))
      · exact .inr (hlisted.listed d m rd rm hlt hrd hrm (Ne.symm hstream)
          (hopen (le_of_lt hd1) h2 hrd hrm (Ne.symm hstream)) (hopen (le_of_lt h1) hd2 hrm hrd hstream))
    have hnumber : ∀ g ∈ forked, ∀ x ∈ (g.start, (0 : UInt32)) :: g.seats cheap profile.sideStreams,
        ofNat m = ofNat x.1 → False := by
      intro g hg x hx heq
      have hw := h.wide g hg
      have hxlt : x.1 < g.stop ∧ g.start ≤ x.1 ∧ (x.1 = g.start ∨ x.1 ∈ (g.seats cheap profile.sideStreams).map Prod.fst) := by
        rcases mem_cons.mp hx with rfl | hx
        · exact ⟨by dsimp only; omega, le_rfl, .inl rfl⟩
        · obtain ⟨i, hi⟩ := mem_iff_getElem?.mp hx
          have := h.seat_lt hg hi
          exact ⟨this.2.1, le_of_lt this.1, .inr (mem_map_of_mem hx)⟩
      have hmx : m = x.1 := by
        have := congrArg toNat heq
        rwa [toNat_ofNat', toNat_ofNat', Nat.mod_eq_of_lt (by omega), Nat.mod_eq_of_lt (by omega)] at this
      rw [← hmx] at hxlt
      obtain rfl := h.fork_unique hg hf (i := m) (by omega) (by omega)
      rcases hxlt.2.2 with heq | hmem
      · omega
      · exact hstays g hg hmem
    rw [mem_sortPairs, mem_sortPairs, h.pairs, mem_flatMap, mem_flatMap] at hpair
    rcases hpair with ⟨g, hg, hp⟩ | ⟨g, hg, hp⟩
    · obtain ⟨x, hx, _, _, heq⟩ := of_mem_pairsOf hp
      exact hnumber g hg x hx (Prod.mk.inj heq).1
    · obtain ⟨_, _, y, hy, heq⟩ := of_mem_pairsOf hp
      exact hnumber g hg y hy (Prod.mk.inj heq).2
  refine ⟨hseated, fun a b ra rb h1 hab h2 ha hb hconflict => ?_⟩
  have hlt := (List.getElem?_eq_some_iff.mp hb).1
  obtain ⟨ra', hra'⟩ := h.get_of_lt (hab.trans hlt)
  obtain ⟨rb', hrb'⟩ := h.get_of_lt hlt
  have hstream := h.stream_of_precedes hfresh hlen hf h1 h2 hra' hrb' (hlisted.ordered a b ra rb hab ha hb hconflict)
  rw [h.stream_of_seated hfresh hf hseated h1 (hab.trans h2) hra',
    h.stream_of_seated hfresh hf hseated (h1.trans (le_of_lt hab)) h2 hrb'] at hstream
  exact hstream

end

end

/-- Members of a group do not conflict when no merge leads back to itself. -/
theorem Group.not_conflict {trace : Trace} {profile : DeviceProfile} {regions : List Region} (hacyclic : Acyclic trace) (h : Group regions (closure (edgeAt trace regions profile) regions.length) start stop) (ha : start ≤ a) (hab : a < b) (hb : b < stop) (hra : regions[a]? = some ra)
    (hrb : regions[b]? = some rb) : ¬Conflict trace profile ra rb := by
  intro hconflict
  have hcand := h.apart a b ha hab hb
  have hpath := path_of_edge hab (List.getElem?_eq_some_iff.mp hrb).1 (edge_of_conflict hacyclic hra hrb hconflict)
  unfold candidates at hcand
  rw [hpath] at hcand
  cases hcand

section

variable {cheap : Region → Region → Bool} {trace : Trace} {regions : List Region} {profile : DeviceProfile}

/-- The groups that are forked, at their places in the regions. -/
theorem forkWith_laid (hside : profile.sideStreams ≠ 0) : ∃ (k count : Nat) (forked : List Fork) (forks : Forks),
      Laid (testAt cheap regions) profile.sideStreams regions (closure (edgeAt trace regions profile) regions.length)
          k count forked forks
        ∧ forked.map (fun f => (f.start, f.stop)) = forkedGroups (testAt cheap regions) regions
          (closure (edgeAt trace regions profile) regions.length) regions.length 0
        ∧ (forkWith cheap trace regions profile).1 = forks.regions
        ∧ (forkWith cheap trace regions profile).2.pairs = sortPairs forks.pairs := by
  have hinit : Laid (testAt cheap regions) profile.sideStreams regions
      (closure (edgeAt trace regions profile) regions.length) 0 0 [] ⟨regions, [], 0, 1⟩ :=
    ⟨rfl, fun _ _ => rfl, nofun, nofun, nofun, .nil, nofun, rfl, rfl, Nat.le_refl 0, Nat.zero_le _⟩
  obtain ⟨k, count, forked, hlaid, hmap⟩ := @forkGroups_laid (testAt cheap regions) profile.sideStreams regions _ regions.length
    _ _ _ _ hinit (by omega) regions.length 0 (by omega) (.inl ⟨nofun, rfl⟩)
  rw [map_nil, nil_append] at hmap
  by_cases hshort : regions.length < 3
  · -- there is no room for a group
    have hnil : forked = [] := by
      refine eq_nil_iff_forall_not_mem.mpr (fun f hf => ?_)
      have := hlaid.wide f hf
      omega
    subst hnil
    refine ⟨0, 0, [], _, hinit, hmap, ?_, ?_⟩
    · unfold forkWith
      rw [if_pos (.inr hshort)]
    · unfold forkWith
      rw [if_pos (.inr hshort)]
      rfl
  · refine ⟨k, count, forked, _, hlaid, hmap, ?_, ?_⟩
    · unfold forkWith
      rw [if_neg (not_or.mpr ⟨hside, hshort⟩)]
    · unfold forkWith
      rw [if_neg (not_or.mpr ⟨hside, hshort⟩)]

theorem listed_iff_clean (hfresh : Fresh regions) (hlen : regions.length ≤ 2 ^ 32) (hside : profile.sideStreams ≠ 0) :
    Listed trace profile regions (forkWith cheap trace regions profile).1 (forkWith cheap trace regions profile).2.pairs ↔
      ∀ group ∈ forkedGroups (testAt cheap regions) regions (closure (edgeAt trace regions profile) regions.length)
        regions.length 0, Clean trace profile regions (testAt cheap regions) group.1 group.2 := by
  obtain ⟨k, count, forked, forks, hlaid, hmap, hout, hpairs⟩ := @forkWith_laid cheap trace regions profile hside
  rw [hout, hpairs, ← hmap, forall_mem_map]
  exact ⟨fun hlisted _ hf => hlaid.clean_of_listed hfresh hlen hside hlisted hf,
    fun hclean => hlaid.listed_of_clean hfresh hclean⟩

theorem forkedGroups_group (hside : profile.sideStreams ≠ 0) {group : Nat × Nat}
    (hgroup : group ∈ forkedGroups (testAt cheap regions) regions (closure (edgeAt trace regions profile) regions.length)
      regions.length 0) :
    Group regions (closure (edgeAt trace regions profile) regions.length) group.1 group.2 := by
  obtain ⟨k, count, forked, forks, hlaid, hmap, -, -⟩ := @forkWith_laid cheap trace regions profile hside
  rw [← hmap] at hgroup
  obtain ⟨f, hf, rfl⟩ := mem_map.mp hgroup
  exact hlaid.group f hf

end

/-- **When the plan of the groups is right.** It lists all that runs side by side exactly when no member of a
forked group is left on the main stream and members that conflict share a stream. They never conflict when no
merge leads back to itself. -/
theorem forkWith_listed_iff (cheap : Region → Region → Bool) (trace : Trace) (regions : List Region)
    (profile : DeviceProfile) (hfresh : Fresh regions) (hlen : regions.length ≤ 2 ^ 32) (hside : profile.sideStreams ≠ 0) :
    let plan := forkWith cheap trace regions profile
    let groups := forkedGroups (testAt cheap regions) regions (closure (edgeAt trace regions profile) regions.length)
      regions.length 0
    (Listed trace profile regions plan.1 plan.2.pairs ↔
        ∀ group ∈ groups, Clean trace profile regions (testAt cheap regions) group.1 group.2)
      ∧ (Acyclic trace → ∀ group ∈ groups, ∀ (a b : Nat) (ra rb : Region), group.1 ≤ a → a < b → b < group.2 →
          regions[a]? = some ra → regions[b]? = some rb → ¬Conflict trace profile ra rb) :=
  ⟨listed_iff_clean hfresh hlen hside, fun hacyclic _ hgroup _ _ _ _ ha hab hb hra hrb =>
    (forkedGroups_group hside hgroup).not_conflict hacyclic ha hab hb hra hrb⟩

/-- Three regions of a class each, and one of all three classes after them. -/
def threeClasses : List Region := ([1, 2, 4, 7].zipIdx).map (fun p =>
  { start := p.2, stop := p.2 + 1, mask := ⟨p.1⟩, phase := .capture, lowering := .alwaysLaunch, stream := 0, wait := [],
    opens := none, close := none, collective := false })

/-- Four nodes that read one input. -/
def sharedInput : Trace where
  caches := []
  values := [valueOf (.input .tokens), valueOf (.op 0), valueOf (.op 1), valueOf (.op 2), valueOf (.op 3)]
  nodes := [opOf [0] [1], opOf [0] [2], opOf [0] [3], opOf [0] [4]]
  seams := []

theorem fresh_threeClasses : Fresh threeClasses := by
  unfold Fresh
  decide

theorem groups_threeClasses (cheap : Nat → Nat → Bool) (hcheap : cheap 0 2 = false) :
    forkedGroups cheap threeClasses (closure (edgeAt sharedInput threeClasses twoStreams) threeClasses.length)
      threeClasses.length 0 = [(0, 3)] := by
  have hgroup : groupAt threeClasses (closure (edgeAt sharedInput threeClasses twoStreams) threeClasses.length) 0 = some 3 := by
    decide +kernel
  have hany : (membersOf 0 3).any (fun member => !cheap 0 member) = true :=
    any_eq_true.mpr ⟨2, by decide, by rw [hcheap]; rfl⟩
  rw [show threeClasses.length = 3 + 1 from rfl] at hgroup ⊢
  unfold forkedGroups
  rw [if_pos (by decide), hgroup]
  dsimp only
  rw [if_pos ⟨by decide, hany⟩, forkedGroups_end (by decide)]

theorem forkWith_listed_threeClasses :
    Listed sharedInput twoStreams threeClasses (forkWith (fun _ _ => false) sharedInput threeClasses twoStreams).1
      (forkWith (fun _ _ => false) sharedInput threeClasses twoStreams).2.pairs := by
  have hacyclic : Acyclic sharedInput := by
    refine acyclic_of_lt ?_
    rintro a m ⟨armList, hm, -⟩
    rcases m with _ | _ | _ | _ | _ | m
    all_goals simp [Trace.defn, sharedInput, valueOf] at hm
  obtain ⟨hiff, hclear⟩ := forkWith_listed_iff (fun _ _ => false) sharedInput threeClasses twoStreams fresh_threeClasses (by decide)
    (by decide)
  refine hiff.mpr (fun group hgroup => ⟨fun m _ _ => ?_, fun a b ra rb ha hab hb hra hrb hconflict => ?_⟩)
  · unfold testAt
    split
    · rfl
    · rfl
  · exact absurd hconflict (hclear hacyclic group hgroup a b ra rb ha hab hb hra hrb)

/-- The second region is too cheap to fork and runs beside the third, and no pair says so. -/
theorem forkWith_unlisted :
    ¬∀ (cheap : Region → Region → Bool) (trace : Trace) (regions : List Region) (profile : DeviceProfile), Fresh regions →
      regions.length ≤ 2 ^ 32 → profile.sideStreams ≠ 0 →
        Listed trace profile regions (forkWith cheap trace regions profile).1 (forkWith cheap trace regions profile).2.pairs := by
  intro h
  have hlisted := h (fun a b => a.start == 1 || b.start == 1) sharedInput threeClasses twoStreams fresh_threeClasses (by decide)
    (by decide)
  have hclean := (listed_iff_clean fresh_threeClasses (by decide) (by decide)).mp hlisted
  rw [groups_threeClasses _ (by decide), forall_mem_singleton] at hclean
  exact absurd (hclean.seated 1 (by decide) (by decide)) (by decide)

end Pie.Proof.Forks
