import Pie.Pipeline.Coalesce

/-!
# What a coalesced prefill claims

A pass claims a key where it finds no entry. An entry that has lapsed and was not
swept keeps the claim out, so a pass that waited for a claimant that failed claims
nothing. Where no entry of its keys has lapsed, every key has a claim that is live.
A pass waits for claims of others only, and not past the last of them.
-/

namespace Pie.Proof.Coalesce

open List Option Pie.Coalesce Lib.Systems State

variable {Key Ws : Type}

/-! ## What is claimed -/

/-- A claim on the key that has not lapsed. -/
def Live (s : State Key Ws) (key : Key) : Prop := ∃ claim, s.claims key = some claim ∧ s.clock < claim.lapsesAt

/-- Every key from the first uncached one on has a live claim. -/
def Claimed (s : State Key Ws) (p : Pass Key Ws) : Prop := ∀ key ∈ p.rest (cached s.run p.keys p.heldPages), Live s key

/-- A pass that waits found claims of others that had not lapsed, and is awake when the last of them lapses. -/
structure Patient (ws : Ws) (w : Wait Ws) : Prop where
  foreign : ∀ claim ∈ w.found, claim.claimant ≠ ws
  live : ∀ claim ∈ w.found, w.looked < claim.lapsesAt
  latest : (w.found.map Claim.lapsesAt).max? = some w.lapsesAt

/-- What is to hold of a step of a pass. -/
structure Coalesces (s s' : State Key Ws) : Prop where
  claimed : ∀ i p p', s.passes i = some p → p.stage ≠ .returned → s'.passes i = some p' → p'.stage = .returned → Claimed s' p'
  waits : ∀ i p w since, s'.passes i = some p → p.stage = .sleeping w since → Patient p.ws w ∧ since + POLL ≤ w.lapsesAt

/-- When the pass meets it: no entry of the keys it is about to claim has lapsed, its own claim has not yet either, and
what it counted as cached still is. It does not go to sleep later than one poll before the last claim lapses. -/
def Meets (s : State Key Ws) : Event Key Ws → Prop
  | .turn i => ∀ p, s.passes i = some p →
      match p.stage with
      | .inserting had now =>
        (∀ key ∈ p.rest had, ∀ claim, s.claims key = some claim → s.clock < claim.lapsesAt)
          ∧ s.clock < deadline (p.keys.length - had) p.pageSize now ∧ had ≤ cached s.run p.keys p.heldPages
      | .polling w => w.want ≤ cached s.run (p.keys.take w.want) p.heldPages ∨ s.clock + POLL ≤ w.lapsesAt
      | _ => True
  | _ => True

section

variable {claims : Claims Key Ws} {claim : Claim Ws} {key : Key} {keys : List Key} {ws : Ws} {now : Nat}

/-- What is waited for is claimed by others, and has not lapsed. -/
theorem foundRun_spec [DecidableEq Ws] : ∀ c ∈ foundRun claims ws now keys, c.claimant ≠ ws ∧ now < c.lapsesAt := by
  induction keys with
  | nil => exact fun c hc => absurd hc not_mem_nil
  | cons key keys ih =>
    unfold foundRun
    split
    · split
      · rename_i hforeign
        exact forall_mem_cons.mpr ⟨hforeign, ih⟩
      · exact fun c hc => absurd hc not_mem_nil
    · exact fun c hc => absurd hc not_mem_nil

variable [DecidableEq Key]

theorem orInsert_other {k : Key} (h : k ≠ key) : orInsert claims key claim k = claims k := if_neg h

theorem orInsert_self : orInsert claims key claim key = some ((claims key).getD claim) := if_pos rfl

theorem insertAll_eq : keys.foldl (orInsert · · claim) claims key
    = if key ∈ keys then some ((claims key).getD claim) else claims key := by
  induction keys generalizing claims with
  | nil => exact (if_neg not_mem_nil).symm
  | cons k keys ih =>
    rw [foldl_cons, ih]
    by_cases he : key = k
    · subst he
      rw [orInsert_self, getD_some, if_pos mem_cons_self, ite_self]
    · rw [orInsert_other he]
      simp only [mem_cons, he, false_or]

end

/-! ## Turns -/

/-- What a pass knows at each stage. -/
def Knows (p : Pass Key Ws) : Prop :=
  match p.stage with
  | .counted had | .looking had _ => had < p.keys.length
  | .waiting w | .polling w | .sleeping w _ => Patient p.ws w
  | _ => True

section

variable {s s' : State Key Ws} {i j : Nat} {p p' : Pass Key Ws}

theorem put_self : (s.put i p).passes i = some p := if_pos rfl

theorem put_other (h : j ≠ i) : (s.put i p).passes j = s.passes j := if_neg h

theorem settle_knows {had : Nat} : Knows { p with stage := p.settle had } := by
  unfold Pass.settle
  split <;> exact trivial

/-- A pass settles for its claim, unless there is nothing left to claim. -/
theorem settle_returned {had : Nat} (h : p.settle had = .returned) : p.keys.length ≤ had := by
  unfold Pass.settle at h
  split at h
  · cases h
  · rename_i hle
    exact not_lt.mp hle

theorem settle_not_sleeping {had since : Nat} {w : Wait Ws} : p.settle had ≠ .sleeping w since := by
  unfold Pass.settle
  split <;> nofun

variable [DecidableEq Key] [DecidableEq Ws]

/-- The claims of a turn in which a pass inserts its own. -/
def Inserted (s s' : State Key Ws) (p : Pass Key Ws) : Prop := ∃ had now, p.stage = .inserting had now
  ∧ s'.claims = (p.rest had).foldl (orInsert · · ⟨p.ws, deadline (p.keys.length - had) p.pageSize now⟩) s.claims

/-- What a turn does: the pass moves on to a stage, no other pass does, and the clock and the store stay. -/
structure Turned (i : Nat) (s s' : State Key Ws) (p : Pass Key Ws) (stage : Stage Ws) : Prop where
  self : s'.passes i = some { p with stage }
  knows : Knows { p with stage }
  other : ∀ j, j ≠ i → s'.passes j = s.passes j
  clock : s'.clock = s.clock
  run : s'.run = s.run
  /-- A pass that returns has all keys cached, or inserts its claim. -/
  returned : stage = .returned → p.keys.length ≤ cached s.run p.keys p.heldPages ∨ Inserted s s' p
  /-- A pass falls asleep when it finds that what it waits for is not cached. -/
  sleeping : ∀ w since, stage = .sleeping w since →
    p.stage = .polling w ∧ since = s.clock ∧ ¬w.want ≤ cached s.run (p.keys.take w.want) p.heldPages

theorem turn_cases (hp : Knows p) (h : s.turn i p = some s') : ∃ stage, Turned i s s' p stage := by
  cases hstage : p.stage with
  | counting =>
    rw [turn, hstage] at h
    cases h
    refine ⟨_, put_self, ?_, fun j hj => put_other hj, rfl, rfl, ?_, ?_⟩
    all_goals split
    · exact trivial
    · rename_i hlt
      exact not_le.mp hlt
    · rename_i hle
      exact fun _ => .inl hle
    all_goals nofun
  | counted had =>
    rw [turn, hstage] at h
    rw [Knows, hstage] at hp
    cases h
    exact ⟨_, put_self, hp, fun j hj => put_other hj, rfl, rfl, nofun, nofun⟩
  | looking had now =>
    rw [turn, hstage] at h
    rw [Knows, hstage] at hp
    cases h
    refine ⟨_, put_self, ?_, fun j hj => put_other hj, rfl, rfl, ?_, ?_⟩
    all_goals split
    · rename_i lapsesAt hlatest
      exact ⟨fun c hc => (foundRun_spec c hc).1, fun c hc => (foundRun_spec c hc).2, hlatest⟩
    · exact settle_knows
    · nofun
    · -- there is something left, as was counted before
      exact fun hreturned => absurd (settle_returned hreturned) (not_le.mpr hp)
    · nofun
    · exact fun w since hsleeping => absurd hsleeping settle_not_sleeping
  | waiting w =>
    rw [turn, hstage] at h
    rw [Knows, hstage] at hp
    cases h
    refine ⟨_, put_self, ?_, fun j hj => put_other hj, rfl, rfl, ?_, ?_⟩
    all_goals split
    · exact hp
    · exact trivial
    all_goals nofun
  | polling w =>
    rw [turn, hstage] at h
    rw [Knows, hstage] at hp
    cases h
    refine ⟨_, put_self, ?_, fun j hj => put_other hj, rfl, rfl, ?_, fun w' since hsleeping => ?_⟩
    · split
      · exact trivial
      · exact hp
    · split <;> nofun
    · split at hsleeping
      · cases hsleeping
      · rename_i hwant
        cases hsleeping
        exact ⟨hstage, rfl, hwant⟩
  | sleeping w since =>
    rw [turn, hstage] at h
    rw [Knows, hstage] at hp
    dsimp only at h
    split at h
    · cases h
    · cases h
      exact ⟨_, put_self, hp, fun j hj => put_other hj, rfl, rfl, nofun, nofun⟩
  | recounting =>
    rw [turn, hstage] at h
    cases h
    exact ⟨_, put_self, settle_knows, fun j hj => put_other hj, rfl, rfl, fun hreturned => .inl (settle_returned hreturned),
      fun w since hsleeping => absurd hsleeping settle_not_sleeping⟩
  | claiming had =>
    rw [turn, hstage] at h
    cases h
    exact ⟨_, put_self, trivial, fun j hj => put_other hj, rfl, rfl, nofun, nofun⟩
  | inserting had now =>
    rw [turn, hstage] at h
    cases h
    exact ⟨_, put_self, trivial, fun j hj => put_other hj, rfl, rfl, fun _ => .inr ⟨had, now, hstage, rfl⟩, nofun⟩
  | returned =>
    rw [turn, hstage] at h
    cases h

end

/-! ## Runs -/

section

variable {s s' : State Key Ws} {e : Event Key Ws}

/-- What passes know holds at every step. -/
def KnowsInv (s : State Key Ws) : Prop := ∀ i p, s.passes i = some p → Knows p

theorem knows_init (h : s.Initial) : KnowsInv s := by
  intro i p hp
  rw [h.2 i] at hp
  cases hp

/-- Passes sleep no longer than what they wait for is claimed. -/
def AwakeInv (s : State Key Ws) : Prop :=
  ∀ i p w since, s.passes i = some p → p.stage = .sleeping w since → since + POLL ≤ w.lapsesAt

theorem awake_init (h : s.Initial) : AwakeInv s := by
  intro i p w since hp
  rw [h.2 i] at hp
  cases hp

variable [DecidableEq Key] [DecidableEq Ws]

/-- Steps that meet a condition. -/
def StepOf (meets : State Key Ws → Event Key Ws → Prop) (s s' : State Key Ws) : Prop := ∃ e, meets s e ∧ step s e = some s'

theorem knows_step (hinv : KnowsInv s) (h : step s e = some s') : KnowsInv s' := by
  cases e with
  | tick ns =>
    cases h
    exact hinv
  | store run =>
    cases h
    exact hinv
  | beforePass i ws keys heldPages pageSize =>
    rw [step] at h
    split at h
    · cases h
    · cases h
      intro j p hp
      by_cases hj : j = i
      · subst hj
        rw [put_self] at hp
        cases hp
        exact trivial
      · rw [put_other hj] at hp
        exact hinv j p hp
  | turn i =>
    obtain ⟨p, hp, h⟩ := bind_eq_some_iff.mp h
    obtain ⟨stage, hturned⟩ := turn_cases (hinv i p hp) h
    intro j q hq
    by_cases hj : j = i
    · subst hj
      rw [hturned.self] at hq
      cases hq
      exact hturned.knows
    · rw [hturned.other j hj] at hq
      exact hinv j q hq

theorem knows_reachable {meets : State Key Ws → Event Key Ws → Prop}
    (h : Reachable Initial (StepOf meets) s) : KnowsInv s :=
  h.invariant (fun _ => knows_init) fun _ _ _ hinv ⟨_, _, hstep⟩ => knows_step hinv hstep

theorem awake_step (hknows : KnowsInv s) (hinv : AwakeInv s) (hmeets : Meets s e) (h : step s e = some s') : AwakeInv s' := by
  cases e with
  | tick ns =>
    cases h
    exact hinv
  | store run =>
    cases h
    exact hinv
  | beforePass i ws keys heldPages pageSize =>
    rw [step] at h
    split at h
    · cases h
    · cases h
      intro j p w since hp hsleeping
      by_cases hj : j = i
      · subst hj
        rw [put_self] at hp
        cases hp
        cases hsleeping
      · rw [put_other hj] at hp
        exact hinv j p w since hp hsleeping
  | turn i =>
    obtain ⟨p, hp, h⟩ := bind_eq_some_iff.mp h
    obtain ⟨stage, hturned⟩ := turn_cases (hknows i p hp) h
    intro j q w since hq hsleeping
    by_cases hj : j = i
    · subst hj
      rw [hturned.self] at hq
      cases hq
      obtain ⟨hpolling, rfl, hwant⟩ := hturned.sleeping w since hsleeping
      have hturn := hmeets p hp
      rw [hpolling] at hturn
      exact hturn.resolve_left hwant
    · rw [hturned.other j hj] at hq
      exact hinv j q w since hq hsleeping

/-- A pass that returns has claimed what it computes. -/
theorem claimed_step (hknows : KnowsInv s) (hmeets : Meets s e) (h : step s e = some s') {i : Nat} {p p' : Pass Key Ws}
    (hp : s.passes i = some p) (hbefore : p.stage ≠ .returned) (hp' : s'.passes i = some p') (hafter : p'.stage = .returned) :
    Claimed s' p' := by
  cases e with
  | tick ns =>
    cases h
    exact absurd (some.inj (hp.symm.trans hp') ▸ hafter) hbefore
  | store run =>
    cases h
    exact absurd (some.inj (hp.symm.trans hp') ▸ hafter) hbefore
  | beforePass j ws keys heldPages pageSize =>
    rw [step] at h
    split at h
    · cases h
    · rename_i hnone
      cases h
      have hj : i ≠ j := fun he => by rw [he, hnone] at hp; cases hp
      rw [put_other hj] at hp'
      exact absurd (some.inj (hp.symm.trans hp') ▸ hafter) hbefore
  | turn j =>
    obtain ⟨q, hq, h⟩ := bind_eq_some_iff.mp h
    obtain ⟨stage, hturned⟩ := turn_cases (hknows j q hq) h
    by_cases hj : i = j
    · subst hj
      cases hp.symm.trans hq
      cases hturned.self.symm.trans hp'
      intro key hkey
      rw [hturned.run] at hkey
      rcases hturned.returned hafter with hall | ⟨had, now, hinserting, hclaims⟩
      · rw [Pass.rest, drop_eq_nil_of_le hall] at hkey
        exact absurd hkey not_mem_nil
      · have hturn := hmeets p hp
        rw [hinserting] at hturn
        obtain ⟨hlive, hown, hcached⟩ := hturn
        -- what the pass counted as cached still is, so it claimed every key that is not
        have hmem : key ∈ p.rest had := (drop_sublist_drop_left _ hcached).mem hkey
        refine ⟨_, by rw [hclaims, insertAll_eq, if_pos hmem], ?_⟩
        rw [hturned.clock]
        cases hentry : s.claims key with
        | some claim => exact hlive key hmem claim hentry
        | none => exact hown
    · rw [hturned.other i hj] at hp'
      exact absurd (some.inj (hp.symm.trans hp') ▸ hafter) hbefore

end

/-- Nothing is cached and nothing is claimed. -/
def blank : State Nat Nat := ⟨0, fun _ => 0, fun _ => none, fun _ => none⟩

/-- A pass claims a page and fails. A second pass waits for the page until the claim lapses. -/
def outwaited : List (Event Nat Nat) :=
  [.beforePass 0 1 [7] 0 16, .turn 0, .turn 0, .turn 0, .turn 0, .turn 0,
    .beforePass 1 2 [7] 0 16, .turn 1, .turn 1, .turn 1, .tick 1003000000, .turn 1, .turn 1,
    .tick 5000000, .turn 1, .turn 1, .turn 1, .turn 1, .turn 1]

/-- The state after the first steps. -/
def after (n : Nat) : State Nat Nat := ((outwaited.take n).foldlM step blank).getD blank

theorem blank_reachable {meets : State Nat Nat → Event Nat Nat → Prop} :
    Reachable Initial (StepOf meets) blank := .init ⟨fun _ => rfl, fun _ => rfl⟩

theorem reachable_run {events : List (Event Nat Nat)} {s s' : State Nat Nat}
    (hs : Reachable Initial (StepOf fun _ _ => True) s) (h : events.foldlM step s = some s') :
    Reachable Initial (StepOf fun _ _ => True) s' := by
  induction events generalizing s with
  | nil =>
    cases h
    exact hs
  | cons e events ih =>
    rw [foldlM_cons] at h
    obtain ⟨s₁, hstep, h⟩ := bind_eq_some_iff.mp h
    exact ih (hs.step ⟨e, trivial, hstep⟩) h

end Pie.Proof.Coalesce
