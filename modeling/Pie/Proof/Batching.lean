import Pie.Scheduler.Batch

/-!
# Steps keep the order of the requests

A round takes requests that share neither instance nor pipeline, as far as the
limits allow, and leaves the others for the next round in their order. So the
steps hold every request once. A request that is turned away can be overtaken,
within the round, by a later one of its pipeline or instance.
-/

namespace Pie.Proof.Batching

open List Pie.Scheduler StepGroup

/-- Requests that must be in different steps, in their order. -/
def Shares (a b : PendingRequest) : Prop :=
  a.instanceId = b.instanceId ∨ ∃ pid, a.pipelineId = some pid ∧ b.pipelineId = some pid

theorem Shares.symm {a b : PendingRequest} (h : Shares a b) : Shares b a := by
  rcases h with h | ⟨pid, ha, hb⟩
  · exact .inl h.symm
  · exact .inr ⟨pid, hb, ha⟩

instance (a b : PendingRequest) : Decidable (Shares a b) :=
  decidable_of_iff (a.instanceId = b.instanceId ∨ ∃ pid ∈ a.pipelineId.toList, b.pipelineId = some pid) (by
    simp only [Option.mem_toList, Shares])

/-- The limits admit the request alone. -/
def Admitted (limits : SchedulerLimits) (req : PendingRequest) : Prop := singleRequestLimitError limits req = none

/-! ## What a group holds -/

section

variable {limits : SchedulerLimits}

theorem admitted_le {req : PendingRequest} (h : Admitted limits req) :
    (requestCapacityUsage req).forwardRequests ≤ limits.maxForwardRequests ∧
      (requestCapacityUsage req).forwardTokens ≤ limits.maxForwardTokens ∧
      (requestCapacityUsage req).pageRefs ≤ limits.maxPageRefs := by
  unfold Admitted singleRequestLimitError at h
  dsimp only at h
  split at h
  · cases h
  · split at h
    · cases h
    · split at h
      · cases h
      · rename_i h₁ h₂ h₃
        exact ⟨not_lt.mp h₁, not_lt.mp h₂, not_lt.mp h₃⟩

variable (f : RequestCapacityUsage → Nat)

/-- What the members need together. -/
def needs (members : List PendingRequest) : Nat :=
  (members.map fun req => f (requestCapacityUsage req)).sum

theorem needs_append (xs ys : List PendingRequest) : needs f (xs ++ ys) = needs f xs + needs f ys := by
  rw [needs, map_append, sum_append]
  rfl

theorem needs_singleton (req : PendingRequest) : needs f [req] = f (requestCapacityUsage req) := by
  rw [needs, map_singleton, sum_singleton]

/-- Requests within the limits. -/
structure Within (limits : SchedulerLimits) (members : List PendingRequest) : Prop where
  requests : needs (·.forwardRequests) members ≤ limits.maxForwardRequests
  tokens : needs (·.forwardTokens) members ≤ limits.maxForwardTokens
  pages : needs (·.pageRefs) members ≤ limits.maxPageRefs

/-- What the group knows of its members. -/
structure Tracks (limits : SchedulerLimits) (grouping : StepGroup) (members : List PendingRequest) : Prop where
  holds : ∀ req, grouping.holds req = true ↔ ∃ member ∈ members, Shares member req
  requests : grouping.forwardRequests = needs (·.forwardRequests) members
  tokens : grouping.forwardTokens = needs (·.forwardTokens) members
  pages : grouping.pageRefs = needs (·.pageRefs) members
  within : Within limits members
  apart : members.Pairwise fun a b => ¬ Shares a b

theorem holds_iff {grouping : StepGroup} {req : PendingRequest} : grouping.holds req = true ↔
    req.instanceId ∈ grouping.instances ∨ ∃ pid, req.pipelineId = some pid ∧ pid ∈ grouping.pipelines := by
  unfold holds
  rw [Bool.or_eq_true, decide_eq_true_iff, Option.any_eq_true]
  simp only [decide_eq_true_iff]

theorem tracks_empty : Tracks limits .empty [] where
  holds := by
    intro req
    rw [holds_iff]
    constructor
    · intro h
      rcases h with h | ⟨pid, -, h⟩
      · cases h
      · cases h
    · exact fun ⟨_, h, _⟩ => nomatch h
  requests := rfl
  tokens := rfl
  pages := rfl
  within := ⟨Nat.zero_le _, Nat.zero_le _, Nat.zero_le _⟩
  apart := .nil

theorem holds_push {grouping : StepGroup} {member req : PendingRequest} :
    (grouping.push member).holds req = true ↔ grouping.holds req = true ∨ Shares member req := by
  rw [holds_iff, holds_iff]
  change (req.instanceId ∈ member.instanceId :: grouping.instances ∨
    ∃ pid, req.pipelineId = some pid ∧ pid ∈ member.pipelineId.toList ++ grouping.pipelines) ↔ _
  rw [mem_cons]
  simp only [mem_append, Option.mem_toList]
  constructor
  · intro h
    rcases h with (h | h) | ⟨pid, hpid, h | h⟩
    · exact .inr (.inl h.symm)
    · exact .inl (.inl h)
    · exact .inr (.inr ⟨pid, h, hpid⟩)
    · exact .inl (.inr ⟨pid, hpid, h⟩)
  · intro h
    rcases h with (h | ⟨pid, hpid, h⟩) | (h | ⟨pid, h, hpid⟩)
    · exact .inl (.inr h)
    · exact .inr ⟨pid, hpid, .inr h⟩
    · exact .inl (.inl h.symm)
    · exact .inr ⟨pid, hpid, .inl h⟩

variable {grouping : StepGroup} {members : List PendingRequest} {req : PendingRequest}

/-- A group without members accepts every request. -/
theorem accepts_empty : empty.accepts req limits = true := by
  have hholds : empty.holds req = false := by
    rw [← Bool.not_eq_true, (@tracks_empty limits).holds]
    exact fun ⟨_, h, _⟩ => nomatch h
  rw [accepts, hholds]
  rfl

theorem saturatingAdd_le {a b limit : Nat} (hlimit : limit < 2 ^ 32) (h : saturatingAdd a b ≤ limit) :
    saturatingAdd a b = a + b := by
  unfold saturatingAdd at h ⊢
  omega

theorem Tracks.push (h : Tracks limits grouping members) (hreq : Admitted limits req)
    (haccepts : grouping.accepts req limits = true) : Tracks limits (grouping.push req) (members ++ [req]) := by
  unfold accepts at haccepts
  have hholds : ¬ grouping.holds req = true := by
    intro hholds
    rw [if_pos hholds] at haccepts
    cases haccepts
  rw [if_neg hholds] at haccepts
  -- the first member is alone, and any other fits
  have hsums : saturatingAdd grouping.forwardRequests (requestCapacityUsage req).forwardRequests ≤ limits.maxForwardRequests ∧
      saturatingAdd grouping.forwardTokens (requestCapacityUsage req).forwardTokens ≤ limits.maxForwardTokens ∧
      saturatingAdd grouping.pageRefs (requestCapacityUsage req).pageRefs ≤ limits.maxPageRefs := by
    by_cases hfirst : grouping.forwardRequests = 0
    · obtain ⟨hr, ht, hp⟩ := admitted_le hreq
      have hnone : members = [] := by
        cases members with
        | nil => rfl
        | cons member members =>
          have hone : 1 ≤ (requestCapacityUsage member).forwardRequests := le_max_right _ _
          have hsum := h.requests
          rw [needs, map_cons, sum_cons] at hsum
          omega
      have ht₀ : grouping.forwardTokens = 0 := by rw [h.tokens, hnone]; rfl
      have hp₀ : grouping.pageRefs = 0 := by rw [h.pages, hnone]; rfl
      rw [hfirst, ht₀, hp₀]
      unfold saturatingAdd
      omega
    · rw [if_neg hfirst] at haccepts
      dsimp only at haccepts
      rw [Bool.and_eq_true, Bool.and_eq_true, decide_eq_true_iff, decide_eq_true_iff, decide_eq_true_iff] at haccepts
      exact ⟨haccepts.1.1, haccepts.1.2, haccepts.2⟩
  obtain ⟨hr, ht, hp⟩ := hsums
  have hr' := saturatingAdd_le limits.requests_lt hr
  have ht' := saturatingAdd_le limits.tokens_lt ht
  have hp' := saturatingAdd_le limits.pages_lt hp
  have hreq₁ := needs_append (·.forwardRequests) members [req]
  have hreq₂ := needs_append (·.forwardTokens) members [req]
  have hreq₃ := needs_append (·.pageRefs) members [req]
  rw [needs_singleton] at hreq₁ hreq₂ hreq₃
  refine ⟨fun other => ?_, ?_, ?_, ?_, ⟨?_, ?_, ?_⟩, ?_⟩
  · rw [holds_push, h.holds]
    simp only [mem_append, mem_singleton, or_and_right, exists_or, exists_eq_left]
  · rw [hreq₁, ← h.requests]
    exact hr'
  · rw [hreq₂, ← h.tokens]
    exact ht'
  · rw [hreq₃, ← h.pages]
    exact hp'
  · rw [hreq₁, ← h.requests, ← hr']
    exact hr
  · rw [hreq₂, ← h.tokens, ← ht']
    exact ht
  · rw [hreq₃, ← h.pages, ← hp']
    exact hp
  · refine pairwise_append.mpr ⟨h.apart, pairwise_singleton .., fun member hmember other hother hs => ?_⟩
    rw [mem_singleton.mp hother] at hs
    exact hholds ((h.holds req).mpr ⟨member, hmember, hs⟩)

end

/-! ## One round -/

section

variable {α : Type} {view : α → PendingRequest} {limits : SchedulerLimits}

theorem groupRound_cons_left {grouping : StepGroup} {closed : Bool} {req : α} {reqs : List α}
    (h : (closed || !grouping.accepts (view req) limits) = true) :
    groupRound view limits grouping closed (req :: reqs) =
      ((groupRound view limits grouping closed reqs).1, req :: (groupRound view limits grouping closed reqs).2) := by
  rw [groupRound, if_pos h]

theorem groupRound_cons_right {grouping : StepGroup} {closed : Bool} {req : α} {reqs : List α}
    (h : ¬ (closed || !grouping.accepts (view req) limits) = true) :
    groupRound view limits grouping closed (req :: reqs) =
      (req :: (groupRound view limits (grouping.push (view req)) ((grouping.push (view req)).full limits) reqs).1,
        (groupRound view limits (grouping.push (view req)) ((grouping.push (view req)).full limits) reqs).2) := by
  rw [groupRound, if_neg h]

theorem groupRound_keeps : ∀ {reqs : List α} {grouping : StepGroup} {closed : Bool},
    ((groupRound view limits grouping closed reqs).1 ++ (groupRound view limits grouping closed reqs).2).Perm reqs ∧
      (groupRound view limits grouping closed reqs).2.Sublist reqs := by
  intro reqs
  induction reqs with
  | nil => exact ⟨.refl _, .refl _⟩
  | cons req reqs ih =>
    intro grouping closed
    by_cases h : (closed || !grouping.accepts (view req) limits) = true
    · rw [groupRound_cons_left h]
      obtain ⟨hperm, hsub⟩ := @ih grouping closed
      exact ⟨perm_middle.trans (hperm.cons req), hsub.cons_cons req⟩
    · rw [groupRound_cons_right h]
      obtain ⟨hperm, hsub⟩ := @ih (grouping.push (view req)) ((grouping.push (view req)).full limits)
      exact ⟨hperm.cons req, hsub.cons req⟩

theorem groupRound_tracks : ∀ {reqs : List α} {grouping : StepGroup} {closed : Bool} {members : List PendingRequest},
    Tracks limits grouping members → (∀ req ∈ reqs, Admitted limits (view req)) →
      ∃ grouping', Tracks limits grouping' (members ++ (groupRound view limits grouping closed reqs).1.map view) := by
  intro reqs
  induction reqs with
  | nil =>
    intro grouping closed members h _
    exact ⟨grouping, (append_nil members).symm ▸ h⟩
  | cons req reqs ih =>
    intro grouping closed members h hadmitted
    have hrest : ∀ req ∈ reqs, Admitted limits (view req) := fun req hreq => hadmitted req (mem_cons_of_mem _ hreq)
    by_cases hleft : (closed || !grouping.accepts (view req) limits) = true
    · rw [groupRound_cons_left hleft]
      exact ih h hrest
    · rw [groupRound_cons_right hleft]
      rw [Bool.or_eq_true, not_or, Bool.not_eq_true', Bool.not_eq_false] at hleft
      obtain ⟨grouping', h'⟩ := ih (h.push (hadmitted req mem_cons_self) hleft.2) hrest
      rw [append_assoc] at h'
      exact ⟨grouping', h'⟩

/-- No request is accepted after one of its pipeline or instance was turned away. -/
def InTurn (limits : SchedulerLimits) : StepGroup → Bool → List PendingRequest → List PendingRequest → Prop
  | _, _, _, [] => True
  | grouping, closed, turned, req :: reqs =>
    if closed || !grouping.accepts req limits then InTurn limits grouping closed (req :: turned) reqs
    else (∀ a ∈ turned, ¬ Shares a req) ∧
      InTurn limits (grouping.push req) ((grouping.push req).full limits) turned reqs

instance decidableInTurn {limits : SchedulerLimits} : ∀ {grouping : StepGroup} {closed : Bool}
    {turned reqs : List PendingRequest}, Decidable (InTurn limits grouping closed turned reqs)
  | _, _, _, [] => .isTrue trivial
  | grouping, closed, turned, req :: reqs =>
    if h : closed || !grouping.accepts req limits then
      @decidable_of_iff _ (InTurn limits grouping closed (req :: turned) reqs) (by rw [InTurn, if_pos h]) decidableInTurn
    else
      have : Decidable (InTurn limits (grouping.push req) ((grouping.push req).full limits) turned reqs) := decidableInTurn
      decidable_of_iff ((∀ a ∈ turned, ¬ Shares a req) ∧
        InTurn limits (grouping.push req) ((grouping.push req).full limits) turned reqs) (by rw [InTurn, if_neg h])

theorem inTurn_iff {place : α → Nat} : ∀ {reqs : List α} {grouping : StepGroup} {closed : Bool} {turned : List PendingRequest},
    (reqs.Pairwise fun a b => place a < place b) →
    (InTurn limits grouping closed turned (reqs.map view) ↔
      (∀ a ∈ turned, ∀ b ∈ (groupRound view limits grouping closed reqs).1, ¬ Shares a (view b)) ∧
        ∀ a ∈ (groupRound view limits grouping closed reqs).2, ∀ b ∈ (groupRound view limits grouping closed reqs).1,
          Shares (view a) (view b) → place b < place a) := by
  intro reqs
  induction reqs with
  | nil => exact fun _ => ⟨fun _ => ⟨fun _ _ => nofun, nofun⟩, fun _ => trivial⟩
  | cons req reqs ih =>
    intro grouping closed turned hplace
    obtain ⟨hfirst, hplace⟩ := pairwise_cons.mp hplace
    rw [map_cons, InTurn]
    by_cases h : (closed || !grouping.accepts (view req) limits) = true
    · rw [if_pos h, groupRound_cons_left h, ih hplace]
      have hlater : ∀ b ∈ (groupRound view limits grouping closed reqs).1, place req < place b := fun b hb =>
        hfirst b (groupRound_keeps.1.subset (mem_append_left _ hb))
      simp only [forall_mem_cons]
      -- what comes after a request that is left was not taken before it
      constructor
      · intro ⟨⟨hreq, hturned⟩, hleft⟩
        exact ⟨hturned, fun b hb hs => absurd hs (hreq b hb), hleft⟩
      · intro ⟨hturned, hreq, hleft⟩
        exact ⟨⟨fun b hb hs => absurd (hreq b hb hs) (Nat.lt_asymm (hlater b hb)), hturned⟩, hleft⟩
    · rw [if_neg h, groupRound_cons_right h, ih hplace]
      generalize hround : groupRound view limits (grouping.push (view req)) ((grouping.push (view req)).full limits) reqs = round
      have hlater : ∀ a ∈ round.2, place req < place a := fun a ha =>
        hfirst a (groupRound_keeps.2.subset (hround ▸ ha))
      simp only [forall_mem_cons]
      constructor
      · intro ⟨hreq, hturned, hleft⟩
        exact ⟨fun a ha => ⟨hreq a ha, hturned a ha⟩, fun a ha => ⟨fun _ => hlater a ha, hleft a ha⟩⟩
      · intro ⟨hturned, hleft⟩
        exact ⟨fun a ha => (hturned a ha).1, fun a ha => (hturned a ha).2, fun a ha => (hleft a ha).2⟩

theorem groupRound_map : ∀ {reqs : List α} {grouping : StepGroup} {closed : Bool},
    groupRound id limits grouping closed (reqs.map view) =
      Prod.map (map view) (map view) (groupRound view limits grouping closed reqs) := by
  intro reqs
  induction reqs with
  | nil => exact rfl
  | cons req reqs ih =>
    intro grouping closed
    rw [map_cons]
    by_cases h : (closed || !grouping.accepts (view req) limits) = true
    · rw [groupRound_cons_left h, @groupRound_cons_left _ id _ _ _ _ _ h, ih]
      rfl
    · rw [groupRound_cons_right h, @groupRound_cons_right _ id _ _ _ _ _ h]
      dsimp only [id]
      rw [ih]
      rfl

/-! ## The rounds of a wave -/

theorem nextGroup_eq (deferred : List α) : nextGroup view limits deferred = groupRound view limits .empty false deferred := by
  unfold nextGroup
  cases deferred with
  | nil => rfl
  | cons req reqs =>
    have h : ¬ (false || !empty.accepts (view req) limits) = true := by
      rw [accepts_empty]
      exact Bool.false_ne_true
    rw [groupRound_cons_right h]

theorem nextGroup_rest (req : α) (reqs : List α) : (nextGroup view limits (req :: reqs)).2.length ≤ reqs.length := by
  have h : ¬ (false || !empty.accepts (view req) limits) = true := by
    rw [accepts_empty]
    exact Bool.false_ne_true
  rw [nextGroup_eq, groupRound_cons_right h]
  exact groupRound_keeps.2.length_le

theorem groupWave_succ (rounds : Nat) (req : α) (reqs : List α) : groupWave view limits (rounds + 1) (req :: reqs) =
    (nextGroup view limits (req :: reqs)).1 :: groupWave view limits rounds (nextGroup view limits (req :: reqs)).2 := rfl

/-- The rounds of a wave are in turn. -/
def InTurns (limits : SchedulerLimits) : Nat → List PendingRequest → Prop
  | _, [] => True
  | 0, _ => True
  | rounds + 1, deferred =>
    InTurn limits .empty false [] deferred ∧ InTurns limits rounds (nextGroup id limits deferred).2

instance decidableInTurns {limits : SchedulerLimits} : ∀ {rounds : Nat} {deferred : List PendingRequest},
    Decidable (InTurns limits rounds deferred)
  | 0, [] => .isTrue trivial
  | 0, _ :: _ => .isTrue trivial
  | _ + 1, [] => .isTrue trivial
  | rounds + 1, req :: reqs =>
    have : Decidable (InTurns limits rounds (nextGroup id limits (req :: reqs)).2) := decidableInTurns
    inferInstanceAs (Decidable (InTurn limits .empty false [] (req :: reqs) ∧ InTurns limits rounds _))

/-- The groups of a wave: each apart and within the limits, and every request in one of them. -/
theorem groupWave_groups : ∀ {rounds : Nat} {deferred : List α}, deferred.length ≤ rounds →
    (∀ req ∈ deferred, Admitted limits (view req)) →
    (groupWave view limits rounds deferred).flatten.Perm deferred ∧
      ∀ group ∈ groupWave view limits rounds deferred,
        Within limits (group.map view) ∧ (group.map view).Pairwise fun a b => ¬ Shares a b := by
  intro rounds
  induction rounds with
  | zero =>
    intro deferred hlen _
    obtain rfl := eq_nil_of_length_eq_zero (Nat.le_zero.mp hlen)
    exact ⟨.refl _, nofun⟩
  | succ rounds ih =>
    intro deferred hlen hadmitted
    cases deferred with
    | nil => exact ⟨.refl _, nofun⟩
    | cons req reqs =>
      have hrest := @nextGroup_rest _ view limits req reqs
      obtain ⟨hperm, hsub⟩ := @groupRound_keeps _ view limits (req :: reqs) .empty false
      obtain ⟨grouping, htracks⟩ := @groupRound_tracks _ _ _ _ _ false _ tracks_empty hadmitted
      rw [groupWave_succ, flatten_cons]
      rw [← nextGroup_eq] at hperm hsub htracks
      obtain ⟨hperm', hgroups⟩ := @ih (nextGroup view limits (req :: reqs)).2 (hrest.trans (Nat.le_of_succ_le_succ hlen))
        fun r hr => hadmitted r (hsub.subset hr)
      exact ⟨(hperm'.append_left _).trans hperm, forall_mem_cons.mpr ⟨⟨htracks.within, htracks.apart⟩, hgroups⟩⟩

/-- The groups of a wave follow the order of its requests if the rounds are in turn, and only then. -/
theorem groupWave_ordered {place : α → Nat} : ∀ {rounds : Nat} {deferred : List α}, deferred.length ≤ rounds →
    (∀ req ∈ deferred, Admitted limits (view req)) → (deferred.Pairwise fun a b => place a < place b) →
    (InTurns limits rounds (deferred.map view) ↔ (groupWave view limits rounds deferred).Pairwise fun group later =>
      ∀ b ∈ group, ∀ a ∈ later, Shares (view a) (view b) → place b < place a) := by
  intro rounds
  induction rounds with
  | zero =>
    intro deferred hlen _ _
    obtain rfl := eq_nil_of_length_eq_zero (Nat.le_zero.mp hlen)
    exact ⟨fun _ => .nil, fun _ => trivial⟩
  | succ rounds ih =>
    intro deferred hlen hadmitted hplace
    cases deferred with
    | nil => exact ⟨fun _ => .nil, fun _ => trivial⟩
    | cons req reqs =>
      have hrest := (@nextGroup_rest _ view limits req reqs).trans (Nat.le_of_succ_le_succ hlen)
      have hsub := (@groupRound_keeps _ view limits (req :: reqs) .empty false).2
      rw [← nextGroup_eq] at hsub
      have hadmitted' : ∀ r ∈ (nextGroup view limits (req :: reqs)).2, Admitted limits (view r) :=
        fun r hr => hadmitted r (hsub.subset hr)
      have hperm := (groupWave_groups hrest hadmitted').1
      have hturn := @inTurn_iff _ view limits place (req :: reqs) .empty false [] hplace
      have hmap : (nextGroup id limits ((req :: reqs).map view)).2 = (nextGroup view limits (req :: reqs)).2.map view := by
        rw [nextGroup_eq, nextGroup_eq, groupRound_map]
        rfl
      rw [← nextGroup_eq] at hturn
      rw [groupWave_succ, pairwise_cons, ← ih hrest hadmitted' (hplace.sublist hsub), ← hmap]
      change InTurn limits .empty false [] ((req :: reqs).map view) ∧ _ ↔ _
      refine and_congr_left fun _ => hturn.trans ?_
      -- what a round leaves is in the groups after it
      constructor
      · intro ⟨_, hleft⟩ later hlater b hb a ha hs
        exact hleft a (hperm.subset (mem_flatten.mpr ⟨later, hlater, ha⟩)) b hb hs
      · intro h
        refine ⟨nofun, fun a ha b hb hs => ?_⟩
        obtain ⟨later, hlater, ha⟩ := mem_flatten.mp (hperm.symm.subset ha)
        exact h later hlater b hb a ha hs

theorem groupWave_map : ∀ {rounds : Nat} {deferred : List α},
    groupWave id limits rounds (deferred.map view) = (groupWave view limits rounds deferred).map (map view) := by
  intro rounds
  induction rounds with
  | zero =>
    intro deferred
    cases deferred <;> rfl
  | succ rounds ih =>
    intro deferred
    cases deferred with
    | nil => rfl
    | cons req reqs =>
      have hnext : nextGroup id limits ((req :: reqs).map view) =
          Prod.map (map view) (map view) (nextGroup view limits (req :: reqs)) := by
        rw [nextGroup_eq, nextGroup_eq, groupRound_map]
      rw [groupWave_succ, map_cons (f := map view), ← ih]
      rw [map_cons] at hnext
      rw [map_cons, groupWave_succ, hnext]
      rfl

theorem memberOrder_perm (group : List α) : (memberOrder view group).Perm group := by
  have h := (perm_insertionSort (fun a b : α × Nat =>
    (memberFacts (view a.1) a.2).key ≤ (memberFacts (view b.1) b.2).key) group.zipIdx).map Prod.fst
  rwa [zipIdx_map_fst] at h

theorem memberOrder_map (group : List α) : memberOrder id (group.map view) = (memberOrder view group).map view := by
  have h := map_insertionSort
    (fun a b : α × Nat => (memberFacts (view a.1) a.2).key ≤ (memberFacts (view b.1) b.2).key)
    (fun a b : PendingRequest × Nat => (memberFacts a.1 a.2).key ≤ (memberFacts b.1 b.2).key)
    (Prod.map view id) group.zipIdx fun _ _ _ _ => Iff.rfl
  rw [memberOrder, zipIdx_map]
  refine (congrArg (map Prod.fst) h.symm).trans ?_
  rw [memberOrder, map_map, map_map]
  rfl

/-! ## The plan of a frame -/

theorem framePlan_map (waves : List (List α)) :
    framePlan id limits (waves.map (map view)) = (framePlan view limits waves).map (map view) := by
  unfold framePlan stepGroups
  rw [flatMap_map, map_flatMap, map_flatMap, map_flatMap]
  refine flatMap_congr fun wave _ => ?_
  rw [length_map, groupWave_map, map_map, map_map]
  exact map_congr_left fun group _ => memberOrder_map group

theorem Within.perm {xs ys : List PendingRequest} (h : Within limits xs) (hp : xs.Perm ys) : Within limits ys := by
  have hneeds (f : RequestCapacityUsage → Nat) : needs f ys = needs f xs := (hp.symm.map _).sum_eq
  exact ⟨hneeds _ ▸ h.requests, hneeds _ ▸ h.tokens, hneeds _ ▸ h.pages⟩

theorem framePlan_members {waves : List (List α)} (hadmitted : ∀ wave ∈ waves, ∀ req ∈ wave, Admitted limits (view req)) :
    (framePlan view limits waves).flatten.Perm waves.flatten ∧
      ∀ members ∈ framePlan view limits waves,
        Within limits (members.map view) ∧ (members.map view).Pairwise fun a b => ¬ Shares a b := by
  constructor
  · rw [framePlan, ← flatMap_def, stepGroups, flatMap_assoc]
    refine (Perm.flatMap_left waves fun wave hwave => ?_).trans (Perm.of_eq flatMap_id)
    have hgroups := (groupWave_groups le_rfl (hadmitted wave hwave)).1
    refine (Perm.flatMap_left _ fun group _ => memberOrder_perm group).trans ?_
    rw [flatMap_id']
    exact hgroups
  · intro members hmembers
    obtain ⟨group, hgroup, rfl⟩ := mem_map.mp hmembers
    obtain ⟨wave, hwave, hgroup⟩ := mem_flatMap.mp hgroup
    obtain ⟨hwithin, hapart⟩ := (groupWave_groups le_rfl (hadmitted wave hwave)).2 group hgroup
    have hperm := (@memberOrder_perm _ view group).map view
    exact ⟨hwithin.perm hperm.symm, (hperm.pairwise_iff fun hab hs => hab hs.symm).mpr hapart⟩

/-- The requests of the waves, each with its number. -/
def numbered : Nat → List (List PendingRequest) → List (List (PendingRequest × Nat))
  | _, [] => []
  | n, wave :: waves => wave.zipIdx n :: numbered (n + wave.length) waves

theorem numbered_requests : ∀ {waves : List (List PendingRequest)} {n : Nat},
    (numbered n waves).map (map Prod.fst) = waves := by
  intro waves
  induction waves with
  | nil => exact rfl
  | cons wave waves ih =>
    intro n
    rw [numbered, map_cons, ih, zipIdx_map_fst]

/-- The numbers grow, from wave to wave and in a wave. -/
theorem numbered_flatten : ∀ {waves : List (List PendingRequest)} {n : Nat},
    (numbered n waves).flatten = waves.flatten.zipIdx n := by
  intro waves
  induction waves with
  | nil => exact rfl
  | cons wave waves ih =>
    intro n
    rw [numbered, flatten_cons, flatten_cons, ih, zipIdx_append]

theorem zipIdx_pairwise (requests : List PendingRequest) (n : Nat) :
    (requests.zipIdx n).Pairwise fun a b => a.2 < b.2 := by
  rw [← pairwise_map (f := Prod.snd) (R := (· < ·)), zipIdx_map_snd]
  exact pairwise_lt_range'

variable {waves : List (List PendingRequest)}

/-- Steps that follow the order of what they share. -/
def Ordered (plan : List (List (PendingRequest × Nat))) : Prop :=
  plan.Pairwise fun members later => ∀ b ∈ members, ∀ a ∈ later, Shares a.1 b.1 → b.2 < a.2

theorem framePlan_ordered (hadmitted : ∀ wave ∈ waves, ∀ req ∈ wave, Admitted limits req) :
    Ordered (framePlan Prod.fst limits (numbered 0 waves)) ↔ ∀ wave ∈ waves, InTurns limits wave.length wave := by
  have hplace : (numbered 0 waves).flatten.Pairwise fun a b => a.2 < b.2 := numbered_flatten ▸ zipIdx_pairwise _ 0
  obtain ⟨hin, hacross⟩ := pairwise_flatten.mp hplace
  have hadmitted' : ∀ wave ∈ numbered 0 waves, ∀ req ∈ wave, Admitted limits req.1 := by
    intro wave hwave req hreq
    have hmem : wave.map Prod.fst ∈ waves := by
      rw [← @numbered_requests waves 0]
      exact mem_map_of_mem hwave
    exact hadmitted _ hmem req.1 (mem_map_of_mem hreq)
  have hwave : ∀ wave ∈ numbered 0 waves, (InTurns limits wave.length (wave.map Prod.fst) ↔
      (groupWave Prod.fst limits wave.length wave).Pairwise fun group later =>
        ∀ b ∈ group, ∀ a ∈ later, Shares a.1 b.1 → b.2 < a.2) := fun wave hwave =>
    @groupWave_ordered _ Prod.fst limits Prod.snd _ wave le_rfl (hadmitted' wave hwave) (hin wave hwave)
  -- the order in a step does not matter, and the steps of a wave come before those of the next
  have hmembers (group : List (PendingRequest × Nat)) (r : PendingRequest × Nat) :
      r ∈ memberOrder Prod.fst group ↔ r ∈ group := (memberOrder_perm group).mem_iff
  rw [Ordered, framePlan, pairwise_map, stepGroups, pairwise_flatMap]
  simp only [hmembers]
  have hall : (∀ wave ∈ numbered 0 waves, InTurns limits wave.length (wave.map Prod.fst)) ↔
      ∀ wave ∈ waves, InTurns limits wave.length wave := by
    conv_rhs => rw [← @numbered_requests waves 0]
    rw [forall_mem_map]
    simp only [length_map]
  rw [← hall, forall₂_congr hwave]
  refine and_iff_left (hacross.imp_of_mem fun {wave later} hwave hlater h group hgroup group' hgroup' b hb a ha _ => ?_)
  have hb := (groupWave_groups le_rfl (hadmitted' wave hwave)).1.subset (mem_flatten.mpr ⟨group, hgroup, hb⟩)
  have ha := (groupWave_groups le_rfl (hadmitted' later hlater)).1.subset
    (mem_flatten.mpr ⟨group', hgroup', ha⟩)
  exact h b hb a ha

end

end Pie.Proof.Batching
