import Pie.Lib.Systems
import Pie.Proof.Folding
import Pie.Proof.Overlays

/-!
# Committing a step

A step whose channels are ready and whose bodies come to their end commits, as
long as it puts into no full channel that it does not take from. Readiness
cannot see such a put when the channel was read first. The loop of the commit
finds it too late: the channels before it are changed, and the step fails.
-/

namespace Pie.Proof.Commits

open List Pie.Eta Lib Fallible Systems Instance

variable {st : ChannelState} {container : TraceContainer} {i n : Nat} {profile : ModelProfile} {chan : ChannelIndex}
  {externs : List (ChannelIndex × ExternChannel)} {inst' : Instance} {seeds : List (ChannelIndex × Value)}
  {v : Value}

/-! ## The loop over the channels -/

variable {overlay : Overlay}

/-- Whether the pass took from the channel. -/
def takenAt (overlay : Overlay) (i : Nat) : Bool := (overlay.taken[i]?).getD false

/-- What the pass put into the channel. -/
def putAt (overlay : Overlay) (i : Nat) : Option Value :=
  if overlay.put[i]? = some true then overlay.pending (BitVec.ofNat 32 i) else none

/-- The channel after the pass, and whether the put had room. -/
def committed (overlay : Overlay) (i : Nat) (st : ChannelState) : ChannelState × Bool :=
  commitChannel st (takenAt overlay i) (putAt overlay i)

/-- The overlay has its marks for so many channels, and every put has a value. -/
structure Covers (overlay : Overlay) (n : Nat) : Prop where
  taken : overlay.taken.length = n
  put : overlay.put.length = n
  pending : ∀ i : Nat, overlay.put[i]? = some true → (overlay.pending (BitVec.ofNat 32 i)).isSome = true

theorem commit_reads (h : Covers overlay n) (hi : i < n) :
    Eval.index overlay.taken i = .ok (takenAt overlay i) ∧ pendingPut overlay i = .ok (putAt overlay i) := by
  have ht : i < overlay.taken.length := h.taken.symm ▸ hi
  have hp : i < overlay.put.length := h.put.symm ▸ hi
  constructor
  · rw [index_eq_ok, takenAt, getElem?_eq_getElem ht]
    rfl
  · have hindex : Eval.index overlay.put i = .ok overlay.put[i] := index_eq_ok.mpr (getElem?_eq_getElem hp)
    have hpending := h.pending i
    unfold pendingPut putAt
    rw [hindex]
    rw [getElem?_eq_getElem hp] at hpending ⊢
    show (if overlay.put[i] = true then _ else _) = _
    cases hput : overlay.put[i] with
    | false => rfl
    | true =>
      rw [hput] at hpending
      obtain ⟨v, hv⟩ := Option.isSome_iff_exists.mp (hpending rfl)
      rw [if_pos rfl, if_pos rfl, hv]

theorem commitFrom_ok : ∀ {channels : List ChannelState} {ci : Nat}, Covers overlay (ci + channels.length) →
    (∀ (i : Nat) st, channels[i]? = some st → (committed overlay (ci + i) st).2 = true) →
    ∃ channels', commitFrom overlay ci channels = (channels', none) ∧ channels'.length = channels.length
      ∧ ∀ (i : Nat) st, channels[i]? = some st → channels'[i]? = some (committed overlay (ci + i) st).1 := by
  intro channels
  induction channels with
  | nil => exact fun _ _ => ⟨[], rfl, rfl, nofun⟩
  | cons st rest ih =>
    intro ci hc hroom
    obtain ⟨ht, hp⟩ := commit_reads (i := ci) hc (by simp)
    have hfirst := hroom 0 st rfl
    have hrest : ∀ (i : Nat) st', rest[i]? = some st' → (committed overlay (ci + 1 + i) st').2 = true := by
      intro i st' hst
      rw [add_right_comm, add_assoc]
      exact hroom (i + 1) st' hst
    have hcover : Covers overlay (ci + 1 + rest.length) := by
      rwa [length_cons, add_comm rest.length, ← add_assoc] at hc
    obtain ⟨channels', hcommit, hlen, hall⟩ := ih hcover hrest
    refine ⟨(committed overlay ci st).1 :: channels', ?_, by rw [length_cons, hlen, length_cons], ?_⟩
    · unfold commitFrom
      rw [ht, hp, hcommit]
      exact if_pos hfirst
    · intro i st' hst
      cases i with
      | zero =>
        cases hst
        rfl
      | succ i =>
        rw [show ci + (i + 1) = ci + 1 + i by omega]
        exact hall i st' hst

theorem commitFrom_error : ∀ {channels : List ChannelState} {ci i : Nat} {st : ChannelState},
    Covers overlay (ci + channels.length) → channels[i]? = some st → (committed overlay (ci + i) st).2 = false →
    ∃ why, (commitFrom overlay ci channels).2 = some why := by
  intro channels
  induction channels with
  | nil => exact fun _ h _ => (nomatch h)
  | cons first rest ih =>
    intro ci i st hc hst hroom
    obtain ⟨ht, hp⟩ := commit_reads (i := ci) hc (by simp)
    unfold commitFrom
    rw [ht, hp]
    dsimp only
    by_cases hfirst : (commitChannel first (takenAt overlay ci) (putAt overlay ci)).2 = true
    swap
    · rw [if_neg hfirst]
      exact ⟨_, rfl⟩
    · rw [if_pos hfirst]
      cases i with
      | zero =>
        cases hst
        rw [show committed overlay (ci + 0) first = commitChannel first _ _ from rfl] at hroom
        exact absurd (hroom.symm.trans hfirst) Bool.false_ne_true
      | succ i =>
        rw [show ci + (i + 1) = ci + 1 + i by omega] at hroom
        exact ih (by rwa [length_cons, add_comm rest.length, ← add_assoc] at hc) hst hroom

/-- The channel without the front that was taken. -/
def popped (taken : Bool) (st : ChannelState) : ChannelState :=
  if taken then
    match st.queue with
    | v :: queue => { st with queue, last := v }
    | [] => st
  else st

theorem popped_queue (taken : Bool) (st : ChannelState) :
    (popped taken st).queue = if taken = true then st.queue.tail else st.queue := by
  unfold popped
  cases taken with
  | false => rfl
  | true => cases h : st.queue with
    | nil => exact h
    | cons v queue => rfl

theorem popped_capacity (taken : Bool) (st : ChannelState) : (popped taken st).capacity = st.capacity := by
  unfold popped
  cases taken with
  | false => rfl
  | true => cases st.queue <;> rfl

theorem commitChannel_eq (st : ChannelState) (taken : Bool) (put : Option Value) : commitChannel st taken put
    = match put with
      | none => (popped taken st, true)
      | some v =>
        if (popped taken st).queue.length ≥ st.capacity then (popped taken st, false)
        else ({ popped taken st with queue := (popped taken st).queue ++ [v] }, true) := by
  rw [← popped_capacity taken st]
  rfl

theorem committed_room : (committed overlay i st).2 = true ↔
    ((putAt overlay i).isSome = true → (popped (takenAt overlay i) st).queue.length < st.capacity) := by
  unfold committed
  rw [commitChannel_eq]
  cases putAt overlay i with
  | none => exact ⟨fun _ h => (nomatch h), fun _ => rfl⟩
  | some v =>
    dsimp only
    split
    · rename_i hfull
      exact ⟨nofun, fun h => absurd (h rfl) (not_lt.mpr hfull)⟩
    · rename_i hroom
      exact ⟨fun _ _ => Nat.lt_of_not_le hroom, fun _ => rfl⟩

/-- What is committed to a channel: its front goes if it was taken from, the put comes at its back. -/
theorem committed_queue (h : (committed overlay i st).2 = true) : (committed overlay i st).1.queue
      = (if takenAt overlay i = true then st.queue.tail else st.queue) ++ (putAt overlay i).toList := by
  rw [committed_room] at h
  unfold committed
  rw [commitChannel_eq, ← popped_queue]
  cases hput : putAt overlay i with
  | none => exact (append_nil _).symm
  | some v =>
    rw [hput] at h
    dsimp only
    rw [if_neg (not_le.mpr (h rfl))]
    rfl

theorem committed_same (st : ChannelState) (ht : takenAt overlay i = false) (hp : putAt overlay i = none) :
    (committed overlay i st).1 = st := by
  unfold committed
  rw [ht, hp]
  rfl

theorem commitChannel_capacity (st : ChannelState) (taken : Bool) (put : Option Value) :
    (commitChannel st taken put).1.capacity = st.capacity := by
  rw [commitChannel_eq]
  split
  · exact popped_capacity _ st
  · split <;> exact popped_capacity _ st

theorem commitChannel_length (st : ChannelState) (taken : Bool) (put : Option Value)
    (h : st.queue.length ≤ st.capacity) : (commitChannel st taken put).1.queue.length ≤ st.capacity := by
  have hpopped : (popped taken st).queue.length ≤ st.capacity := by
    rw [popped_queue]
    split
    · rw [length_tail]
      omega
    · exact h
  rw [commitChannel_eq]
  split
  · exact hpopped
  · split
    · exact hpopped
    · rename_i v hroom
      show ((popped taken st).queue ++ [v]).length ≤ _
      rw [length_append]
      exact Nat.lt_of_not_le hroom

/-! ## Instances -/

/-- What happens to an instance: the host puts and takes, a step runs, somebody poisons it, and the
peers of an extern channel leave in it what they like. -/
inductive InstanceStep (bound : BoundTrace) : Instance → Instance → Prop
  | hostPut {inst inst' : Instance} {chan : ChannelIndex} {v : Value} (h : inst.hostPut bound chan v = .ok inst') :
      InstanceStep bound inst inst'
  | hostTake {inst inst' : Instance} {chan : ChannelIndex} {v : Value}
      (h : inst.hostTake bound chan = .ok (v, inst')) : InstanceStep bound inst inst'
  | step {inst : Instance} {K : Type} (F : F32Ops) (host : KernelHost K) (inputs : PassInputs) (k : K) :
      InstanceStep bound inst (inst.step F host bound inputs k).inst
  | poison {inst : Instance} : InstanceStep bound inst { inst with poisoned := true }
  | peer {inst : Instance} {e : ExternDecl} {decl : ChannelDecl} {ty : ValueType} {st : ChannelState}
      (he : e ∈ bound.container.externs) (hdecl : bound.container.channels[e.chan.toNat]? = some decl)
      (hst : st.Holds ty decl.capacity.toNat) :
      InstanceStep bound inst { inst with channels := inst.channels.set e.chan.toNat st }

/-- The instances of a bound trace. -/
def InstanceReachable (bound : BoundTrace) (inst : Instance) : Prop :=
  Reachable (fun inst => ∃ seeds externs, Instance.new bound seeds externs = .ok inst) (InstanceStep bound) inst

/-- Every channel has its capacity, and no more values than that. -/
structure Sized (bound : BoundTrace) (channels : List ChannelState) : Prop where
  length : channels.length = bound.container.channels.length
  each : ∀ (i : Nat) st decl, channels[i]? = some st → bound.container.channels[i]? = some decl →
    st.capacity = decl.capacity.toNat ∧ st.queue.length ≤ st.capacity

section Sized

variable {bound : BoundTrace} {channels : List ChannelState} {inst : Instance}

theorem Sized.set (h : Sized bound channels) (hst : ∀ decl, bound.container.channels[n]? = some decl →
      st.capacity = decl.capacity.toNat ∧ st.queue.length ≤ st.capacity) : Sized bound (channels.set n st) where
  length := by rw [length_set]; exact h.length
  each := by
    intro i st' decl hst' hdecl
    by_cases hi : n = i
    · subst hi
      have hlt := (List.getElem?_eq_some_iff.mp hst').1
      rw [length_set] at hlt
      rw [getElem?_set_self hlt] at hst'
      cases hst'
      exact hst decl hdecl
    · rw [getElem?_set_ne hi] at hst'
      exact h.each i st' decl hst' hdecl

theorem forM_ok {ε α : Type} {f : α → Except ε Unit} : ∀ {l : List α}, l.forM f = .ok () → ∀ a ∈ l, f a = .ok () := by
  intro l
  induction l with
  | nil => exact fun _ _ h => (nomatch h)
  | cons b l ih =>
    intro h a ha
    obtain ⟨_, hb, hl⟩ := bind_eq_ok.mp h
    rcases mem_cons.mp ha with rfl | ha
    · exact hb
    · exact ih hl a ha

theorem guard_ok {p : Prop} [Decidable p] {e : ValidateError} (h : Validate.guard p e = .ok ()) : p := by
  unfold Validate.guard at h
  split at h
  · assumption
  · cases h

theorem capacity_pos (h : bind container profile = .ok bound)
    {decl : ChannelDecl} (hd : decl ∈ bound.container.channels) : 0 < decl.capacity.toNat := by
  obtain ⟨_, hstructure, h⟩ := bind_eq_ok.mp h
  obtain ⟨_, -, h⟩ := bind_eq_ok.mp h
  obtain ⟨_, -, h⟩ := bind_eq_ok.mp h
  obtain ⟨_, -, h⟩ := bind_eq_ok.mp h
  obtain ⟨_, -, h⟩ := bind_eq_ok.mp h
  obtain ⟨_, -, h⟩ := bind_eq_ok.mp h
  obtain ⟨_, -, h⟩ := bind_eq_ok.mp h
  cases h
  obtain ⟨-, -, hstructure⟩ := bind_eq_ok.mp hstructure
  obtain ⟨-, -, hstructure⟩ := bind_eq_ok.mp hstructure
  obtain ⟨-, -, hstructure⟩ := bind_eq_ok.mp hstructure
  obtain ⟨_, hchannels, -⟩ := bind_eq_ok.mp hstructure
  obtain ⟨i, hi, rfl⟩ := mem_iff_getElem.mp hd
  have hok := guard_ok (forM_ok hchannels (container.channels[i], i)
    (mem_zipIdx_iff_getElem?.mpr (getElem?_eq_getElem hi)))
  exact Nat.pos_of_ne_zero fun hz => hok (BitVec.eq_of_toNat_eq hz)

theorem newChannel_sized (hb : bind container profile = .ok bound) {decl : ChannelDecl × Nat}
    (hd : decl.1 ∈ bound.container.channels) (h : newChannel bound seeds externs decl = .ok st) :
    st.capacity = decl.1.capacity.toNat ∧ st.queue.length ≤ st.capacity := by
  unfold newChannel at h
  split at h
  · cases h
  · rename_i ty _
    split at h
    · split at h
      · cases h
      · rename_i ch _
        split at h
        · cases h
        · rename_i hmatch
          cases h
          rw [not_or, not_not, not_not] at hmatch
          obtain ⟨hcap, hroom, -, -⟩ := ch.ok
          exact ⟨hcap.trans hmatch.2, hcap.symm ▸ hroom⟩
    · obtain ⟨last, -, h⟩ := bind_eq_ok.mp h
      obtain ⟨queue, hqueue, h⟩ := bind_eq_ok.mp h
      cases h
      refine ⟨rfl, ?_⟩
      have hpos := capacity_pos hb hd
      unfold firstQueue at hqueue
      split at hqueue
      · split at hqueue
        · cases hqueue
        · split at hqueue <;> cases hqueue
          exact hpos
      · cases hqueue
        exact Nat.zero_le _

theorem sized_new (hb : bind container profile = .ok bound)
    (h : new bound seeds externs = .ok inst) : Sized bound inst.channels := by
  obtain ⟨channels, hchannels, h⟩ := bind_eq_ok.mp h
  cases h
  have hall := mapM_eq_ok.mp hchannels
  refine ⟨by rw [← hall.length_eq, length_zipIdx], ?_⟩
  intro i st decl hst hdecl
  have hi : i < bound.container.channels.zipIdx.length := by
    rw [length_zipIdx]
    exact (List.getElem?_eq_some_iff.mp hdecl).1
  have hst' := (List.getElem?_eq_some_iff.mp hst)
  have hnew := (forall₂_iff_get.mp hall).2 i hi hst'.1
  have hget : bound.container.channels.zipIdx.get ⟨i, hi⟩ = (decl, i) := by
    rw [get_eq_getElem, getElem_zipIdx, zero_add, (List.getElem?_eq_some_iff.mp hdecl).2]
  rw [hget, get_eq_getElem, hst'.2] at hnew
  exact newChannel_sized hb (mem_of_getElem? hdecl) hnew

theorem commitFrom_sized : ∀ {channels : List ChannelState} {ci : Nat},
    (commitFrom overlay ci channels).1.length = channels.length
      ∧ ∀ (i : Nat) st, channels[i]? = some st → st.queue.length ≤ st.capacity →
        ∃ st', (commitFrom overlay ci channels).1[i]? = some st' ∧ st'.capacity = st.capacity
          ∧ st'.queue.length ≤ st.capacity := by
  intro channels
  induction channels with
  | nil => exact fun {_} => ⟨rfl, nofun⟩
  | cons first rest ih =>
    intro ci
    unfold commitFrom
    split
    · rename_i taken put ht hp
      dsimp only
      split
      · refine ⟨by rw [length_cons, ih.1, length_cons], fun i st hst hroom => ?_⟩
        cases i with
        | zero =>
          cases hst
          exact ⟨_, rfl, commitChannel_capacity _ _ _, commitChannel_length _ _ _ hroom⟩
        | succ i => exact ih.2 i st hst hroom
      · refine ⟨rfl, fun i st hst hroom => ?_⟩
        cases i with
        | zero =>
          cases hst
          exact ⟨_, rfl, commitChannel_capacity _ _ _, commitChannel_length _ _ _ hroom⟩
        | succ i => exact ⟨st, hst, rfl, hroom⟩
    · exact ⟨rfl, fun i st hst hroom => ⟨st, hst, rfl, hroom⟩⟩

theorem Sized.commit (h : Sized bound channels) : Sized bound (commitFrom overlay 0 channels).1 where
  length := by rw [commitFrom_sized.1]; exact h.length
  each := by
    intro i st' decl hst' hdecl
    have hi : i < channels.length := by
      rw [← commitFrom_sized.1]
      exact (List.getElem?_eq_some_iff.mp hst').1
    obtain ⟨hcap, hroom⟩ := h.each i _ decl (getElem?_eq_getElem hi) hdecl
    obtain ⟨st'', hst'', hcap', hroom'⟩ := commitFrom_sized.2 i _ (getElem?_eq_getElem hi) hroom
    cases hst'.symm.trans hst''
    exact ⟨hcap'.trans hcap, hcap'.symm ▸ hroom'⟩

theorem Sized.at (h : Sized bound channels) (hst : channels[n]? = some st)
    {st' : ChannelState} (hcap : st'.capacity = st.capacity) (hroom : st'.queue.length ≤ st.capacity) :
    Sized bound (channels.set n st') :=
  h.set fun decl hdecl => ⟨hcap.trans (h.each n st decl hst hdecl).1, hcap.symm ▸ hroom⟩

theorem sized_hostPut (h : Sized bound inst.channels)
    (hput : inst.hostPut bound chan v = .ok inst') : Sized bound inst'.channels := by
  unfold hostPut at hput
  split at hput
  · cases hput
  split at hput
  · cases hput
  split at hput
  · cases hput
  split at hput
  swap
  · cases hput
  rename_i st _ hst
  split at hput
  · cases hput
  split at hput
  · cases hput
  rename_i hroom
  cases hput
  refine h.at hst rfl ?_
  rw [length_append]
  exact Nat.lt_of_not_le hroom

theorem sized_hostTake (h : Sized bound inst.channels)
    (htake : inst.hostTake bound chan = .ok (v, inst')) : Sized bound inst'.channels := by
  obtain ⟨st, hreader, htake⟩ := bind_eq_ok.mp htake
  have hst : inst.channels[chan.toNat]? = some st := by
    unfold readerChannel at hreader
    split at hreader
    · cases hreader
    split at hreader
    · cases hreader
    split at hreader
    · cases hreader
    split at hreader <;> cases hreader
    assumption
  split at htake
  · cases htake
  · rename_i queue hqueue
    cases htake
    refine h.at hst rfl ?_
    have hlt := (List.getElem?_eq_some_iff.mp hst).1
    have hdecl := getElem?_eq_getElem (show chan.toNat < bound.container.channels.length from h.length ▸ hlt)
    have hroom := (h.each _ _ _ hst hdecl).2
    rw [hqueue, length_cons] at hroom
    exact Nat.le_of_succ_le hroom

theorem sized_step (h : Sized bound inst.channels) {K : Type} (F : F32Ops) (host : KernelHost K) (inputs : PassInputs)
    (k : K) : Sized bound (inst.step F host bound inputs k).inst.channels := by
  unfold step
  split
  · exact h
  split
  · exact h
  split
  · exact h
  rename_i descriptor pass _
  unfold Instance.finish
  split
  · exact h
  · have hcommit : Sized bound (commitFrom pass.overlay 0 inst.channels).1 := h.commit
    split
    all_goals
      rename_i heq
      rw [heq] at hcommit
      exact hcommit

/-- **In every instance of a bound trace the channels have their capacity, and no more in them.** -/
theorem sized_reachable (hb : bind container profile = .ok bound)
    (h : InstanceReachable bound inst) : Sized bound inst.channels := by
  refine h.invariant (fun _ ⟨_, _, hnew⟩ => sized_new hb hnew) fun inst inst' _ hi hs => ?_
  cases hs with
  | hostPut hput => exact sized_hostPut hi hput
  | hostTake htake => exact sized_hostTake hi htake
  | step F host inputs k => exact sized_step hi F host inputs k
  | poison => exact hi
  | peer he hdecl hst =>
    refine hi.set fun decl hdecl' => ?_
    cases hdecl.symm.trans hdecl'
    exact ⟨hst.capacity, hst.capacity.symm ▸ hst.room⟩

end Sized

/-! ## A step -/

section Step

variable {K : Type} {F : F32Ops} {host : KernelHost K} {inst : Instance} {bound : BoundTrace} {inputs : PassInputs}
  {k : K}

/-- Every channel is as the readiness table wants it. -/
def Ready (inst : Instance) (bound : BoundTrace) : Prop := ∀ e ∈ bound.readiness, isReady inst e = .ok true

/-- The step runs its bodies, and they come to their end. -/
def Evaluates (F : F32Ops) (host : KernelHost K) (inst : Instance) (bound : BoundTrace) (inputs : PassInputs) (k : K) :
    Prop :=
  inst.poisoned = false ∧ ∃ r, execPass F host inst bound inputs k = .ok r

/-- The channel with this index is taken from, or put into. -/
def At (p : ChannelIndex → Prop) (i : Nat) : Prop := ∃ c, p c ∧ c.toNat = i

/-- The channel loses its front if it is taken from, and gets one value at its back if it is put into. -/
def Moves (bound : BoundTrace) (i : Nat) (st st' : ChannelState) : Prop :=
  ∃ put : Option Value, (put.isSome = true ↔ At (Puts bound) i)
    ∧ (At (Takes bound) i ∧ st'.queue = st.queue.tail ++ put.toList
      ∨ ¬At (Takes bound) i ∧ st'.queue = st.queue ++ put.toList)

/-- The step says it has committed, and it has. -/
def Committed (bound : BoundTrace) (inst : Instance) (stepped : Stepped) : Prop :=
  (∃ report, stepped.result = .ok report ∧ report.committed = true)
    ∧ stepped.inst.channels.length = inst.channels.length
    ∧ ∀ (i : Nat) st, inst.channels[i]? = some st → ∃ st', stepped.inst.channels[i]? = some st' ∧ Moves bound i st st'
      ∧ (¬At (Takes bound) i → ¬At (Puts bound) i → st' = st)

/-- A step commits whole or not at all. -/
structure Whole (F : F32Ops) (host : KernelHost K) (inst : Instance) (bound : BoundTrace) (inputs : PassInputs)
    (k : K) : Prop where
  commits : Ready inst bound → Evaluates F host inst bound inputs k → Committed bound inst (inst.step F host bound inputs k)
  nothing : (∀ report, (inst.step F host bound inputs k).result = .ok report → report.committed = false) →
    (inst.step F host bound inputs k).inst.channels.map (·.queue) = inst.channels.map (·.queue)

/-- No channel that the pass puts into without taking from it is full. -/
def HasRoom (bound : BoundTrace) (inst : Instance) : Prop :=
  ∀ c st, Puts bound c → ¬Takes bound c → inst.channels[c.toNat]? = some st → st.queue.length < st.capacity

theorem missedEntry_none {l : List ReadinessEntry} :
    missedEntry inst l = .ok none ↔ ∀ e ∈ l, isReady inst e = .ok true := by
  induction l with
  | nil => exact ⟨fun _ => nofun, fun _ => rfl⟩
  | cons e l ih =>
    rw [forall_mem_cons, ← ih]
    have hcons : missedEntry inst (e :: l)
        = (isReady inst e).bind fun ok => if ok then missedEntry inst l else .ok (some e) := rfl
    rw [hcons]
    cases he : isReady inst e with
    | error why => exact ⟨nofun, fun h => (nomatch h.1)⟩
    | ok ready =>
      cases ready with
      | false => exact ⟨nofun, fun h => (nomatch h.1)⟩
      | true =>
        show missedEntry inst l = _ ↔ _
        exact ⟨fun h => ⟨rfl, h⟩, fun h => h.2⟩

theorem replicate_ne_true (n i : Nat) : (replicate n false)[i]? ≠ some true := by
  rw [getElem?_replicate]
  split <;> nofun

variable {r : List (Port × Value) × Pass K}

theorem covers_pass (h : execPass F host inst bound inputs k = .ok r) : Covers r.2.overlay inst.channels.length
      ∧ (∀ i, takenAt r.2.overlay i = true ↔ At (Takes bound) i)
      ∧ ∀ i, (putAt r.2.overlay i).isSome = true ↔ At (Puts bound) i := by
  have hpair : execPass F host inst bound inputs k = .ok (r.1, r.2) := h
  have hm := execPass_marks hpair
  have hbacked : Backed r.2.overlay := hm.backed fun c hc => absurd hc (replicate_ne_true _ _)
  have htaken : ∀ i : Nat, r.2.overlay.taken[i]? = some true ↔ At (Takes bound) i := fun i =>
    (hm.taken i).trans (or_iff_right (replicate_ne_true _ _))
  have hput : ∀ i : Nat, r.2.overlay.put[i]? = some true ↔ At (Puts bound) i := fun i =>
    (hm.put i).trans (or_iff_right (replicate_ne_true _ _))
  have hpending : ∀ i : Nat, r.2.overlay.put[i]? = some true → (r.2.overlay.pending (BitVec.ofNat 32 i)).isSome = true := by
    intro i hi
    obtain ⟨c, -, rfl⟩ := (hput i).mp hi
    rw [BitVec.ofNat_toNat, BitVec.setWidth_eq]
    exact hbacked c hi
  refine ⟨⟨?_, ?_, hpending⟩, fun i => ?_, fun i => ?_⟩
  · rw [hm.takenLength]
    exact length_replicate
  · rw [hm.putLength]
    exact length_replicate
  · rw [← htaken, takenAt]
    cases r.2.overlay.taken[i]? with
    | none => exact ⟨nofun, nofun⟩
    | some b => exact ⟨congrArg some, Option.some.inj⟩
  · rw [← hput]
    unfold putAt
    by_cases hp : r.2.overlay.put[i]? = some true
    · rw [if_pos hp]
      exact iff_of_true (hpending i hp) hp
    · rw [if_neg hp]
      exact iff_of_false nofun hp

/-- A step whose channels are ready and whose bodies come to their end goes on to commit. -/
theorem step_commits (hready : Ready inst bound) (heval : Evaluates F host inst bound inputs k) :
    ∃ r : List (Port × Value) × Pass K, execPass F host inst bound inputs k = .ok r
      ∧ inst.step F host bound inputs k = inst.finish none r.1 r.2 := by
  obtain ⟨hpoisoned, r, hr⟩ := heval
  refine ⟨r, hr, ?_⟩
  unfold step
  rw [if_neg (by rw [hpoisoned]; exact Bool.false_ne_true), missedEntry_none.mpr hready]
  dsimp only
  rw [hr]

theorem room_iff (hs : Sized bound inst.channels) (hpos : ∀ decl ∈ bound.container.channels, 0 < decl.capacity.toNat) (h : execPass F host inst bound inputs k = .ok r) :
    (∀ (i : Nat) st, inst.channels[i]? = some st → (committed r.2.overlay i st).2 = true) ↔ HasRoom bound inst := by
  obtain ⟨-, htaken, hput⟩ := covers_pass h
  constructor
  · intro hroom c st hputs htakes hst
    have hroom := committed_room.mp (hroom _ _ hst) ((hput _).mpr ⟨c, hputs, rfl⟩)
    rwa [popped_queue, if_neg] at hroom
    rw [htaken]
    rintro ⟨c', hc', heq⟩
    obtain rfl := BitVec.eq_of_toNat_eq heq
    exact htakes hc'
  · intro hroom i st hst
    refine committed_room.mpr fun hp => ?_
    obtain ⟨c, hputs, rfl⟩ := (hput _).mp hp
    rw [popped_queue]
    have hlt := (List.getElem?_eq_some_iff.mp hst).1
    have hdecl := getElem?_eq_getElem (show c.toNat < bound.container.channels.length from hs.length ▸ hlt)
    obtain ⟨hcap, hlen⟩ := hs.each _ _ _ hst hdecl
    have hcappos := hpos _ (mem_of_getElem? hdecl)
    rw [← hcap] at hcappos
    split
    · rw [length_tail]
      omega
    · rename_i htakes
      refine hroom c st hputs (fun ht => htakes ?_) hst
      exact (htaken _).mpr ⟨c, ht, rfl⟩

theorem committed_of_room (h : execPass F host inst bound inputs k = .ok r)
    (hroom : ∀ (i : Nat) st, inst.channels[i]? = some st → (committed r.2.overlay i st).2 = true) :
    Committed bound inst (inst.finish none r.1 r.2) := by
  obtain ⟨hcovers, htaken, hput⟩ := covers_pass h
  have hfrom : Covers r.2.overlay (0 + inst.channels.length) := by rwa [zero_add]
  obtain ⟨channels', hcommit, hlen, hall⟩ := commitFrom_ok hfrom fun i st hst => by
    rw [zero_add]
    exact hroom i st hst
  unfold Instance.finish
  rw [hcommit]
  refine ⟨⟨_, rfl, rfl⟩, hlen, fun i st hst => ?_⟩
  have hst' := hall i st hst
  rw [zero_add] at hst'
  refine ⟨_, hst', ⟨putAt r.2.overlay i, hput i, ?_⟩, fun hnt hnp => ?_⟩
  · have hqueue := committed_queue (hroom i st hst)
    by_cases ht : takenAt r.2.overlay i = true
    · rw [if_pos ht] at hqueue
      exact .inl ⟨(htaken i).mp ht, hqueue⟩
    · rw [if_neg ht] at hqueue
      exact .inr ⟨fun h => ht ((htaken i).mpr h), hqueue⟩
  · refine committed_same st ?_ ?_
    · exact Bool.not_eq_true _ ▸ fun h => hnt ((htaken i).mp h)
    · exact Option.not_isSome_iff_eq_none.mp fun h => hnp ((hput i).mp h)

end Step

theorem counter_reachable : InstanceReachable counterBound counterInstance := .init ⟨[(0, .u32 [5])], [], rfl⟩

/-- Channel `1` is read, so it has to be full, and then put into. -/
def leak : TraceContainer where
  names := []
  channels := [⟨word, .concrete .u32, 1, .none, true⟩, ⟨word, .concrete .u32, 1, .none, true⟩]
  ports := []
  stages := [⟨.epilogue, [.chanTake 0, .chanRead 1, .chanPut 1 0]⟩]
  externs := []

def leakBound : BoundTrace where
  container := leak
  profile := plainProfile
  hash := 7868893462673504660#64
  channelTypes := [⟨word, .u32⟩, ⟨word, .u32⟩]
  stageTypes := [[⟨word, .u32⟩, ⟨word, .u32⟩]]
  readiness := [⟨0, .epilogue, .needsFull⟩, ⟨1, .epilogue, .needsFull⟩]

def leakInstance : Instance := ⟨[⟨[.u32 [5]], 1, .u32 [0]⟩, ⟨[.u32 [6]], 1, .u32 [0]⟩], false⟩

end Pie.Proof.Commits
