import Pie.Proof.Body

/-!
# Folding a stage

The fold, the pass that finds the demand and the run of the stage go over the
operations side by side. What the first two have in common is which values are
blocked; what the fold shares with the run is every value that is demanded and
not blocked. An empty placeholder is neither, so that no put and no port sees
one.
-/

namespace Pie.Proof

open List Option Pie.Eta Lib Fallible Fold Function

variable {v w : Value} {c : ChannelIndex} {i : Nat} {p : PortBinding} {α : Type} {xs ys : List α} {a : α}
  {blockedAt bs : List (Option EvalBlocker)} {overlay overlay' : Overlay} {ds : List Value}

section

variable {known : ChannelIndex → Option Value} {F : F32Ops} {names : List Str} {types : List ValueType}
  {demand blocked : List Bool} {op : Op}

theorem blockOp_pure (h : op.valueSource = .operands) (st : Blocking) : blockOp known st op = (do
      let any ← any st.blocked (op.operands.map BitVec.toNat)
      .ok { st with blocked := st.blocked ++ replicate op.resultCount any }) := by
  cases op <;> simp only [Op.valueSource, reduceCtorEq] at h <;> rfl

theorem wanted_pure (h : op.valueSource = .operands) (first : Nat) :
    wanted blocked demand op first = anyDemanded demand first op.resultCount := by
  cases op <;> simp only [Op.valueSource, reduceCtorEq] at h <;> rfl

theorem foldOp_pure (h : op.valueSource = .operands) (st : Folding) : foldOp known F names types demand st op = (do
      let blocked ← firstBlocked st.blockedAt op.operands
      foldPure F types demand st blocked op) := by
  cases op <;> simp only [Op.valueSource, reduceCtorEq] at h <;> rfl

end

/-! ## The demand -/

section

variable {blocked demand demand' : List Bool} {op : Op}

theorem Fold.index_eq_ok : index xs i = .ok a ↔ xs[i]? = some a := by
  unfold index
  cases h : xs[i]? with
  | none => exact ⟨nofun, nofun⟩
  | some b => exact ⟨fun h => by rw [Except.ok.inj h], fun h => by rw [some.inj h]⟩

theorem Fold.index_congr (h : xs[i]? = ys[i]?) : index xs i = index ys i := by
  unfold index
  rw [h]

theorem Fold.any_congr {xs ys : List Bool} : ∀ {is : List Nat}, (∀ i ∈ is, xs[i]? = ys[i]?) →
    any xs is = any ys is := by
  intro is
  induction is with
  | nil => intro _; rfl
  | cons i is ih =>
    intro h
    unfold Fold.any
    rw [index_congr (h i mem_cons_self), ih (fun j hj => h j (mem_cons_of_mem _ hj))]

/-- Where the operations start: no earlier than the one before, and after their operands. -/
def Placed : Nat → List (Op × Nat) → Prop
  | _, [] => True
  | n, x :: l => n ≤ x.2 ∧ (∀ arg ∈ x.1.operands, arg.toNat < x.2) ∧ Placed x.2 l

theorem Placed.le {x : Op × Nat} : ∀ {n : Nat} {l : List (Op × Nat)}, Placed n l → x ∈ l → n ≤ x.2 := by
  intro n l
  induction l generalizing n with
  | nil => intro _ hx; exact absurd hx not_mem_nil
  | cons y l ih =>
    rintro ⟨hle, _, hl⟩ hx
    rcases mem_cons.mp hx with rfl | hx
    · exact hle
    · exact hle.trans (ih hl hx)

theorem wanted_congr {first : Nat} (h : ∀ i : Nat, first ≤ i → demand[i]? = demand'[i]?) :
    wanted blocked demand op first = wanted blocked demand' op first := by
  have hany : ∀ count, anyDemanded demand first count = anyDemanded demand' first count := fun count =>
    Fold.any_congr (fun i hi => h i (mem_range'_1.mp hi).1)
  cases kind op with
  | take | read => exact Fold.index_congr (h first le_rfl)
  | put | sink => rfl
  | kernel | intrinsic | rng => exact hany _
  | pure hsource => rw [wanted_pure hsource, wanted_pure hsource, hany]

/-- What demanding some values changes. -/
structure Demands (args : List ValueId) (demand demand' : List Bool) : Prop where
  set : ∀ arg ∈ args, demand'[arg.toNat]? = some true
  kept : ∀ i : Nat, demand[i]? = some true → demand'[i]? = some true
  others : ∀ i : Nat, (∀ arg ∈ args, arg.toNat ≠ i) → demand'[i]? = demand[i]?

theorem demandArg_demands {arg : ValueId} (h : demandArg demand arg = .ok demand') :
    Demands [arg] demand demand' := by
  unfold demandArg at h
  split at h
  · rename_i hlt
    cases h
    refine ⟨?_, ?_, ?_⟩
    · intro a ha
      rw [mem_singleton.mp ha]
      exact getElem?_set_self hlt
    · intro i hi
      rcases eq_or_ne arg.toNat i with heq | hne
      · rw [← heq]
        exact getElem?_set_self hlt
      · rw [getElem?_set_ne hne]
        exact hi
    · intro i hi
      exact getElem?_set_ne (hi arg (mem_singleton_self arg))
  · cases h

theorem demandArgs_demands : ∀ {args : List ValueId} {demand : List Bool},
    args.foldlM demandArg demand = .ok demand' → Demands args demand demand' := by
  intro args
  induction args with
  | nil =>
    intro demand h
    cases h
    exact ⟨fun _ ha => absurd ha not_mem_nil, fun _ hi => hi, fun _ _ => rfl⟩
  | cons arg args ih =>
    intro demand h
    obtain ⟨d, h1, h2⟩ := foldlM_cons_eq_ok.mp h
    have first := demandArg_demands h1
    have rest := ih h2
    refine ⟨?_, fun i hi => rest.kept i (first.kept i hi), ?_⟩
    · intro a ha
      rcases mem_cons.mp ha with rfl | ha
      · exact rest.kept _ (first.set a (mem_singleton_self a))
      · exact rest.set a ha
    · intro i hi
      rw [rest.others i (fun a ha => hi a (mem_cons_of_mem _ ha)),
        first.others i (fun a ha => hi a (by rw [mem_singleton.mp ha]; exact mem_cons_self))]

/-- An operation that is wanted has its operands demanded. -/
def Closed (blocked demand : List Bool) (x : Op × Nat) : Prop :=
  wanted blocked demand x.1 x.2 = .ok true → ∀ arg ∈ x.1.operands, demand[arg.toNat]? = some true

/-- **The demand is closed.** An operation sees the last of what is demanded of it, since it comes after its operands. -/
theorem demandOps_closed : ∀ {l : List (Op × Nat)} {n : Nat} {demand : List Bool}, Placed n l →
    demandOps blocked l = .ok demand → ∀ x ∈ l, Closed blocked demand x := by
  intro l
  induction l with
  | nil => intro n demand _ _ x hx; exact absurd hx not_mem_nil
  | cons y l ih =>
    rintro n demand ⟨_, hargs, hl⟩ h x hx
    obtain ⟨d, htail, h⟩ := bind_eq_ok.mp h
    obtain ⟨w, hw, h⟩ := bind_eq_ok.mp h
    cases w with
    | false =>
      cases h
      rcases mem_cons.mp hx with rfl | hx
      · intro hwant
        rw [hw] at hwant
        cases hwant
      · exact ih hl htail x hx
    | true =>
      have step := demandArgs_demands h
      -- the operands are before every operation that was looked at
      have hlater : ∀ i : Nat, y.2 ≤ i → demand[i]? = d[i]? := fun i hi =>
        step.others i (fun arg harg => ne_of_lt (lt_of_lt_of_le (hargs arg harg) hi))
      rcases mem_cons.mp hx with rfl | hx
      · intro _ arg harg
        exact step.set arg harg
      · intro hwant arg harg
        have hle := hl.le hx
        rw [wanted_congr (fun i hi => hlater i (hle.trans hi))] at hwant
        exact step.kept _ (ih hl htail x hx hwant arg harg)

end

/-! ## The fold and the run -/

/-- The last value put in a channel. -/
def lastPut (puts : List (ChannelIndex × Value)) (chan : ChannelIndex) : Option Value :=
  (puts.reverse.find? (fun p => p.1 = chan)).map Prod.snd

theorem lastPut_append (puts : List (ChannelIndex × Value)) (c chan : ChannelIndex) (v : Value) :
    lastPut (puts ++ [(c, v)]) chan = if c = chan then some v else lastPut puts chan := by
  unfold lastPut
  rw [reverse_append, reverse_singleton, singleton_append, find?_cons]
  by_cases hc : c = chan
  · rw [if_pos hc, decide_eq_true hc]
    rfl
  · rw [if_neg hc, decide_eq_false hc]

/-- What the fold says of a channel, against the last put of the run and the value pending. -/
def PutAgrees (slot : Option Slot) (last pending start : Option Value) : Prop :=
  match slot with
  | none => last = none ∧ pending = start
  | some (.ok v) => last = some v ∧ pending = some v
  | some (.error _) => True

/-- The pass that finds the demand blocks what the fold blocks. -/
structure SameBlocks (b : Blocking) (st : Folding) : Prop where
  blocked : b.blocked = st.blockedAt.map Option.isSome
  pending : ∀ c, b.pending c = (st.puts c).map (fun slot => !slot.isOk)

/-- The fold has the run's value wherever it is demanded and not blocked. -/
structure Agrees (start : Overlay) (demand : List Bool) (st : Folding) (vals : List Value)
    (puts : List (ChannelIndex × Value)) (pending : ChannelIndex → Option Value) : Prop where
  blockedAt : st.blockedAt.length = vals.length
  dense : st.dense.length = vals.length
  values : ∀ i : Nat, st.blockedAt[i]? = some none → demand[i]? = some true → st.dense[i]? = vals[i]?
  puts : ∀ c, PutAgrees (st.puts c) (lastPut puts c) (pending c) (start.pending c)

section

variable {known : ChannelIndex → Option Value} {F : F32Ops} {names : List Str} {types : List ValueType}
  {demand : List Bool} {start : Overlay} {st st' : Folding} {vals : List Value}
  {puts : List (ChannelIndex × Value)} {pending : ChannelIndex → Option Value} {op : Op}

/-- New values at the end: those that are demanded and not blocked are the run's. -/
theorem Agrees.append (h : Agrees start demand st vals puts pending)
    {ds vs : List Value} (hbs : bs.length = vs.length) (hds : ds.length = vs.length)
    (hvals : ∀ k : Nat, bs[k]? = some none → demand[vals.length + k]? = some true → ds[k]? = vs[k]?) :
    Agrees start demand { st with blockedAt := st.blockedAt ++ bs, dense := st.dense ++ ds } (vals ++ vs) puts
      pending := by
  refine ⟨?_, ?_, ?_, h.puts⟩
  · rw [length_append, length_append, h.blockedAt, hbs]
  · rw [length_append, length_append, h.dense, hds]
  · intro i hb hd
    dsimp only at hb ⊢
    by_cases hi : i < vals.length
    · rw [getElem?_append_left (by rw [h.blockedAt]; exact hi)] at hb
      rw [getElem?_append_left (by rw [h.dense]; exact hi), getElem?_append_left hi]
      exact h.values i hb hd
    · rw [getElem?_append_right (by rw [h.blockedAt]; omega), h.blockedAt] at hb
      rw [getElem?_append_right (by rw [h.dense]; omega), getElem?_append_right (by omega), h.dense]
      refine hvals _ hb ?_
      rwa [Nat.add_sub_cancel' (by omega)]

/-! ### What the fold pushes -/

theorem push_error {b : EvalBlocker} (h : st.push types (.error b) = .ok st') :
    ∃ v, st' = { st with dense := st.dense ++ [v], blockedAt := st.blockedAt ++ [some b] } := by
  obtain ⟨ty, _, h⟩ := bind_eq_ok.mp h
  obtain ⟨v, _, h⟩ := bind_eq_ok.mp h
  exact ⟨v, (Except.ok.inj h).symm⟩

theorem pushBlocked_ok {b : EvalBlocker} : ∀ {n : Nat} {st : Folding}, Folding.pushBlocked types b n st = .ok st' →
    ∃ ds : List Value, ds.length = n
      ∧ st' = { st with dense := st.dense ++ ds, blockedAt := st.blockedAt ++ replicate n (some b) } := by
  intro n
  induction n with
  | zero =>
    intro st h
    cases h
    exact ⟨[], rfl, by simp only [append_nil, replicate_zero]⟩
  | succ n ih =>
    intro st h
    obtain ⟨st₁, h1, h⟩ := bind_eq_ok.mp h
    obtain ⟨v, rfl⟩ := push_error h1
    obtain ⟨ds, hlen, rfl⟩ := ih h
    refine ⟨v :: ds, by rw [length_cons, hlen], ?_⟩
    simp only [append_assoc, singleton_append, replicate_succ]

theorem pushEmpty_ok : ∀ {n : Nat} {st : Folding}, Folding.pushEmpty types n st = .ok st' →
    ∃ ds : List Value, ds.length = n
      ∧ st' = { st with dense := st.dense ++ ds, blockedAt := st.blockedAt ++ replicate n none } := by
  intro n
  induction n with
  | zero =>
    intro st h
    cases h
    exact ⟨[], rfl, by simp only [append_nil, replicate_zero]⟩
  | succ n ih =>
    intro st h
    obtain ⟨ty, _, h⟩ := bind_eq_ok.mp h
    obtain ⟨v, _, h⟩ := bind_eq_ok.mp h
    obtain ⟨ds, hlen, rfl⟩ := ih h
    refine ⟨v :: ds, by rw [length_cons, hlen], ?_⟩
    simp only [append_assoc, singleton_append, replicate_succ]

theorem pushEvaled_ok {evaled : Evaled} (h : st.pushEvaled types evaled = .ok st') :
    st' = { st with dense := st.dense ++ values evaled,
                    blockedAt := st.blockedAt ++ replicate (values evaled).length none } := by
  cases evaled with
  | one v => exact (Except.ok.inj h).symm
  | two a b =>
    rw [← Except.ok.inj h]
    simp only [values, append_assoc, singleton_append, length_cons, length_nil, replicate_succ, replicate_zero]
  | chan | sink | kernel => cases h

theorem firstBlocked_any : ∀ {args : List ValueId} {r : Option EvalBlocker}, firstBlocked blockedAt args = .ok r →
      any (blockedAt.map Option.isSome) (args.map BitVec.toNat) = .ok r.isSome := by
  intro args
  induction args with
  | nil => intro r h; cases h; rfl
  | cons arg args ih =>
    intro r h
    obtain ⟨b, hb, h⟩ := bind_eq_ok.mp h
    have hb' : index (blockedAt.map Option.isSome) arg.toNat = .ok b.isSome := by
      rw [Fold.index_eq_ok, getElem?_map, Fold.index_eq_ok.mp hb]
      rfl
    rw [map_cons, Fold.any, hb']
    cases b with
    | some b => cases h; rfl
    | none => exact ih h

theorem firstBlocked_none : ∀ {args : List ValueId},
    firstBlocked blockedAt args = .ok none → ∀ arg ∈ args, blockedAt[arg.toNat]? = some none := by
  intro args
  induction args with
  | nil => intro _ arg harg; exact absurd harg not_mem_nil
  | cons a args ih =>
    intro h arg harg
    obtain ⟨b, hb, h⟩ := bind_eq_ok.mp h
    cases b with
    | some b => cases h
    | none =>
      rcases mem_cons.mp harg with rfl | harg
      · exact Fold.index_eq_ok.mp hb
      · exact ih h arg harg

theorem any_false {xs : List Bool} : ∀ {is : List Nat}, any xs is = .ok false → ∀ i ∈ is, xs[i]? = some false := by
  intro is
  induction is with
  | nil => intro _ i hi; exact absurd hi not_mem_nil
  | cons j is ih =>
    intro h i hi
    obtain ⟨b, hb, h⟩ := bind_eq_ok.mp h
    cases b with
    | true => cases h
    | false =>
      rcases mem_cons.mp hi with rfl | hi
      · exact Fold.index_eq_ok.mp hb
      · exact ih h i hi

end

/-! ## Step by step -/

section

variable {K : Type} {known : ChannelIndex → Option Value} {F : F32Ops} {inst : Instance} {ctx : BodyAt}
  {inputs : PassInputs} {demand blocked : List Bool} {start : Overlay} {b b' : Blocking} {st st' : Folding}
  {vals vals' : List Value} {pass pass' : Pass K} {puts₀ puts : List (ChannelIndex × Value)} {op : Op}

/-- What the host knows of the channels at the start of a stage is what they have. -/
def Knows (known : ChannelIndex → Option Value) (inst : Instance) (start : Overlay) : Prop :=
  ∀ c v, known c = some v → start.resolve inst c = .ok v

theorem resolve_pending (h : overlay.pending c = overlay'.pending c) :
    overlay.resolve inst c = overlay'.resolve inst c := by
  unfold Overlay.resolve
  rw [h]

/-- A read of the fold that is not blocked gives what the run reads. -/
theorem readSlot_agrees (hknown : Knows known inst start) (agree : Agrees start demand st vals puts pass.overlay.pending) (hslot : st.readSlot known c = .ok w)
    (hv : pass.overlay.resolve inst c = .ok v) : w = v := by
  have hputs := agree.puts c
  unfold Folding.readSlot at hslot
  unfold PutAgrees at hputs
  split at hslot
  · rename_i pending hp
    rw [hp, hslot] at hputs
    unfold Overlay.resolve at hv
    rw [hputs.2] at hv
    exact Except.ok.inj hv
  · rename_i hp
    rw [hp] at hputs
    split at hslot
    · rename_i u hu
      have hstart := hknown c u hu
      rw [← resolve_pending hputs.2, hv] at hstart
      rw [← Except.ok.inj hslot, Except.ok.inj hstart]
    · cases hslot

/-- The demand pass takes a read for blocked when the fold does. -/
theorem readSlot_blocked (same : SameBlocks b st) (c : ChannelIndex) :
    (b.pending c).getD (known c).isNone = !(st.readSlot known c).isOk := by
  unfold Folding.readSlot
  rw [same.pending c]
  cases st.puts c with
  | some slot => rfl
  | none => cases known c <;> rfl

theorem SameBlocks.push (same : SameBlocks b st) {flags : List Bool} (hflags : flags = bs.map Option.isSome) :
    SameBlocks { b with blocked := b.blocked ++ flags }
      { st with dense := st.dense ++ ds, blockedAt := st.blockedAt ++ bs } :=
  ⟨by rw [map_append, same.blocked, hflags], same.pending⟩

/-- A channel that is read: its slot is pushed. -/
theorem read_step (hknown : Knows known inst start) (same : SameBlocks b st)
    (agree : Agrees start demand st vals puts pass.overlay.pending)
    (hv : pass.overlay.resolve inst c = .ok v) (hst : st.push ctx.types (st.readSlot known c) = .ok st') :
    SameBlocks { b with blocked := b.blocked ++ [(b.pending c).getD (known c).isNone] } st'
      ∧ Agrees start demand st' (vals ++ [v]) puts pass.overlay.pending := by
  rw [readSlot_blocked same c]
  cases hslot : st.readSlot known c with
  | ok w =>
    rw [hslot] at hst
    cases hst
    refine ⟨same.push rfl, agree.append rfl rfl (fun k _ _ => ?_)⟩
    rw [readSlot_agrees hknown agree hslot hv]
  | error e =>
    rw [hslot] at hst
    obtain ⟨d, rfl⟩ := push_error hst
    refine ⟨same.push rfl, agree.append rfl rfl (fun k hk _ => ?_)⟩
    rcases k with _ | k
    · cases hk
    · cases hk

/-- A value of the device: the fold is blocked there. -/
theorem device_step (same : SameBlocks b st) (agree : Agrees start demand st vals puts pass.overlay.pending) (v : Value)
    {e : EvalBlocker} (hst : st.push ctx.types (.error e) = .ok st') :
    SameBlocks { b with blocked := b.blocked ++ [true] } st'
      ∧ Agrees start demand st' (vals ++ [v]) puts pass.overlay.pending := by
  obtain ⟨d, rfl⟩ := push_error hst
  refine ⟨same.push rfl, agree.append rfl rfl (fun k hk _ => ?_)⟩
  rcases k with _ | k
  · cases hk
  · cases hk

/-- An operation on its operands: blocked, passed over, or evaluated as the run evaluates it. -/
theorem pure_step (same : SameBlocks b st) (agree : Agrees start demand st vals puts pass.overlay.pending)
    {evaled : Evaled} (hsource : op.valueSource = .operands)
    (heval : evalOp F vals ctx.types inputs ctx.layer op = .ok evaled)
    (hclosed : Closed blocked demand (op, vals.length))
    (hb : blockOp known b op = .ok b')
    (hst : foldOp known F ctx.names ctx.types demand st op = .ok st') :
    SameBlocks b' st' ∧ Agrees start demand st' (vals ++ values evaled) puts pass.overlay.pending := by
  rw [blockOp_pure hsource] at hb
  rw [foldOp_pure hsource] at hst
  obtain ⟨any, hany, hb⟩ := bind_eq_ok.mp hb
  obtain ⟨r, hr, hst⟩ := bind_eq_ok.mp hst
  cases hb
  rw [same.blocked, firstBlocked_any hr] at hany
  cases hany
  have hcount := (evalOp_values hsource heval).1
  cases r with
  | some e =>
    obtain ⟨ds, hlen, rfl⟩ := pushBlocked_ok hst
    refine ⟨same.push ?_, agree.append (by rw [length_replicate, hcount]) (by rw [hlen, hcount]) ?_⟩
    · rw [map_replicate]
    · intro k hk _
      rw [getElem?_replicate] at hk
      split at hk <;> cases hk
  | none =>
    obtain ⟨w, hw, hst⟩ := bind_eq_ok.mp hst
    rw [agree.blockedAt] at hw
    cases w with
    | false =>
      obtain ⟨ds, hlen, rfl⟩ := pushEmpty_ok hst
      refine ⟨same.push ?_, agree.append (by rw [length_replicate, hcount]) (by rw [hlen, hcount]) ?_⟩
      · rw [map_replicate]
      · -- nothing demands what was passed over
        intro k hk hd
        rw [getElem?_replicate] at hk
        split at hk
        · rename_i hlt
          rw [any_false hw (vals.length + k) (List.mem_range'_1.mpr ⟨by omega, by omega⟩)] at hd
          cases hd
        · cases hk
    | true =>
      obtain ⟨evaled', heval', hst⟩ := bind_eq_ok.mp hst
      have hargs : ∀ id ∈ op.operands, st.dense[id.toNat]? = vals[id.toNat]? := by
        intro id hid
        refine agree.values id.toNat (firstBlocked_none hr id hid) (hclosed ?_ id hid)
        rw [wanted_pure hsource]
        exact hw
      have hsame : evalOp F st.dense ctx.types {} 0 op = evalOp F vals ctx.types inputs ctx.layer op :=
        evalOp_congr (by rw [hsource]; exact fun h => nomatch h) hargs
      rw [hsame, heval] at heval'
      cases heval'
      rw [pushEvaled_ok hst, ← hcount]
      refine ⟨same.push ?_, agree.append (by rw [length_replicate]) rfl (fun k _ _ => rfl)⟩
      rw [map_replicate]

theorem prefix_getElem? (h : xs <+: ys) (ha : xs[i]? = some a) : ys[i]? = some a := by
  obtain ⟨hi, rfl⟩ := List.getElem?_eq_some_iff.mp ha
  exact prefix_iff_getElem?.mp h i hi

/-- A put: its value is demanded when it is not blocked, so that it is the run's. -/
theorem put_step (same : SameBlocks b st) (agree : Agrees start demand st vals puts pass.overlay.pending) {id : ValueId} {blockedAt : Bool} {slot : Slot}
    (hblocked : b.blocked <+: blocked) (hclosed : Closed blocked demand (.chanPut c id, vals.length))
    (hv : vals[id.toNat]? = some v) (hb : b.blocked[id.toNat]? = some blockedAt) (hslot : st.slotAt id = .ok slot) :
    SameBlocks { b with pending := update b.pending c (some blockedAt) }
        { st with puts := update st.puts c (some slot) }
      ∧ Agrees start demand { st with puts := update st.puts c (some slot) } vals (puts ++ [(c, v)])
          (update pass.overlay.pending c (some v)) := by
  obtain ⟨e, he, hslot⟩ := bind_eq_ok.mp hslot
  have he := Fold.index_eq_ok.mp he
  have hbe : blockedAt = e.isSome := by
    rw [same.blocked, getElem?_map, he] at hb
    exact (some.inj hb).symm
  have hok : slot.isOk = !blockedAt ∧ ∀ w, slot = .ok w → w = v := by
    cases e with
    | some e =>
      cases hslot
      exact ⟨by rw [hbe]; rfl, fun w hw => nomatch hw⟩
    | none =>
      obtain ⟨d, hd, hslot⟩ := bind_eq_ok.mp hslot
      cases hslot
      refine ⟨by rw [hbe]; rfl, fun w hw => ?_⟩
      -- what is put unblocked is what the demand starts from
      have hwant : wanted blocked demand (.chanPut c id) vals.length = .ok true := by
        have hidx : Fold.index blocked id.toNat = .ok false := by
          rw [hbe] at hb
          exact Fold.index_eq_ok.mpr (prefix_getElem? hblocked hb)
        show (do let b ← Fold.index blocked id.toNat; .ok (!b) : Fold Bool) = _
        rw [hidx]
        rfl
      have hdemand := hclosed hwant id (mem_singleton_self id)
      have hsame := agree.values id.toNat he hdemand
      rw [Fold.index_eq_ok.mp hd, hv] at hsame
      rw [← Except.ok.inj hw, some.inj hsame]
  refine ⟨⟨same.blocked, fun c' => ?_⟩, agree.blockedAt, agree.dense, agree.values, fun c' => ?_⟩
  · dsimp only
    rcases eq_or_ne c' c with rfl | hne
    · rw [update_self, update_self, map_some, hok.1, Bool.not_not]
    · rw [update_of_ne hne, update_of_ne hne, same.pending c']
  · dsimp only
    rw [lastPut_append]
    rcases eq_or_ne c' c with rfl | hne
    · rw [update_self, update_self, if_pos rfl]
      cases slot with
      | ok w => rw [hok.2 w rfl]; exact ⟨rfl, rfl⟩
      | error e => trivial
    · rw [update_of_ne hne, update_of_ne hne, if_neg (Ne.symm hne)]
      exact agree.puts c'

theorem blockOp_grows (h : blockOp known b op = .ok b') : b.blocked <+: b'.blocked := by
  cases kind op with
  | take | read | kernel | intrinsic | rng =>
    obtain ⟨any, _, h⟩ := bind_eq_ok.mp h
    cases h
    exact prefix_append _ _
  | put =>
    obtain ⟨any, _, h⟩ := bind_eq_ok.mp h
    obtain ⟨f, _, h⟩ := bind_eq_ok.mp h
    cases h
    exact prefix_refl _
  | sink =>
    obtain ⟨any, _, h⟩ := bind_eq_ok.mp h
    cases h
    exact prefix_refl _
  | pure hsource =>
    rw [blockOp_pure hsource] at h
    obtain ⟨any, _, h⟩ := bind_eq_ok.mp h
    cases h
    exact prefix_append _ _

/-- **One operation.** The three go on in step. -/
theorem fold_step (hknown : Knows known inst start) (same : SameBlocks b st)
    (agree : Agrees start demand st vals puts pass.overlay.pending)
    (hdoes : Does F inst ctx inputs op vals pass vals' pass') (hblocked : b'.blocked <+: blocked)
    (hclosed : Closed blocked demand (op, vals.length)) (hb : blockOp known b op = .ok b')
    (hst : foldOp known F ctx.names ctx.types demand st op = .ok st') :
    SameBlocks b' st' ∧ ∃ new, pass'.puts = pass.puts ++ new
      ∧ Agrees start demand st' vals' (puts ++ new) pass'.overlay.pending := by
  cases hdoes with
  | @takes c v vals pass pass' value inRange overlay puts' =>
    obtain ⟨any, _, hb⟩ := bind_eq_ok.mp hb
    obtain ⟨r, _, hst⟩ := bind_eq_ok.mp hst
    cases hb
    obtain ⟨hsame, hagree⟩ := read_step hknown same agree value hst
    refine ⟨hsame, [], by rw [puts', append_nil], ?_⟩
    rw [append_nil, overlay]
    exact hagree
  | @reads c v vals pass pass' value overlay puts' =>
    obtain ⟨any, _, hb⟩ := bind_eq_ok.mp hb
    obtain ⟨r, _, hst⟩ := bind_eq_ok.mp hst
    cases hb
    obtain ⟨hsame, hagree⟩ := read_step hknown same agree value hst
    refine ⟨hsame, [], by rw [puts', append_nil], ?_⟩
    rw [append_nil, overlay]
    exact hagree
  | @puts c id v vals pass pass' value inRange overlay puts' =>
    obtain ⟨any, _, hb⟩ := bind_eq_ok.mp hb
    obtain ⟨f, hf, hb⟩ := bind_eq_ok.mp hb
    obtain ⟨r, _, hst⟩ := bind_eq_ok.mp hst
    obtain ⟨slot, hslot, hst⟩ := bind_eq_ok.mp hst
    cases hb
    cases hst
    obtain ⟨hsame, hagree⟩ := put_step same agree hblocked hclosed value
      (Fold.index_eq_ok.mp hf) hslot
    refine ⟨hsame, [(c, v)], puts', ?_⟩
    rw [overlay]
    exact hagree
  | @device op v vals pass pass' source count operands overlay puts' =>
    have hpush : ∃ e, b' = { b with blocked := b.blocked ++ [true] } ∧ st.push ctx.types (.error e) = .ok st' := by
      cases kind op with
      | take | read | put => cases source
      | sink => cases count
      | pure hsource => rw [source] at hsource; cases hsource
      | kernel =>
        obtain ⟨any, _, hb⟩ := bind_eq_ok.mp hb
        obtain ⟨r, _, hst⟩ := bind_eq_ok.mp hst
        obtain ⟨n, _, hst⟩ := bind_eq_ok.mp hst
        cases hb
        exact ⟨_, rfl, hst⟩
      | intrinsic | rng =>
        obtain ⟨any, _, hb⟩ := bind_eq_ok.mp hb
        obtain ⟨r, _, hst⟩ := bind_eq_ok.mp hst
        cases hb
        exact ⟨_, rfl, hst⟩
    obtain ⟨e, rfl, hst⟩ := hpush
    obtain ⟨hsame, hagree⟩ := device_step same agree v hst
    refine ⟨hsame, [], by rw [puts', append_nil], ?_⟩
    rw [append_nil, overlay]
    exact hagree
  | @sinks name args vals pass pass' operands overlay puts' =>
    obtain ⟨any, _, hb⟩ := bind_eq_ok.mp hb
    obtain ⟨r, _, hst⟩ := bind_eq_ok.mp hst
    cases hb
    cases hst
    refine ⟨same, [], by rw [puts', append_nil], ?_⟩
    rw [append_nil, overlay]
    exact agree
  | @pure op evaled vals pass pass' source eval overlay puts' =>
    obtain ⟨hsame, hagree⟩ := pure_step same agree source eval hclosed hb hst
    refine ⟨hsame, [], by rw [puts', append_nil], ?_⟩
    rw [append_nil, overlay]
    exact hagree

/-! ## Whole stages -/

theorem blockOp_length (h : blockOp known b op = .ok b') : b'.blocked.length = b.blocked.length + op.resultCount := by
  cases kind op with
  | take | read | kernel | intrinsic | rng =>
    obtain ⟨any, _, h⟩ := bind_eq_ok.mp h
    cases h
    rw [length_append]
    rfl
  | put =>
    obtain ⟨any, _, h⟩ := bind_eq_ok.mp h
    obtain ⟨f, _, h⟩ := bind_eq_ok.mp h
    cases h
    rfl
  | sink =>
    obtain ⟨any, _, h⟩ := bind_eq_ok.mp h
    cases h
    rfl
  | pure hsource =>
    rw [blockOp_pure hsource] at h
    obtain ⟨any, _, h⟩ := bind_eq_ok.mp h
    cases h
    rw [length_append, length_replicate]

theorem blockOps_grows : ∀ {ops : List Op} {b bf : Blocking} {l : List (Op × Nat)},
    blockOps known ops b = .ok (bf, l) → b.blocked <+: bf.blocked := by
  intro ops
  induction ops with
  | nil => intro b bf l h; cases h; exact prefix_refl _
  | cons op ops ih =>
    intro b bf l h
    obtain ⟨b₁, h1, h⟩ := bind_eq_ok.mp h
    obtain ⟨r, h2, h⟩ := bind_eq_ok.mp h
    cases h
    exact (blockOp_grows h1).trans (ih h2)

variable {host : KernelHost K}

/-- A stage that runs has its operands before its operations. -/
theorem blockOps_placed : ∀ {ops : List Op} {b bf : Blocking} {l : List (Op × Nat)} {vals : List Value}
    {pass : Pass K} {fin : List Value × Pass K}, b.blocked.length = vals.length →
    blockOps known ops b = .ok (bf, l) → execOps F host inst ctx inputs (vals, pass) ops = .ok fin →
      Placed vals.length l := by
  intro ops
  induction ops with
  | nil => intro b bf l vals pass fin _ h _; cases h; trivial
  | cons op ops ih =>
    intro b bf l vals pass fin hlen h hrun
    obtain ⟨b₁, h1, h⟩ := bind_eq_ok.mp h
    obtain ⟨r, h2, h⟩ := bind_eq_ok.mp h
    cases h
    obtain ⟨⟨vals₁, pass₁⟩, hop, hrest⟩ := foldlM_cons_eq_ok.mp hrun
    have hdoes := execOp_does hop
    have hplaced := ih (by rw [blockOp_length h1, hdoes.length, hlen]) h2 hrest
    refine ⟨le_of_eq hlen.symm, ?_, ?_⟩
    · intro arg harg
      dsimp only
      rw [hlen]
      exact hdoes.operands arg harg
    · dsimp only
      rw [hlen]
      cases r with
      | mk bf l =>
        cases l with
        | nil => trivial
        | cons x l =>
          obtain ⟨hle, hargs, hl⟩ := hplaced
          exact ⟨(Nat.le.intro hdoes.length.symm).trans hle, hargs, hl⟩

/-- **A run of a stage.** The fold and the run agree at its end. -/
theorem fold_run (hknown : Knows known inst start) : ∀ {ops : List Op} {b bf : Blocking} {l : List (Op × Nat)}
    {st st' : Folding} {vals : List Value} {pass : Pass K} {fin : List Value × Pass K}
    {puts : List (ChannelIndex × Value)}, SameBlocks b st → Agrees start demand st vals puts pass.overlay.pending →
    blockOps known ops b = .ok (bf, l) → (∀ x ∈ l, Closed bf.blocked demand x) →
    ops.foldlM (foldOp known F ctx.names ctx.types demand) st = .ok st' →
    execOps F host inst ctx inputs (vals, pass) ops = .ok fin →
      ∃ new, fin.2.puts = pass.puts ++ new ∧ Agrees start demand st' fin.1 (puts ++ new) fin.2.overlay.pending := by
  intro ops
  induction ops with
  | nil =>
    intro b bf l st st' vals pass fin puts _ agree _ _ hst hrun
    cases hst
    cases hrun
    exact ⟨[], (append_nil _).symm, by rw [append_nil]; exact agree⟩
  | cons op ops ih =>
    intro b bf l st st' vals pass fin puts same agree h hclosed hst hrun
    obtain ⟨b₁, h1, h⟩ := bind_eq_ok.mp h
    obtain ⟨r, h2, h⟩ := bind_eq_ok.mp h
    cases h
    obtain ⟨st₁, hst1, hst2⟩ := foldlM_cons_eq_ok.mp hst
    obtain ⟨⟨vals₁, pass₁⟩, hop, hrest⟩ := foldlM_cons_eq_ok.mp hrun
    have hhead := hclosed _ mem_cons_self
    have hlen : b.blocked.length = vals.length := by
      rw [same.blocked, length_map, agree.blockedAt]
    rw [hlen] at hhead
    obtain ⟨same₁, new₁, hnew₁, agree₁⟩ := fold_step hknown same agree (execOp_does hop) (blockOps_grows h2)
      hhead h1 hst1
    obtain ⟨new₂, hnew₂, agree₂⟩ := ih same₁ agree₁ h2 (fun x hx => hclosed x (mem_cons_of_mem _ hx)) hst2 hrest
    refine ⟨new₁ ++ new₂, ?_, by rw [← append_assoc]; exact agree₂⟩
    rw [hnew₂, hnew₁, append_assoc]

end

section

variable {K : Type} {known : ChannelIndex → Option Value} {F : F32Ops} {host : KernelHost K} {inst : Instance}
  {bound : BoundTrace} {inputs : PassInputs} {stage : Stage} {layer : BitVec 32} {pass pass' : Pass K} {puts : Puts}

/-- What a fold of a stage says about a run of it. -/
def Folds (puts : Puts) (pass pass' : Pass K) : Prop :=
  ∃ new, pass'.puts = pass.puts ++ new
    ∧ ∀ c, PutAgrees (puts c) (lastPut new c) (pass'.overlay.pending c) (pass.overlay.pending c)

theorem foldStage_folds (hknown : Knows known inst pass.overlay) (hfold : foldStage known F bound stage = .ok puts)
    (hrun : execBody F host inst bound inputs pass stage layer = .ok pass') : Folds puts pass pass' := by
  unfold foldStage at hfold
  unfold execBody at hrun
  cases hidx : bound.container.stages.findIdx? (fun s => s.stage = stage) with
  | none =>
    rw [hidx] at hfold hrun
    cases hfold
    cases hrun
    exact ⟨[], (append_nil _).symm, fun c => ⟨rfl, rfl⟩⟩
  | some si =>
    rw [hidx] at hfold hrun
    obtain ⟨program, hprog, hfold⟩ := bind_eq_ok.mp hfold
    obtain ⟨types, htypes, hfold⟩ := bind_eq_ok.mp hfold
    obtain ⟨demand, hdemand, hfold⟩ := bind_eq_ok.mp hfold
    obtain ⟨st, hst, hend⟩ := bind_eq_ok.mp hfold
    obtain ⟨program', hprog', hrun⟩ := bind_eq_ok.mp hrun
    obtain ⟨types', htypes', hrun⟩ := bind_eq_ok.mp hrun
    obtain ⟨fin, hfin, hrun⟩ := bind_eq_ok.mp hrun
    have hp : program' = program := by
      have h1 := index_eq_ok.mp (of_eq_ok.mp hprog')
      rw [Fold.index_eq_ok.mp hprog] at h1
      exact (some.inj h1).symm
    have ht : types' = types := by
      have h1 := index_eq_ok.mp (of_eq_ok.mp htypes')
      rw [Fold.index_eq_ok.mp htypes] at h1
      exact (some.inj h1).symm
    subst hp
    subst ht
    obtain ⟨⟨bf, l⟩, hblock, hdemand⟩ := bind_eq_ok.mp hdemand
    have hplaced := blockOps_placed rfl hblock hfin
    have hagree : Agrees pass.overlay demand ⟨[], [], fun _ => none⟩ [] [] pass.overlay.pending :=
      ⟨rfl, rfl, fun i hi _ => (nomatch hi), fun c => ⟨rfl, rfl⟩⟩
    obtain ⟨new, hnew, agree⟩ := fold_run hknown ⟨rfl, fun _ => rfl⟩ hagree hblock
      (demandOps_closed hplaced hdemand) hst hfin
    have hputs : st.puts = puts := Except.ok.inj hend
    subst hputs
    cases hrun
    exact ⟨new, hnew, agree.puts⟩

/-! ## Ports -/

/-- What a port is bound to, the puts of the pass being given. -/
def PortReads (inst : Instance) (overlay : Overlay) (p : PortBinding) (v : Value) : Prop :=
  match p.source with
  | .channel c => overlay.resolve inst c = .ok v
  | .const dtype shape data => constValue dtype shape data = .ok v

theorem PortReads.congr
    (h : overlay.pending = overlay'.pending) (hp : PortReads inst overlay p v) : PortReads inst overlay' p v := by
  unfold PortReads at hp ⊢
  split
  · rename_i c hsource
    rw [hsource] at hp
    rw [← resolve_pending (congrFun h c)]
    exact hp
  · rename_i hsource
    rw [hsource] at hp
    exact hp

theorem bindPort_ok {r : Value × Pass K} (h : bindPort inst pass p = .ok r) :
    PortReads inst pass.overlay p r.1 ∧ r.2.overlay.pending = pass.overlay.pending := by
  unfold bindPort at h
  unfold PortReads
  cases hsource : p.source with
  | channel c =>
    rw [hsource] at h
    dsimp only at h ⊢
    split at h
    · obtain ⟨v, hv, h⟩ := bind_eq_ok.mp h
      obtain ⟨taken, _, h⟩ := bind_eq_ok.mp h
      cases h
      exact ⟨hv, rfl⟩
    · obtain ⟨v, hv, h⟩ := bind_eq_ok.mp h
      cases h
      exact ⟨hv, rfl⟩
  | const dtype shape data =>
    rw [hsource] at h
    obtain ⟨v, hv, h⟩ := bind_eq_ok.mp h
    cases h
    exact ⟨hv, rfl⟩

/-- A port takes nothing that a later one would miss. -/
theorem bindPorts_run : ∀ {ports : List PortBinding} {desc : List (Port × Value)} {pass : Pass K}
    {fin : List (Port × Value) × Pass K}, ports.foldlM (bindPorts inst) (desc, pass) = .ok fin →
      ∃ vs, fin.1 = desc ++ vs
        ∧ Forall₂ (fun p r => r.1 = p.port ∧ PortReads inst pass.overlay p r.2) ports vs := by
  intro ports
  induction ports with
  | nil =>
    intro desc pass fin h
    cases h
    exact ⟨[], (append_nil _).symm, .nil⟩
  | cons p ports ih =>
    intro desc pass fin h
    obtain ⟨st, hst, h⟩ := foldlM_cons_eq_ok.mp h
    obtain ⟨r, hr, hst⟩ := bind_eq_ok.mp hst
    cases hst
    obtain ⟨hreads, hpending⟩ := bindPort_ok (of_eq_ok.mp hr)
    obtain ⟨vs, hvs, hall⟩ := ih h
    refine ⟨(p.port, r.1) :: vs, ?_, .cons ⟨rfl, hreads⟩ (hall.imp (fun q s hq => ⟨hq.1, hq.2.congr hpending⟩))⟩
    rw [hvs, append_assoc]
    rfl

/-- What the host knows of a port is what the pass binds it to. -/
theorem portSlot_agrees (hknown : Knows known inst pass.overlay) (hfolds : Folds puts pass pass') (hslot : portSlot known puts p = .ok (.ok w))
    (hreads : PortReads inst pass'.overlay p v) : v = w := by
  unfold portSlot at hslot
  unfold PortReads at hreads
  obtain ⟨new, _, hputs⟩ := hfolds
  cases hsource : p.source with
  | const dtype shape data =>
    rw [hsource] at hslot hreads
    dsimp only at hslot hreads
    rw [hreads] at hslot
    obtain ⟨u, hu, hslot⟩ := bind_eq_ok.mp hslot
    cases hu
    exact Except.ok.inj (Except.ok.inj hslot)
  | channel c =>
    rw [hsource] at hslot hreads
    have agree : Agrees pass.overlay [] ⟨[], [], puts⟩ [] new pass'.overlay.pending :=
      ⟨rfl, rfl, fun i hi _ => (nomatch hi), hputs⟩
    exact (readSlot_agrees hknown agree (Except.ok.inj hslot) hreads).symm

theorem ports_agree (hknown : Knows known inst pass.overlay) (hfolds : Folds puts pass pass')
    {ports : List PortBinding} {slots : List (Port × Slot)} {vs : List (Port × Value)}
    (hslots : Forall₂ (fun p s => (do
      let slot ← portSlot known puts p
      .ok (p.port, slot) : Fold (Port × Slot)) = .ok s) ports slots)
    (hall : Forall₂ (fun p r => r.1 = p.port ∧ PortReads inst pass'.overlay p r.2) ports vs) :
    Forall₂ (fun slot bound => slot.1 = bound.1 ∧ ∀ v, slot.2 = .ok v → bound.2 = v) slots vs := by
  induction hall generalizing slots with
  | nil =>
    cases hslots
    exact .nil
  | cons hp hrest ih =>
    obtain ⟨slot, slots', hslot, hslots', rfl⟩ := forall₂_cons_left_iff.mp hslots
    refine .cons ?_ (ih hslots')
    obtain ⟨s, hs, hslot⟩ := bind_eq_ok.mp hslot
    cases hslot
    refine ⟨hp.1.symm, fun v hv => ?_⟩
    dsimp only at hv
    subst hv
    exact portSlot_agrees hknown hfolds hs hp.2

theorem step_ok {k : K} {report : StepReport} (h : (Instance.step F host inst bound inputs k).result = .ok report) :
    ∃ pass, execPass F host inst bound inputs k = .ok (report.descriptor, pass) := by
  unfold Instance.step at h
  split at h
  · cases h
  · split at h
    · cases h
    · split at h
      · cases h
      · rename_i missed _ descriptor pass hpass
        refine ⟨pass, ?_⟩
        unfold Instance.finish at h
        dsimp only at h
        split at h
        · cases h
          exact hpass
        · split at h <;> cases h
          exact hpass

end

/--
**The fold agrees with the interpreter.**

Where the fold of a stage has a value, the run of the stage puts it last in that
channel; a channel that the fold does not mention is not put. A port that the
host evaluates has the value the step reports. The device is arbitrary: inputs,
kernels and the seed of the plain draws are those of the run.
-/
theorem fold_agrees {K : Type} (F : F32Ops) (host : KernelHost K) (inst : Instance) (bound : BoundTrace)
    (inputs : PassInputs) (known : ChannelIndex → Option Value) :
    (∀ (stage : Stage) (layer : BitVec 32) (pass pass' : Pass K) (puts : Puts),
      Knows known inst pass.overlay → foldStage known F bound stage = .ok puts →
      execBody F host inst bound inputs pass stage layer = .ok pass' →
        ∃ new, pass'.puts = pass.puts ++ new
          ∧ ∀ c, (∀ v, puts c = some (.ok v) → lastPut new c = some v ∧ pass'.overlay.pending c = some v)
            ∧ (puts c = none → ∀ v, (c, v) ∉ new))
    ∧ ∀ (k : K) (ports : List (Port × Slot)) (report : StepReport),
        Knows known inst (Pass.new inst k).overlay → evalDescriptorPorts known F bound = .ok ports →
        (Instance.step F host inst bound inputs k).result = .ok report →
          List.Forall₂ (fun slot bound => slot.1 = bound.1 ∧ ∀ v, slot.2 = .ok v → bound.2 = v)
            ports report.descriptor := by
  constructor
  · intro stage layer pass pass' puts hknown hfold hrun
    obtain ⟨new, hnew, hputs⟩ := foldStage_folds hknown hfold hrun
    refine ⟨new, hnew, fun c => ⟨fun v hv => ?_, fun hc v hmem => ?_⟩⟩
    · have h := hputs c
      rw [hv] at h
      exact h
    · have h := hputs c
      rw [hc] at h
      have hnone := h.1
      unfold lastPut at hnone
      rw [Option.map_eq_none_iff, find?_eq_none] at hnone
      exact hnone (c, v) (List.mem_reverse.mpr hmem) (decide_eq_true rfl)
  · intro k ports report hknown hports hstep
    obtain ⟨pass, hpass⟩ := step_ok hstep
    obtain ⟨pass₁, hbody, hpass⟩ := bind_eq_ok.mp hpass
    obtain ⟨st, hst, hpass⟩ := bind_eq_ok.mp hpass
    obtain ⟨pass₂, _, hpass⟩ := bind_eq_ok.mp hpass
    obtain ⟨pass₃, _, hpass⟩ := bind_eq_ok.mp hpass
    have hdesc : st.1 = report.descriptor := congrArg Prod.fst (Except.ok.inj hpass)
    obtain ⟨vs, hvs, hall⟩ := bindPorts_run hst
    obtain ⟨puts, hfold, hports⟩ := bind_eq_ok.mp hports
    have hfolds := foldStage_folds hknown hfold hbody
    rw [← hdesc, hvs, nil_append]
    exact ports_agree hknown hfolds (mapM_eq_ok.mp hports) hall

/-! ### A counter -/

/-- Operations of `f32` for a run that has none. -/
def noFloats : F32Ops where
  exp x := x
  ln x := x
  sin x := x
  cos x := x
  sqrt x := x
  abs x := x
  neg x := x
  add x _ := x
  sub x _ := x
  mul x _ := x
  div x _ := x
  rem x _ := x
  max x _ := x
  min x _ := x
  lt _ _ := false
  le _ _ := false
  eq _ _ := false
  ofInt _ := 0
  toI32 _ := 0
  toU32 _ := 0
  toI64 _ := 0

/-- `NoKernels`. -/
def noKernels : KernelHost Unit := ⟨fun k _ _ _ => (.error "no such kernel", k)⟩

def word : Shape := ⟨[1], by decide⟩

/-- A seeded channel that the prologue counts up, and a port that reads it. -/
def counter : TraceContainer where
  names := []
  channels := [⟨word, .concrete .u32, 1, .none, true⟩]
  ports := [⟨.positions, .channel 0⟩]
  stages := [⟨.prologue, [.chanTake 0, .const (.u32 1), .add 0 1, .chanPut 0 2]⟩]
  externs := []

def plainProfile : ModelProfile where
  vocab := 32
  numLayers := 2
  hasMtpLogits := false
  mtpDepth := 0
  hasValueHead := false
  hasAttnScore := false
  hasAttnPageMask := false
  hasVelocity := false
  velocityWidth := 0
  hasPixels := false
  pixelsWidth := 0
  hasLora := false
  kernels := []

def counterBound : BoundTrace where
  container := counter
  profile := plainProfile
  hash := 6994374410117914912#64
  channelTypes := [⟨word, .u32⟩]
  stageTypes := [[⟨word, .u32⟩, ⟨.scalar, .u32⟩, ⟨word, .u32⟩]]
  readiness := [⟨0, .prologue, .needsFull⟩]

set_option maxRecDepth 8000 in
example : bind counter plainProfile = .ok counterBound := rfl

def counterInstance : Instance := ⟨[⟨[.u32 [5]], 1, .u32 [0]⟩], false⟩

def counterKnown (c : ChannelIndex) : Option Value := if c = 0 then some (.u32 [5]) else none

def counterPuts : Puts := Function.update (fun _ => none) 0 (some (.ok (.u32 [6])))

def counterPass : Pass Unit where
  overlay := ⟨Function.update (fun _ => none) 0 (some (.u32 [6])), [true], [true]⟩
  sinks := []
  host := ()
  made := [(.u32 [5], some ⟨word, .u32⟩), (.u32 [1], some ⟨.scalar, .u32⟩), (.u32 [6], some ⟨word, .u32⟩)]
  puts := [(0, .u32 [6])]

theorem knows_counter (overlay : Overlay) (h : overlay.pending = fun _ => none) :
    Knows counterKnown counterInstance overlay := by
  intro c v hv
  unfold counterKnown at hv
  split at hv
  · rename_i hc
    cases hv
    subst hc
    unfold Overlay.resolve
    rw [h]
    rfl
  · cases hv

theorem fold_agrees_counter : (∃ new, counterPass.puts = [] ++ new
      ∧ ∀ c, (∀ v, counterPuts c = some (.ok v) → lastPut new c = some v ∧ counterPass.overlay.pending c = some v)
        ∧ (counterPuts c = none → ∀ v, (c, v) ∉ new))
    ∧ List.Forall₂ (fun slot bound => slot.1 = bound.1 ∧ ∀ v, slot.2 = .ok v → bound.2 = v)
        [(Port.positions, (.ok (.u32 [6]) : Slot))] [(Port.positions, Value.u32 [6])] :=
  ⟨(fold_agrees noFloats noKernels counterInstance counterBound {} counterKnown).1 .prologue 0
      (Pass.new counterInstance ()) counterPass counterPuts (knows_counter _ rfl) rfl rfl,
    (fold_agrees noFloats noKernels counterInstance counterBound {} counterKnown).2 ()
      [(Port.positions, (.ok (.u32 [6]) : Slot))] ⟨true, none, [(Port.positions, Value.u32 [6])], []⟩
      (knows_counter _ rfl) rfl rfl⟩

end Pie.Proof
