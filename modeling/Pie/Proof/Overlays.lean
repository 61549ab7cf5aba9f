import Pie.Proof.Body

/-!
# What a pass takes and puts

Stages have no branches. So which channels a pass takes from and puts into can
be read off the trace: a pass that comes to its end has marked these and no
others, and every channel it marked as put has a value.
-/

namespace Pie.Proof.Commits

open List Pie.Eta Lib Fallible

/-! ## What a trace uses -/

/-- A pass runs the stage: once at its ends, and in every layer if there are any. -/
def Runs (bound : BoundTrace) (stage : Stage) : Prop :=
  stage = .prologue ∨ stage = .epilogue ∨ stage ∈ taps ∧ bound.profile.numLayers.toNat ≠ 0

/-- The program of a stage is the first that there is for it. -/
def ProgramOf (bound : BoundTrace) (stage : Stage) (program : StageProgram) : Prop :=
  ∃ si, bound.container.stages.findIdx? (fun s => s.stage = stage) = some si
    ∧ bound.container.stages[si]? = some program

/-- An operation that a pass runs uses the channel so. -/
def Uses (bound : BoundTrace) (use : ChannelUse) (chan : ChannelIndex) : Prop :=
  ∃ stage program, Runs bound stage ∧ ProgramOf bound stage program
    ∧ ∃ op ∈ program.ops, op.channelUse = some (use, chan)

/-- A port consumes what the channel has. -/
def Consumes (bound : BoundTrace) (chan : ChannelIndex) : Prop :=
  ∃ p ∈ bound.container.ports, p.source = .channel chan ∧ p.port.consumes = true

def Takes (bound : BoundTrace) (chan : ChannelIndex) : Prop := Uses bound .take chan ∨ Consumes bound chan

def Puts (bound : BoundTrace) (chan : ChannelIndex) : Prop := Uses bound .put chan

/-! ## Marks -/

variable {T P T' P' : ChannelIndex → Prop} {o o₁ o₂ : Overlay}

/-- A channel that is marked as put has a value. -/
def Backed (o : Overlay) : Prop := ∀ c : ChannelIndex, o.put[c.toNat]? = some true → (o.pending c).isSome = true

/-- From the first overlay to the second the channels of `T` were taken, and those of `P` put. -/
structure Marks (T P : ChannelIndex → Prop) (o o' : Overlay) : Prop where
  takenLength : o'.taken.length = o.taken.length
  putLength : o'.put.length = o.put.length
  taken : ∀ i : Nat, o'.taken[i]? = some true ↔ o.taken[i]? = some true ∨ ∃ c, T c ∧ c.toNat = i
  put : ∀ i : Nat, o'.put[i]? = some true ↔ o.put[i]? = some true ∨ ∃ c, P c ∧ c.toNat = i
  backed : Backed o → Backed o'

theorem Marks.refl (hT : ∀ c, ¬T c) (hP : ∀ c, ¬P c) : Marks T P o o where
  takenLength := rfl
  putLength := rfl
  taken := fun i => ⟨.inl, fun h => h.resolve_right fun ⟨c, hc, _⟩ => hT c hc⟩
  put := fun i => ⟨.inl, fun h => h.resolve_right fun ⟨c, hc, _⟩ => hP c hc⟩
  backed := id

theorem Marks.trans (h : Marks T P o o₁) (h' : Marks T' P' o₁ o₂) :
    Marks (fun c => T c ∨ T' c) (fun c => P c ∨ P' c) o o₂ where
  takenLength := h'.takenLength.trans h.takenLength
  putLength := h'.putLength.trans h.putLength
  taken := fun i => by
    rw [h'.taken, h.taken, or_assoc, ← exists_or]
    simp only [← or_and_right]
  put := fun i => by
    rw [h'.put, h.put, or_assoc, ← exists_or]
    simp only [← or_and_right]
  backed := h'.backed ∘ h.backed

theorem Marks.congr (h : Marks T P o o₁) (hT : ∀ c, T c ↔ T' c) (hP : ∀ c, P c ↔ P' c) : Marks T' P' o o₁ := by
  rwa [funext fun c => propext (hT c), funext fun c => propext (hP c)] at h

theorem getElem?_set_true {xs : List Bool} {n : Nat} (hlt : n < xs.length) (i : Nat) :
    (xs.set n true)[i]? = some true ↔ xs[i]? = some true ∨ n = i := by
  by_cases h : n = i
  · subst h
    rw [getElem?_set_self hlt]
    exact ⟨fun _ => .inr rfl, fun _ => rfl⟩
  · rw [getElem?_set_ne h]
    exact ⟨.inl, fun h' => h'.resolve_right h⟩

theorem Marks.take {chan : ChannelIndex} (hlt : chan.toNat < o.taken.length) :
    Marks (· = chan) (fun _ => False) o { o with taken := o.taken.set chan.toNat true } where
  takenLength := length_set
  putLength := rfl
  taken := fun i => by
    rw [getElem?_set_true hlt]
    refine or_congr_right ⟨fun h => ⟨chan, rfl, h⟩, ?_⟩
    rintro ⟨c, rfl, h⟩
    exact h
  put := fun i => ⟨.inl, fun h => h.resolve_right fun ⟨_, hc, _⟩ => hc⟩
  backed := id

theorem Marks.put_one {chan : ChannelIndex} {v : Value} (hlt : chan.toNat < o.put.length) :
    Marks (fun _ => False) (· = chan) o
      { o with pending := Function.update o.pending chan (some v), put := o.put.set chan.toNat true } where
  takenLength := rfl
  putLength := length_set
  taken := fun i => ⟨.inl, fun h => h.resolve_right fun ⟨_, hc, _⟩ => hc⟩
  put := fun i => by
    rw [getElem?_set_true hlt]
    refine or_congr_right ⟨fun h => ⟨chan, rfl, h⟩, ?_⟩
    rintro ⟨c, rfl, h⟩
    exact h
  backed := by
    intro hf c hc
    by_cases h : c = chan
    · subst h
      show (Function.update o.pending c (some v) c).isSome = true
      rw [Function.update_self]
      rfl
    · show (Function.update o.pending chan (some v) c).isSome = true
      rw [Function.update_of_ne h]
      refine hf c (((getElem?_set_true hlt c.toNat).mp hc).resolve_right fun heq => h ?_)
      exact BitVec.eq_of_toNat_eq heq.symm

/-! ## A pass -/

variable {K : Type} {F : F32Ops} {host : KernelHost K} {inst : Instance} {bound : BoundTrace} {inputs : PassInputs}
  {ctx : BodyAt}

/-- The operation uses the channel so. -/
def OpUses (use : ChannelUse) (op : Op) (chan : ChannelIndex) : Prop := op.channelUse = some (use, chan)

theorem channelUse_none {op : Op} (h : op.valueSource = .operands ∨ op.valueSource = .device)  :
    op.channelUse = none := by
  cases op <;> first | rfl | (rcases h with h | h <;> cases h)

theorem Marks.none_of {op : Op} (h : op.channelUse = none) : Marks (OpUses .take op) (OpUses .put op) o o :=
  .refl (fun c hc => by rw [OpUses, h] at hc; cases hc) fun c hc => by rw [OpUses, h] at hc; cases hc

variable {pass pass' : Pass K}

theorem Does.marks {op : Op} {vals vals' : List Value} (h : Does F inst ctx inputs op vals pass vals' pass') :
    Marks (OpUses .take op) (OpUses .put op) pass.overlay pass'.overlay := by
  cases h with
  | takes value inRange overlay puts =>
    rename_i chan v
    rw [overlay]
    refine (Marks.take inRange).congr (fun c => ?_) fun c => ?_
    · exact ⟨fun h => h ▸ rfl, fun h => by cases h; rfl⟩
    · exact ⟨False.elim, fun h => by cases h⟩
  | reads value overlay puts =>
    rw [overlay]
    exact .refl (fun c hc => by cases hc) fun c hc => by cases hc
  | puts value inRange overlay puts =>
    rename_i chan id v
    rw [overlay]
    refine (Marks.put_one inRange).congr (fun c => ?_) fun c => ?_
    · exact ⟨False.elim, fun h => by cases h⟩
    · exact ⟨fun h => h ▸ rfl, fun h => by cases h; rfl⟩
  | device source count operands overlay puts =>
    rw [overlay]
    exact .none_of (channelUse_none (.inr source))
  | sinks operands overlay puts =>
    rw [overlay]
    exact .none_of rfl
  | pure source eval overlay puts =>
    rw [overlay]
    exact .none_of (channelUse_none (.inl source))

theorem execOps_marks : ∀ {ops : List Op} {st st' : List Value × Pass K},
    execOps F host inst ctx inputs st ops = .ok st' →
    Marks (fun c => ∃ op ∈ ops, OpUses .take op c) (fun c => ∃ op ∈ ops, OpUses .put op c)
      st.2.overlay st'.2.overlay := by
  intro ops
  induction ops with
  | nil =>
    intro st st' h
    cases h
    exact .refl (fun _ ⟨_, hop, _⟩ => nomatch hop) fun _ ⟨_, hop, _⟩ => nomatch hop
  | cons op ops ih =>
    intro st st' h
    obtain ⟨st₁, h1, h⟩ := foldlM_cons_eq_ok.mp h
    refine ((Does.marks (execOp_does h1)).trans (ih h)).congr (fun c => ?_) fun c => ?_
    all_goals simp only [mem_cons, exists_eq_or_imp]

/-- The program of the stage uses the channel so. -/
def StageUses (bound : BoundTrace) (use : ChannelUse) (stage : Stage) (chan : ChannelIndex) : Prop :=
  ∃ program, ProgramOf bound stage program ∧ ∃ op ∈ program.ops, OpUses use op chan

theorem execBody_marks {stage : Stage} {layer : BitVec 32}
    (h : execBody F host inst bound inputs pass stage layer = .ok pass') :
    Marks (StageUses bound .take stage) (StageUses bound .put stage) pass.overlay pass'.overlay := by
  unfold execBody at h
  cases hidx : bound.container.stages.findIdx? (fun s => s.stage = stage) with
  | none =>
    rw [hidx] at h
    cases h
    have hnot : ∀ use c, ¬StageUses bound use stage c := by
      rintro use c ⟨program, ⟨si, hsi, -⟩, -⟩
      rw [hidx] at hsi
      cases hsi
    exact .refl (hnot _) (hnot _)
  | some si =>
    rw [hidx] at h
    obtain ⟨program, hprog, h⟩ := bind_eq_ok.mp h
    obtain ⟨types, -, h⟩ := bind_eq_ok.mp h
    obtain ⟨st, hst, h⟩ := bind_eq_ok.mp h
    cases h
    have hp := index_eq_ok.mp (of_eq_ok.mp hprog)
    have hiff : ∀ use c, (∃ op ∈ program.ops, OpUses use op c) ↔ StageUses bound use stage c := by
      intro use c
      refine ⟨fun hop => ⟨program, ⟨si, hidx, hp⟩, hop⟩, ?_⟩
      rintro ⟨program', ⟨si', hsi', hp'⟩, hop⟩
      cases hidx.symm.trans hsi'
      cases hp.symm.trans hp'
      exact hop
    exact (execOps_marks hst).congr (hiff .take) (hiff .put)

/-- The port takes from the channel. -/
def PortTakes (p : PortBinding) (chan : ChannelIndex) : Prop := p.source = .channel chan ∧ p.port.consumes = true

theorem bindPort_marks {p : PortBinding} {r : Value × Pass K} (h : bindPort inst pass p = .ok r) :
    Marks (PortTakes p) (fun _ => False) pass.overlay r.2.overlay := by
  unfold bindPort at h
  cases hsource : p.source with
  | const dtype shape data =>
    rw [hsource] at h
    obtain ⟨v, -, h⟩ := bind_eq_ok.mp h
    cases h
    exact .refl (fun c hc => by rw [PortTakes, hsource] at hc; cases hc.1) fun _ => id
  | channel chan =>
    rw [hsource] at h
    dsimp only at h
    split at h
    · rename_i hconsumes
      obtain ⟨v, -, h⟩ := bind_eq_ok.mp h
      obtain ⟨taken, ht, h⟩ := bind_eq_ok.mp h
      cases h
      obtain ⟨hlt, rfl⟩ := store_eq_ok.mp ht
      refine (Marks.take hlt).congr (fun c => ?_) fun _ => Iff.rfl
      unfold PortTakes
      rw [hsource, PortSource.channel.injEq]
      exact ⟨fun heq => ⟨heq.symm, hconsumes⟩, fun hc => hc.1.symm⟩
    · rename_i hconsumes
      obtain ⟨v, -, h⟩ := bind_eq_ok.mp h
      cases h
      exact .refl (fun c hc => hconsumes hc.2) fun _ => id

theorem bindPorts_marks : ∀ {ports : List PortBinding} {st st' : List (Port × Value) × Pass K},
    ports.foldlM (bindPorts inst) st = .ok st' →
    Marks (fun c => ∃ p ∈ ports, PortTakes p c) (fun _ => False) st.2.overlay st'.2.overlay := by
  intro ports
  induction ports with
  | nil =>
    intro st st' h
    cases h
    exact .refl (fun _ ⟨_, hp, _⟩ => nomatch hp) fun _ => id
  | cons p ports ih =>
    intro st st' h
    obtain ⟨st₁, h1, h⟩ := foldlM_cons_eq_ok.mp h
    obtain ⟨r, hr, h1⟩ := bind_eq_ok.mp h1
    cases h1
    refine ((bindPort_marks (of_eq_ok.mp hr)).trans (ih h)).congr (fun c => ?_) fun c => ?_
    · simp only [mem_cons, exists_eq_or_imp]
    · exact or_self_iff

theorem stages_marks {layer : BitVec 32} : ∀ {stages : List Stage} {pass pass' : Pass K},
    stages.foldlM (fun pass stage => execBody F host inst bound inputs pass stage layer) pass = .ok pass' →
    Marks (fun c => ∃ s ∈ stages, StageUses bound .take s c) (fun c => ∃ s ∈ stages, StageUses bound .put s c)
      pass.overlay pass'.overlay := by
  intro stages
  induction stages with
  | nil =>
    intro pass pass' h
    cases h
    exact .refl (fun _ ⟨_, hs, _⟩ => nomatch hs) fun _ ⟨_, hs, _⟩ => nomatch hs
  | cons s stages ih =>
    intro pass pass' h
    obtain ⟨pass₁, h1, h⟩ := foldlM_cons_eq_ok.mp h
    refine ((execBody_marks h1).trans (ih h)).congr (fun c => ?_) fun c => ?_
    all_goals simp only [mem_cons, exists_eq_or_imp]

/-- A stage of the layers uses the channel so. -/
def TapUses (bound : BoundTrace) (use : ChannelUse) (chan : ChannelIndex) : Prop :=
  ∃ s ∈ taps, StageUses bound use s chan

theorem layers_marks : ∀ {layers : List Nat} {pass pass' : Pass K},
    layers.foldlM (execLayer F host inst bound inputs) pass = .ok pass' →
    Marks (fun c => layers ≠ [] ∧ TapUses bound .take c) (fun c => layers ≠ [] ∧ TapUses bound .put c)
      pass.overlay pass'.overlay := by
  intro layers
  induction layers with
  | nil =>
    intro pass pass' h
    cases h
    exact .refl (fun _ h => h.1 rfl) fun _ h => h.1 rfl
  | cons layer layers ih =>
    intro pass pass' h
    obtain ⟨pass₁, h1, h⟩ := foldlM_cons_eq_ok.mp h
    refine ((stages_marks h1).trans (ih h)).congr (fun c => ?_) fun c => ?_
    all_goals
      refine ⟨fun h => ⟨cons_ne_nil _ _, h.elim id And.right⟩, fun h => .inl h.2⟩

theorem execLayers_marks (h : execLayers F host inst bound inputs pass = .ok pass') :
    Marks (fun c => bound.profile.numLayers.toNat ≠ 0 ∧ TapUses bound .take c)
      (fun c => bound.profile.numLayers.toNat ≠ 0 ∧ TapUses bound .put c) pass.overlay pass'.overlay := by
  unfold execLayers at h
  split at h
  · have hrange : range bound.profile.numLayers.toNat ≠ [] ↔ bound.profile.numLayers.toNat ≠ 0 :=
      not_congr range_eq_nil
    refine (layers_marks h).congr (fun c => ?_) fun c => ?_
    all_goals rw [hrange]
  · rename_i hany
    cases h
    -- no stage of the layers has a program
    have hnot : ∀ use c, ¬TapUses bound use c := by
      rintro use c ⟨s, hs, program, ⟨si, hsi, hp⟩, -⟩
      obtain ⟨hlt, hstage, -⟩ := findIdx?_eq_some_iff_getElem.mp hsi
      refine hany (any_eq_true.mpr ⟨_, getElem_mem hlt, ?_⟩)
      rw [decide_eq_true_eq] at hstage ⊢
      rw [hstage]
      exact hs
    exact .refl (fun c h => hnot _ c h.2) fun c h => hnot _ c h.2

/-- **What a pass that comes to its end has taken and put.** -/
theorem execPass_marks {k : K} {descriptor : List (Port × Value)}
    (h : execPass F host inst bound inputs k = .ok (descriptor, pass)) :
    Marks (Takes bound) (Puts bound) (Pass.new inst k).overlay pass.overlay := by
  obtain ⟨pass₁, h1, h⟩ := bind_eq_ok.mp h
  obtain ⟨st, h2, h⟩ := bind_eq_ok.mp h
  obtain ⟨pass₂, h3, h⟩ := bind_eq_ok.mp h
  obtain ⟨pass₃, h4, h⟩ := bind_eq_ok.mp h
  cases h
  have hall := (((execBody_marks h1).trans (bindPorts_marks h2)).trans (execLayers_marks h3)).trans (execBody_marks h4)
  have huses : ∀ use c, Uses bound use c ↔ (StageUses bound use .prologue c
      ∨ (bound.profile.numLayers.toNat ≠ 0 ∧ TapUses bound use c)) ∨ StageUses bound use .epilogue c := by
    intro use c
    constructor
    · rintro ⟨stage, program, rfl | rfl | ⟨htap, hlayers⟩, hprog, hop⟩
      · exact .inl (.inl ⟨program, hprog, hop⟩)
      · exact .inr ⟨program, hprog, hop⟩
      · exact .inl (.inr ⟨hlayers, stage, htap, program, hprog, hop⟩)
    · rintro ((⟨program, hprog, hop⟩ | ⟨hlayers, stage, htap, program, hprog, hop⟩) | ⟨program, hprog, hop⟩)
      · exact ⟨.prologue, program, .inl rfl, hprog, hop⟩
      · exact ⟨stage, program, .inr (.inr ⟨htap, hlayers⟩), hprog, hop⟩
      · exact ⟨.epilogue, program, .inr (.inl rfl), hprog, hop⟩
  refine hall.congr (fun c => ?_) fun c => ?_
  · unfold Takes
    rw [huses]
    show (((_ ∨ Consumes bound c) ∨ _) ∨ _) ↔ _
    tauto
  · unfold Puts
    rw [huses]
    simp only [or_false]

end Pie.Proof.Commits
