import Pie.Proof.EvalFrame

/-!
# What a body does

One operation of a body, inverted: what it needs, the values it makes, and what
becomes of the overlay. Every fact about a run of a stage is read off it.
-/

namespace Pie.Proof

open List Pie.Eta Lib Fallible

/-- The operations a stage treats on their own, and the others. -/
inductive Kind : Op → Prop
  | take (chan : ChannelIndex) : Kind (.chanTake chan)
  | read (chan : ChannelIndex) : Kind (.chanRead chan)
  | put (chan : ChannelIndex) (value : ValueId) : Kind (.chanPut chan value)
  | kernel (name : NameIndex) (args : List ValueId) (shape : Shape) (dtype : Dtype) :
      Kind (.kernelCall name args shape dtype)
  | intrinsic (intr : IntrinsicId) (shape : Shape) (dtype : Dtype) : Kind (.intrinsicVal intr shape dtype)
  | rng (stream : BitVec 32) (shape : Shape) (kind : RngKind) : Kind (.rng stream shape kind)
  | sink (name : NameIndex) (args : List ValueId) : Kind (.sinkCall name args)
  | pure {op : Op} (h : op.valueSource = .operands) : Kind op

theorem kind (op : Op) : Kind op := by
  cases op
  case chanTake c => exact .take c
  case chanRead c => exact .read c
  case chanPut c v => exact .put c v
  case kernelCall n a s d => exact .kernel n a s d
  case intrinsicVal i s d => exact .intrinsic i s d
  case rng s sh k => exact .rng s sh k
  case sinkCall n a => exact .sink n a
  all_goals exact .pure rfl

/-! ## One operation -/

variable {K : Type} {F : F32Ops} {host : KernelHost K} {inst : Instance} {ctx : BodyAt} {inputs : PassInputs}
  {vals vals' : List Value} {pass pass' : Pass K} {op : Op}

/-- The values of a pass that an operation adds, and what it does to the overlay. -/
inductive Does (F : F32Ops) (inst : Instance) (ctx : BodyAt) (inputs : PassInputs) :
    Op → List Value → Pass K → List Value → Pass K → Prop
  | takes {chan : ChannelIndex} {v : Value} {vals : List Value} {pass pass' : Pass K}
      (value : pass.overlay.resolve inst chan = .ok v) (inRange : chan.toNat < pass.overlay.taken.length)
      (overlay : pass'.overlay = { pass.overlay with taken := pass.overlay.taken.set chan.toNat true })
      (puts : pass'.puts = pass.puts) : Does F inst ctx inputs (.chanTake chan) vals pass (vals ++ [v]) pass'
  | reads {chan : ChannelIndex} {v : Value} {vals : List Value} {pass pass' : Pass K}
      (value : pass.overlay.resolve inst chan = .ok v) (overlay : pass'.overlay = pass.overlay)
      (puts : pass'.puts = pass.puts) : Does F inst ctx inputs (.chanRead chan) vals pass (vals ++ [v]) pass'
  | puts {chan : ChannelIndex} {id : ValueId} {v : Value} {vals : List Value} {pass pass' : Pass K}
      (value : vals[id.toNat]? = some v) (inRange : chan.toNat < pass.overlay.put.length)
      (overlay : pass'.overlay = { pass.overlay with
        pending := Function.update pass.overlay.pending chan (some v), put := pass.overlay.put.set chan.toNat true })
      (puts : pass'.puts = pass.puts ++ [(chan, v)]) : Does F inst ctx inputs (.chanPut chan id) vals pass vals pass'
  | device {op : Op} {v : Value} {vals : List Value} {pass pass' : Pass K} (source : op.valueSource = .device)
      (count : op.resultCount = 1) (operands : ∀ id ∈ op.operands, id.toNat < vals.length)
      (overlay : pass'.overlay = pass.overlay) (puts : pass'.puts = pass.puts) :
      Does F inst ctx inputs op vals pass (vals ++ [v]) pass'
  | sinks {name : NameIndex} {args : List ValueId} {vals : List Value} {pass pass' : Pass K}
      (operands : ∀ id ∈ args, id.toNat < vals.length)
      (overlay : pass'.overlay = pass.overlay) (puts : pass'.puts = pass.puts) :
      Does F inst ctx inputs (.sinkCall name args) vals pass vals pass'
  | pure {op : Op} {evaled : Evaled} {vals : List Value} {pass pass' : Pass K} (source : op.valueSource = .operands)
      (eval : evalOp F vals ctx.types inputs ctx.layer op = .ok evaled)
      (overlay : pass'.overlay = pass.overlay) (puts : pass'.puts = pass.puts) :
      Does F inst ctx inputs op vals pass (vals ++ values evaled) pass'

theorem of_eq_ok {α : Type} {x : Eval α} {a : α} : Run.of pass x = .ok a ↔ x = .ok a := by
  cases x with
  | ok b => exact ⟨fun h => by rw [Except.ok.inj h], fun h => by rw [Except.ok.inj h]; rfl⟩
  | error why => exact ⟨nofun, nofun⟩

theorem store_eq_ok {α : Type} {xs xs' : List α} {i : Nat} {a : α} :
    Eval.store xs i a = .ok xs' ↔ i < xs.length ∧ xs' = xs.set i a := by
  unfold Eval.store
  split
  · rename_i hlt
    exact ⟨fun h => ⟨hlt, (Except.ok.inj h).symm⟩, fun h => by rw [h.2]⟩
  · rename_i hge
    exact ⟨nofun, fun h => absurd h.1 hge⟩

section pushValue

variable (st : List Value × Pass K) (v : Value)

@[simp] theorem pushValue_fst : (pushValue ctx st v).1 = st.1 ++ [v] := rfl

@[simp] theorem pushValue_overlay : (pushValue ctx st v).2.overlay = st.2.overlay := rfl

@[simp] theorem pushValue_puts : (pushValue ctx st v).2.puts = st.2.puts := rfl

end pushValue

theorem args_lt {args : List ValueId} {vs : List Value} (h : args.mapM (valueAt vals) = .ok vs) :
    ∀ id ∈ args, id.toNat < vals.length := by
  intro id hid
  have h2 := mapM_eq_ok.mp h
  obtain ⟨i, hi, rfl⟩ := mem_iff_getElem.mp hid
  have hlen := h2.length_eq
  exact valueAt_lt (forall₂_iff_get.mp h2 |>.2 i hi (by omega))

theorem callKernel_ok {name : NameIndex} {args : List ValueId} {result : ValueType} {st : List Value × Pass K}
    (h : callKernel host ctx (vals, pass) name args result = .ok st) :
    (∀ id ∈ args, id.toNat < vals.length) ∧ ∃ v, st.1 = vals ++ [v] ∧ st.2.overlay = pass.overlay
      ∧ st.2.puts = pass.puts := by
  obtain ⟨vs, hvs, h⟩ := bind_eq_ok.mp h
  obtain ⟨n, _, h⟩ := bind_eq_ok.mp h
  refine ⟨args_lt (of_eq_ok.mp hvs), ?_⟩
  dsimp only at h
  split at h
  · rename_i v k _
    split at h
    · cases h
      exact ⟨v, rfl, pushValue_overlay _ v, pushValue_puts _ v⟩
    · cases h
  · cases h

/-- **What an operation does.** -/
theorem execOp_does {st : List Value × Pass K} (h : execOp F host inst ctx inputs (vals, pass) op = .ok st) :
    Does F inst ctx inputs op vals pass st.1 st.2 := by
  obtain ⟨evaled, heval, h⟩ := bind_eq_ok.mp h
  have heval := of_eq_ok.mp heval
  cases kind op with
  | take chan =>
    cases heval
    obtain ⟨r, hr, h⟩ := bind_eq_ok.mp h
    obtain ⟨v, hv, hr⟩ := bind_eq_ok.mp (of_eq_ok.mp hr)
    obtain ⟨taken, ht, hr⟩ := bind_eq_ok.mp hr
    cases h
    cases hr
    obtain ⟨hlt, rfl⟩ := store_eq_ok.mp ht
    exact .takes hv hlt (pushValue_overlay _ _) (pushValue_puts _ _)
  | read chan =>
    cases heval
    obtain ⟨r, hr, h⟩ := bind_eq_ok.mp h
    obtain ⟨v, hv, hr⟩ := bind_eq_ok.mp (of_eq_ok.mp hr)
    cases h
    cases hr
    exact .reads hv (pushValue_overlay _ _) (pushValue_puts _ _)
  | put chan id =>
    cases heval
    obtain ⟨v, hv, h⟩ := bind_eq_ok.mp h
    obtain ⟨p, hp, h⟩ := bind_eq_ok.mp h
    obtain ⟨put, hput, hp⟩ := bind_eq_ok.mp (of_eq_ok.mp hp)
    cases h
    cases hp
    obtain ⟨hlt, rfl⟩ := store_eq_ok.mp hput
    exact .puts (valueAt_eq_ok.mp (of_eq_ok.mp hv)) hlt rfl rfl
  | kernel name args shape dtype =>
    cases heval
    obtain ⟨hargs, v, h1, h2, h3⟩ := callKernel_ok h
    rw [h1]
    exact .device rfl rfl hargs h2 h3
  | intrinsic intr shape dtype =>
    obtain ⟨v, _, rfl⟩ := map_eq_ok.mp heval
    cases h
    exact .device rfl rfl (fun id hid => absurd hid not_mem_nil) (pushValue_overlay _ _) (pushValue_puts _ _)
  | rng stream shape kind =>
    cases heval
    cases h
    exact .device rfl rfl (fun id hid => absurd hid not_mem_nil) (pushValue_overlay _ _) (pushValue_puts _ _)
  | sink name args =>
    cases heval
    obtain ⟨vs, hvs, h⟩ := bind_eq_ok.mp h
    obtain ⟨n, _, h⟩ := bind_eq_ok.mp h
    cases h
    exact .sinks (args_lt (of_eq_ok.mp hvs)) rfl rfl
  | pure hsource =>
    obtain ⟨_, ⟨v, rfl⟩ | ⟨a, b, rfl⟩⟩ := evalOp_values hsource heval
    · cases h
      exact .pure hsource heval (pushValue_overlay _ _) (pushValue_puts _ _)
    · cases h
      have hfst : (pushValue ctx (pushValue ctx (vals, pass) a) b).1 = vals ++ values (.two a b) := by
        simp only [pushValue_fst, values, append_assoc, cons_append, nil_append]
      rw [hfst]
      exact .pure hsource heval (by rw [pushValue_overlay, pushValue_overlay])
        (by rw [pushValue_puts, pushValue_puts])

namespace Does

theorem operands (h : Does F inst ctx inputs op vals pass vals' pass') :
    ∀ id ∈ op.operands, id.toNat < vals.length := by
  cases h with
  | takes | reads => intro id hid; exact absurd hid not_mem_nil
  | puts value =>
    intro id hid
    rw [mem_singleton.mp hid]
    exact (List.getElem?_eq_some_iff.mp value).1
  | device source count operands => exact operands
  | sinks operands => exact operands
  | pure source eval => exact evalOp_operands source eval

theorem length (h : Does F inst ctx inputs op vals pass vals' pass') :
    vals'.length = vals.length + op.resultCount := by
  cases h with
  | takes | reads => rw [length_append]; rfl
  | puts | sinks => rfl
  | device source count => rw [length_append, count]; rfl
  | pure source eval => rw [length_append, (evalOp_values source eval).1]

end Does

end Pie.Proof
