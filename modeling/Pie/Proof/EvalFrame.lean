import Pie.Eta.Pareval
import Pie.Lib.Fallible

/-!
# What an operation reads

`evalOp` reads the values of its operands and no others, and what the device
gives only when it is the source of the result. It gives as many values as the
table says.
-/

namespace Pie.Proof

open List Pie.Eta Lib Fallible

variable {a id b : ValueId} {f : Value → Eval Value} {v : Value}

variable {F : F32Ops} {vals vals' : List Value} {types : List ValueType} {inputs inputs' : PassInputs}
  {layer layer' : BitVec 32} {op : Op} {evaled : Evaled}

theorem index_eq_ok {α : Type} {xs : List α} {i : Nat} {a : α} : Eval.index xs i = .ok a ↔ xs[i]? = some a := by
  unfold Eval.index
  cases h : xs[i]? with
  | none => exact ⟨nofun, nofun⟩
  | some b => exact ⟨fun h => by rw [Except.ok.inj h], fun h => by rw [Option.some.inj h]⟩

theorem valueAt_eq_ok : valueAt vals id = .ok v ↔ vals[id.toNat]? = some v :=
  index_eq_ok

theorem valueAt_congr (h : vals[id.toNat]? = vals'[id.toNat]?) : valueAt vals id = valueAt vals' id := by
  unfold valueAt Eval.index
  rw [h]

/-- **An operation reads its operands.** The device is read only by an operation it is the source of. -/
theorem evalOp_congr (hsource : op.valueSource ≠ .device)
    (h : ∀ id ∈ op.operands, vals[id.toNat]? = vals'[id.toNat]?) :
    evalOp F vals types inputs layer op = evalOp F vals' types inputs' layer' op := by
  have hat : ∀ id ∈ op.operands, valueAt vals id = valueAt vals' id := fun id hid => valueAt_congr (h id hid)
  cases op <;> simp only [Op.valueSource, ne_eq, not_true_eq_false, reduceCtorEq, not_false_eq_true] at hsource <;>
    simp only [Op.operands, mem_cons, not_mem_nil, or_false, forall_eq_or_imp, forall_eq] at hat <;>
    simp only [evalOp, mapOp, arithOp, compareOp, unary, unaryTyped, binary, hat]

/-! ## Operands -/

theorem valueAt_lt (h : valueAt vals id = .ok v) : id.toNat < vals.length :=
  (List.getElem?_eq_some_iff.mp (valueAt_eq_ok.mp h)).1

theorem unary_operand (h : unary vals f a = .ok evaled) : a.toNat < vals.length := by
  obtain ⟨x, hx, _⟩ := bind_eq_ok.mp h
  exact valueAt_lt hx

theorem unaryTyped_operand {f : Value → ValueType → Eval Evaled}
    (h : unaryTyped vals types f a = .ok evaled) : a.toNat < vals.length := by
  obtain ⟨x, hx, _⟩ := bind_eq_ok.mp h
  exact valueAt_lt hx

theorem binary_operands {f : Value → Value → ValueType → Eval Value}
    (h : binary vals types f a b = .ok evaled) : a.toNat < vals.length ∧ b.toNat < vals.length := by
  obtain ⟨x, hx, h⟩ := bind_eq_ok.mp h
  obtain ⟨y, hy, _⟩ := bind_eq_ok.mp h
  exact ⟨valueAt_lt hx, valueAt_lt hy⟩

/-- The operands of an operation that was evaluated were there. -/
theorem evalOp_operands (hsource : op.valueSource = .operands) (h : evalOp F vals types inputs layer op = .ok evaled) :
    ∀ id ∈ op.operands, id.toNat < vals.length := by
  cases op <;> simp only [Op.valueSource, reduceCtorEq] at hsource <;>
    simp only [Op.operands, mem_cons, not_mem_nil, or_false, forall_eq_or_imp, forall_eq, false_implies, implies_true]
  case select =>
    obtain ⟨c, hc, h⟩ := bind_eq_ok.mp h
    exact ⟨valueAt_lt hc, binary_operands h⟩
  case sortDesc =>
    obtain ⟨x, hx, _⟩ := bind_eq_ok.mp h
    exact valueAt_lt hx
  case matMul =>
    obtain ⟨ta, _, h⟩ := bind_eq_ok.mp h
    obtain ⟨tb, _, h⟩ := bind_eq_ok.mp h
    obtain ⟨x, hx, h⟩ := bind_eq_ok.mp h
    obtain ⟨y, hy, _⟩ := bind_eq_ok.mp h
    exact ⟨valueAt_lt hx, valueAt_lt hy⟩
  case pivotThreshold =>
    obtain ⟨t, _, h⟩ := bind_eq_ok.mp h
    obtain ⟨x, hx, h⟩ := bind_eq_ok.mp h
    obtain ⟨y, hy, _⟩ := bind_eq_ok.mp h
    exact ⟨valueAt_lt hx, valueAt_lt hy⟩
  case scatterAdd | scatterSet =>
    obtain ⟨v, hv, h⟩ := bind_eq_ok.mp h
    exact ⟨(binary_operands h).1, (binary_operands h).2, valueAt_lt hv⟩
  all_goals
    first
    | exact unary_operand h
    | exact unaryTyped_operand h
    | exact binary_operands h

/-! ## Results -/

/-- The values an operation evaluated to; an effect has none yet. -/
def values : Evaled → List Value
  | .one v => [v]
  | .two a b => [a, b]
  | _ => []

theorem unary_one (h : unary vals f a = .ok evaled) : ∃ v, evaled = .one v := by
  obtain ⟨x, _, h⟩ := bind_eq_ok.mp h
  obtain ⟨v, _, h⟩ := bind_eq_ok.mp h
  exact ⟨v, (Except.ok.inj h).symm⟩

theorem map_one {x : Eval Value} (h : Evaled.one <$> x = .ok evaled) : ∃ v, evaled = .one v := by
  obtain ⟨v, _, h⟩ := map_eq_ok.mp h
  exact ⟨v, h.symm⟩

theorem unaryTyped_one {f : Value → ValueType → Eval Value}
    (h : unaryTyped vals types (fun x t => .one <$> f x t) a = .ok evaled) : ∃ v, evaled = .one v := by
  obtain ⟨x, _, h⟩ := bind_eq_ok.mp h
  obtain ⟨t, _, h⟩ := bind_eq_ok.mp h
  exact map_one h

theorem binary_one {f : Value → Value → ValueType → Eval Value}
    (h : binary vals types f a b = .ok evaled) : ∃ v, evaled = .one v := by
  obtain ⟨x, _, h⟩ := bind_eq_ok.mp h
  obtain ⟨y, _, h⟩ := bind_eq_ok.mp h
  obtain ⟨t, _, h⟩ := bind_eq_ok.mp h
  obtain ⟨v, _, h⟩ := bind_eq_ok.mp h
  exact ⟨v, (Except.ok.inj h).symm⟩

/-- An operation on its operands gives as many values as the table says. -/
theorem evalOp_values (hsource : op.valueSource = .operands) (h : evalOp F vals types inputs layer op = .ok evaled) :
    (values evaled).length = op.resultCount ∧ ((∃ v, evaled = .one v) ∨ ∃ a b, evaled = .two a b) := by
  suffices hone : (∃ v, evaled = .one v) ∧ op.resultCount = 1 ∨ (∃ a b, evaled = .two a b) ∧ op.resultCount = 2 by
    rcases hone with ⟨⟨v, rfl⟩, hc⟩ | ⟨⟨a, b, rfl⟩, hc⟩
    · exact ⟨hc.symm, .inl ⟨v, rfl⟩⟩
    · exact ⟨hc.symm, .inr ⟨a, b, rfl⟩⟩
  cases op <;> simp only [Op.valueSource, reduceCtorEq] at hsource
  case sortDesc =>
    obtain ⟨x, _, h⟩ := bind_eq_ok.mp h
    obtain ⟨sorted, _, h⟩ := bind_eq_ok.mp h
    exact .inr ⟨⟨_, _, (Except.ok.inj h).symm⟩, rfl⟩
  case topK =>
    obtain ⟨x, _, h⟩ := bind_eq_ok.mp h
    obtain ⟨t, _, h⟩ := bind_eq_ok.mp h
    obtain ⟨vs, _, h⟩ := bind_eq_ok.mp h
    exact .inr ⟨⟨_, _, (Except.ok.inj h).symm⟩, rfl⟩
  all_goals refine .inl ⟨?_, rfl⟩
  case const | iota => exact ⟨_, (Except.ok.inj h).symm⟩
  case select =>
    obtain ⟨c, _, h⟩ := bind_eq_ok.mp h
    exact binary_one h
  case cumSum | cumProd =>
    obtain ⟨x, _, h⟩ := bind_eq_ok.mp h
    obtain ⟨t, _, h⟩ := bind_eq_ok.mp h
    exact ⟨_, (Except.ok.inj h).symm⟩
  case matMul =>
    obtain ⟨ta, _, h⟩ := bind_eq_ok.mp h
    obtain ⟨tb, _, h⟩ := bind_eq_ok.mp h
    obtain ⟨x, _, h⟩ := bind_eq_ok.mp h
    obtain ⟨y, _, h⟩ := bind_eq_ok.mp h
    exact map_one h
  case pivotThreshold =>
    obtain ⟨t, _, h⟩ := bind_eq_ok.mp h
    obtain ⟨x, _, h⟩ := bind_eq_ok.mp h
    obtain ⟨y, _, h⟩ := bind_eq_ok.mp h
    exact map_one h
  case scatterAdd | scatterSet =>
    obtain ⟨v, _, h⟩ := bind_eq_ok.mp h
    exact binary_one h
  all_goals
    first
    | exact unary_one h
    | exact unaryTyped_one h
    | exact binary_one h

end Pie.Proof
