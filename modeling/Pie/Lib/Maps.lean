import Mathlib.Tactic.TypeStar
import Std.Data.TreeMap

/-!
# Ordered maps

Dropping entries of an ordered map, and asking something of one of them. `retain`
erases entry by entry, so it reduces on a concrete map.
-/

namespace Pie.Lib.Maps

open List Std TreeMap

variable {α β : Type*} [Ord α] [TransOrd α] [LawfulEqOrd α] {m : TreeMap α β} {k : α}

/-- The entries for which `p` holds. -/
def retain (p : α → β → Bool) (m : TreeMap α β) : TreeMap α β :=
  m.toList.foldl (fun t e => if p e.1 e.2 then t else t.erase e.1) m

theorem getElem?_insert_self {v : β} : (m.insert k v)[k]? = some v := by
  rw [TreeMap.getElem?_insert, if_pos ReflOrd.compare_self]

theorem getElem?_insert_ne {a : α} {v : β} (h : a ≠ k) : (m.insert a v)[k]? = m[k]? := by
  rw [TreeMap.getElem?_insert, if_neg fun hc => h (LawfulEqOrd.eq_of_compare hc)]

theorem getElem?_erase_self : (m.erase k)[k]? = none := by
  rw [getElem?_erase, if_pos ReflOrd.compare_self]

theorem getElem?_erase_ne {a : α} (h : a ≠ k) : (m.erase a)[k]? = m[k]? := by
  rw [getElem?_erase, if_neg fun hc => h (LawfulEqOrd.eq_of_compare hc)]

theorem getElem?_modify_ne {a : α} {f : β → β} (h : a ≠ k) : (m.modify a f)[k]? = m[k]? := by
  rw [TreeMap.getElem?_modify, if_neg fun hc => h (LawfulEqOrd.eq_of_compare hc)]

theorem getElem?_erases {p : α → β → Bool} : ∀ {l : List (α × β)} {t : TreeMap α β},
    (l.foldl (fun t e => if p e.1 e.2 then t else t.erase e.1) t)[k]?
      = if l.any (fun e => compare e.1 k == .eq && !p e.1 e.2) then none else t[k]? := by
  intro l
  induction l with
  | nil => exact rfl
  | cons e l ih =>
    intro t
    rw [foldl_cons, ih, any_cons]
    by_cases hp : p e.1 e.2 = true
    · rw [if_pos hp, hp, Bool.not_true, Bool.and_false, Bool.false_or]
    · rw [if_neg hp, getElem?_erase]
      rw [Bool.not_eq_true] at hp
      rw [hp, Bool.not_false, Bool.and_true]
      by_cases hk : compare e.1 k = .eq
      · rw [if_pos hk, ite_self, hk]
        rfl
      · rw [if_neg hk, beq_eq_false_iff_ne.mpr hk, Bool.false_or]

theorem getElem?_retain {p : α → β → Bool} : (retain p m)[k]? = m[k]?.filter (p k) := by
  unfold retain
  rw [getElem?_erases]
  cases hv : m[k]? with
  | none => exact ite_self _
  | some v =>
    have hmem : ∀ e ∈ m.toList, compare e.1 k = .eq → e = (k, v) := by
      rintro ⟨a, b⟩ he hk
      obtain rfl : a = k := LawfulEqOrd.eq_of_compare hk
      rw [mem_toList_iff_getElem?_eq_some, hv] at he
      rw [Option.some.inj he]
    have hself : (k, v) ∈ m.toList := mem_toList_iff_getElem?_eq_some.mpr hv
    have hany : m.toList.any (fun e => compare e.1 k == .eq && !p e.1 e.2) = !p k v := by
      rw [Bool.eq_iff_iff, any_eq_true]
      constructor
      · rintro ⟨e, he, hp⟩
        rw [Bool.and_eq_true, beq_iff_eq] at hp
        rw [hmem e he hp.1] at hp
        exact hp.2
      · intro hp
        exact ⟨(k, v), hself, by rw [ReflOrd.compare_self]; exact hp⟩
    rw [hany, Option.filter_some]
    cases p k v <;> rfl

theorem any_toList {p : α × β → Bool} : m.toList.any p = true ↔ ∃ k v, m[k]? = some v ∧ p (k, v) = true := by
  rw [any_eq_true]
  constructor
  · rintro ⟨⟨a, b⟩, he, hp⟩
    exact ⟨a, b, mem_toList_iff_getElem?_eq_some.mp he, hp⟩
  · rintro ⟨a, b, he, hp⟩
    exact ⟨(a, b), mem_toList_iff_getElem?_eq_some.mpr he, hp⟩

end Pie.Lib.Maps
