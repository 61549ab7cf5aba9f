import Mathlib

/-!
# Id pools

A pool hands out ids from a range. An id given back either goes straight to the
free list, or waits in `pending` under the epoch of the last fire that may still
read it. Nothing here says an id is given back once: that is the business of the
stores, and `ids` is what they account for.
-/

namespace Pie.Store

open List

/-- `PoolId`: the number behind an id. -/
class PoolId (I : Type) where
  fromIndex : Nat → I
  index : I → Nat
  index_fromIndex : ∀ n, index (fromIndex n) = n

structure Pool (I : Type) where
  free : List I
  pending : List (Nat × List I)
  base : Nat
  capacity : Nat

namespace Pool

variable {I : Type}

/-- The ids of a fresh pool, lowest first. -/
def idRange (I : Type) [PoolId I] (base capacity : Nat) : List I :=
  (List.range' base capacity).map PoolId.fromIndex

/-- The free list is a stack of descending ids, so the lowest is handed out first. -/
def newRange [PoolId I] (base capacity : Nat) : Pool I :=
  { free := (idRange I base capacity).reverse
    pending := []
    base := base
    capacity := capacity }

def new [PoolId I] (capacity : Nat) : Pool I := newRange 0 capacity

def available (p : Pool I) : Nat := p.free.length

def tryAllocN (p : Pool I) (n : Nat) : Option (List I × Pool I) :=
  if p.free.length < n then none
  else
    let at_ := p.free.length - n
    some (p.free.drop at_, { p with free := p.free.take at_ })

def recycleAfterEpoch (p : Pool I) (ids : List I) (epoch : Nat) : Pool I :=
  if ids.isEmpty then p else { p with pending := p.pending ++ [(epoch, ids)] }

def releaseReserved (p : Pool I) (ids : List I) : Pool I := { p with free := p.free ++ ids }

/-- `Vec::swap_remove`: the last element takes the removed one's place. -/
def swapRemove {α : Type} (l : List α) (i : Nat) : List α :=
  match l.getLast? with
  | none => []
  | some z => (l.set i z).dropLast

/-- The scan of `retire_through`: every step either passes an entry or removes one. -/
def retireLoop (epoch : Nat) : Nat → Nat → Pool I → Pool I
  | 0, _, p => p
  | fuel + 1, i, p =>
    match p.pending[i]? with
    | none => p
    | some (e, ids) =>
      if e ≤ epoch then
        retireLoop epoch fuel i
          { p with pending := swapRemove p.pending i, free := p.free ++ ids }
      else retireLoop epoch fuel (i + 1) p

def retireThrough (p : Pool I) (epoch : Nat) : Pool I := retireLoop epoch p.pending.length 0 p

def contains [PoolId I] (p : Pool I) (id : I) : Bool :=
  decide (p.base ≤ PoolId.index id) && decide (PoolId.index id < p.base + p.capacity)

/-- Everything the pool holds, free or waiting. -/
def ids (p : Pool I) : List I := p.free ++ p.pending.flatMap Prod.snd

/-! ## No operation loses or doubles an id -/

theorem tryAllocN_spec {p p' : Pool I} {n : Nat} {taken : List I} (h : p.tryAllocN n = some (taken, p')) :
    taken.length = n ∧ p.free = p'.free ++ taken ∧ p'.pending = p.pending
      ∧ p'.base = p.base ∧ p'.capacity = p.capacity := by
  unfold tryAllocN at h
  split at h
  · simp at h
  · simp only [Option.some.injEq, Prod.mk.injEq] at h
    obtain ⟨rfl, rfl⟩ := h
    refine ⟨?_, ?_, rfl, rfl, rfl⟩
    · simp; omega
    · simp [take_append_drop]

theorem tryAllocN_of_le {p : Pool I} {n : Nat} (h : n ≤ p.available) : ∃ r, p.tryAllocN n = some r := by
  unfold tryAllocN
  unfold available at h
  rw [if_neg (by omega)]
  exact ⟨_, rfl⟩

theorem ids_tryAllocN {p p' : Pool I} {n : Nat} {taken : List I}
    (h : p.tryAllocN n = some (taken, p')) : p.ids.Perm (p'.ids ++ taken) := by
  obtain ⟨_, hf, hp, _, _⟩ := tryAllocN_spec h
  unfold ids
  rw [hf, hp, append_assoc, append_assoc]
  exact Perm.append_left _ perm_append_comm

theorem ids_recycleAfterEpoch (p : Pool I) (is : List I) (epoch : Nat) :
    (p.recycleAfterEpoch is epoch).ids = p.ids ++ is := by
  unfold recycleAfterEpoch
  split
  · rename_i h
    rw [List.isEmpty_iff.mp h]; simp
  · simp [ids]

theorem swapRemove_perm {α : Type} {l : List α} {i : Nat} {x : α} (h : l[i]? = some x) :
    l.Perm (x :: swapRemove l i) := by
  obtain ⟨hlt, he⟩ := List.getElem?_eq_some_iff.mp h
  have hne : l ≠ [] := by intro h0; simp [h0] at hlt
  have hl : l.getLast? = some (l.getLast hne) := getLast?_eq_some_getLast hne
  unfold swapRemove
  rw [hl]
  dsimp only
  have hsnoc := dropLast_append_getLast hne
  set z := l.getLast hne with hz
  set d := l.dropLast with hd
  have hdl : d.length = l.length - 1 := by rw [hd, length_dropLast]
  by_cases hi : i < d.length
  · have hdi : d[i]? = some x := by
      rw [← h, ← hsnoc, getElem?_append_left hi]
    rw [← hsnoc, set_append_left _ _ hi, dropLast_concat]
    obtain ⟨_, hx⟩ := List.getElem?_eq_some_iff.mp hdi
    rw [set_eq_take_append_cons_drop, if_pos hi]
    have hsplit : d = d.take i ++ x :: d.drop (i + 1) := by
      rw [← hx, getElem_cons_drop, take_append_drop]
    calc (d ++ [z]).Perm (z :: d) := perm_append_singleton z d
      _ = z :: (d.take i ++ x :: d.drop (i + 1)) := by rw [← hsplit]
      _ |>.Perm (z :: x :: (d.take i ++ d.drop (i + 1))) := Perm.cons _ perm_middle
      _ |>.Perm (x :: z :: (d.take i ++ d.drop (i + 1))) := Perm.swap _ _ _
      _ |>.Perm (x :: (d.take i ++ z :: d.drop (i + 1))) :=
          Perm.cons _ perm_middle.symm
  · have hi' : i = d.length := by omega
    have hxz : x = z := by
      rw [← hsnoc, hi', getElem?_append_right le_rfl] at h
      simpa using h.symm
    subst hxz
    rw [← hsnoc, hi', set_append_right _ _ le_rfl]
    simp

theorem ids_retireLoop (epoch : Nat) (fuel i : Nat) (p : Pool I) : (retireLoop epoch fuel i p).ids.Perm p.ids := by
  induction fuel generalizing i p with
  | zero => exact Perm.refl _
  | succ fuel ih =>
    unfold retireLoop
    split
    · exact Perm.refl _
    · rename_i e is hi
      split
      · refine (ih _ _).trans ?_
        have hperm := (swapRemove_perm hi).flatMap_right Prod.snd
        unfold ids
        dsimp only
        rw [append_assoc]
        refine Perm.append_left _ ?_
        simpa using hperm.symm
      · exact ih _ _

theorem ids_retireThrough (p : Pool I) (epoch : Nat) : (p.retireThrough epoch).ids.Perm p.ids :=
  ids_retireLoop _ _ _ _

/-! ## Runs -/

/-- Entries that were passed are not due, and the rest are sorted out. -/
theorem retireLoop_due (epoch : Nat) : ∀ {fuel i : Nat} {p : Pool I}, p.pending.length ≤ i + fuel →
    (∀ e ∈ p.pending.take i, epoch < e.1) →
    (retireLoop epoch fuel i p).pending.Perm (p.pending.filter fun e => epoch < e.1) ∧
      (retireLoop epoch fuel i p).free.Perm (p.free ++ (p.pending.filter fun e => e.1 ≤ epoch).flatMap Prod.snd) := by
  have hdone : ∀ {i : Nat} {p : Pool I}, p.pending.length ≤ i → (∀ e ∈ p.pending.take i, epoch < e.1) →
      p.pending.Perm (p.pending.filter fun e => epoch < e.1) ∧
        p.free.Perm (p.free ++ (p.pending.filter fun e => e.1 ≤ epoch).flatMap Prod.snd) := by
    intro i p hlen hpast
    rw [take_of_length_le hlen] at hpast
    rw [filter_eq_self.mpr (by simpa using hpast), filter_eq_nil_iff.mpr (by simpa using hpast)]
    exact ⟨.refl _, by simp⟩
  intro fuel
  induction fuel with
  | zero => exact hdone
  | succ fuel ih =>
    intro i p hlen hpast
    unfold retireLoop
    split
    · rename_i h
      exact hdone (getElem?_eq_none_iff.mp h) hpast
    · rename_i e is hi
      have hperm := swapRemove_perm hi
      have hlt := (List.getElem?_eq_some_iff.mp hi).1
      split
      · rename_i hdue
        have hkept : (swapRemove p.pending i).take i = p.pending.take i := by
          unfold swapRemove
          rw [getLast?_eq_some_getLast (ne_nil_of_length_pos (by omega))]
          dsimp only
          rw [dropLast_eq_take, take_take, length_set,
            min_eq_left (by omega), take_set_of_le le_rfl]
        rcases @ih i { p with pending := swapRemove p.pending i, free := p.free ++ is }
          (by have := hperm.length_eq; simp only [length_cons] at this ⊢; omega) (by rw [hkept]; exact hpast) with ⟨h1, h2⟩
        refine ⟨h1.trans ?_, h2.trans ?_⟩
        · refine Perm.trans ?_ (hperm.filter _).symm
          rw [filter_cons_of_neg (by simpa using hdue)]
        · have hback := ((hperm.filter fun e => e.1 ≤ epoch).flatMap_right Prod.snd).symm
          rw [filter_cons_of_pos (by simpa using hdue), flatMap_cons] at hback
          exact append_assoc .. ▸ hback.append_left p.free
      · rename_i hdue
        refine ih (by omega) fun x hx => ?_
        rw [take_add_one, hi] at hx
        rcases mem_append.mp hx with hx | hx
        · exact hpast x hx
        · rw [Option.mem_toList.mp hx |> Option.some.inj |>.symm]
          exact not_le.mp hdue

/-- The pool after some calls, and the ids that its callers hold. They give back what they hold. -/
inductive Run [PoolId I] (base capacity : Nat) : Pool I → List I → Prop
  | start : Run base capacity (newRange base capacity) []
  | alloc {p p' : Pool I} {n : Nat} {held taken : List I} : Run base capacity p held → p.tryAllocN n = some (taken, p') →
      Run base capacity p' (taken ++ held)
  | recycle {p : Pool I} {held is rest : List I} (epoch : Nat) : Run base capacity p held → held.Perm (is ++ rest) →
      Run base capacity (p.recycleAfterEpoch is epoch) rest
  | release {p : Pool I} {held is rest : List I} : Run base capacity p held → held.Perm (is ++ rest) →
      Run base capacity (p.releaseReserved is) rest
  | retire {p : Pool I} {held : List I} (epoch : Nat) : Run base capacity p held → Run base capacity (p.retireThrough epoch) held

variable [PoolId I] {base capacity : Nat} {p : Pool I} {held : List I}

theorem Run.conserved (h : Run base capacity p held) : (p.ids ++ held).Perm (idRange I base capacity) := by
  induction h with
  | start => simp [ids, newRange]
  | alloc _ ha ih =>
    rw [← append_assoc]
    exact ((ids_tryAllocN ha).symm.append_right _).trans ih
  | recycle epoch _ hheld ih =>
    rw [ids_recycleAfterEpoch, append_assoc]
    exact (hheld.symm.append_left _).trans ih
  | @release p held is rest _ hheld ih =>
    refine Perm.trans ?_ ((hheld.symm.append_left _).trans ih)
    rw [ids, releaseReserved, ids, append_assoc, append_assoc, append_assoc]
    exact (perm_append_comm_assoc _ _ _).append_left _
  | retire epoch _ ih => exact ((ids_retireThrough _ epoch).append_right _).trans ih

/-- **Every id is in one place.** In every run it is free, or waits for its epoch, or one caller
holds it, and a retire frees the ids whose epoch has passed and no others. -/
theorem ids_in_one_place (h : Run base capacity p held) :
    (p.free ++ p.pending.flatMap Prod.snd ++ held).Perm (idRange I base capacity) ∧
    (p.free ++ p.pending.flatMap Prod.snd ++ held).Nodup ∧
    ∀ epoch, (p.retireThrough epoch).pending.Perm (p.pending.filter fun e => epoch < e.1) ∧
      (p.retireThrough epoch).free.Perm (p.free ++ (p.pending.filter fun e => e.1 ≤ epoch).flatMap Prod.snd) :=
  ⟨h.conserved, h.conserved.nodup_iff.mpr (.map (Function.LeftInverse.injective PoolId.index_fromIndex) nodup_range'),
    fun epoch => retireLoop_due epoch (by omega) (by simp)⟩

theorem ids_in_one_place_waiting : ∃ (_ : PoolId Nat) (p : Pool Nat), p.pending = [(5, [0])] ∧
    (p.free ++ p.pending.flatMap Prod.snd ++ []).Nodup :=
  let _ : PoolId Nat := ⟨id, id, fun _ => rfl⟩
  ⟨inferInstance, _, rfl, (ids_in_one_place (.recycle 5 (.alloc (n := 1) (.start : Run 0 2 _ _) rfl) (.refl ([0] ++ [])))).2.1⟩

end Pool

end Pie.Store
