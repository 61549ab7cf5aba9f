import Pie.Proof.TermText

/-!
# Where planes lie

The planes of a type follow each other, each from the next multiple of the
alignment after the one before it, and their sizes are computed within 64 bits.
-/

namespace Pie.Proof.Planes

open List Lib Lib.Words Ztensor TermText

variable {e : Error} {t : Term} {c : Prop} {shape : List Nat}

/-- The program does not panic, and what it gives satisfies `P`. -/
abbrev Calm {α : Type} (P : α → Prop) (x : Result α) : Prop := Sound (· ≠ Stop.panic) P x

namespace Calm

variable {α : Type} {P : α → Prop}

theorem fail (e : Error) : Calm P (Result.fail e) := nofun

theorem okOr {o : Option α} (h : ∀ a, o = some a → P a) : Calm P (Result.okOr e o) := by
  cases o with
  | some a => exact h a rfl
  | none => exact fail e

theorem mapErr {f : Error → Error} {x : Result α} (h : Calm P x) : Calm P (Result.mapErr f x) := by
  cases x with
  | ok a => exact h
  | error stop =>
    cases stop with
    | error e => exact nofun
    | panic => exact absurd rfl h

theorem ite [Decidable c] {x y : Result α} (hx : c → Calm P x) (hy : ¬ c → Calm P y) :
    Calm P (if c then x else y) := by
  by_cases h : c
  · rw [if_pos h]
    exact hx h
  · rw [if_neg h]
    exact hy h

/-- Only an error comes of a check that does not pass. -/
theorem check [Decidable c] {x : Unit → Result α} (hx : ¬ c → Calm P (x ())) :
    Calm P (if c then (Result.fail e : Result Unit) >>= x else x ()) := by
  by_cases h : c
  · rw [if_pos h]
    exact fail e
  · rw [if_neg h]
    exact hx h

end Calm

theorem check_eq_ok {α : Type} [Decidable c] {x : Unit → Result α} {a : α} :
    (if c then (Result.fail e : Result Unit) >>= x else x ()) = .ok a ↔ ¬ c ∧ x () = .ok a := by
  by_cases h : c
  · rw [if_pos h]
    exact ⟨fun h' => (nomatch h'), fun h' => absurd h h'.1⟩
  · rw [if_neg h]
    exact ⟨fun h' => ⟨h, h'⟩, fun h' => h'.2⟩

/-! ## Sizes -/

theorem okOr_eq_ok {α : Type} {o : Option α} {a : α} : Result.okOr e o = .ok a ↔ o = some a := by
  cases o with
  | some b => exact ⟨fun h => congrArg some (Except.ok.inj h), fun h => congrArg Except.ok (Option.some.inj h)⟩
  | none => exact ⟨nofun, nofun⟩

/-- Planes from `cursor` on. -/
def Laid : Nat → List Plane → Prop
  | _, [] => True
  | cursor, p :: rest => p.offset = cursor ∧ cursor + p.len < WORD ∧ Laid (roundUp (cursor + p.len) PLANE_ALIGN) rest

theorem placePlanes_laid : ∀ {ps : List Plane} {cursor : Nat} {qs : List Plane}, placePlanes cursor ps = .ok qs →
    Laid cursor qs := by
  intro ps
  induction ps with
  | nil =>
    intro cursor qs h
    cases h
    trivial
  | cons p ps ih =>
    intro cursor qs h
    unfold placePlanes at h
    obtain ⟨elements, -, h⟩ := Fallible.bind_eq_ok.mp h
    obtain ⟨len, -, h⟩ := Fallible.bind_eq_ok.mp h
    obtain ⟨next, hnext, h⟩ := Fallible.bind_eq_ok.mp h
    obtain ⟨rest, hrest, h⟩ := Fallible.bind_eq_ok.mp h
    cases h
    obtain ⟨stop, hstop, hnext⟩ := Option.bind_eq_some_iff.mp (okOr_eq_ok.mp hnext)
    obtain ⟨hlt, rfl⟩ := checkedAdd_eq_some.mp hstop
    have halign : alignUp (cursor + len) (2 ^ 8) = some next := hnext
    obtain ⟨-, rfl⟩ := (alignUp_eq_some (by decide)).mp halign
    exact ⟨rfl, hlt, ih hrest⟩

theorem planes_laid {ps : List Plane} (h : t.planes shape = .ok ps) : Laid 0 ps := by
  unfold Term.planes at h
  obtain ⟨out, -, h⟩ := Fallible.bind_eq_ok.mp h
  exact placePlanes_laid h

/-- Where planes end. -/
def finish (ps : List Plane) : Nat := (ps.getLast?.map fun p => p.offset + p.len).getD 0

namespace Laid

variable {cursor : Nat} {ps : List Plane}

theorem le_offset : ∀ {ps : List Plane} {cursor : Nat}, Laid cursor ps → ∀ p ∈ ps, cursor ≤ p.offset := by
  intro ps
  induction ps with
  | nil => exact fun _ _ hp => (nomatch hp)
  | cons q ps ih =>
    intro cursor h p hp
    rcases mem_cons.mp hp with rfl | hp
    · exact h.1.ge
    · have hnext := ih h.2.2 p hp
      have hround : cursor + q.len ≤ roundUp (cursor + q.len) PLANE_ALIGN := le_roundUp (by decide)
      omega

/-- Each plane ends before the next ones begin. -/
theorem pairwise : ∀ {ps : List Plane} {cursor : Nat}, Laid cursor ps →
    ps.Pairwise fun p q => p.offset + p.len ≤ q.offset := by
  intro ps
  induction ps with
  | nil => exact fun _ => .nil
  | cons p ps ih =>
    intro cursor h
    refine .cons (fun q hq => ?_) (ih h.2.2)
    have hnext := le_offset h.2.2 q hq
    have hround : cursor + p.len ≤ roundUp (cursor + p.len) PLANE_ALIGN := le_roundUp (by decide)
    rw [h.1]
    omega

theorem aligned : ∀ {ps : List Plane} {cursor : Nat}, Laid cursor ps → PLANE_ALIGN ∣ cursor →
    ∀ p ∈ ps, PLANE_ALIGN ∣ p.offset := by
  intro ps
  induction ps with
  | nil => exact fun _ _ _ hp => (nomatch hp)
  | cons q ps ih =>
    intro cursor h hc p hp
    rcases mem_cons.mp hp with rfl | hp
    · rw [h.1]
      exact hc
    · exact ih h.2.2 (dvd_roundUp _ _) p hp

theorem lt_word : ∀ {ps : List Plane} {cursor : Nat}, Laid cursor ps → ∀ p ∈ ps, p.offset + p.len < WORD := by
  intro ps
  induction ps with
  | nil => exact fun _ _ hp => (nomatch hp)
  | cons q ps ih =>
    intro cursor h p hp
    rcases mem_cons.mp hp with rfl | hp
    · rw [h.1]
      exact h.2.1
    · exact ih h.2.2 p hp

theorem le_finish (h : Laid cursor ps) {p : Plane} (hp : p ∈ ps) : p.offset + p.len ≤ finish ps := by
  obtain ⟨q, hq⟩ : ∃ q, ps.getLast? = some q := by
    cases hlast : ps.getLast? with
    | some q => exact ⟨q, rfl⟩
    | none => exact absurd (getLast?_eq_none_iff.mp hlast) (ne_nil_of_mem hp)
  obtain ⟨front, hps⟩ := getLast?_eq_some_iff.mp hq
  have hfinish : finish ps = q.offset + q.len := by rw [finish, hq]; rfl
  have hpair := h.pairwise
  rw [hps] at hpair hp
  rcases mem_append.mp hp with hp | hp
  · have := (pairwise_append.mp hpair).2.2 p hp q mem_cons_self
    omega
  · rw [mem_singleton.mp hp, hfinish]

end Laid

theorem canonicalSize_eq_ok {n : Nat} :
    t.canonicalSize shape = .ok n ↔ ∃ ps, t.planes shape = .ok ps ∧ finish ps = n := by
  unfold Term.canonicalSize finish
  rw [Fallible.bind_eq_ok]
  refine exists_congr (fun ps => and_congr_right (fun hps => ?_))
  cases hlast : ps.getLast? with
  | none => exact ⟨fun h => Except.ok.inj h, fun h => congrArg Except.ok h⟩
  | some p =>
    have hlt := (planes_laid hps).lt_word p (mem_of_getLast? hlast)
    dsimp only
    rw [Result.plus, if_pos hlt]
    exact ⟨fun h => Except.ok.inj h, fun h => congrArg Except.ok h⟩

/-! ## No panic -/

theorem factorShape_calm {g : Group} (h : GroupPositive g) (shape : List Nat) :
    Calm (fun _ => True) (factorShape g shape) := by
  unfold factorShape
  cases g with
  | n n =>
    dsimp only
    split
    · exact .fail _
    · refine .ite (fun h0 => absurd h0 (ne_of_gt h)) (fun _ => .ite (fun _ => .fail _) (fun _ => trivial))
  | tile r c =>
    dsimp only
    split
    · exact .ite (fun h0 => absurd h0 (ne_of_gt h.1)) (fun _ => .ite (fun _ => .fail _)
        (fun _ => .ite (fun h0 => absurd h0 (ne_of_gt h.2)) (fun _ => .ite (fun _ => .fail _) (fun _ => trivial))))
    · exact .fail _
  | row =>
    dsimp only
    split
    · exact .fail _
    · trivial
  | tensor => trivial

mutual

theorem walk_calm : ∀ (t : Term), Positive t → ∀ shape path, Calm (fun _ => True) (walk t shape path)
  | .leaf _, _, _, _ => by
    unfold Ztensor.walk
    trivial
  | .group g _ gain offset, h, shape, path => by
    unfold Positive at h
    unfold Ztensor.walk
    refine (factorShape_calm h.1 shape).bind (fun factor _ => ?_)
    refine (walk_calm gain h.2.1 factor _).bind (fun _ _ => ?_)
    refine (walkOffset_calm offset h.2.2 factor _).bind (fun _ _ => ?_)
    trivial

theorem walkOffset_calm : ∀ (o : Offset), OffsetPositive o → ∀ factor path, Calm (fun _ => True) (walkOffset o factor path)
  | .none, _, _, _ => by
    unfold walkOffset
    trivial
  | .post t, h, factor, path => by
    unfold walkOffset
    unfold OffsetPositive at h
    exact walk_calm t h factor path
  | .pre t, h, factor, path => by
    unfold walkOffset
    unfold OffsetPositive at h
    exact walk_calm t h factor path

end

theorem placePlanes_calm : ∀ (ps : List Plane) (cursor : Nat), Calm (fun _ => True) (placePlanes cursor ps) := by
  intro ps
  induction ps with
  | nil => exact fun _ => trivial
  | cons p ps ih =>
    intro cursor
    unfold placePlanes
    refine Sound.bind (Calm.okOr (fun _ _ => trivial)) (fun elements _ => ?_)
    refine Sound.bind (Calm.okOr (fun _ _ => trivial)) (fun len _ => ?_)
    refine Sound.bind (Calm.okOr (fun _ _ => trivial)) (fun next _ => ?_)
    exact (ih next).bind (fun _ _ => trivial)

theorem planes_calm (h : Positive t) (shape : List Nat) :
    Calm (fun ps => t.planes shape = .ok ps) (t.planes shape) := by
  have hcalm : Calm (fun _ => True) (t.planes shape) := (walk_calm t h shape _).bind (fun out _ => placePlanes_calm out 0)
  cases hps : t.planes shape with
  | ok ps => rfl
  | error e => rw [hps] at hcalm; exact hcalm

theorem canonicalSize_calm (h : Positive t) (shape : List Nat) : Calm (fun _ => True) (t.canonicalSize shape) := by
  unfold Term.canonicalSize
  refine (planes_calm h shape).bind (fun ps hps => ?_)
  cases hlast : ps.getLast? with
  | none => trivial
  | some p =>
    have hlt := (planes_laid hps).lt_word p (mem_of_getLast? hlast)
    dsimp only
    rw [Result.plus, if_pos hlt]
    trivial

end Pie.Proof.Planes
