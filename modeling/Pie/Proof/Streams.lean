import Pie.Proof.Hazards

/-!
# The dependency schedule

What comes after what: regions on one lane in their order, and a region after
those whose events it waits on. The schedule puts every path of the closure into
that order, and its list of pairs names all that the order leaves open.

A wait is only made for the last region needed of a lane, and left out when the
lane has already waited past it. So what carries the proof is that a lane never
forgets: a region waited past once is before everything that follows on the lane.
-/

namespace Pie.Proof.Streams

open List Pie.Poem Lib Relation Function TransGen

/-- One region directly before another, among the first `k`. -/
def Link (laneOf : Nat → Nat) (sources : Nat → List Nat) (k a b : Nat) : Prop :=
  b < k ∧ a < b ∧ (laneOf a = laneOf b ∨ a ∈ sources b)

variable {τ : Type} {clock : Clock τ}

/-- What one scheduled region after another keeps. -/
structure Kept (path : Nat → Nat → Bool) (lanes k : Nat) (s : Sched τ) : Prop where
  lane : ∀ a < k, s.laneOf a < lanes
  stream : ∀ a < k, s.stream a = UInt32.ofNat (s.laneOf a)
  last_mem : ∀ l a, s.last l = some a → a < k ∧ s.laneOf a = l
  last_max : ∀ a < k, ∃ m, s.last (s.laneOf a) = some m ∧ a ≤ m
  fresh : ∀ r, k ≤ r → s.sources r = []
  source : ∀ r a, a ∈ s.sources r → a < r ∧ ∃ e, s.close a = some e ∧ e ∈ s.wait r
  synced : ∀ l t h, s.synced l t = some h → s.laneOf h = t ∧ ∃ r < k, s.laneOf r = l ∧ h ∈ s.sources r
  ordered : ∀ r < k, ∀ a < r, path a r = true → TransGen (Link s.laneOf s.sources k) a r

/-! ## What is needed -/

/-- What a region needs of each lane is a region of that lane before it. -/
def NeedOk (s : Sched τ) (r : Nat) (need : Nat → Option Nat) : Prop :=
  ∀ t m, need t = some m → m < r ∧ s.laneOf m = t

/-- All that comes before is covered. -/
def Covers (path : Nat → Nat → Bool) (s : Sched τ) (r k : Nat) (need : Nat → Option Nat) : Prop :=
  ∀ a < k, path a r = true → ∃ m, need (s.laneOf a) = some m ∧ a ≤ m

theorem later_spec (held : Option Nat) (a : Nat) :
    ∃ m, later held a = some m ∧ a ≤ m ∧ (∀ b, held = some b → b ≤ m) ∧ (m = a ∨ held = some m) := by
  cases held with
  | none => exact ⟨a, rfl, le_refl a, nofun, .inl rfl⟩
  | some b =>
    refine ⟨Nat.max b a, rfl, le_max_right b a, fun c hc => ?_, ?_⟩
    · cases hc
      exact le_max_left b a
    · rcases le_total b a with h | h
      · exact .inl (max_eq_right h)
      · exact .inr (congrArg some (max_eq_left h).symm)

variable {path : Nat → Nat → Bool}

theorem needs_spec {s : Sched τ} {r : Nat} :
    NeedOk s r (needs clock (fun a => path a r) s r).2 ∧ Covers path s r r (needs clock (fun a => path a r) s r).2 := by
  refine foldl_range_rule (fun k (st : τ × (Nat → Option Nat)) => NeedOk s r st.2 ∧ Covers path s r k st.2)
    ⟨fun _ m h => (nomatch (h : (none : Option Nat) = some m)), fun a ha => absurd ha (Nat.not_lt_zero a)⟩ ?_
  rintro k hk ⟨ready, need⟩ ⟨hok, hcov⟩
  dsimp only at hok hcov ⊢
  split
  · rename_i hpath
    obtain ⟨m, hm, hkm, hle, hor⟩ := later_spec (need (s.laneOf k)) k
    refine ⟨fun t x hx => ?_, fun a ha hp => ?_⟩
    · dsimp only at hx
      by_cases ht : t = s.laneOf k
      · subst ht
        rw [update_self, hm] at hx
        cases hx
        rcases hor with rfl | hheld
        · exact ⟨hk, rfl⟩
        · exact hok _ _ hheld
      · rw [update_of_ne ht] at hx
        exact hok t x hx
    · dsimp only
      by_cases hl : s.laneOf a = s.laneOf k
      · rw [hl, update_self, hm]
        refine ⟨m, rfl, ?_⟩
        rcases Nat.lt_succ_iff_lt_or_eq.mp ha with ha | rfl
        · obtain ⟨x, hx, hax⟩ := hcov a ha hp
          rw [hl] at hx
          exact hax.trans (hle x hx)
        · exact hkm
      · rw [update_of_ne hl]
        rcases Nat.lt_succ_iff_lt_or_eq.mp ha with ha | rfl
        · exact hcov a ha hp
        · exact absurd rfl hl
  · rename_i hpath
    refine ⟨hok, fun a ha hp => ?_⟩
    rcases Nat.lt_succ_iff_lt_or_eq.mp ha with ha | rfl
    · exact hcov a ha hp
    · exact absurd hp hpath

theorem needAll_spec {lanes r : Nat} {s : Sched τ} {need : Nat → Option Nat}
    (hkept : Kept path lanes r s) (hok : NeedOk s r need) (hcov : Covers path s r r need) :
    NeedOk s r (needAll s need) ∧ Covers path s r r (needAll s need) := by
  constructor
  · intro t m hm
    unfold needAll at hm
    split at hm
    · rename_i a ha
      obtain ⟨x, hx, -, -, hor⟩ := later_spec (need t) a
      rw [hx] at hm
      obtain rfl := Option.some.inj hm
      rcases hor with rfl | hheld
      · exact hkept.last_mem t x ha
      · exact hok t x hheld
    · exact hok t m hm
  · intro a ha hp
    obtain ⟨m, hm, ham⟩ := hcov a ha hp
    unfold needAll
    split
    · rename_i b hb
      obtain ⟨x, hx, -, hle, -⟩ := later_spec (need (s.laneOf a)) b
      exact ⟨x, hx, ham.trans (hle m hm)⟩
    · exact ⟨m, hm, ham⟩

/-- Joining the main lane takes nothing away of what other lanes are needed for. -/
theorem joinMain_spec {lanes r lane : Nat} {s : Sched τ} {need : Nat → Option Nat}
    (hkept : Kept path lanes r s) (hok : NeedOk s r need) :
    NeedOk s r (joinMain s lanes lane need)
      ∧ ∀ t < lanes, t ≠ lane → ∀ m, need t = some m → joinMain s lanes lane need t = some m := by
  unfold joinMain
  split
  · rename_i h
    split
    · rename_i a ha
      refine ⟨fun t m hm => ?_, fun t ht hne m hm => ?_⟩
      · by_cases h0 : t = 0
        · subst h0
          rw [update_self] at hm
          cases hm
          exact hkept.last_mem 0 a ha
        · rw [update_of_ne h0] at hm
          exact hok t m hm
      · -- nothing was needed of any other lane
        have hall := all_eq_true.mp h.2.2 t (mem_range.mpr ht)
        rw [hm, Bool.or_eq_true, beq_iff_eq] at hall
        rcases hall with hall | hall
        · exact absurd hall hne
        · cases hall
    · rename_i hnone
      rw [hnone]
      exact ⟨hok, fun _ _ _ _ hm => hm⟩
  · exact ⟨hok, fun _ _ _ _ hm => hm⟩

/-- What the waits of `r` have done after some of the lanes. -/
structure Waited (r lane : Nat) (need : Nat → Option Nat) (s₀ : Sched τ) (seen : List Nat) (s : Sched τ) : Prop where
  laneOf : s.laneOf = s₀.laneOf
  last : s.last = s₀.last
  stream : s.stream = s₀.stream
  close : ∀ a e, s₀.close a = some e → s.close a = some e
  others : ∀ r' ≠ r, s.sources r' = s₀.sources r' ∧ s.wait r' = s₀.wait r'
  source : ∀ a ∈ s.sources r, (∃ t, need t = some a) ∧ ∃ e, s.close a = some e ∧ e ∈ s.wait r
  synced : ∀ l t h, s.synced l t = some h → s₀.synced l t = some h ∨ (l = lane ∧ need t = some h ∧ h ∈ s.sources r)
  past : ∀ t ∈ seen, t ≠ lane → ∀ a, need t = some a → ∃ h, s.synced lane t = some h ∧ a ≤ h

theorem waitOn_spec {r lane t a : Nat} {need : Nat → Option Nat} {s₀ s : Sched τ} {seen : List Nat}
    (h : Waited r lane need s₀ seen s) (ha : need t = some a) :
    Waited r lane need s₀ (seen ++ [t]) (waitOn r lane t a s) := by
  have hclose : ∀ b e, s.close b = some e → (waitOn r lane t a s).close b = some e := by
    intro b e hb
    show update s.close a _ b = _
    by_cases hba : b = a
    · subst hba
      rw [update_self, hb]
      rfl
    · rwa [update_of_ne hba]
  have hself : (waitOn r lane t a s).close a = some ((s.close a).getD s.events) := update_self _ _ _
  have hwait : (waitOn r lane t a s).wait r = s.wait r ++ [(s.close a).getD s.events] := update_self _ _ _
  have hsrc : (waitOn r lane t a s).sources r = s.sources r ++ [a] := update_self _ _ _
  have hsync : ∀ l u, (waitOn r lane t a s).synced l u = if l = lane ∧ u = t then some a else s.synced l u := by
    intro l u
    show update s.synced lane _ l u = _
    by_cases hl : l = lane
    · subst hl
      rw [update_self]
      by_cases hu : u = t
      · subst hu
        rw [update_self, if_pos ⟨rfl, rfl⟩]
      · rw [update_of_ne hu, if_neg (fun hc => hu hc.2)]
    · rw [update_of_ne hl, if_neg (fun hc => hl hc.1)]
  refine ⟨h.laneOf, h.last, h.stream, fun b e hb => hclose b e (h.close b e hb), fun r' hne => ?_, fun b hb => ?_,
    fun l u x hx => ?_, fun u hu hne b hb => ?_⟩
  · obtain ⟨h1, h2⟩ := h.others r' hne
    exact ⟨(update_of_ne hne _ _).trans h1, (update_of_ne hne _ _).trans h2⟩
  · rw [hsrc, mem_append, mem_singleton] at hb
    rw [hwait]
    rcases hb with hb | rfl
    · obtain ⟨hn, e, he, hmem⟩ := h.source b hb
      exact ⟨hn, e, hclose b e he, mem_append_left _ hmem⟩
    · exact ⟨⟨t, ha⟩, _, hself, mem_append_right _ (mem_singleton_self _)⟩
  · rw [hsync] at hx
    rw [hsrc]
    split at hx
    · rename_i hc
      cases hx
      rw [hc.2]
      exact .inr ⟨hc.1, ha, mem_append_right _ (mem_singleton_self _)⟩
    · rcases h.synced l u x hx with hx | ⟨h1, h2, h3⟩
      · exact .inl hx
      · exact .inr ⟨h1, h2, mem_append_left _ h3⟩
  · rw [hsync]
    by_cases hut : u = t
    · subst hut
      rw [if_pos ⟨rfl, rfl⟩]
      cases ha.symm.trans hb
      exact ⟨a, rfl, le_refl a⟩
    · rw [if_neg (fun hc => hut hc.2)]
      rw [mem_append, mem_singleton] at hu
      exact h.past u (hu.resolve_right hut) hne b hb

theorem waits_spec {r lane lanes : Nat} {need : Nat → Option Nat} {s : Sched τ} (hfresh : s.sources r = []) :
    Waited r lane need s (range lanes) (waits r lane lanes need s) := by
  unfold waits
  have hnone : ∀ a, a ∉ s.sources r := by
    rw [hfresh]
    exact fun _ h => (nomatch h)
  have hinit : Waited r lane need s [] s :=
    ⟨rfl, rfl, rfl, fun _ _ h => h, fun _ _ => ⟨rfl, rfl⟩, fun a ha => absurd ha (hnone a),
      fun _ _ _ h => .inl h, fun _ h => (nomatch h)⟩
  refine foldl_seen_rule (fun seen st => Waited r lane need s seen st) ?_ hinit
  intro seen t st h
  -- a lane that asks for nothing more
  have hskip : (∀ a, t ≠ lane → need t = some a → ∃ x, st.synced lane t = some x ∧ a ≤ x) →
      Waited r lane need s (seen ++ [t]) st := by
    intro hpast
    refine ⟨h.laneOf, h.last, h.stream, h.close, h.others, h.source, h.synced, fun u hu hne b hb => ?_⟩
    rw [mem_append, mem_singleton] at hu
    rcases hu with hu | rfl
    · exact h.past u hu hne b hb
    · exact hpast b hne hb
  split
  · rename_i ht
    exact hskip (fun _ hne _ => absurd ht hne)
  · split
    · rename_i hnone
      exact hskip (fun a _ ha => (nomatch hnone.symm.trans ha))
    · rename_i a ha
      split
      · rename_i hheld
        refine hskip (fun b _ hb => ?_)
        cases ha.symm.trans hb
        cases hx : st.synced lane t with
        | none =>
          rw [hx] at hheld
          cases hheld
        | some x =>
          rw [hx] at hheld
          exact ⟨x, rfl, of_decide_eq_true hheld⟩
      · exact waitOn_spec h ha

/-! ## One region scheduled -/

section

variable {path : Nat → Nat → Bool} {lanes k : Nat} {s : Sched τ}

theorem earliest_lt {start : Nat → τ} (hlanes : 0 < lanes) : earliest clock start lanes < lanes := by
  unfold earliest
  split
  · exact hlanes
  · rename_i l ls heq
    have hlt : ∀ y ∈ l :: ls, y < lanes := fun y hy => mem_range.mp (heq ▸ hy)
    rw [forall_mem_cons] at hlt
    refine foldlRecOn (motive := (· < lanes)) ls _ hlt.1 fun x hx y hy => ?_
    split
    · exact hlt.2 y hy
    · exact hx

theorem chooseLane_lt (hlanes : 0 < lanes) (fixed : Option (List Nat)) (start : Nat) (barrier : Bool) (ready : τ) :
    chooseLane clock s lanes fixed start barrier ready < lanes := by
  unfold chooseLane
  split
  · exact hlanes
  · split
    · rename_i lane
      cases lane[start]? with
      | none => exact hlanes
      | some l =>
        show Nat.min l (lanes - 1) < lanes
        exact lt_of_le_of_lt (min_le_right l (lanes - 1)) (by omega)
    · exact earliest_lt hlanes

theorem Link.mono {laneOf laneOf' : Nat → Nat} {sources sources' : Nat → List Nat} {k k' a b : Nat}
    (hk : k ≤ k') (hl : ∀ a < k, laneOf' a = laneOf a) (hs : ∀ a < k, sources' a = sources a)
    (h : Link laneOf sources k a b) : Link laneOf' sources' k' a b := by
  obtain ⟨hb, hab, hor⟩ := h
  refine ⟨by omega, hab, ?_⟩
  rw [hl a (by omega), hl b hb, hs b hb]
  exact hor

/-- **The step.** What is needed of another lane is waited on, or the lane has waited past it. -/
theorem place_kept {lane : Nat} {need : Nat → Option Nat} {s' : Sched τ} {ready cost : τ} (hkept : Kept path lanes k s)
    (hlane : lane < lanes) (hok : NeedOk s k need)
    (hcov : ∀ a < k, path a k = true → s.laneOf a ≠ lane → ∃ m, need (s.laneOf a) = some m ∧ a ≤ m)
    (hw : Waited k lane need s (range lanes) s') :
    Kept path lanes (k + 1) (place clock k lane ready cost s') := by
  have hlaneOf : ∀ a, (place clock k lane ready cost s').laneOf a = if a = k then lane else s.laneOf a := by
    intro a
    show update s'.laneOf k lane a = _
    rw [hw.laneOf, update_apply]
  have hlast : ∀ l, (place clock k lane ready cost s').last l = if l = lane then some k else s.last l := by
    intro l
    show update s'.last lane (some k) l = _
    rw [hw.last, update_apply]
  have hold : ∀ a < k, (place clock k lane ready cost s').laneOf a = s.laneOf a := by
    intro a ha
    rw [hlaneOf, if_neg (by omega)]
  have hsrcs : ∀ r ≠ k, s'.sources r = s.sources r := fun r hne => (hw.others r hne).1
  have hlink : ∀ a b, Link s.laneOf s.sources k a b →
      Link (place clock k lane ready cost s').laneOf s'.sources (k + 1) a b :=
    fun a b h => h.mono (Nat.le_succ k) hold (fun a ha => hsrcs a (by omega))
  refine ⟨fun a ha => ?_, fun a ha => ?_, fun l a hl => ?_, fun a ha => ?_, fun r hr => ?_, fun r a ha => ?_,
    fun l t h hs => ?_, fun r hr a har hp => ?_⟩
  · rw [hlaneOf]
    split
    · exact hlane
    · exact hkept.lane a (by omega)
  · show update s'.stream k _ a = _
    rw [hlaneOf, hw.stream, update_apply]
    split
    · rfl
    · exact hkept.stream a (by omega)
  · rw [hlast] at hl
    split at hl
    · rename_i hll
      cases hl
      rw [hlaneOf, if_pos rfl]
      exact ⟨Nat.lt_succ_self _, hll.symm⟩
    · obtain ⟨h1, h2⟩ := hkept.last_mem l a hl
      rw [hold a h1]
      exact ⟨by omega, h2⟩
  · rw [hlaneOf]
    split
    · rename_i hak
      rw [hlast, if_pos rfl]
      exact ⟨k, rfl, by omega⟩
    · obtain ⟨m, hm, ham⟩ := hkept.last_max a (by omega)
      rw [hlast]
      split
      · exact ⟨k, rfl, by omega⟩
      · exact ⟨m, hm, ham⟩
  · exact (hsrcs r (by omega)).trans (hkept.fresh r (by omega))
  · by_cases hrk : r = k
    · subst hrk
      obtain ⟨⟨t, ht⟩, he⟩ := hw.source a ha
      exact ⟨(hok t a ht).1, he⟩
    · have ha' : a ∈ s.sources r := (hsrcs r hrk) ▸ ha
      obtain ⟨har, e, he, hmem⟩ := hkept.source r a ha'
      exact ⟨har, e, hw.close a e he, (hw.others r hrk).2 ▸ hmem⟩
  · rcases hw.synced l t h hs with hs | ⟨rfl, ht, hmem⟩
    · obtain ⟨h1, r, hr, h2, h3⟩ := hkept.synced l t h hs
      have hh := (hkept.source r h h3).1
      refine ⟨by rw [hold h (by omega)]; exact h1, r, by omega, by rw [hold r hr]; exact h2, ?_⟩
      show h ∈ s'.sources r
      rw [hsrcs r (by omega)]
      exact h3
    · obtain ⟨h1, h2⟩ := hok t h ht
      refine ⟨by rw [hold h h1]; exact h2, k, Nat.lt_succ_self k, ?_, hmem⟩
      rw [hlaneOf, if_pos rfl]
  · rcases Nat.lt_succ_iff_lt_or_eq.mp hr with hrk | rfl
    · exact mono hlink _ _ (hkept.ordered r hrk a har hp)
    · by_cases hsame : s.laneOf a = lane
      · refine single ⟨Nat.lt_succ_self r, har, .inl ?_⟩
        rw [hold a har, hlaneOf, if_pos rfl, hsame]
      · obtain ⟨m, hm, ham⟩ := hcov a har hp hsame
        obtain ⟨hmr, hml⟩ := hok _ m hm
        obtain ⟨h, hh, hmh⟩ := hw.past (s.laneOf a) (mem_range.mpr (hkept.lane a har)) hsame m hm
        -- up the lane of `a` to what was waited on
        have hup : ∀ x, a ≤ x → x < r → s.laneOf x = s.laneOf a →
            ReflTransGen (Link (place clock r lane ready cost s').laneOf s'.sources (r + 1)) a x := by
          intro x hax hxr hx
          rcases lt_or_eq_of_le hax with hlt | rfl
          · refine ReflTransGen.single ⟨by omega, hlt, .inl ?_⟩
            rw [hold a har, hold x hxr, hx]
          · exact ReflTransGen.refl
        rcases hw.synced lane _ h hh with hs | ⟨-, ht, hmem⟩
        · -- the lane waited past it before, and comes to `r` from there
          obtain ⟨h1, q, hq, h2, h3⟩ := hkept.synced lane _ h hs
          have hhq := (hkept.source q h h3).1
          have hwait : Link (place clock r lane ready cost s').laneOf s'.sources (r + 1) h q :=
            hlink h q ⟨hq, hhq, .inr h3⟩
          refine tail' ((hup h (ham.trans hmh) (by omega) h1).tail hwait) ⟨Nat.lt_succ_self r, hq, .inl ?_⟩
          rw [hold q hq, hlaneOf, if_pos rfl, h2]
        · obtain ⟨hhr, hhl⟩ := hok _ h ht
          exact tail' (hup h (ham.trans hmh) hhr hhl) ⟨Nat.lt_succ_self r, hhr, .inr hmem⟩

theorem schedule_kept {eligible : Nat → Bool} {cost : Nat → τ} {start : Nat → Nat} {fixed : Option (List Nat)} {n : Nat}
    (hlanes : 0 < lanes) (hkept : Kept path lanes k s) :
    Kept path lanes (k + 1) (schedule clock path eligible cost start fixed lanes n s k) := by
  obtain ⟨hok, hcov⟩ := @needs_spec τ clock path s k
  obtain ⟨hok', hcov'⟩ := needAll_spec hkept hok hcov
  unfold schedule
  dsimp only
  have hlane := @chooseLane_lt τ clock lanes s hlanes fixed (start k) (!eligible k || k + 1 == n)
    (needs clock (fun a => path a k) s k).1
  obtain ⟨hbok, hbcov⟩ : NeedOk s k (if (!eligible k || k + 1 == n) = true then
        needAll s (needs clock (fun a => path a k) s k).2 else (needs clock (fun a => path a k) s k).2)
      ∧ Covers path s k k (if (!eligible k || k + 1 == n) = true then
        needAll s (needs clock (fun a => path a k) s k).2 else (needs clock (fun a => path a k) s k).2) := by
    split
    · exact ⟨hok', hcov'⟩
    · exact ⟨hok, hcov⟩
  obtain ⟨hjok, hjoin⟩ := @joinMain_spec τ path lanes k (chooseLane clock s lanes fixed (start k)
    (!eligible k || k + 1 == n) (needs clock (fun a => path a k) s k).1) s _ hkept hbok
  refine place_kept hkept hlane hjok (fun a ha hp hne => ?_) (waits_spec (hkept.fresh k (le_refl k)))
  obtain ⟨m, hm, ham⟩ := hbcov a ha hp
  exact ⟨m, hjoin _ (hkept.lane a ha) hne m hm, ham⟩

end

/-- What the pass over the regions has found after the first `k`. -/
structure Sided (laneOf : Nat → Nat) (sources : Nat → List Nat) (k : Nat) (s : Sides) : Prop where
  before : ∀ r < k, ∀ a, Bits.has (s.before r) a = true → TransGen (Link laneOf sources k) a r
  prev : ∀ l p, s.prev l = some p → p < k ∧ laneOf p = l
  pairs : ∀ r < k, ∀ a < r, laneOf a ≠ laneOf r → Bits.has (s.before r) a = false →
    (UInt32.ofNat a, UInt32.ofNat r) ∈ s.pairs

theorem sides_sided {laneOf : Nat → Nat} {sources : Nat → List Nat} {k : Nat} {s : Sides}
    (hsrc : ∀ a ∈ sources k, a < k) (h : Sided laneOf sources k s) :
    Sided laneOf sources (k + 1) (sides laneOf sources s k) := by
  have hmono : ∀ a b, Link laneOf sources k a b → Link laneOf sources (k + 1) a b :=
    fun a b hl => hl.mono (Nat.le_succ k) (fun _ _ => rfl) (fun _ _ => rfl)
  -- a region directly before `k`, and all that is before it
  have hup : ∀ (set p : Nat), p < k → Link laneOf sources (k + 1) p k →
      (∀ a, Bits.has set a = true → TransGen (Link laneOf sources (k + 1)) a k) →
      ∀ a, Bits.has (upTo s.before set p) a = true → TransGen (Link laneOf sources (k + 1)) a k := by
    intro set p hp hlink hset a ha
    unfold upTo at ha
    rw [Bits.has_or, Bits.has_add, Bool.or_eq_true, Bool.or_eq_true, decide_eq_true_eq] at ha
    rcases ha with (ha | rfl) | ha
    · exact hset a ha
    · exact single hlink
    · exact (mono hmono _ _ (h.before p hp a ha)).tail hlink
  have hzero : ∀ a, Bits.has 0 a = true → TransGen (Link laneOf sources (k + 1)) a k := by
    intro a ha
    rw [Bits.has_zero] at ha
    cases ha
  -- the sources only add what is before them, whatever the lane began with
  have hset : ∀ set, (∀ a, Bits.has set a = true → TransGen (Link laneOf sources (k + 1)) a k) →
      ∀ a, Bits.has ((sources k).foldl (upTo s.before) set) a = true → TransGen (Link laneOf sources (k + 1)) a k := by
    have key : ∀ (l : List Nat) (set : Nat), (∀ x ∈ l, x ∈ sources k) →
        (∀ a, Bits.has set a = true → TransGen (Link laneOf sources (k + 1)) a k) →
        ∀ a, Bits.has (l.foldl (upTo s.before) set) a = true → TransGen (Link laneOf sources (k + 1)) a k := by
      intro l
      induction l with
      | nil => exact fun _ _ hset => hset
      | cons x l ih =>
        intro set hsub hset
        rw [forall_mem_cons] at hsub
        exact ih _ hsub.2 (hup set x (hsrc x hsub.1) ⟨Nat.lt_succ_self k, hsrc x hsub.1, .inr hsub.1⟩ hset)
    exact fun set => key (sources k) set fun _ hx => hx
  refine ⟨fun r hr a ha => ?_, fun l p hp => ?_, fun r hr a har hne hno => ?_⟩
  · have ha' : Bits.has (update s.before k _ r) a = true := ha
    rcases Nat.lt_succ_iff_lt_or_eq.mp hr with hrk | rfl
    · rw [update_of_ne (by omega)] at ha'
      exact mono hmono _ _ (h.before r hrk a ha')
    · rw [update_self] at ha'
      refine hset _ (fun a ha => ?_) a ha'
      split at ha
      · rename_i p hp
        obtain ⟨h1, h2⟩ := h.prev _ p hp
        exact hup 0 p h1 ⟨Nat.lt_succ_self _, h1, .inl h2⟩ hzero a ha
      · exact hzero a ha
  · have hp' : update s.prev (laneOf k) (some k) l = some p := hp
    rw [update_apply] at hp'
    split at hp'
    · rename_i hl
      cases hp'
      exact ⟨Nat.lt_succ_self _, hl.symm⟩
    · obtain ⟨h1, h2⟩ := h.prev l p hp'
      exact ⟨by omega, h2⟩
  · have hno' : Bits.has (update s.before k _ r) a = false := hno
    rcases Nat.lt_succ_iff_lt_or_eq.mp hr with hrk | rfl
    · rw [update_of_ne (by omega)] at hno'
      exact mem_append_left _ (h.pairs r hrk a har hne hno')
    · rw [update_self] at hno'
      refine mem_append_right _ (mem_map.mpr ⟨a, mem_filter.mpr ⟨mem_range.mpr har, ?_⟩, rfl⟩)
      rw [hno', Bool.not_false, Bool.and_true]
      exact bne_iff_ne.mpr hne

/-! ## The plan -/

/-- One region directly before another: earlier on its stream, or closing with an event it waits on. -/
def Edge (regions : List Region) (a b : Nat) : Prop :=
  ∃ ra rb, regions[a]? = some ra ∧ regions[b]? = some rb
    ∧ ((a < b ∧ ra.stream = rb.stream) ∨ ∃ e ∈ rb.wait, ra.close = some e)

/-- The order the streams and their events keep. -/
def HappensBefore (regions : List Region) : Nat → Nat → Prop := TransGen (Edge regions)

section

variable (clock : Clock τ) (cost : Region → τ) (trace : Trace) (regions : List Region) (profile : DeviceProfile)
  (fixed : Option (List Nat))

theorem scheduleAll_kept :
    Kept (Poem.path (closure (edgeAt trace regions profile) regions.length)) (1 + profile.sideStreams.toNat)
      regions.length (scheduleAll clock cost trace regions profile fixed) := by
  unfold scheduleAll
  refine foldl_range_rule (fun k s => Kept _ _ k s) ?_ (fun k _ s hs => schedule_kept (by omega) hs)
  refine ⟨?_, ?_, ?_, ?_, fun _ _ => rfl, ?_, ?_, ?_⟩
  · exact fun a ha => absurd ha (Nat.not_lt_zero a)
  · exact fun a ha => absurd ha (Nat.not_lt_zero a)
  · exact fun l a h => (nomatch (h : (none : Option Nat) = some a))
  · exact fun a ha => absurd ha (Nat.not_lt_zero a)
  · exact fun r a h => (nomatch (h : a ∈ ([] : List Nat)))
  · exact fun l t h hs => (nomatch (hs : (none : Option Nat) = some h))
  · exact fun r hr => absurd hr (Nat.not_lt_zero r)

theorem sides_kept {path : Nat → Nat → Bool} {lanes : Nat} {s : Sched τ} (hkept : Kept path lanes regions.length s) :
    Sided s.laneOf s.sources regions.length
      ((range regions.length).foldl (sides s.laneOf s.sources) ⟨fun _ => 0, fun _ => none, []⟩) := by
  refine foldl_range_rule (fun k side => Sided s.laneOf s.sources k side) ?_
    (fun k _ side hside => sides_sided (fun a ha => (hkept.source k a ha).1) hside)
  refine ⟨?_, ?_, ?_⟩
  · exact fun r hr => absurd hr (Nat.not_lt_zero r)
  · exact fun l p h => (nomatch (h : (none : Option Nat) = some p))
  · exact fun r hr => absurd hr (Nat.not_lt_zero r)

end

theorem happensBefore_of_link {lanes : Nat} {s : Sched τ} {regions : List Region}
    (hkept : Kept path lanes regions.length s) {a b : Nat} (h : TransGen (Link s.laneOf s.sources regions.length) a b) :
    HappensBefore (regions.mapIdx
      (fun r region => { region with stream := s.stream r, wait := s.wait r, close := s.close r })) a b := by
  refine mono (fun a b h => ?_) _ _ h
  obtain ⟨hb, hab, hor⟩ := h
  refine ⟨_, _, getElem?_mapIdx.trans (by rw [getElem?_eq_getElem (by omega)]; rfl),
    getElem?_mapIdx.trans (by rw [getElem?_eq_getElem hb]; rfl), ?_⟩
  rcases hor with hlane | hsrc
  · refine .inl ⟨hab, ?_⟩
    show s.stream a = s.stream b
    rw [hkept.stream a (by omega), hkept.stream b hb, hlane]
  · obtain ⟨_, e, he, hmem⟩ := hkept.source b a hsrc
    exact .inr ⟨e, hmem, he⟩

/-- **The dependency schedule is sound and its list of pairs complete.** Regions that conflict keep their
order, and regions of two streams that nothing orders are listed. -/
theorem forkDag_sound {τ : Type} (clock : Clock τ) (cost : Region → τ) (trace : Trace) (hacyclic : Acyclic trace)
    (regions : List Region) (hnew : regions.length < 3 → ∀ region ∈ regions, region.stream = 0)
    (profile : DeviceProfile) (hside : profile.sideStreams ≠ 0) (fixed : Option (List Nat)) :
    (∀ (a b : Nat) (ra rb : Region), a < b → regions[a]? = some ra → regions[b]? = some rb →
        Conflict trace profile ra rb → HappensBefore (forkDag clock cost trace regions profile fixed).1 a b)
      ∧ ∀ (a b : Nat) (ra rb : Region), a < b → (forkDag clock cost trace regions profile fixed).1[a]? = some ra →
        (forkDag clock cost trace regions profile fixed).1[b]? = some rb → ra.stream ≠ rb.stream →
        ¬HappensBefore (forkDag clock cost trace regions profile fixed).1 a b →
          (UInt32.ofNat a, UInt32.ofNat b) ∈ (forkDag clock cost trace regions profile fixed).2.pairs := by
  by_cases hshort : profile.sideStreams = 0 ∨ regions.length < 3
  · -- too few regions to fork: all on the main stream
    have hrun : forkDag clock cost trace regions profile fixed = (regions, ⟨[], 0, 1, 0⟩) := if_pos hshort
    rw [hrun]
    have hzero : ∀ {a : Nat} {ra : Region}, regions[a]? = some ra → ra.stream = 0 :=
      fun h => hnew (hshort.resolve_left hside) _ (mem_of_getElem? h)
    refine ⟨fun a b ra rb hab ha hb _ => ?_, fun a b ra rb _ ha hb hne _ => ?_⟩
    · exact TransGen.single ⟨ra, rb, ha, hb, Or.inl ⟨hab, (hzero ha).trans (hzero hb).symm⟩⟩
    · exact absurd ((hzero ha).trans (hzero hb).symm) hne
  · have hkept := scheduleAll_kept clock cost trace regions profile fixed
    have hsided := sides_kept regions hkept
    unfold forkDag
    rw [if_neg hshort]
    dsimp only
    refine ⟨fun a b ra rb hab ha hb hconflict => ?_, fun a b ra rb hab ha hb hne hopen => ?_⟩
    · have hlt : b < regions.length := (List.getElem?_eq_some_iff.mp hb).1
      refine happensBefore_of_link hkept (hkept.ordered b hlt a hab ?_)
      exact path_of_edge hab hlt (edge_of_conflict hacyclic ha hb hconflict)
    · have hlt : b < regions.length := by
        have := (List.getElem?_eq_some_iff.mp hb).1
        rwa [length_mapIdx] at this
      have hstream : ∀ {r : Nat} {region : Region}, r < regions.length → (regions.mapIdx (fun r region =>
          { region with
            stream := (scheduleAll clock cost trace regions profile fixed).stream r
            wait := (scheduleAll clock cost trace regions profile fixed).wait r
            close := (scheduleAll clock cost trace regions profile fixed).close r }))[r]? = some region →
          region.stream = UInt32.ofNat ((scheduleAll clock cost trace regions profile fixed).laneOf r) := by
        intro r region hr h
        rw [getElem?_mapIdx, getElem?_eq_getElem hr] at h
        cases h
        exact hkept.stream r hr
      refine hsided.pairs b hlt a hab (fun hlane => hne ?_) (Bool.eq_false_iff.mpr (fun hhas => hopen ?_))
      · rw [hstream (by omega) ha, hstream hlt hb, hlane]
      · exact happensBefore_of_link hkept (hsided.before b hlt a hhas)

/-! ## Examples -/

theorem acyclic_of_lt {trace : Trace} (h : ∀ a m, Arm trace a m → a < m) : Acyclic trace := by
  have hlt : ∀ a m, TransGen (Arm trace) a m → a < m := by
    intro a m ham
    induction ham with
    | single h1 => exact h _ _ h1
    | tail _ h1 ih => exact ih.trans (h _ _ h1)
  exact fun v hv => lt_irrefl v (hlt v v hv)

def ticks : Clock Nat := ⟨0, (· + ·), Nat.max, compare⟩

def opOf (inputs outputs : List ValueId) : Node := ⟨⟨.linear, "linear.matmul", inputs, outputs, []⟩, .always⟩

def valueOf (defn : Def) : ValueDecl := ⟨defn, .tensor [.tokens] .f32⟩

/-- One region for each of four nodes. -/
def fourRegions : List Region := (List.range 4).map (fun n =>
  { start := n, stop := n + 1, mask := ⟨3⟩, phase := .capture, lowering := .alwaysLaunch, stream := 0, wait := [],
    opens := none, close := none, collective := false })

def twoStreams : DeviceProfile := ⟨1, 0, []⟩

/-- The third node reads a merge of what the first two write. -/
def merged : Trace where
  caches := []
  values := [valueOf (.input .tokens), valueOf (.op 0), valueOf (.op 1),
    valueOf (.merge [(1, .fact 0), (2, .not (.fact 0))]), valueOf (.op 2), valueOf (.op 3)]
  nodes := [opOf [0] [1], opOf [0] [2], opOf [3] [4], opOf [4] [5]]
  seams := []

theorem forkDag_sound_merged : HappensBefore (forkDag ticks (fun _ => 1) merged fourRegions twoStreams none).1 0 2 := by
  have hacyclic : Acyclic merged := by
    refine acyclic_of_lt ?_
    rintro a m ⟨armList, hm, ha⟩
    rcases m with _ | _ | _ | _ | _ | _ | m
    all_goals simp [Trace.defn, merged, valueOf] at hm
    subst hm
    simp at ha
    rcases ha with rfl | rfl
    · decide
    · decide
  refine (forkDag_sound ticks (fun _ => 1) merged hacyclic fourRegions (by decide) twoStreams (by decide) none).1 0 2 _ _
    (by decide) rfl rfl (.value (v := 1) rfl (Or.inl ⟨⟨_, mem_singleton_self _, mem_singleton_self _⟩,
      Or.inl ⟨_, mem_singleton_self _, 3, mem_singleton_self _, ?_⟩⟩))
  exact .arm ⟨_, rfl, mem_cons_self⟩ (.self (d := .op 0) rfl (by simp))

/-- Two merges that are arms of each other, each standing for one of two values in either class. The third
node reads the second of them. -/
def looped : Trace where
  caches := []
  values := [valueOf (.merge [(1, .fact 0), (2, .not (.fact 0))]), valueOf (.merge [(0, .not (.fact 0)), (3, .fact 0)]),
    valueOf (.op 0), valueOf (.op 1), valueOf (.op 2), valueOf (.op 3), valueOf (.input .tokens)]
  nodes := [opOf [6] [2], opOf [6] [3], opOf [1] [4], opOf [4] [5]]
  seams := []

/-- With merges in a loop a region can read what another writes, and nothing orders the two. -/
theorem forkDag_looped :
    ¬∀ (trace : Trace) (regions : List Region), (regions.length < 3 → ∀ region ∈ regions, region.stream = 0) →
      ∀ (profile : DeviceProfile), profile.sideStreams ≠ 0 → ∀ (fixed : Option (List Nat)) (a b : Nat) (ra rb : Region),
        a < b → regions[a]? = some ra → regions[b]? = some rb → Conflict trace profile ra rb →
          HappensBefore (forkDag ticks (fun _ => 1) trace regions profile fixed).1 a b := by
  intro h
  have hbefore := h looped fourRegions (by decide) twoStreams (by decide) (some [1, 0, 0, 0]) 0 2 _ _ (by decide) rfl rfl
    (.value (v := 2) rfl (Or.inl ⟨⟨_, mem_singleton_self _, mem_singleton_self _⟩,
      Or.inl ⟨_, mem_singleton_self _, 1, mem_singleton_self _,
        .arm ⟨_, rfl, mem_cons_self⟩ (.arm (a := 2) ⟨_, rfl, by decide⟩ (.self (d := .op 0) rfl (by simp)))⟩⟩))
  have hrun : (forkDag ticks (fun _ => 1) looped fourRegions twoStreams (some [1, 0, 0, 0])).1.map
      (fun region => (region.stream, region.wait, region.close))
      = [(1, [], some 0), (0, [], none), (0, [], none), (0, [0], none)] := by decide +kernel
  obtain ⟨out, hout⟩ : ∃ out, out = (forkDag ticks (fun _ => 1) looped fourRegions twoStreams (some [1, 0, 0, 0])).1 :=
    ⟨_, rfl⟩
  rw [← hout] at hrun hbefore
  -- from the first region the order leads to the last one only
  have hat : ∀ {r : Nat} {region : Region}, out[r]? = some region →
      ([(1, [], some 0), (0, [], none), (0, [], none), (0, [0], none)] :
        List (UInt32 × List EventId × Option EventId))[r]? = some (region.stream, region.wait, region.close) := by
    intro r region hr
    rw [← hrun, getElem?_map, hr]
    rfl
  have hedge : ∀ a b, a = 0 ∨ a = 3 → Edge out a b → b = 3 := by
    rintro a b ha ⟨ra, rb, hra, hrb, hor⟩
    have hra := hat hra
    have hrb := hat hrb
    have hb : b < 4 := (List.getElem?_eq_some_iff.mp hrb).1
    interval_cases b
    all_goals rcases ha with rfl | rfl
    all_goals simp at hra hrb
    all_goals simp [← hra.1, ← hra.2.2, ← hrb.1, hrb.2.1] at hor ⊢
  have hend : ∀ b, HappensBefore out 0 b → b = 3 := by
    intro b hb
    induction hb with
    | single h => exact hedge 0 _ (Or.inl rfl) h
    | tail _ h ih => exact hedge _ _ (Or.inr ih) h
  exact absurd (hend 2 hbefore) (by decide)

end Pie.Proof.Streams
