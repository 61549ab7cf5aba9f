import Pie.Proof.ArenaLives
import Pie.Proof.ArenaPacking

/-!
# The arena holds what it must

What a carved arena promises. Two slots whose bytes meet are never live together
or are co-tenants; every slot is within the arena and aligned; climbing aliases
ends; and the window of a fire within the ceilings is within the slot it reads.
-/

namespace Pie.Proof.Arranging

open List Option Pie.Poem Pie.Poem.Arena Lib Aliases Lifetimes Packing

/-- The rectangle of one slot is the rectangle of the other, cut per class, in classes of its own. -/
structure CoTenants (map : ArenaMap) (a b : Nat) (x y : Slot) : Prop where
  same : x = y
  cut : x.rows.cutPerClass = true
  mates : Mates map.liveIn a b

structure Arranged (budgets : Budgets) (conc : Concurrency) (map : ArenaMap) : Prop where
  forest : Forest map.placements
  carved : ∀ (v : ValueId) slot, map.placements[v]? = some (.arena slot) → ∃ elem, Carved budgets slot elem
  spanned : ∀ (v : ValueId) slot, map.placements[v]? = some (.arena slot) → ∃ span, map.spans[v]? = some (some span)
  bounded : ∀ (v : ValueId) slot, map.placements[v]? = some (.arena slot) →
    slot.offset + slot.bytes ≤ map.bytes ∧ BIND_ALIGN ∣ slot.offset
  apart : ∀ (a b : ValueId) x y sa sb, a ≠ b → map.placements[a]? = some (.arena x) →
    map.placements[b]? = some (.arena y) → map.spans[a]? = some (some sa) → map.spans[b]? = some (some sb) →
    Together conc sa sb → x.offset < y.offset + y.bytes → y.offset < x.offset + x.bytes → CoTenants map a b x y

/-! ## Carving -/

theorem bytes_of_pitch {budgets : Budgets} {x y : Slot} {ex ey : Nat} (hx : Carved budgets x ex)
    (hy : Carved budgets y ey) (hpitch : pitchOf x = pitchOf y) (hsome : (pitchOf x).isSome = true) :
    x.rows.cutPerClass = true ∧ (x.offset = y.offset → x = y) := by
  unfold pitchOf at hpitch hsome
  split at hsome
  · rename_i hcut
    rw [if_pos hcut] at hpitch
    split at hpitch
    · obtain ⟨hrows, hwidth, hdtype⟩ : x.rows = y.rows ∧ x.width = y.width ∧ x.dtype = y.dtype := by
        simpa using hpitch
      have helem : ex = ey := by
        have h := hx.sized
        rw [hdtype, hy.sized] at h
        exact (some.inj h).symm
      refine ⟨hcut, fun hoffset => ?_⟩
      have hbytes := hx.bytes
      rw [hrows, hwidth, helem, ← hy.bytes] at hbytes
      cases x
      cases y
      simp only at *
      subst_vars
      rfl
    · cases hpitch
  · cases hsome

theorem arranged_of_packed {budgets : Budgets} {n : Nat} {conc : Concurrency} {held : Lives}
    {placements ps : List Placement} {bytes : Nat} (ht : Tabled budgets n placements)
    (hspan : ∀ (i : Nat) slot, placements[i]? = some (.arena slot) → ∃ span, held.spans[i]? = some (some span))
    (hp : Packed conc held placements ps bytes) :
    Arranged budgets conc { placements := ps, spans := held.spans, liveIn := held.liveIn, bytes := bytes } := by
  -- a slot of the packed table is a slot of the table before, at its offset
  have hfrom : ∀ (i : Nat) x, ps[i]? = some (.arena x) → ∃ slot, placements[i]? = some (.arena slot)
      ∧ x = { slot with offset := x.offset } ∧ BIND_ALIGN ∣ x.offset ∧ x.offset + x.bytes ≤ bytes := by
    intro i x hx
    by_cases hi : ∃ slot, placements[i]? = some (.arena slot)
    · obtain ⟨slot, hslot⟩ := hi
      obtain ⟨offset, hget, hdvd, hle⟩ := hp.moved i slot hslot
      rw [hx] at hget
      obtain rfl := Placement.arena.inj (some.inj hget)
      exact ⟨slot, hslot, rfl, hdvd, hle⟩
    · push Not at hi
      rw [hp.same i hi] at hx
      exact absurd hx (hi x)
  have hcarved : ∀ (i : Nat) x, ps[i]? = some (.arena x) → ∃ elem, Carved budgets x elem := by
    intro i x hx
    obtain ⟨slot, hslot, heq, -⟩ := hfrom i x hx
    obtain ⟨elem, hc⟩ := ht.carved i slot hslot
    rw [heq]
    exact ⟨elem, hc.sized, hc.bytes, hc.fits⟩
  have hup : up ps = up placements := by
    funext i
    by_cases hi : ∃ slot, placements[i]? = some (.arena slot)
    · obtain ⟨slot, hslot⟩ := hi
      obtain ⟨offset, hget, -⟩ := hp.moved i slot hslot
      rw [up_of_arena hget, up_of_arena hslot]
    · push Not at hi
      unfold up
      rw [hp.same i hi]
  refine ⟨fun v => ?_, hcarved, fun v x hx => ?_, fun v x hx => ?_, ?_⟩
  · show Grounded (up ps) v
    rw [hup]
    exact ht.forest v
  · obtain ⟨slot, hslot, -⟩ := hfrom v x hx
    exact hspan v slot hslot
  · obtain ⟨-, -, -, hdvd, hle⟩ := hfrom v x hx
    exact ⟨hle, hdvd⟩
  · intro a b x y sa sb hne hx hy hsa hsb htog hl hr
    obtain ⟨hoff, hpitch, hsome, hm⟩ := hp.apart a b x y sa sb hne hx hy hsa hsb htog hl hr
    obtain ⟨ex, hcx⟩ := hcarved a x hx
    obtain ⟨ey, hcy⟩ := hcarved b y hy
    obtain ⟨hcut, hsame⟩ := bytes_of_pitch hcx hcy hpitch hsome
    exact ⟨hsame hoff, hcut, hm⟩

theorem isArena_iff {placements : List Placement} {v : ValueId} :
    isArena placements v = true ↔ ∃ slot, placements[v]? = some (.arena slot) := by
  unfold isArena
  constructor
  · intro h
    split at h
    · rename_i slot hslot
      exact ⟨slot, hslot⟩
    · cases h
  · rintro ⟨slot, hslot⟩
    rw [hslot]

theorem getD_isEmpty {n k : Nat} {held : Lives} (h : Kept n k held) (hk : k = 0) (i : Nat) :
    (held.liveIn.getD i ClassSet.empty).isEmpty = true := by
  rw [getD_eq_getElem?_getD, Lifetimes.isEmpty_iff]
  intro c
  cases hi : held.liveIn[i]? with
  | none => exact Bits.has_zero c
  | some set =>
    rw [getD_some]
    refine Bool.eq_false_iff.mpr (fun hc => ?_)
    have := h.known set (mem_of_getElem? hi) c hc
    omega

/-- **Carving arranges the arena**, and panics at no more than a node without a mask. -/
theorem carve_arranged {trace : Trace} {budgets : Budgets} {classes : ClassTable} {conc : Concurrency} :
    Sound (Masked trace classes) (Arranged budgets conc) (carve trace budgets classes conc) := by
  have weaken : ∀ {α : Type} {P : α → Prop} {x : Carve α}, Sound (· ≠ .panic) P x → Sound (Masked trace classes) P x := by
    intro α P x h
    cases x with
    | ok a => exact h
    | error e => exact fun _ => h
  unfold carve
  refine (weaken rectangles_spec).bind (fun placements ht => ?_)
  refine (weaken (foldInPlace_spec ht)).bind (fun placements ht => ?_)
  refine (weaken (foldMerges_spec ht)).bind (fun placements ht => ?_)
  refine (weaken (flatten_spec ht)).bind (fun placements ht => ?_)
  refine (lives_spec ht.forest).bind (fun held hheld => ?_)
  obtain ⟨hkept, hseen⟩ := hheld
  dsimp only
  obtain ⟨lived, hlived⟩ : ∃ lived : Lives, lived = { held with
      spans := held.spans.map (fun span => span.map (outlive trace conc)) } := ⟨_, rfl⟩
  rw [← hlived]
  have hspan : ∀ (i : Nat) slot, placements[i]? = some (.arena slot) → ∃ span, lived.spans[i]? = some (some span) := by
    intro i slot hslot
    obtain ⟨⟨span, hspan⟩, -⟩ := hseen i (isArena_iff.mpr ⟨slot, hslot⟩)
    refine ⟨outlive trace conc span, ?_⟩
    rw [hlived, getElem?_map, hspan]
    rfl
  have hlive : (∀ (i : Nat) slot, placements[i]? = some (.arena slot) →
      (lived.liveIn.getD i ClassSet.empty).isEmpty = false) ∨ ∀ (i : Nat) slot,
      placements[i]? = some (.arena slot) → (lived.liveIn.getD i ClassSet.empty).isEmpty = true := by
    rw [hlived]
    rcases Nat.eq_zero_or_pos classes.classes.length with h0 | hpos
    · exact .inr (fun i _ _ => getD_isEmpty hkept h0 i)
    · exact .inl (fun i slot hslot =>
        (hseen i (isArena_iff.mpr ⟨slot, hslot⟩)).2.resolve_left (Nat.pos_iff_ne_zero.mp hpos))
  obtain ⟨blindPs, blindBytes, hblind, hpb⟩ := @pack_spec conc placements lived .perValue hspan hlive
  obtain ⟨sharedPs, sharedBytes, hshared, hps⟩ := @pack_spec conc placements lived .shared hspan hlive
  rw [hblind, hshared]
  subst hlived
  refine Sound.pure ?_
  by_cases hless : sharedBytes < blindBytes
  · rw [if_pos hless]
    exact arranged_of_packed ht hspan hps
  · rw [if_neg hless]
    exact arranged_of_packed ht hspan hpb

theorem mem_pairsOf {α : Type} {a b : α} : ∀ {l : List α}, (a, b) ∈ ArenaMap.pairsOf l → List.Sublist [a, b] l := by
  intro l
  induction l with
  | nil => exact fun h => (nomatch h)
  | cons c l ih =>
    intro h
    rcases mem_append.mp h with h | h
    · obtain ⟨d, hd, heq⟩ := mem_map.mp h
      obtain ⟨rfl, rfl⟩ := Prod.mk.inj heq
      exact (singleton_sublist.mpr hd).cons_cons _
    · exact (ih h).cons _

theorem coTenants_of {map : ArenaMap} {a b : ValueId} {x y : Slot} (hx : map.placements[a]? = some (.arena x))
    (hy : map.placements[b]? = some (.arena y)) (h : CoTenants map a b x y) : map.coTenants a b = true := by
  have hlisted : ∀ i : Nat, (map.liveIn.getD i ClassSet.empty).isEmpty = false →
      map.liveIn[i]? = some (map.liveIn.getD i ClassSet.empty) := by
    intro i hi
    rw [getD_eq_getElem?_getD] at hi ⊢
    cases hl : map.liveIn[i]? with
    | none => rw [hl] at hi; exact absurd hi (by decide)
    | some set => rfl
  unfold ArenaMap.coTenants
  rw [hx, hy]
  dsimp only
  rw [hlisted a h.mates.left, hlisted b h.mates.right, h.cut, ← h.same]
  rw [if_neg (by simp)]
  dsimp only
  rw [h.mates.left, h.mates.right, h.mates.disjoint]
  rfl

theorem clashes_nil {budgets : Budgets} {conc : Concurrency} {map : ArenaMap} (h : Arranged budgets conc map) :
    map.clashes conc = some [] := by
  obtain ⟨live, hlive⟩ := items_exists h.spanned
  obtain ⟨hnd, hlisted, -⟩ := items_spec hlive
  unfold ArenaMap.clashes ArenaMap.clashesBlind ArenaMap.live
  rw [hlive, map_some, map_some, some.injEq, filter_eq_nil_iff]
  intro p hp
  obtain ⟨⟨a, b⟩, hab, rfl⟩ := mem_map.mp hp
  obtain ⟨hmem, hmeet⟩ := mem_filter.mp hab
  simp only [Bool.and_eq_true, decide_eq_true_eq] at hmeet
  obtain ⟨⟨hl, hr⟩, htog⟩ := hmeet
  have hsub := mem_pairsOf hmem
  have hne : a.id ≠ b.id := by
    have := hnd.sublist (hsub.map (·.id))
    simpa using this
  have ha := hlisted a (hsub.subset (by simp))
  have hb := hlisted b (hsub.subset (by simp))
  rw [coTenants_of ha.slot hb.slot
    (h.apart a.id b.id _ _ _ _ hne ha.slot hb.slot ha.span hb.span (overlaps_iff.mp htog) hl hr)]
  decide

/-! ## Windows -/

/-- A fire within the ceilings; what it may read out depends on the value. -/
structure Fits (fire : FireRows) (budgets : Budgets) : Prop where
  tokens : fire.tokens ≤ (FireRows.ceilings budgets).tokens
  lanes : fire.lanes ≤ (FireRows.ceilings budgets).lanes
  patches : fire.patches ≤ (FireRows.ceilings budgets).patches
  images : fire.images ≤ (FireRows.ceilings budgets).images
  voxels : fire.voxels ≤ (FireRows.ceilings budgets).voxels
  clips : fire.clips ≤ (FireRows.ceilings budgets).clips

theorem saturatingMul_le (a b : Nat) : saturatingMul a b ≤ a * b := min_le_left _ _

theorem saturatingMul_mono {a b c : Nat} (h : a ≤ b) : saturatingMul a c ≤ saturatingMul b c :=
  min_le_min (Nat.mul_le_mul_right c h) (le_refl _)

theorem saturatingAdd_mono {a b c : Nat} (h : a ≤ b) : saturatingAdd a c ≤ saturatingAdd b c :=
  min_le_min (Nat.add_le_add_right h c) (Nat.le_refl _)

theorem rows_le_max {fire : FireRows} {budgets : Budgets} (h : Fits fire budgets) {expr : RowExpr}
    (hne : expr ≠ .readouts) : expr.rows fire ≤ expr.max budgets := by
  unfold RowExpr.max
  cases expr with
  | const n => exact le_refl _
  | tokens => exact h.tokens
  | tokensTimes k => exact saturatingMul_mono h.tokens
  | lanes => exact h.lanes
  | lanesPlus k => exact saturatingAdd_mono h.lanes
  | readouts => exact absurd rfl hne
  | patches => exact h.patches
  | images => exact h.images
  | imagesPlus k => exact saturatingAdd_mono h.images
  | voxels => exact h.voxels
  | voxelsTimes k => exact saturatingMul_mono h.voxels
  | clips => exact h.clips
  | clipsPlus k => exact saturatingAdd_mono h.clips

/-- The rows read out fit when they are as many as the bytes hold. -/
theorem readouts_fit {budgets : Budgets} {slot : Slot} {elem rows : Nat} (h : Carved budgets slot elem)
    (hrows : rows ≤ slot.bytes / Nat.max (saturatingMul slot.width elem) 1) : rows * slot.width * elem ≤ slot.bytes := by
  rw [mul_assoc]
  rcases Nat.eq_zero_or_pos (slot.width * elem) with h0 | hpos
  · rw [h0]
    exact Nat.zero_le _
  · rcases Nat.eq_zero_or_pos (carvedRows budgets slot.rows slot.width elem) with hc | hc
    · have hbytes : slot.bytes = 0 := by rw [h.bytes, hc, zero_mul, zero_mul]
      rw [hbytes, Nat.zero_div] at hrows
      rw [Nat.le_zero.mp hrows, zero_mul]
      exact Nat.zero_le _
    · -- one row fits, so its product does not saturate
      have hle : slot.width * elem ≤ slot.bytes := by
        rw [h.bytes, mul_assoc]
        exact Nat.le_mul_of_pos_left _ hc
      have hsat : saturatingMul slot.width elem = slot.width * elem := min_eq_left (hle.trans h.fits)
      rw [hsat, show Nat.max (slot.width * elem) 1 = slot.width * elem from max_eq_left hpos] at hrows
      exact (Nat.mul_le_mul_right _ hrows).trans (Nat.div_mul_le_self _ _)

theorem window_within {budgets : Budgets} {conc : Concurrency} {map : ArenaMap} {v r : ValueId} {slot : Slot}
    {fire : FireRows} (h : Arranged budgets conc map) (hroot : map.root v = .ok r)
    (hslot : map.placements[r]? = some (.arena slot)) (hfits : Fits fire budgets)
    (hread : ∀ n, map.readoutCeilingOf v = .ok (some n) → fire.readouts ≤ n) :
    ∃ extent, map.window v fire = .ok (some extent) ∧ slot.offset ≤ extent.offset
      ∧ extent.offset + extent.bytes ≤ slot.offset + slot.bytes := by
  obtain ⟨elem, hc⟩ := h.carved r slot hslot
  refine ⟨⟨slot.offset, saturatingMul (saturatingMul (slot.rows.rows fire) slot.width) elem⟩, ?_, le_refl _, ?_⟩
  · unfold ArenaMap.window
    rw [hroot]
    dsimp only [bind, Except.bind]
    rw [hslot]
    dsimp only
    rw [hc.sized]
    rfl
  · refine Nat.add_le_add_left ?_ _
    calc saturatingMul (saturatingMul (slot.rows.rows fire) slot.width) elem
        ≤ saturatingMul (slot.rows.rows fire) slot.width * elem := saturatingMul_le _ _
      _ ≤ slot.rows.rows fire * slot.width * elem := Nat.mul_le_mul_right _ (saturatingMul_le _ _)
      _ ≤ slot.bytes := ?_
    by_cases hrows : slot.rows = .readouts
    · refine readouts_fit hc ?_
      rw [hrows]
      refine hread _ ?_
      unfold ArenaMap.readoutCeilingOf
      rw [hroot]
      dsimp only [bind, Except.bind]
      rw [hslot]
      dsimp only
      rw [hrows, hc.sized]
    · have hmax : carvedRows budgets slot.rows slot.width elem = slot.rows.max budgets := by
        unfold carvedRows
        split
        · rename_i heq
          exact absurd heq hrows
        · rfl
      rw [hc.bytes, hmax]
      exact Nat.mul_le_mul_right _ (Nat.mul_le_mul_right _ (rows_le_max hfits hrows))

/-! ## The arena -/

/-- **The arena is clash-free and big enough.** Where carving gives a map, no two slots clash; slots whose bytes meet
while they may be live together are co-tenants; each slot ends within the arena and starts aligned; aliases end, so a
root is found; and the window of a fire within the ceilings is within the slot of the value's root. The one panic on
the way is a node without a mask. -/
theorem carve_sound (trace : Trace) (budgets : Budgets) (classes : ClassTable) (conc : Concurrency) :
    (trace.nodes.length ≤ classes.nodeMask.length → carve trace budgets classes conc ≠ .error .panic)
      ∧ ∀ map, carve trace budgets classes conc = .ok map →
        map.clashes conc = some []
        ∧ (∀ (a b : ValueId) x y sa sb, a ≠ b → map.placements[a]? = some (.arena x) →
            map.placements[b]? = some (.arena y) → map.spans[a]? = some (some sa) → map.spans[b]? = some (some sb) →
            x.offset < y.offset + y.bytes → y.offset < x.offset + x.bytes →
            ¬Together conc sa sb ∨ CoTenants map a b x y)
        ∧ (∀ (v : ValueId) slot, map.placements[v]? = some (.arena slot) →
            (∃ span, map.spans[v]? = some (some span)) ∧ slot.offset + slot.bytes ≤ map.bytes ∧ 256 ∣ slot.offset)
        ∧ Forest map.placements
        ∧ (∀ v, ∃ r, map.root v = .ok r ∧ ∀ fire, Fits fire budgets →
            (∀ n, map.readoutCeilingOf v = .ok (some n) → fire.readouts ≤ n) →
            (∀ slot, map.placements[r]? = some (.arena slot) → ∃ extent, map.window v fire = .ok (some extent)
              ∧ slot.offset ≤ extent.offset ∧ extent.offset + extent.bytes ≤ slot.offset + slot.bytes)
            ∧ ((∀ slot, map.placements[r]? ≠ some (.arena slot)) → map.window v fire = .ok none)) := by
  have hcarve := @carve_arranged trace budgets classes conc
  refine ⟨fun hlen hpanic => ?_, fun map hmap => ?_⟩
  · rw [hpanic] at hcarve
    exact hcarve hlen rfl
  · have h := Sound.of_ok hmap hcarve
    refine ⟨clashes_nil h, ?_, fun v slot hslot => ⟨h.spanned v slot hslot, h.bounded v slot hslot⟩, h.forest,
      fun v => ?_⟩
    · intro a b x y sa sb hne hx hy hsa hsb hl hr
      by_cases htog : Together conc sa sb
      · exact Or.inr (h.apart a b x y sa sb hne hx hy hsa hsb htog hl hr)
      · exact Or.inl htog
    · obtain ⟨r, hr, -⟩ := root_spec h.forest v
      refine ⟨r, hr, fun fire hfits hread => ⟨fun slot hslot => window_within h hr hslot hfits hread, fun hnone => ?_⟩⟩
      have hroot : map.root v = .ok r := hr
      unfold ArenaMap.window
      rw [hroot]
      dsimp only [bind, Except.bind]
      split
      · rename_i slot hslot
        exact absurd hslot (hnone slot)
      · rfl

/-- Two values of as many rows, each written and read in a class of its own. -/
def twoClasses : Trace where
  caches := []
  values := [⟨.input .tokens, .tensor [.tokens] .i32⟩, ⟨.op 0, .tensor [.tokens, .const 64] .bf16⟩,
    ⟨.op 1, .tensor [.tokens, .const 64] .bf16⟩, ⟨.op 2, .tensor [.tokens, .const 64] .bf16⟩,
    ⟨.op 3, .tensor [.tokens, .const 64] .bf16⟩]
  nodes := [⟨⟨.layout, "embed", [0], [1], []⟩, .fact 0⟩, ⟨⟨.layout, "embed", [0], [2], []⟩, .not (.fact 0)⟩,
    ⟨⟨.elementwise, "silu", [1], [3], []⟩, .fact 0⟩, ⟨⟨.elementwise, "silu", [2], [4], []⟩, .not (.fact 0)⟩]
  seams := []

def twoClassesTable : ClassTable where
  classes := [⟨[0], [1, 3]⟩, ⟨[1], [0, 2]⟩]
  nodeMask := [⟨2⟩, ⟨1⟩, ⟨2⟩, ⟨1⟩]
  merges := []
  mergeArm := [[], []]
  mask := 1
  dead := []
  mask_lt := by
    intro set hset c hc
    have hbits : set.bits < 2 ^ 2 := by
      fin_cases hset <;> decide
    exact Nat.lt_of_not_le (fun hle => by
      rw [ClassSet.contains, Bits.has, Nat.testBit_lt_two_pow (lt_of_lt_of_le hbits (Nat.pow_le_pow_right (by decide) hle))] at hc
      cases hc)

def twoClassesBudgets : Budgets := ⟨⟨2, 8⟩, none, none⟩

def twoClassesConc : Concurrency := ⟨[0, 0, 0, 0, 0], [], []⟩

def twoClassesMap : ArenaMap where
  placements := [.runtime .tokens, .arena ⟨0, 1024, .tokens, 64, .bf16⟩, .arena ⟨0, 1024, .tokens, 64, .bf16⟩,
    .arena ⟨1024, 1024, .tokens, 64, .bf16⟩, .arena ⟨1024, 1024, .tokens, 64, .bf16⟩]
  spans := [none, some ⟨0, 2⟩, some ⟨1, 3⟩, some ⟨2, 2⟩, some ⟨3, 3⟩]
  liveIn := [⟨0⟩, ⟨2⟩, ⟨1⟩, ⟨2⟩, ⟨1⟩]
  bytes := 2048

set_option maxRecDepth 8000 in
theorem carve_twoClasses : carve twoClasses twoClassesBudgets twoClassesTable twoClassesConc = .ok twoClassesMap := by
  rfl

/-- The two values share their bytes, and their windows lie there. -/
theorem carve_sound_twoClasses :
    twoClassesMap.clashes twoClassesConc = some []
      ∧ CoTenants twoClassesMap 1 2 ⟨0, 1024, .tokens, 64, .bf16⟩ ⟨0, 1024, .tokens, 64, .bf16⟩
      ∧ ∃ extent, twoClassesMap.window 2 ⟨3, 1, 0, 0, 0, 0, 0⟩ = .ok (some extent) ∧ 0 ≤ extent.offset
        ∧ extent.offset + extent.bytes ≤ 1024 := by
  obtain ⟨hclash, hapart, -, -, hroot⟩ :=
    (carve_sound twoClasses twoClassesBudgets twoClassesTable twoClassesConc).2 twoClassesMap carve_twoClasses
  refine ⟨hclash, ?_, ?_⟩
  · refine (hapart 1 2 _ _ _ _ (by decide) rfl rfl rfl rfl (by decide) (by decide)).resolve_left (not_not_intro ?_)
    exact Or.inl (by decide)
  · obtain ⟨r, hr, hwindow⟩ := hroot 2
    obtain rfl : 2 = r := Except.ok.inj (show (Except.ok 2 : Carve ValueId) = .ok r from hr)
    obtain ⟨extent, he, hl, hle⟩ := (hwindow ⟨3, 1, 0, 0, 0, 0, 0⟩
      ⟨by decide, by decide, by decide, by decide, by decide, by decide⟩ (fun _ _ => Nat.zero_le _)).1 _ rfl
    exact ⟨extent, he, hl, hle⟩

end Pie.Proof.Arranging
