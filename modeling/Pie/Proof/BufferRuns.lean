import Pie.Lib.Systems
import Pie.Proof.Buffers
import Pie.Proof.Rollbacks

/-!
# Buffered rows over whole runs

Working sets are created, forked, released and folded, and fires write them: the
writes of a batch are prepared one after another, then published together. A slot
that was written and is not folded stays on the page it was written to, or on the
copy of that page, whatever moved the base in between.
-/

namespace Pie.Proof.Buffers

open List Pie.Store Pie.Store.Rs Lib RsStore Rollbacks Function GenMap

/-! ## Runs -/

/-- A store, and where the slots of its working sets were written. -/
structure World where
  store : RsStore
  home : RsWorkingSetId → Homes

/-- What a fire asks of one working set. -/
structure Ask where
  ws : RsWorkingSetId
  write : GroupWrite
  snapshots : List Nat

def prepareAsk (prepared : List (Ask × RsPreparedWrite)) (ask : Ask) : Act RsError (List (Ask × RsPreparedWrite)) := do
  let write ← prepareGroup ask.ws ask.write.writeState ask.write.fresh ask.write.fold ask.write.writes
  let write ← prepareSnapshots write ask.snapshots
  return prepared ++ [(ask, write)]

def prepareAll (asks : List Ask) : Act RsError (List (Ask × RsPreparedWrite)) := asks.foldlM prepareAsk []

/-- Where the slots are once a write of the batch was published. -/
def landed (s : RsStore) (home : RsWorkingSetId → Homes) (p : Ask × RsPreparedWrite) : RsWorkingSetId → Homes :=
  match s.workingSets.get p.1.ws with
  | some e => Function.update home p.1.ws (wrote e p.1.write.writes p.2.buffers (home p.1.ws))
  | none => home

def Start (w : World) : Prop :=
  ∃ slots pages hostSlots hostPages, w = ⟨RsStore.new slots pages hostSlots hostPages, fun _ _ => none⟩

/-- A batch that is not prepared, or not published, may have grown buffers; `books` is what moves slots, pages and
fires alone. -/
inductive Step (w : World) : World → Prop
  | create (geom : RsGeometry) : Step w { w with store := (w.store.createWorkingSet geom).2 }
  | fork {ws child : RsWorkingSetId} {store : RsStore} (h : w.store.fork ws = (.ok child, store)) :
      Step w ⟨store, Function.update w.home child (w.home ws)⟩
  | release (ws : RsWorkingSetId) :
      Step w ⟨(w.store.releaseWorkingSet ws).2, Function.update w.home ws fun _ => none⟩
  | unprepared {asks : List Ask} {granted : Option RsGrant} {stop : Stop RsError} {held : Held}
      (h : prepareAll asks ⟨w.store, granted⟩ = .error stop held) : Step w { w with store := held.store }
  | unpublished {asks : List Ask} {granted : Option RsGrant} {prepared : List (Ask × RsPreparedWrite)} {held held' : Held}
      {stop : Stop RsError} (h : prepareAll asks ⟨w.store, granted⟩ = .ok prepared held)
      (hp : publishBatch (prepared.map Prod.snd) held = .error stop held') : Step w { w with store := held'.store }
  | published {asks : List Ask} {granted : Option RsGrant} {prepared : List (Ask × RsPreparedWrite)} {held held' : Held}
      {r : RsPublished × List RsPendingFold} (h : prepareAll asks ⟨w.store, granted⟩ = .ok prepared held)
      (hp : publishBatch (prepared.map Prod.snd) held = .ok r held') :
      Step w ⟨held'.store, prepared.foldl (landed held.store) w.home⟩
  | fold (ws : RsWorkingSetId) (slots : Nat) : Step w { w with store := w.store.fold ws slots }
  | books {store : RsStore} (h : store.workingSets = w.store.workingSets) : Step w { w with store }

/-! ## The invariant -/

variable {s s' : RsStore} {ws : RsWorkingSetId} {e : RsEntry} {home : RsWorkingSetId → Homes}

/-- What is known of one working set. -/
structure Fine (home : Homes) (e : RsEntry) : Prop where
  anchored : Anchored e
  stand : Stand home e
  frozen : e.frozen ≤ U32_MAX

structure Settled (s : RsStore) (home : RsWorkingSetId → Homes) : Prop where
  fine : ∀ ws e, s.workingSets.get ws = some e → Fine (home ws) e
  gone : ∀ ws t, s.workingSets.get ws = none → home ws t = none

theorem fine_of_keeps {home : Homes} {e e' : RsEntry} (hk : Keeps e e') (h : Fine home e) : Fine home e' where
  anchored := anchored_of_keeps hk h.anchored
  stand := stand_of_keeps hk h.stand
  frozen := by
    rw [hk.frozen]
    exact h.frozen

theorem fine_of_empty {home : Homes} (hbuffer : e.buffer = []) (hfrozen : e.frozen ≤ U32_MAX)
    (hnone : ∀ t, home t = none) : Fine home e where
  anchored hne := absurd hbuffer hne
  stand t place _ hplace := by
    rw [hnone t] at hplace
    exact nomatch hplace
  frozen := hfrozen

theorem settled_of_sameSets (hsets : SameSets s s') (h : Settled s home) : Settled s' home where
  fine ws e' he' := by
    obtain ⟨e, he⟩ := known_before hsets he'
    obtain ⟨e'', he'', hk⟩ := hsets.kept ws e he
    rw [he'] at he''
    rw [Option.some.inj he'']
    exact fine_of_keeps hk (h.fine ws e he)
  gone ws t hgone := by
    refine h.gone ws t ?_
    by_contra hget
    obtain ⟨e, he⟩ := Option.ne_none_iff_exists'.mp hget
    obtain ⟨e', he', -⟩ := hsets.kept ws e he
    rw [hgone] at he'
    exact nomatch he'

/-! ## A batch is prepared -/

/-- A write that is prepared, and whose targets are those of its working set. -/
def Ready (s : RsStore) (p : Ask × RsPreparedWrite) : Prop :=
  p.2.ws = p.1.ws ∧ ∃ e, s.workingSets.get p.1.ws = some e ∧ Targets e p.1.write.writes p.2.buffers

variable {p : Ask × RsPreparedWrite} {h : Held} {prepared : List (Ask × RsPreparedWrite)}

theorem ready_of_sameSets (hsets : SameSets s s') (h : Ready s p) : Ready s' p := by
  obtain ⟨hws, e, he, htargets⟩ := h
  obtain ⟨e', he', hk⟩ := hsets.kept _ e he
  exact ⟨hws, e', he', targets_of_keeps hk htargets⟩

theorem prepareGroup_unknown {writeState fresh : Bool} {fold : Option Nat} {writes : Option (Nat × Nat)}
    {Q : RsPreparedWrite → Held → Prop} (hget : h.store.workingSets.get ws = none) :
    Outcome False (prepareGroup ws writeState fresh fold writes h) Q fun _ h' => h' = h := by
  have hentry : orStop (h.store.entry ws) = .error (.error .unknownWorkingSet) := by
    unfold entry
    rw [hget]
    rfl
  have hlift : ∀ {α : Type} {Q : α → Held → Prop} (f : RsEntry → Act RsError α),
      Outcome False ((lift (orStop (h.store.entry ws)) >>= f) h) Q fun _ h' => h' = h := by
    intro α Q f
    rw [hentry]
    exact rfl
  unfold prepareGroup
  cases writes.filter fun w => w.1 < w.2 with
  | some w => exact Outcome.bind (Outcome.get (hlift _))
  | none => exact Outcome.bind (Outcome.get (hlift _))

theorem prepareAsk_ready {ask : Ask} (hsettled : Settled h.store home) (hready : ∀ p ∈ prepared, Ready h.store p) :
    Outcome False (prepareAsk prepared ask h)
      (fun prepared' h' => SameSets h.store h'.store ∧ ∀ p ∈ prepared', Ready h'.store p)
      fun _ h' => SameSets h.store h'.store := by
  unfold prepareAsk
  cases hget : h.store.workingSets.get ask.ws with
  | none =>
    refine Outcome.bind ((prepareGroup_unknown hget).mono_error fun _ h' heq => ?_)
    rw [heq]
    exact sameSets_of_eq rfl
  | some e =>
    have hpanic : bufferTargets e ask.write.writes = .error .panic → False :=
      fun h => bufferTargets_ne_panic (hsettled.fine _ e hget).anchored _ h
    refine Outcome.bind (((prepareGroup_outcome Waits.refl hget hpanic).mono
      fun write h' ⟨hw, _, hws, hgrown, targets, htargets, hplaced⟩ => ?group).mono_error fun _ h' ⟨hw, _⟩ => hw.sets)
    refine Outcome.bind (((prepareSnapshots_outcome hw).mono
      fun write' h'' ⟨_, _, hws', hbuffers, hsets⟩ => Outcome.pure ?snapshots).mono_error fun _ h'' ⟨heq, _⟩ => ?short)
    case short =>
      rw [heq]
      exact hw.sets
    case snapshots =>
      have hsame := hw.sets.trans (sameSets_of_eq hsets)
      refine ⟨hsame, fun p hmem => ?_⟩
      rcases mem_append.mp hmem with hmem | hmem
      · exact ready_of_sameSets hsame (hready p hmem)
      · rw [mem_singleton] at hmem
        subst hmem
        refine ⟨hws'.trans hws, grown e ask.write.writes, by rw [hsets]; exact hgrown, ?_⟩
        rw [hbuffers]
        exact targets_of_placed htargets hplaced

/-- A batch is prepared without a panic, and leaves each working set as it was but for pages that are not mapped. -/
theorem prepareAll_ready {asks : List Ask} (hsettled : Settled h.store home) : Outcome False (prepareAll asks h)
      (fun prepared h' => SameSets h.store h'.store ∧ ∀ p ∈ prepared, Ready h'.store p)
      fun _ h' => SameSets h.store h'.store := by
  refine Outcome.foldlM (fun _ prepared (h' : Held) => SameSets h.store h'.store ∧ ∀ p ∈ prepared, Ready h'.store p)
    (fun ask l prepared h' ⟨hsame, hready⟩ => ?_) ⟨sameSets_of_eq rfl, fun p hmem => absurd hmem not_mem_nil⟩
  refine ((prepareAsk_ready (settled_of_sameSets hsame hsettled) hready).mono
    fun prepared' h'' ⟨hsame', hready'⟩ => ⟨hsame.trans hsame', hready'⟩).mono_error
    fun _ h'' hsame' => hsame.trans hsame'

/-! ## A batch is published -/

/-- What changes beside a working set: others keep their entries, and those that are new have an empty buffer. -/
structure Beside (ws : RsWorkingSetId) (s s' : RsStore) : Prop where
  others : ∀ ws' e, ws' ≠ ws → s.workingSets.get ws' = some e → s'.workingSets.get ws' = some e
  born : ∀ ws' e, s.workingSets.get ws' = none → s'.workingSets.get ws' = some e → e.buffer = [] ∧ e.frozen ≤ U32_MAX

theorem Beside.of_eq (h : s'.workingSets = s.workingSets) : Beside ws s s' where
  others ws' e _ he := by
    rw [h]
    exact he
  born ws' e hnone hsome := by
    rw [h, hnone] at hsome
    exact nomatch hsome

theorem Beside.trans {s'' : RsStore} (hget : s.workingSets.get ws = some e) (h : Beside ws s s')
    (h' : Beside ws s' s'') : Beside ws s s'' where
  others ws' e' hne he' := h'.others ws' e' hne (h.others ws' e' hne he')
  born ws' e'' hnone hsome := by
    cases hmid : s'.workingSets.get ws' with
    | none => exact h'.born ws' e'' hmid hsome
    | some e' =>
      have hne : ws' ≠ ws := by
        intro heq
        rw [heq, hget] at hnone
        exact nomatch hnone
      rw [h'.others ws' e' hne hmid] at hsome
      rw [← Option.some.inj hsome]
      exact h.born ws' e' hnone hmid

theorem beside_of_set {e' : RsEntry} (hget : s.workingSets.get ws = some e)
    (h : s'.workingSets = s.workingSets.set ws e') : Beside ws s s' ∧ s'.workingSets.get ws = some e' := by
  refine ⟨⟨fun ws' e'' hne he'' => ?_, fun ws' e'' hnone hsome => ?_⟩, ?_⟩
  · rw [h, get_set_of_ne hne]
    exact he''
  · have hne : ws' ≠ ws := by
      intro heq
      rw [heq, hget] at hnone
      exact nomatch hnone
    rw [h, get_set_of_ne hne, hnone] at hsome
    exact nomatch hsome
  · rw [h]
    exact get_set_self hget

theorem publishSnapshots_beside (ws' : RsWorkingSetId) (geom : RsGeometry) (frozen : Nat) (rows : List (Nat × RsSlotId))
    (acc : RsStore × List RsSnapshot) (hget : acc.1.workingSets.get ws = some e) :
    Beside ws acc.1 (rows.foldl (publishSnapshot ws' geom frozen) acc).1 ∧
      (rows.foldl (publishSnapshot ws' geom frozen) acc).1.workingSets.get ws = some e := by
  induction rows generalizing acc with
  | nil => exact ⟨.of_eq rfl, hget⟩
  | cons row rows ih =>
    have hborn : Beside ws acc.1 (publishSnapshot ws' geom frozen acc row).1 := by
      refine ⟨fun ws'' e'' _ he'' => ?_, fun ws'' e'' hnone hsome => ?_⟩
      · exact (get_insert_of_ne (ne_insert_of_get he'')).trans he''
      · unfold publishSnapshot at hsome
        dsimp only at hsome
        rw [get_insert] at hsome
        split at hsome
        · rw [← Option.some.inj hsome]
          refine ⟨rfl, ?_⟩
          unfold U32_MAX
          dsimp only
          omega
        · rw [hnone] at hsome
          exact nomatch hsome
    have hkept : (publishSnapshot ws' geom frozen acc row).1.workingSets.get ws = some e :=
      (get_insert_of_ne (ne_insert_of_get hget)).trans hget
    obtain ⟨hbeside, hget'⟩ := ih _ hkept
    exact ⟨hborn.trans hget hbeside, hget'⟩

theorem publishState_beside (state : RsStateTarget) (hget : s.workingSets.get ws = some e) :
    ∃ s' folded, s.publishState ws state = some s' ∧ Beside ws s s' ∧
      s'.workingSets.get ws = some { e with folded } := by
  unfold publishState
  rw [hget]
  dsimp only [bind, Option.bind]
  split
  · exact ⟨s, e.folded, rfl, .of_eq rfl, hget⟩
  · have hset : ({ s with refs := s.refs.insert state.slot 1 }.setEntry ws
        { e with folded := some state.slot }).workingSets = s.workingSets.set ws { e with folded := some state.slot } := rfl
    obtain ⟨hbeside, hget'⟩ := beside_of_set hget hset
    cases e.folded with
    | none => exact ⟨_, some state.slot, rfl, hbeside, hget'⟩
    | some old =>
      refine ⟨_, some state.slot, rfl, hbeside.trans hget (.of_eq (decref_sets _)), ?_⟩
      rw [decref_sets]
      exact hget'

theorem publishTarget_beside (target : RsBufferTarget) (hget : s.workingSets.get ws = some e) :
    ∃ s', publishTarget ws s target = some s' ∧ Beside ws s s' ∧ s'.workingSets.get ws = some (place e target) := by
  have hpage : ∀ index dst, ∃ s', { s with refs := s.refs.insert dst 1 }.setBufferPage ws index dst = some s' ∧
      Beside ws s s' ∧ s'.workingSets.get ws = some (putPage e index dst) := by
    intro index dst
    unfold setBufferPage
    rw [hget]
    exact ⟨_, rfl, beside_of_set hget rfl⟩
  cases target with
  | inPlace index dst => exact ⟨s, rfl, .of_eq rfl, hget⟩
  | fresh index dst => exact hpage index dst
  | cow index src dst =>
    obtain ⟨s', hs', hbeside, hget'⟩ := hpage index dst
    refine ⟨(s'.decref src).2, ?_, hbeside.trans hget (.of_eq (decref_sets _)), ?_⟩
    · unfold publishTarget
      dsimp only
      rw [hs']
      rfl
    · rw [decref_sets]
      exact hget'

theorem publishTargets_beside (buffers : List RsBufferTarget) (hget : s.workingSets.get ws = some e) :
    ∃ s', buffers.foldlM (publishTarget ws) s = some s' ∧ Beside ws s s' ∧
      s'.workingSets.get ws = some (buffers.foldl place e) := by
  induction buffers generalizing s e with
  | nil => exact ⟨s, rfl, .of_eq rfl, hget⟩
  | cons target buffers ih =>
    obtain ⟨s₁, hs₁, hbeside, hget₁⟩ := publishTarget_beside target hget
    obtain ⟨s₂, hs₂, hbeside', hget₂⟩ := ih hget₁
    refine ⟨s₂, ?_, hbeside.trans hget hbeside', hget₂⟩
    rw [foldlM_cons, hs₁]
    exact hs₂

/-- A write is published without a panic; its entry gets the pages, and perhaps another slot for its state. -/
theorem publishPrevalidated_beside {p : Publishing} {write : RsPreparedWrite}
    (hget : p.store.workingSets.get write.ws = some e) :
    ∃ p' folded, publishPrevalidated p write = some p' ∧ Beside write.ws p.store p'.store ∧
      p'.store.workingSets.get write.ws = some (write.buffers.foldl place { e with folded }) := by
  obtain ⟨hborn, hget₁⟩ := publishSnapshots_beside write.ws e.geom e.frozen write.snapshots
    (p.store, p.snapshots) hget
  unfold publishPrevalidated
  rw [hget]
  dsimp only [bind, Option.bind, pure]
  cases write.state with
  | none =>
    obtain ⟨s₂, hs₂, hbeside, hget₂⟩ := publishTargets_beside write.buffers hget₁
    dsimp only
    rw [hs₂]
    exact ⟨_, e.folded, rfl, hborn.trans hget hbeside, hget₂⟩
  | some state =>
    obtain ⟨s₂, folded, hs₂, hbeside, hget₂⟩ := publishState_beside state hget₁
    obtain ⟨s₃, hs₃, hbeside', hget₃⟩ := publishTargets_beside write.buffers hget₂
    dsimp only
    rw [hs₂]
    dsimp only
    rw [hs₃]
    exact ⟨_, folded, rfl, (hborn.trans hget hbeside).trans hget hbeside', hget₃⟩

theorem fine_placed {folded : Option RsSlotId} {home : Homes} (hfine : Fine home e)
    (htargets : Targets e p.1.write.writes p.2.buffers) :
    Fine (wrote e p.1.write.writes p.2.buffers home) (p.2.buffers.foldl place { e with folded }) := by
  -- the slot of the state has no part in this
  have htargets' : Targets { e with folded } p.1.write.writes p.2.buffers :=
    ⟨htargets.nodup, htargets.within, htargets.stands, htargets.span⟩
  have hanchored : Anchored { e with folded } := hfine.anchored
  obtain ⟨hframe, -, -⟩ := pageAt_placed htargets'.nodup htargets'.within htargets'.stands
  refine ⟨hframe.anchored hanchored, stand_placed hanchored htargets' hfine.stand, ?_⟩
  rw [hframe.frozen]
  exact hfine.frozen

theorem settled_published {p : Publishing} {w : Ask × RsPreparedWrite} (hsettled : Settled p.store home)
    (hready : Ready p.store w) :
    ∃ p', publishPrevalidated p w.2 = some p' ∧ Settled p'.store (landed p.store home w) ∧
      ∀ ws e, ws ≠ w.1.ws → p.store.workingSets.get ws = some e → p'.store.workingSets.get ws = some e := by
  obtain ⟨hws, e, hget, htargets⟩ := hready
  have hget' := hget
  rw [← hws] at hget'
  obtain ⟨p', folded, hp', hbeside, hentry⟩ := publishPrevalidated_beside hget'
  rw [hws] at hbeside hentry
  refine ⟨p', hp', ⟨fun ws e' he' => ?_, fun ws t hgone => ?_⟩, hbeside.others⟩
  · unfold landed
    rw [hget]
    dsimp only
    by_cases heq : ws = w.1.ws
    · subst heq
      rw [hentry] at he'
      rw [← Option.some.inj he', update_self]
      exact fine_placed (hsettled.fine _ e hget) htargets
    · rw [update_of_ne heq]
      cases hbefore : p.store.workingSets.get ws with
      | none =>
        obtain ⟨hbuffer, hfrozen⟩ := hbeside.born ws e' hbefore he'
        exact fine_of_empty hbuffer hfrozen fun t => hsettled.gone ws t hbefore
      | some e₀ =>
        rw [hbeside.others ws e₀ heq hbefore] at he'
        rw [← Option.some.inj he']
        exact hsettled.fine ws e₀ hbefore
  · have hne : ws ≠ w.1.ws := by
      intro heq
      rw [heq, hentry] at hgone
      exact nomatch hgone
    unfold landed
    rw [hget]
    dsimp only
    rw [update_of_ne hne]
    refine hsettled.gone ws t ?_
    by_contra hbefore
    obtain ⟨e₀, he₀⟩ := Option.ne_none_iff_exists'.mp hbefore
    rw [hbeside.others ws e₀ hne he₀] at hgone
    exact nomatch hgone

theorem nodup_of_validate {writes : List RsPreparedWrite} : ∀ {seen : List RsWorkingSetId},
    validateBatch.validate s seen writes = .ok () →
      (writes.map RsPreparedWrite.ws).Nodup ∧ ∀ w ∈ writes, w.ws ∉ seen := by
  induction writes with
  | nil => exact fun _ => ⟨nodup_nil, fun w hmem => absurd hmem not_mem_nil⟩
  | cons write writes ih =>
    intro seen h
    unfold validateBatch.validate at h
    cases hentry : s.entry write.ws with
    | error e =>
      rw [hentry] at h
      exact nomatch h
    | ok e =>
      rw [hentry] at h
      change (if write.ws ∈ seen then _ else _) = _ at h
      split at h
      · exact nomatch h
      · rename_i hnew
        obtain ⟨hnodup, hseen⟩ := ih h
        refine ⟨nodup_cons.mpr ⟨fun hmem => ?_, hnodup⟩, fun w hmem => ?_⟩
        · obtain ⟨w, hw, heq⟩ := mem_map.mp hmem
          exact hseen w hw (mem_append_right _ (by rw [heq]; exact mem_singleton_self _))
        · rcases mem_cons.mp hmem with rfl | hmem
          · exact hnew
          · exact fun hin => hseen w hmem (mem_append_left _ hin)

/-- The batch is published, one write after another. -/
theorem settled_batch (hsettled : Settled h.store home) (hready : ∀ w ∈ prepared, Ready h.store w) :
    Outcome False (publishBatch (prepared.map Prod.snd) h)
      (fun _ h' => Settled h'.store (prepared.foldl (landed h.store) home)) fun _ h' => Settled h'.store home := by
  unfold publishBatch
  cases hvalid : h.store.validateBatch (prepared.map Prod.snd) with
  | error e =>
    exact settled_of_sameSets (sameSets_of_eq (cancelBatch_sets _)) hsettled
  | ok _ =>
    obtain ⟨hnodup, -⟩ := nodup_of_validate hvalid
    rw [map_map] at hnodup
    have hrun : ∀ (l : List (Ask × RsPreparedWrite)) (p : Publishing) (home : RsWorkingSetId → Homes),
        (l.map (RsPreparedWrite.ws ∘ Prod.snd)).Nodup → Settled p.store home →
        (∀ w ∈ l, Ready p.store w ∧ p.store.workingSets.get w.1.ws = h.store.workingSets.get w.1.ws) →
        ∃ p', (l.map Prod.snd).foldlM publishPrevalidated p = some p' ∧
          Settled p'.store (l.foldl (landed h.store) home) := by
      intro l
      induction l with
      | nil => exact fun p home _ hsettled _ => ⟨p, rfl, hsettled⟩
      | cons w l ih =>
        intro p home hnodup hsettled hall
        rw [map_cons, nodup_cons] at hnodup
        obtain ⟨hnotin, hnodup⟩ := hnodup
        obtain ⟨hready, hsame⟩ := hall w mem_cons_self
        obtain ⟨p₁, hp₁, hsettled₁, hothers⟩ := settled_published hsettled hready
        have hlanded : landed p.store home w = landed h.store home w := by
          unfold landed
          rw [hsame]
        rw [hlanded] at hsettled₁
        obtain ⟨p₂, hp₂, hsettled₂⟩ := ih p₁ _ hnodup hsettled₁ fun w' hmem => by
          obtain ⟨⟨hws', e', hget', htargets'⟩, hsame'⟩ := hall w' (mem_cons_of_mem _ hmem)
          have hne : w'.1.ws ≠ w.1.ws := by
            intro heq
            refine hnotin (mem_map.mpr ⟨w', hmem, ?_⟩)
            rw [comp_apply, comp_apply, hws', heq, hready.1]
          have hkept := hothers _ e' hne hget'
          exact ⟨⟨hws', e', hkept, htargets'⟩, by rw [hkept, ← hsame', hget']⟩
        refine ⟨p₂, ?_, hsettled₂⟩
        rw [map_cons, foldlM_cons, hp₁]
        exact hp₂
    obtain ⟨p, hp, hsettled'⟩ := hrun prepared ⟨h.store, [], []⟩ home hnodup hsettled
      fun w hmem => ⟨hready w hmem, rfl⟩
    dsimp only
    rw [hp]
    exact hsettled'

/-! ## The other steps -/

/-- One entry more, of a working set that was not there. -/
theorem settled_insert {homes : Homes} (hset : s'.workingSets = (s.workingSets.insert e).2) (h : Settled s home)
    (hfine : Fine homes e) : Settled s' (update home (s.workingSets.insert e).1 homes) where
  fine ws e' he' := by
    rw [hset, get_insert] at he'
    split at he'
    · rename_i heq
      rw [← Option.some.inj he', heq, update_self]
      exact hfine
    · rename_i hne
      rw [update_of_ne hne]
      exact h.fine ws e' he'
  gone ws t hgone := by
    rw [hset, get_insert] at hgone
    split at hgone
    · exact nomatch hgone
    · rename_i hne
      rw [update_of_ne hne]
      exact h.gone ws t hgone

theorem increfAll_sets (ids : List RsSlotId) : (s.increfAll ids).workingSets = s.workingSets := by
  unfold increfAll
  induction ids generalizing s with
  | nil => rfl
  | cons id ids ih => exact ih

theorem releaseWorkingSet_sets (ws : RsWorkingSetId) :
    (s.releaseWorkingSet ws).2.workingSets = s.workingSets.remove ws := by
  unfold releaseWorkingSet
  cases hget : s.workingSets.get ws with
  | none =>
    unfold remove
    rw [dif_neg (by rw [hget]; exact Bool.false_ne_true)]
  | some e =>
    dsimp only
    have hdrop : ∀ (ids : List RsSlotId) (acc : Nat × RsStore),
        (ids.foldl (fun (acc : Nat × RsStore) id => (acc.1 + (acc.2.decref id).1.toNat, (acc.2.decref id).2)) acc
          ).2.workingSets = acc.2.workingSets := by
      intro ids
      induction ids with
      | nil => exact fun _ => rfl
      | cons id ids ih => exact fun acc => (ih _).trans (decref_sets id)
    exact hdrop _ _

theorem settled_release (ws : RsWorkingSetId) (h : Settled s home) :
    Settled (s.releaseWorkingSet ws).2 (update home ws fun _ => none) where
  fine ws' e' he' := by
    rw [releaseWorkingSet_sets, get_remove] at he'
    split at he'
    · exact nomatch he'
    · rename_i hne
      rw [update_of_ne hne]
      exact h.fine ws' e' he'
  gone ws' t hgone := by
    by_cases heq : ws' = ws
    · rw [heq, update_self]
    · rw [releaseWorkingSet_sets, get_remove, if_neg heq] at hgone
      rw [update_of_ne heq]
      exact h.gone ws' t hgone

theorem fold_sets (hget : s.workingSets.get ws = some e) (slots : Nat) :
    (s.fold ws slots).workingSets = s.workingSets.set ws (dropPages (thawed e slots)) := by
  unfold fold
  rw [hget]
  exact decrefAll_sets _

theorem fine_dropPages {home : Homes} (h : Fine home e) (slots : Nat) : Fine home (dropPages (thawed e slots)) := by
  have hle : e.frozen ≤ (thawed e slots).frozen := frozen_le h.frozen
  refine ⟨?_, stand_dropPages h.anchored hle h.stand, min_le_right _ _⟩
  by_cases hne : e.buffer = []
  · intro hbuffer
    refine absurd ?_ hbuffer
    change e.buffer.drop _ = []
    rw [hne, drop_nil]
  · exact anchored_dropPages (le_trans (h.anchored hne).1 hle)

theorem settled_fold (ws : RsWorkingSetId) (slots : Nat) (h : Settled s home) : Settled (s.fold ws slots) home := by
  cases hget : s.workingSets.get ws with
  | none =>
    unfold fold
    rw [hget]
    exact h
  | some e =>
    refine ⟨fun ws' e' he' => ?_, fun ws' t hgone => ?_⟩
    · rw [fold_sets hget, get_set hget] at he'
      split at he'
      · rename_i heq
        rw [← Option.some.inj he', heq]
        exact fine_dropPages (h.fine ws e hget) slots
      · exact h.fine ws' e' he'
    · rw [fold_sets hget, get_set hget] at hgone
      split at hgone
      · exact nomatch hgone
      · exact h.gone ws' t hgone

theorem settled_start {w : World} (h : Start w) : Settled w.store w.home := by
  obtain ⟨slots, pages, hostSlots, hostPages, rfl⟩ := h
  refine ⟨fun ws e he => ?_, fun _ _ _ => rfl⟩
  rw [show (new slots pages hostSlots hostPages).workingSets = empty from rfl, get_empty] at he
  exact nomatch he

theorem settled_fork {child : RsWorkingSetId} (h : Settled s home) (hfork : s.fork ws = (.ok child, s')) :
    Settled s' (update home child (home ws)) := by
  unfold fork entry at hfork
  cases hget : s.workingSets.get ws with
  | none =>
    rw [hget] at hfork
    exact nomatch (Prod.mk.inj hfork).1
  | some e =>
    rw [hget] at hfork
    obtain ⟨hchild, hstore⟩ := Prod.mk.inj hfork
    have hsets : (s.increfAll (slotsOf e)).workingSets = s.workingSets := increfAll_sets _
    rw [← Except.ok.inj hchild, ← hstore, hsets]
    exact settled_insert rfl h (h.fine ws e hget)

theorem settled_step {w w' : World} (h : Settled w.store w.home) (hstep : Step w w') : Settled w'.store w'.home := by
  cases hstep with
  | create geom =>
    have hnone : ∀ t, w.home (w.store.createWorkingSet geom).1 t = none :=
      fun t => h.gone _ t (get_insert_key _ _)
    have hset : (w.store.createWorkingSet geom).2.workingSets = (w.store.workingSets.insert _).2 := rfl
    have hsettled := settled_insert hset h (fine_of_empty rfl (Nat.zero_le _) hnone)
    rw [show (w.store.workingSets.insert _).1 = (w.store.createWorkingSet geom).1 from rfl,
      update_eq_self] at hsettled
    exact hsettled
  | fork hfork => exact settled_fork h hfork
  | release ws => exact settled_release ws h
  | unprepared hprepare =>
    have hsame := (prepareAll_ready h).of_stop hprepare
    exact settled_of_sameSets hsame h
  | unpublished hprepare hpublish =>
    obtain ⟨hsame, hready⟩ := (prepareAll_ready h).of_ok hprepare
    exact (settled_batch (settled_of_sameSets hsame h) hready).of_stop hpublish
  | published hprepare hpublish =>
    obtain ⟨hsame, hready⟩ := (prepareAll_ready h).of_ok hprepare
    exact (settled_batch (settled_of_sameSets hsame h) hready).of_ok hpublish
  | fold ws slots => exact settled_fold ws slots h
  | books hsets => exact settled_of_sameSets (sameSets_of_eq hsets) h

theorem settled_reachable {w : World} (h : Systems.Reachable Start Step w) : Settled w.store w.home :=
  h.invariant (fun _ => settled_start) fun _ _ _ hsettled hstep => settled_step hsettled hstep

/-- **Buffered rows keep their page.** In every state reached a buffer that holds pages begins less than a page
before what is folded ends, so no difference underflows; each slot that was written and is not folded is on the page
it was written to, or on the copy of that page; and a fold drops exactly the pages whose slots are all folded. -/
theorem rows_keep_their_page {w : World} (h : Systems.Reachable Start Step w) :
    (∀ ws e, w.store.workingSets.get ws = some e →
      (e.buffer ≠ [] → e.base ≤ e.frozen ∧ e.frozen < e.base + pageTokens e) ∧
      (∀ writes, bufferTargets e writes ≠ .error .panic) ∧
      (∀ t place, e.frozen ≤ t → w.home ws t = some place →
        place.isSome ∧ (e.buffer[(t - baseOf e) / pageTokens e]?).join = place) ∧
      ∀ slots, ∃ e' drop, (w.store.fold ws slots).workingSets.get ws = some e' ∧
        e'.frozen = saturatingAdd e.frozen slots ∧ e'.buffer = e.buffer.drop drop ∧
        ∀ page < e.buffer.length, page < drop ↔ e.base + (page + 1) * pageTokens e ≤ e'.frozen) ∧
      ∀ asks granted held, prepareAll asks ⟨w.store, granted⟩ ≠ .error .panic held := by
  have hsettled := settled_reachable h
  refine ⟨fun ws e he => ?_, fun asks granted held hpanic => ?_⟩
  · have hfine := hsettled.fine ws e he
    refine ⟨hfine.anchored, bufferTargets_ne_panic hfine.anchored, hfine.stand, fun slots => ?_⟩
    refine ⟨dropPages (thawed e slots), pagesBelow (thawed e slots), ?_, rfl, rfl, fun page hpage => ?_⟩
    · rw [fold_sets he]
      exact GenMap.get_set_self he
    · have hne : e.buffer ≠ [] := ne_nil_of_length_pos (by omega)
      have hbase : (thawed e slots).base ≤ (thawed e slots).frozen :=
        Nat.le_trans (hfine.anchored hne).1 (frozen_le hfine.frozen)
      exact lt_pagesBelow hbase hpage
  · have hready : Outcome False (prepareAll asks ⟨w.store, granted⟩) _ _ := prepareAll_ready hsettled
    rw [hpanic] at hready
    exact hready

/-- A store with one working set, of pages of four tokens. -/
def paged : RsWorkingSetId × RsStore := (RsStore.new 2 2 0 0).createWorkingSet ⟨16, 4⟩

/-- The slots up to six are written and five are folded: slot 5 stays on the second page, which is the first of the
buffer then. -/
theorem rows_keep_their_page_six : ∃ (w : World) (e : RsEntry), w.store.workingSets.get paged.1 = some e ∧ e.base = 4 ∧
    e.frozen = 5 ∧ w.home paged.1 5 = some (some ⟨2⟩) ∧
    (e.buffer[(5 - baseOf e) / pageTokens e]?).join = some ⟨2⟩ := by
  have hcreated : Systems.Reachable Start Step ⟨paged.2, fun _ _ => none⟩ :=
    .step (.init ⟨2, 2, 0, 0, rfl⟩) (.create (w := ⟨RsStore.new 2 2 0 0, fun _ _ => none⟩) ⟨16, 4⟩)
  have hrun : ∃ prepared held r held', prepareAll [⟨paged.1, ⟨true, false, none, some (0, 6)⟩, []⟩] ⟨paged.2, none⟩ =
      .ok prepared held ∧ publishBatch (prepared.map Prod.snd) held = .ok r held' ∧
      ∃ e, (held'.store.fold paged.1 5).workingSets.get paged.1 = some e ∧ e.base = 4 ∧ e.frozen = 5 ∧
        prepared.foldl (landed held.store) (fun _ _ => none) paged.1 5 = some (some ⟨2⟩) :=
    ⟨_, _, _, _, rfl, rfl, _, rfl, rfl, rfl, rfl⟩
  obtain ⟨prepared, held, r, held', hprepare, hpublish, e, hget, hbase, hfrozen, hhome⟩ := hrun
  have hreach := Systems.Reachable.step (.step hcreated (.published hprepare hpublish)) (.fold paged.1 5)
  have hplace := ((rows_keep_their_page hreach).1 paged.1 e hget).2.2.1 5 (some ⟨2⟩) (by omega) hhome
  exact ⟨⟨held'.store.fold paged.1 5, prepared.foldl (landed held.store) fun _ _ => none⟩, e, hget, hbase, hfrozen, hhome,
    hplace.2⟩

end Pie.Proof.Buffers
