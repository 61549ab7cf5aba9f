import Pie.Kv.Store
import Pie.Lib.Systems
import Pie.Lib.Writes
import Pie.Proof.TableOps

/-!
# The token log is right

The writes to a working set's slots are the fires begun on it and the rows mapped into
it. Its log is certain of every entry it holds: the latest write to the slot wrote the
token, and a fire that may have written there, and never said what, came before one
that replaced it. A fork has the writes of the set it came from, and those on their way
stay unknown to it.
-/

namespace Pie.Proof.TokenLog

open List Store Kv Lib.Writes Lib.Systems KvPageTable

variable {e' : WorkingSetEntry} {store : KvStore} {cut : Nat}

/-- The writes to one working set's slots: those that ended, latest first, and the fires
on their way with the numbers they began under, oldest first. -/
structure Story where
  ended : List (Write Nat)
  going : List (Nat × Write Nat)

namespace Story

def new : Story := ⟨[], []⟩

/-- All the writes, latest first. Those on their way may still write over what ended
before them, and over what was mapped in meanwhile. -/
def writes (s : Story) : List (Write Nat) := (s.going.map Prod.snd).reverse ++ s.ended

def begins (s : Story) (seq : Nat) (fire : Write Nat) : Story := { s with going := s.going ++ [(seq, fire)] }

def ends (s : Story) (fire : Write Nat) (later : List (Nat × Write Nat)) : Story := ⟨fire :: s.ended, later⟩

end Story

/-- The rows mapped in from the cache are known. -/
def mapped (start : Nat) (tokens : List Nat) : Write Nat := ⟨start, rows start tokens, true, fun _ h => rows_below h⟩

/-- The store, and what was written to each working set's slots. -/
structure World where
  store : KvStore
  stories : WorkingSetId → Story

def World.tell (w : World) (store : KvStore) (ws : WorkingSetId) (story : Story) : World :=
  ⟨store, Function.update w.stories ws story⟩

/-- No log is touched, though working sets may go. -/
structure Keeps (s s' : KvStore) : Prop where
  logs : ∀ ws e', s'.table.workingSets.get ws = some e' →
    ∃ e, s.table.workingSets.get ws = some e ∧ e'.logged = e.logged ∧ e'.pending = e.pending
  seq : s.logSeq ≤ s'.logSeq

inductive Step (w : World) : World → Prop
  | creates : Step w (w.tell w.store.createWorkingSet.2 w.store.createWorkingSet.1 Story.new)
  | begins {ws : WorkingSetId} {fire : Write Nat} {seq : Nat} {store : KvStore} (hk : fire.known = false)
      (h : w.store.logBegin ws fire.cut = (.ok seq, store)) :
      Step w (w.tell store ws ((w.stories ws).begins seq fire))
  -- The oldest of the fires on their way ends, with the rows it wrote or with none.
  | ends {ws : WorkingSetId} {seq : Nat} {fire : Write Nat} {later : List (Nat × Write Nat)}
      {reported : Option (Nat × List Nat)} {store : KvStore} (hgoing : (w.stories ws).going = (seq, fire) :: later)
      (hrows : ∀ start tokens, reported = some (start, tokens) → fire.wrote = rows start tokens)
      (h : w.store.logEnd ws seq reported = (.ok (), store)) :
      Step w (w.tell store ws ((w.stories ws).ends { fire with known := reported.isSome } later))
  | maps {ws : WorkingSetId} {start : Nat} {tokens : List Nat} {store : KvStore}
      (h : w.store.logRows ws start tokens = (.ok (), store)) :
      Step w (w.tell store ws ((w.stories ws).ends (mapped start tokens) (w.stories ws).going))
  | forks {ws child : WorkingSetId} {store : KvStore} (h : w.store.fork ws = some (.ok child, store)) :
      Step w (w.tell store child ⟨(w.stories ws).writes, []⟩)
  | other {store : KvStore} (h : Keeps w.store store) : Step w ⟨store, w.stories⟩

/-- Nothing is written yet. -/
structure Start (w : World) : Prop where
  logs : ∀ ws e, w.store.table.workingSets.get ws = some e → e.logged = [] ∧ e.pending = []
  stories : ∀ ws, w.stories ws = Story.new

/-- A log is right about the writes to its slots. -/
structure Sound (log : List Nat) (writes : List (Write Nat)) : Prop where
  latest : ∀ i token, log[i]? = some token → writes.findSome? (fun w => w.wrote i) = some token
  replaced : ∀ i < log.length, ∀ newer w older, writes = newer ++ w :: older → w.known = false → w.cut ≤ i →
    ∃ later ∈ newer, later.known = true ∧ (later.wrote i).isSome

/-! ## The invariant -/

/-- A working set's entry tells its story. -/
structure Tells (logSeq : Nat) (e : WorkingSetEntry) (s : Story) : Prop where
  pending : e.pending = s.going.map fun f => (f.1, f.2.cut)
  unknown : ∀ f ∈ s.going, f.2.known = false
  numbers : s.going.Pairwise fun a b => a.1 < b.1
  begun : ∀ f ∈ s.going, f.1 ≤ logSeq
  agrees : Lib.Writes.Agrees e.logged s.ended

def Told (w : World) : Prop :=
  ∀ ws e, w.store.table.workingSets.get ws = some e → Tells w.store.logSeq e (w.stories ws)

variable {w w' : World} {ws : WorkingSetId} {e : WorkingSetEntry} {s : Story} {logSeq seq : Nat} {fire : Write Nat}
  {later : List (Nat × Write Nat)}

theorem Tells.new (h : e.logged = [] ∧ e.pending = []) : Tells logSeq e Story.new :=
  ⟨h.2, nofun, Pairwise.nil, nofun, by rw [h.1]; exact Lib.Writes.Agrees.nil⟩

section

variable (h : Tells logSeq e s)
include h

theorem Tells.mono {logSeq' : Nat} (hle : logSeq ≤ logSeq') : Tells logSeq' e s :=
  { h with begun := fun f hf => le_trans (h.begun f hf) hle }

theorem Tells.of_log (hlog : e'.logged = e.logged)
    (hpending : e'.pending = e.pending) : Tells logSeq e' s :=
  { h with pending := hpending.trans h.pending, agrees := by rw [hlog]; exact h.agrees }

/-- **What is told of the log** is certain also of the fires on their way. -/
theorem Tells.known : Lib.Writes.Agrees e.known s.writes := by
  unfold WorkingSetEntry.known Story.writes
  split
  · rename_i hmin
    rw [h.pending, map_map, min?_eq_none_iff, map_eq_nil_iff] at hmin
    rw [hmin]
    exact h.agrees
  · rename_i cut hmin
    refine h.agrees.cut fun v hv => ?_
    obtain ⟨f, hf, rfl⟩ := mem_map.mp (mem_reverse.mp hv)
    refine ⟨h.unknown f hf, ?_⟩
    refine (le_min?_iff hmin).mp (le_refl cut) f.2.cut ?_
    rw [h.pending, map_map]
    exact mem_map_of_mem hf

theorem Tells.begins (hk : fire.known = false) : Tells (logSeq + 1)
      { e with pending := e.pending.filter (fun p => p.1 ≠ logSeq + 1) ++ [(logSeq + 1, fire.cut)] }
      (s.begins (logSeq + 1) fire) := by
  have hfresh : e.pending.filter (fun p => p.1 ≠ logSeq + 1) = e.pending := by
    refine filter_eq_self.mpr fun p hp => ?_
    rw [h.pending] at hp
    obtain ⟨f, hf, rfl⟩ := mem_map.mp hp
    have hle := h.begun f hf
    exact decide_eq_true (by dsimp only; omega)
  constructor
  · rw [hfresh, Story.begins, map_append, h.pending]
    rfl
  · intro f hf
    rcases mem_append.mp hf with hf | hf
    · exact h.unknown f hf
    · rw [mem_singleton.mp hf]
      exact hk
  · refine pairwise_append.mpr ⟨h.numbers, pairwise_singleton _ _, fun a ha b hb => ?_⟩
    rw [mem_singleton.mp hb]
    exact Nat.lt_succ_of_le (h.begun a ha)
  · intro f hf
    rcases mem_append.mp hf with hf | hf
    · exact Nat.le_succ_of_le (h.begun f hf)
    · rw [mem_singleton.mp hf]
  · exact h.agrees

/-- The oldest fire's number is among the pending, and only its own. -/
theorem Tells.oldest (hgoing : s.going = (seq, fire) :: later) :
    e.pending.find? (fun p => p.1 = seq) = some (seq, fire.cut)
      ∧ e.pending.filter (fun p => p.1 ≠ seq) = later.map fun f => (f.1, f.2.cut) := by
  have hnumbers := h.numbers
  rw [hgoing, pairwise_cons] at hnumbers
  rw [h.pending, hgoing, map_cons]
  constructor
  · exact find?_cons_of_pos (decide_eq_true rfl)
  · rw [filter_cons_of_neg (by simp)]
    refine filter_eq_self.mpr fun p hp => ?_
    obtain ⟨f, hf, rfl⟩ := mem_map.mp hp
    exact decide_eq_true (ne_of_gt (hnumbers.1 f hf))

theorem Tells.ends (hgoing : s.going = (seq, fire) :: later) {ended : Write Nat} (hpending : e'.pending = later.map fun f => (f.1, f.2.cut))
    (hlog : Lib.Writes.Agrees e'.logged (ended :: s.ended)) : Tells logSeq e' (s.ends ended later) := by
  have hnumbers := h.numbers
  rw [hgoing, pairwise_cons] at hnumbers
  have hmem : ∀ f ∈ later, f ∈ s.going := fun f hf => hgoing ▸ mem_cons_of_mem _ hf
  exact ⟨hpending, fun f hf => h.unknown f (hmem f hf), hnumbers.2, fun f hf => h.begun f (hmem f hf), hlog⟩

end

/-! ## Steps -/

theorem tell_self {story : Story} : (w.tell store ws story).stories ws = story := by
  simp [World.tell]

theorem tell_ne {story : Story} {other : WorkingSetId} (h : other ≠ ws) :
    (w.tell store ws story).stories other = w.stories other := by
  simp [World.tell, Function.update_of_ne h]

/-- The entry of one working set is now this one, and the others are as they were. -/
structure Sets (s s' : KvStore) (ws : WorkingSetId) (e' : WorkingSetEntry) : Prop where
  here : s'.table.workingSets.get ws = some e'
  elsewhere : ∀ other, other ≠ ws → s'.table.workingSets.get other = s.table.workingSets.get other

theorem Sets.of_set {s s' : KvStore} (hget : s.table.workingSets.get ws = some e)
    (h : s'.table.workingSets = s.table.workingSets.set ws e') : Sets s s' ws e' := by
  constructor
  · rw [h, GenMap.get_set_self hget]
  · intro other ho
    rw [h, GenMap.get_set_of_ne ho]

theorem Sets.of_insert {s s' : KvStore} (h : s'.table.workingSets = (s.table.workingSets.insert e').2) :
    Sets s s' (s.table.workingSets.insert e').1 e' := by
  constructor
  · rw [h, GenMap.get_insert_self]
  · intro other ho
    rw [h, GenMap.get_insert_of_ne ho]

/-- One entry changes, and tells its new story. -/
theorem Told.update {story : Story} (h : Told w)
    (hsets : Sets w.store store ws e') (hle : w.store.logSeq ≤ store.logSeq) (htells : Tells store.logSeq e' story) :
    Told (w.tell store ws story) := by
  intro other e he
  change store.table.workingSets.get other = some e at he
  by_cases ho : other = ws
  · subst ho
    rw [hsets.here] at he
    cases he
    rw [tell_self]
    exact htells
  · rw [hsets.elsewhere other ho] at he
    rw [tell_ne ho]
    exact (h other e he).mono hle

theorem addPath_workingSets : ∀ {fuel : Nat} {cursor : Option NodeId} {t t' : KvPageTable},
    addPath fuel cursor t = some t' → t'.workingSets = t.workingSets
  | _, none, t, t', h => by
    simp only [addPath, Option.some.injEq] at h
    rw [h]
  | fuel + 1, some n, t, t', h => by
    simp only [addPath, Option.bind_eq_bind, Option.bind_eq_some_iff] at h
    obtain ⟨nd, _, h⟩ := h
    rw [addPath_workingSets h]
    rfl

theorem anchorTerminal_workingSets {t t' : KvPageTable} {terminal : Option NodeId}
    (h : t.anchorTerminal terminal = some t') : t'.workingSets = t.workingSets := by
  cases terminal with
  | none => exact congrArg workingSets (Option.some.inj h).symm
  | some n =>
    simp only [anchorTerminal, addAnchor, Option.bind_eq_bind, Option.bind_eq_some_iff] at h
    obtain ⟨nd, _, h⟩ := h
    rw [addPath_workingSets h]
    rfl

/-- **A fork** is a new working set that holds what the log it came from tells. -/
theorem fork_sets {s s' : KvStore} {child : WorkingSetId} (h : s.fork ws = some (.ok child, s')) :
    ∃ e, s.table.workingSets.get ws = some e ∧ Sets s s' child (forked e) ∧ s'.logSeq = s.logSeq := by
  cases hget : s.table.workingSets.get ws with
  | none =>
    rw [KvStore.fork, fork_error hget] at h
    cases h
  | some e =>
    simp only [KvStore.fork, fork, entry_eq hget, Option.bind_eq_bind] at h
    obtain ⟨⟨result, table⟩, hfork, h⟩ := Option.bind_eq_some_iff.mp h
    obtain ⟨table', hanchor, hpair⟩ := Option.bind_eq_some_iff.mp hfork
    cases hpair
    simp only [KvStore.refreshFlat, Option.bind_eq_bind, Option.bind_eq_some_iff, Option.some.injEq] at h
    obtain ⟨_, ⟨flat, _, rfl⟩, hpair⟩ := h
    cases hpair
    exact ⟨e, rfl, .of_insert (anchorTerminal_workingSets hanchor), rfl⟩

theorem logBegin_sets {s s' : KvStore} (h : s.logBegin ws cut = (.ok seq, s')) :
    ∃ e, s.table.workingSets.get ws = some e ∧ seq = s.logSeq + 1 ∧ s'.logSeq = s.logSeq + 1 ∧ Sets s s' ws
      { e with pending := e.pending.filter (fun p => p.1 ≠ s.logSeq + 1) ++ [(s.logSeq + 1, cut)] } := by
  cases hget : s.table.workingSets.get ws with
  | none =>
    simp only [KvStore.logBegin, logBegin, entry_none hget] at h
    cases h
  | some e =>
    simp only [KvStore.logBegin, logBegin, entry_eq hget] at h
    cases h
    exact ⟨e, rfl, rfl, rfl, .of_set hget rfl⟩

/-- The entry once the rows from `start` on are logged. -/
def relogged (e : WorkingSetEntry) (start : Nat) (tokens : List Nat) : WorkingSetEntry :=
  { e with logged :=
      if (e.logged.take start).length = start then e.logged.take start ++ tokens else e.logged.take start }

theorem logRows_sets {s s' : KvStore} {start : Nat} {tokens : List Nat}
    (h : s.logRows ws start tokens = (.ok (), s')) :
    ∃ e, s.table.workingSets.get ws = some e ∧ s'.logSeq = s.logSeq ∧ Sets s s' ws (relogged e start tokens) := by
  cases hget : s.table.workingSets.get ws with
  | none =>
    simp only [KvStore.logRows, KvStore.onTable, logRows, entry_none hget] at h
    cases h
  | some e =>
    simp only [KvStore.logRows, KvStore.onTable, logRows, entry_eq hget] at h
    cases h
    exact ⟨e, rfl, rfl, .of_set hget rfl⟩

/-- The entry once a pending fire is taken out, and its rows logged or the log cut. -/
def settled (e : WorkingSetEntry) (seq cut : Nat) (reported : Option (Nat × List Nat)) : WorkingSetEntry :=
  let e := { e with pending := e.pending.filter (fun p => p.1 ≠ seq) }
  match reported with
  | some (start, tokens) => relogged e start tokens
  | none => { e with logged := e.logged.take cut }

theorem logEnd_sets {s s' : KvStore} {reported : Option (Nat × List Nat)}
    (h : s.logEnd ws seq reported = (.ok (), s')) (hget : s.table.workingSets.get ws = some e)
    (hfind : e.pending.find? (fun p => p.1 = seq) = some (seq, cut)) :
    s'.logSeq = s.logSeq ∧ Sets s s' ws (settled e seq cut reported) := by
  simp only [KvStore.logEnd, KvStore.onTable, logEnd, entry_eq hget, hfind] at h
  cases reported with
  | none =>
    cases h
    exact ⟨rfl, .of_set hget rfl⟩
  | some r =>
    obtain ⟨start, tokens⟩ := r
    have hset : (s.table.setEntry ws { e with pending := e.pending.filter (fun p => p.1 ≠ seq) }).workingSets.get ws =
        some { e with pending := e.pending.filter (fun p => p.1 ≠ seq) } := GenMap.get_set_self hget
    simp only [logRows, entry_eq hset] at h
    cases h
    refine ⟨rfl, GenMap.get_set_self hset, fun other ho => ?_⟩
    exact (GenMap.get_set_of_ne ho).trans (GenMap.get_set_of_ne ho)

theorem Told.start (h : Start w) : Told w := by
  intro ws e he
  rw [h.stories]
  exact .new (h.logs ws e he)

/-- **Every step** keeps the stories told. -/
theorem Told.step (h : Told w) (hs : Step w w') : Told w' := by
  cases hs with
  | creates => exact h.update (.of_insert rfl) le_rfl (.new ⟨rfl, rfl⟩)
  | begins hk hbegin =>
    obtain ⟨e, hget, rfl, hseq, hsets⟩ := logBegin_sets hbegin
    exact h.update hsets (by omega) (hseq ▸ (h _ e hget).begins hk)
  | @ends ws seq fire later reported store hgoing hrows hend =>
    cases hget : w.store.table.workingSets.get ws with
    | none =>
      simp only [KvStore.logEnd, KvStore.onTable, logEnd, entry_none hget] at hend
      cases hend
    | some e =>
      have htells := h ws e hget
      obtain ⟨hfind, hrest⟩ := htells.oldest hgoing
      obtain ⟨hseq, hsets⟩ := logEnd_sets hend hget hfind
      refine h.update hsets (le_of_eq hseq.symm) ?_
      rw [hseq]
      match reported with
      | none =>
        exact htells.ends hgoing hrest (htells.agrees.unknown (w := { fire with known := false }) rfl)
      | some (start, tokens) =>
        exact htells.ends hgoing hrest (htells.agrees.rows rfl (hrows start tokens rfl))
  | maps hmap =>
    obtain ⟨e, hget, hseq, hsets⟩ := logRows_sets hmap
    have htells := h _ e hget
    refine h.update hsets (le_of_eq hseq.symm) ?_
    rw [hseq]
    exact ⟨htells.pending, htells.unknown, htells.numbers, htells.begun, htells.agrees.rows rfl rfl⟩
  | forks hfork =>
    obtain ⟨e, hget, hsets, hseq⟩ := fork_sets hfork
    refine h.update hsets (le_of_eq hseq.symm) ?_
    exact ⟨rfl, nofun, Pairwise.nil, nofun, (h _ e hget).known⟩
  | other hkeeps =>
    intro ws e' he'
    obtain ⟨e, he, hlog, hpending⟩ := hkeeps.logs ws e' he'
    exact ((h ws e he).mono hkeeps.seq).of_log hlog hpending

/-- **The token log is right.** In every state reached by fires begun and ended in order, rows mapped in and
forks, what a working set's log tells is what the latest writes left in its slots. -/
theorem logged_is_sound (h : Reachable Start Step w) {log : List Nat} (hlog : w.store.logged ws = .ok log) :
    Sound log (w.stories ws).writes := by
  have htold : Told w := h.invariant (fun _ h => .start h) fun _ _ _ hi hs => hi.step hs
  cases hget : w.store.table.workingSets.get ws with
  | none =>
    simp only [KvStore.logged, KvPageTable.logged, entry_none hget] at hlog
    cases hlog
  | some e =>
    simp only [KvStore.logged, KvPageTable.logged, entry_eq hget] at hlog
    cases hlog
    have hagrees := (htold ws e hget).known
    constructor
    · exact fun i token hi => latest_of_certain (hagrees i token hi)
    · intro i hi newer v older hwrites hv hcut
      have hcertain := hagrees i _ (getElem?_eq_getElem hi)
      rw [hwrites] at hcertain
      exact replaced_of_certain hcertain hv hcut

/-- Two tokens a fire wrote, the second of which another fire on its way may change. -/
theorem logged_is_sound_cut : ∃ (w : World) (ws : WorkingSetId), w.store.logged ws = .ok [7] ∧
    Sound [7] (w.stories ws).writes := by
  let fire : Write Nat := ⟨0, rows 0 [7, 8], false, fun i h => absurd h (Nat.not_lt_zero i)⟩
  let next : Write Nat := ⟨1, fun _ => none, false, fun _ _ => rfl⟩
  have hnew : Reachable Start Step ⟨KvStore.new 2 0 0 0, fun _ => Story.new⟩ := by
    refine .init ⟨fun ws e he => ?_, fun _ => rfl⟩
    rw [KvStore.new, KvPageTable.new, GenMap.get_empty] at he
    cases he
  have hcreated := hnew.step .creates
  have hbegun := hcreated.step (@Step.begins _ ⟨0, 0⟩ fire 1 _ rfl rfl)
  have hended := hbegun.step (@Step.ends _ ⟨0, 0⟩ 1 fire [] (some (0, [7, 8])) _ rfl
    (fun _ _ h => by cases h; rfl) rfl)
  have hcut := hended.step (@Step.begins _ ⟨0, 0⟩ next 2 _ rfl rfl)
  exact ⟨_, ⟨0, 0⟩, rfl, logged_is_sound hcut rfl⟩

end Pie.Proof.TokenLog
