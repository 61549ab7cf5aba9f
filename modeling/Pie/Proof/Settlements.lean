import Mathlib.Data.List.TakeWhile
import Pie.Engine.Completion

/-!
# A frame is settled once

The calls for one frame do not touch another, so a frame is followed through its
own calls: the steps that land before it is booked, the booking, and the steps
that land after it. It is published once, by the call that completes the count or
by the first fault. Steps that land after a fault has closed the frame find it
neither booked nor to be booked, and are counted as early for good.
-/

namespace Pie.Proof.Settlements

open List Std Pie.Engine Lib.Maps Ledger StepOutcome

/-! ## One frame in the ledger -/

/-- What a ledger holds of one frame. -/
structure View where
  booked : Option PendingFrame
  early : Option (Nat × Bool)
  published : List Publication
deriving DecidableEq

def view (ledger : Ledger) (f : FrameId) : View :=
  ⟨ledger.book.frames[f]?, ledger.book.early[f]?, ledger.published.filter (·.frame = f)⟩

def callsOf (f : FrameId) (calls : List Call) : List Call := calls.filter (·.frame = f)

variable {f : FrameId} {ledger ledger' : Ledger}

variable {result : Book × Option (PendingFrame × Bool)} {cells : List CellPtr} {completion : SubmissionCompletion}
  {outcomes : List StepOutcome} {o : StepOutcome} {published : List Publication} {p : Publication} {cell : Nat}

theorem view_took : view (ledger.took f result) f = ⟨result.1.frames[f]?, result.1.early[f]?,
      (view ledger f).published ++ (result.2.map fun p => ⟨f, p.1, p.2⟩).toList⟩ := by
  obtain ⟨book, p⟩ := result
  cases p <;> simp [view, took]

theorem view_took_ne {g : FrameId} (h : g ≠ f)
    (hframes : result.1.frames[f]? = ledger.book.frames[f]?) (hearly : result.1.early[f]? = ledger.book.early[f]?) :
    view (ledger.took g result) f = view ledger f := by
  obtain ⟨book, p⟩ := result
  cases p <;> simp_all [view, took]

theorem expect_other {book : Book} {g steps : Nat} {wakes : List WaitId} (h : g ≠ f) :
    (book.expect g steps cells wakes completion).1.frames[f]? = book.frames[f]?
      ∧ (book.expect g steps cells wakes completion).1.early[f]? = book.early[f]? := by
  unfold Book.expect
  cases completion.terminalCellPtr with
  | none => exact ⟨rfl, rfl⟩
  | some cell =>
    dsimp only
    split
    · exact ⟨getElem?_insert_ne h, getElem?_erase_ne h⟩
    · exact ⟨rfl, getElem?_erase_ne h⟩

theorem settled_other {book : Book} {g : FrameId} {outcome : StepOutcome} (h : g ≠ f) :
    (book.settled g outcome).1.frames[f]? = book.frames[f]? ∧ (book.settled g outcome).1.early[f]? = book.early[f]? := by
  unfold Book.settled
  cases book.frames[g]? with
  | none => exact ⟨rfl, getElem?_insert_ne h⟩
  | some pending =>
    dsimp only
    split
    · exact ⟨getElem?_insert_ne h, rfl⟩
    · exact ⟨getElem?_erase_ne h, rfl⟩

theorem view_call_ne {c : Call} (h : c.frame ≠ f) : view (ledger.call c) f = view ledger f := by
  cases c with
  | expect g steps cells wakes completion => exact view_took_ne h (expect_other h).1 (expect_other h).2
  | settled g outcome => exact view_took_ne h (settled_other h).1 (settled_other h).2

theorem callsOf_append {a b : List Call} : callsOf f (a ++ b) = callsOf f a ++ callsOf f b := filter_append ..

theorem run_append {a b : List Call} : run (a ++ b) = b.foldl call (run a) := foldl_append

/-- A landing, as the frame sees it. -/
def View.land (v : View) (f : FrameId) (failed : Bool) : View :=
  match v.booked with
  | none => ⟨none, some ((v.early.getD (0, false)).1 + 1, (v.early.getD (0, false)).2 || failed), v.published⟩
  | some pending =>
    let pending := { pending with remaining := pending.remaining - 1 }
    if !failed && 0 < pending.remaining then ⟨some pending, v.early, v.published⟩
    else ⟨none, v.early, v.published ++ [⟨f, pending, failed⟩]⟩

def View.lands (v : View) (f : FrameId) (outcomes : List StepOutcome) : View :=
  outcomes.foldl (fun v o => v.land f o.isFaulted) v

/-- The booking, as the frame sees it. -/
def View.book (v : View) (f : FrameId) (pending : PendingFrame) : View :=
  let (seen, failed) := v.early.getD (0, false)
  let pending := { pending with remaining := pending.remaining - seen }
  if 0 < pending.remaining && !failed then ⟨some pending, none, v.published⟩
  else ⟨v.booked, none, v.published ++ [⟨f, pending, failed⟩]⟩

/-- What is booked of a frame of `n` steps. -/
def pendingOf (n : Nat) (cells : List CellPtr) (wakes : List WaitId) (cell : CellPtr)
    (completion : SubmissionCompletion) : PendingFrame :=
  ⟨max n 1, cells, cell, completion.waitId, completion.targetEpoch, wakes⟩

theorem view_settled {outcome : StepOutcome} :
    view (ledger.call (.settled f outcome)) f = (view ledger f).land f outcome.isFaulted := by
  show view (ledger.took f _) f = _
  rw [view_took]
  unfold Book.settled View.land
  show _ = match ledger.book.frames[f]? with | none => _ | some pending => _
  cases hb : ledger.book.frames[f]? with
  | none =>
    dsimp only
    rw [hb, getElem?_insert_self, Option.map_none, Option.toList_none, append_nil]
    rfl
  | some pending =>
    dsimp only
    split
    · rw [getElem?_insert_self, Option.map_none, Option.toList_none, append_nil]
      rfl
    · rw [getElem?_erase_self]
      rfl

theorem view_expect {n : Nat} {wakes : List WaitId} {cell : CellPtr} (h : completion.terminalCellPtr = some cell) :
    view (ledger.call (.expect f n cells wakes completion)) f
      = (view ledger f).book f (pendingOf n cells wakes cell completion) := by
  show view (ledger.took f _) f = _
  rw [view_took]
  unfold Book.expect View.book
  rw [h]
  dsimp only [pendingOf, view]
  split
  · rw [getElem?_insert_self, getElem?_erase_self, Option.map_none, Option.toList_none, append_nil]
  · rw [getElem?_erase_self]
    rfl

/-! ## A frame of its own -/

/-- The steps of one frame land one after the other. -/
def landed (f : FrameId) (outcomes : List StepOutcome) : List Call := outcomes.map (.settled f)

theorem view_landed : view ((landed f outcomes).foldl call ledger) f = (view ledger f).lands f outcomes := by
  induction outcomes generalizing ledger with
  | nil => rfl
  | cons o rest ih =>
    rw [landed, map_cons, foldl_cons, ← landed, ih, view_settled]
    rfl

theorem view_foldl_congr {calls : List Call} (h : view ledger f = view ledger' f) :
    view (calls.foldl call ledger) f = view ((callsOf f calls).foldl call ledger') f := by
  induction calls generalizing ledger ledger' with
  | nil => exact h
  | cons c rest ih =>
    by_cases hc : c.frame = f
    · have hcall : view (ledger.call c) f = view (ledger'.call c) f := by
        subst hc
        cases c with
        | settled g outcome => exact view_settled.trans (h ▸ view_settled.symm)
        | expect g n cells wakes completion =>
          cases hcell : completion.terminalCellPtr with
          | some cell => exact (view_expect hcell).trans (h ▸ (view_expect hcell).symm)
          | none =>
            have hsame (l : Ledger) : l.call (.expect g n cells wakes completion) = l := by
              show l.took g _ = l
              unfold Book.expect
              rw [hcell]
              exact congrArg (Ledger.mk l.book) (append_nil _)
            rw [hsame, hsame]
            exact h
      have hfilter : callsOf f (c :: rest) = c :: callsOf f rest := filter_cons_of_pos (decide_eq_true hc)
      rw [hfilter]
      exact ih hcall
    · rw [callsOf, filter_cons_of_neg (by simpa using hc)]
      exact ih ((view_call_ne hc).trans h)

theorem view_run {calls : List Call} : view (run calls) f = view (run (callsOf f calls)) f := view_foldl_congr rfl

/-- What is counted of steps that landed while the frame was not booked. -/
def tally : List StepOutcome → Option (Nat × Bool)
  | [] => none
  | o :: rest => some (rest.length + 1, (o :: rest).any StepOutcome.isFaulted)

theorem tally_concat : tally (outcomes ++ [o])
    = some (((tally outcomes).getD (0, false)).1 + 1, ((tally outcomes).getD (0, false)).2 || o.isFaulted) := by
  cases outcomes <;> simp [tally, Bool.or_assoc]

theorem tally_getD : (tally outcomes).getD (0, false) = (outcomes.length, outcomes.any isFaulted) := by
  cases outcomes <;> rfl

theorem tally_eq_none : tally outcomes = none ↔ outcomes = [] := by
  cases outcomes <;> simp [tally]

theorem land_unbooked (before : List StepOutcome) :
    View.lands ⟨none, tally before, published⟩ f outcomes = ⟨none, tally (before ++ outcomes), published⟩ := by
  induction outcomes generalizing before with
  | nil => rw [append_nil]; rfl
  | cons o rest ih =>
    have hland : View.land ⟨none, tally before, published⟩ f o.isFaulted = ⟨none, tally (before ++ [o]), published⟩ := by
      rw [tally_concat]
      rfl
    show View.lands (View.land _ f o.isFaulted) f rest = _
    rw [hland, ih, append_assoc]
    rfl

/-- Steps without a fault only count down, as long as they are not the last ones. -/
theorem land_open {pending : PendingFrame}
    (hlt : outcomes.length < pending.remaining) (hok : ∀ o ∈ outcomes, o.isFaulted = false) :
    View.lands ⟨some pending, none, published⟩ f outcomes
      = ⟨some { pending with remaining := pending.remaining - outcomes.length }, none, published⟩ := by
  induction outcomes generalizing pending with
  | nil => rfl
  | cons o rest ih =>
    rw [length_cons] at hlt
    have hcond : (!o.isFaulted && decide (0 < pending.remaining - 1)) = true := by
      rw [hok o mem_cons_self, Bool.not_false, Bool.true_and, decide_eq_true_eq]
      omega
    show View.lands (View.land _ f o.isFaulted) f rest = _
    unfold View.land
    dsimp only
    rw [if_pos hcond, ih (by dsimp only; omega) (fun x hx => hok x (mem_cons_of_mem _ hx)), length_cons]
    dsimp only
    rw [Nat.sub_sub, Nat.add_comm 1]

theorem land_close {pending : PendingFrame} (h : o.isFaulted = true ∨ pending.remaining = 1) :
    View.land ⟨some pending, none, published⟩ f o.isFaulted
      = ⟨none, none, published ++ [⟨f, { pending with remaining := pending.remaining - 1 }, o.isFaulted⟩]⟩ := by
  have hcond : ¬(!o.isFaulted && decide (0 < pending.remaining - 1)) = true := by
    rcases h with h | h
    · rw [h]
      simp
    · rw [h]
      simp
  unfold View.land
  dsimp only
  rw [if_neg hcond]

theorem lands_cons {v : View} {rest : List StepOutcome} :
    v.lands f (o :: rest) = (v.land f o.isFaulted).lands f rest := rfl

theorem lands_append {v : View} {a b : List StepOutcome} : v.lands f (a ++ b) = (v.lands f a).lands f b :=
  foldl_append

theorem any_faulted_eq_false : outcomes.any isFaulted = false ↔ ∀ o ∈ outcomes, o.isFaulted = false := by
  simp only [any_eq_false, Bool.not_eq_true]

theorem lands_last {pending : PendingFrame}
    (hpos : 0 < pending.remaining) (hlen : outcomes.length = pending.remaining)
    (hok : ∀ o ∈ outcomes, o.isFaulted = false) :
    ∃ remaining, View.lands ⟨some pending, none, published⟩ f outcomes
      = ⟨none, none, published ++ [⟨f, { pending with remaining }, false⟩]⟩ := by
  obtain ⟨init, last, rfl⟩ := eq_nil_or_concat outcomes |>.resolve_left
    (fun h => by rw [h, length_nil] at hlen; omega)
  rw [concat_eq_append] at *
  rw [length_append, length_singleton] at hlen
  have hlast : last.isFaulted = false := hok last (by simp)
  refine ⟨pending.remaining - init.length - 1, ?_⟩
  rw [lands_append, land_open (by omega) (fun o ho => hok o (by simp [ho])), lands_cons, land_close (.inr _), hlast]
  · rfl
  · dsimp only
    omega

theorem lands_fault {pending : PendingFrame} {ok rest : List StepOutcome} (hlen : ok.length < pending.remaining) (hok : ∀ o ∈ ok, o.isFaulted = false)
    (ho : o.isFaulted = true) :
    ∃ remaining, View.lands ⟨some pending, none, published⟩ f (ok ++ o :: rest)
      = ⟨none, tally rest, published ++ [⟨f, { pending with remaining }, true⟩]⟩ := by
  refine ⟨pending.remaining - ok.length - 1, ?_⟩
  rw [lands_append, land_open hlen hok, lands_cons, land_close (.inl ho), ho]
  exact land_unbooked []

/-- The steps that land once the frame has been published. -/
def leftover (pre post : List StepOutcome) : List StepOutcome :=
  if pre.any StepOutcome.isFaulted then post else (post.dropWhile (!·.isFaulted)).tail

/-- A frame that has not come to its end is open. -/
theorem lands_open {pending : PendingFrame} {pre post : List StepOutcome}
    (hok : ∀ o ∈ pre ++ post, o.isFaulted = false) (hlt : pre.length + post.length < pending.remaining) :
    (View.book ⟨none, tally pre, []⟩ f pending).lands f post
      = ⟨some { pending with remaining := pending.remaining - pre.length - post.length }, none, []⟩ := by
  have hpre : pre.any isFaulted = false :=
    any_faulted_eq_false.mpr fun o ho => hok o (mem_append_left _ ho)
  have hcond : (decide (0 < pending.remaining - pre.length) && !false) = true := by
    rw [Bool.not_false, Bool.and_true, decide_eq_true_eq]
    omega
  unfold View.book
  rw [tally_getD]
  dsimp only
  rw [hpre, if_pos hcond, land_open (by dsimp only; omega) (fun o ho => hok o (mem_append_right _ ho))]

/-- The last step, or the first fault, publishes the frame. -/
theorem lands_closed {pending : PendingFrame} {pre post : List StepOutcome}
    (hlen : pre.length + post.length ≤ pending.remaining)
    (hend : pre.length + post.length = pending.remaining ∨ (pre ++ post).any isFaulted = true) :
    ∃ remaining, (View.book ⟨none, tally pre, []⟩ f pending).lands f post
      = ⟨none, tally (leftover pre post),
          [⟨f, { pending with remaining }, (pre ++ post).any isFaulted⟩]⟩ := by
  unfold View.book leftover
  rw [tally_getD, any_append] at *
  dsimp only
  cases hpre : pre.any isFaulted with
  | true =>
    refine ⟨pending.remaining - pre.length, ?_⟩
    rw [Bool.not_true, Bool.and_false, if_neg Bool.false_ne_true, if_pos rfl, Bool.true_or, nil_append]
    exact land_unbooked []
  | false =>
    rw [hpre, Bool.false_or] at hend
    rw [Bool.not_false, Bool.and_true, if_neg Bool.false_ne_true, Bool.false_or]
    by_cases hfull : pre.length = pending.remaining
    · -- all had landed before the frame was booked
      obtain rfl : post = [] := length_eq_zero_iff.mp (by omega)
      refine ⟨pending.remaining - pre.length, ?_⟩
      rw [hfull, Nat.sub_self, if_neg (by simp)]
      rfl
    rw [if_pos (by rw [decide_eq_true_eq]; omega)]
    have hsplit : post.takeWhile (!·.isFaulted) ++ post.dropWhile (!·.isFaulted) = post := takeWhile_append_dropWhile
    have hok : ∀ o ∈ post.takeWhile (!·.isFaulted), o.isFaulted = false := by
      intro o ho
      simpa using mem_takeWhile_imp ho
    cases hdrop : post.dropWhile (!·.isFaulted) with
    | nil =>
      rw [hdrop, append_nil] at hsplit
      rw [hsplit] at hok
      have hany := any_faulted_eq_false.mpr hok
      rw [hany] at hend ⊢
      have htotal := hend.resolve_right Bool.false_ne_true
      exact lands_last (by dsimp only; omega) (by dsimp only; omega) hok
    | cons o rest =>
      have hfault : o.isFaulted = true := by
        have := head_dropWhile_not (p := (!·.isFaulted)) (l := post) (by rw [hdrop]; exact cons_ne_nil _ _)
        simpa [hdrop] using this
      rw [hdrop] at hsplit
      have hany : post.any isFaulted = true := by
        rw [any_eq_true, ← hsplit]
        exact ⟨o, by simp, hfault⟩
      have hcount : (post.takeWhile (!·.isFaulted)).length < post.length := by
        have := congrArg length hsplit
        rw [length_append, length_cons] at this
        omega
      rw [hany]
      have hlt : (post.takeWhile (!·.isFaulted)).length
          < { pending with remaining := pending.remaining - pre.length : PendingFrame }.remaining := by
        dsimp only
        omega
      rw [← hsplit]
      exact lands_fault hlt hok hfault

/-! ## Whole interleavings -/

/-- What is asked for a frame when it is booked, with the cell of its completion. -/
structure Booking where
  steps : Nat
  cells : List CellPtr
  wakes : List WaitId
  completion : SubmissionCompletion
  cell : CellPtr
  cell_eq : completion.terminalCellPtr = some cell
  steps_pos : 0 < steps

def Booking.call (b : Booking) (f : FrameId) : Call := .expect f b.steps b.cells b.wakes b.completion

def Booking.pending (b : Booking) : PendingFrame := pendingOf b.steps b.cells b.wakes b.cell b.completion

/-- Each frame is booked once, and each of its steps lands once, before that or after it. -/
def Whole (calls : List Call) : Prop :=
  ∀ f ∈ calls.map Call.frame, ∃ (b : Booking) (pre post : List StepOutcome),
    pre.length + post.length = b.steps ∧ callsOf f calls = landed f pre ++ b.call f :: landed f post

def Booked (f : FrameId) (calls : List Call) : Prop := ∃ b : Booking, b.call f ∈ calls

def Faulted (f : FrameId) (calls : List Call) : Prop := ∃ why, .settled f (.faulted why) ∈ calls

/-- The number of steps of the frame that have landed. -/
def landings (f : FrameId) (calls : List Call) : Nat := (calls.filterMap fun | .settled g _ => some g | _ => none).count f

/-- A step of the frame lands when it is booked and has faulted. -/
def Late (f : FrameId) (calls : List Call) : Prop :=
  ∃ before o after, calls = before ++ .settled f o :: after ∧ Booked f before ∧ Faulted f before

def storeOf (cell : Nat) : Effect → Option TerminalOutcomeCode
  | .store c outcome => if c = cell then some outcome else none
  | _ => none

/-- What is stored into a cell. -/
def stores (cell : Nat) (published : List Publication) : List TerminalOutcomeCode :=
  (published.flatMap fun p => publish p.pending p.failed).filterMap (storeOf cell)

/-- The cells that are asked for with a call. -/
def cellsOf : Call → List CellPtr
  | .expect _ _ cells _ completion => cells ++ completion.terminalCellPtr.toList
  | .settled .. => []

/-- The frame is settled exactly once. -/
structure SettledOnce (f : FrameId) (calls : List Call) : Prop where
  once : ∃ (b : Booking) (remaining : Nat) (failed : Bool), b.call f ∈ calls
    ∧ (run calls).published.filter (·.frame = f) = [⟨f, { b.pending with remaining }, failed⟩]
  success : ∀ before after (b : Booking), calls = before ++ after → b.call f ∈ calls →
    ∀ p ∈ (run before).published, p.frame = f → p.failed = false → landings f before = b.steps ∧ ¬Faulted f before
  failed : ∀ p ∈ (run calls).published, p.frame = f → (p.failed = true ↔ Faulted f calls)
  /-- A cell that only this frame points to, and once, is written once. -/
  stored : ∀ cell, ((callsOf f calls).flatMap cellsOf).count (some cell) = 1 →
    (∀ c ∈ calls, c.frame ≠ f → some cell ∉ cellsOf c) →
    ∃ outcome, stores cell (run calls).published = [outcome] ∧ (outcome = .failed ↔ Faulted f calls)
  gone : ∀ before after (b : Booking), calls = before ++ after → b.call f ∈ before → landings f before = b.steps →
    (run before).book.frames[f]? = none ∧ (run before).book.early[f]? = none

variable {calls : List Call} {b : Booking} {pre post : List StepOutcome}

theorem faulted_callsOf : Faulted f calls ↔ Faulted f (callsOf f calls) := by
  unfold Faulted callsOf
  simp only [mem_filter, Call.frame, decide_true, and_true]

theorem faulted_landed : Faulted f (landed f pre ++ b.call f :: landed f post) ↔
    (pre ++ post).any isFaulted = true := by
  have hmem (o : StepOutcome) :
      Call.settled f o ∈ landed f pre ++ b.call f :: landed f post ↔ o ∈ pre ++ post := by
    simp [landed, Booking.call]
  rw [any_eq_true]
  constructor
  · rintro ⟨why, h⟩
    exact ⟨_, (hmem _).mp h, rfl⟩
  · rintro ⟨o, ho, hf⟩
    cases o with
    | faulted why => exact ⟨why, (hmem _).mpr ho⟩
    | committed => cases hf
    | wrote => cases hf

theorem landings_callsOf : landings f calls = landings f (callsOf f calls) := by
  induction calls with
  | nil => rfl
  | cons c rest ih =>
    unfold landings callsOf at *
    cases c with
    | settled g o =>
      by_cases hg : g = f
      · subst hg
        simp [Call.frame, ih]
      · simp [Call.frame, hg, ih]
    | expect g n cells wakes completion =>
      by_cases hg : g = f <;> simp [Call.frame, hg, ih]

theorem landings_landed : landings f (landed f pre) = pre.length := by
  have hall : landings f (landed f pre) = (pre.map fun _ => f).count f := by
    unfold landings landed
    rw [filterMap_map, ← filterMap_eq_map]
    rfl
  rw [hall, map_const', count_replicate_self]

theorem landings_append {a c : List Call} : landings f (a ++ c) = landings f a + landings f c := by
  unfold landings
  rw [filterMap_append, count_append]

theorem landings_whole : landings f (landed f pre ++ b.call f :: landed f post) = pre.length + post.length := by
  rw [landings_append, landings_landed]
  exact congrArg _ landings_landed

theorem view_whole : view (run (landed f pre ++ b.call f :: landed f post)) f
    = (View.book ⟨none, tally pre, []⟩ f b.pending).lands f post := by
  have hpre : view (run (landed f pre)) f = ⟨none, tally pre, []⟩ := by
    rw [run, view_landed]
    exact land_unbooked []
  rw [run_append, foldl_cons, view_landed, Booking.call, view_expect b.cell_eq, hpre]
  rfl

theorem pending_remaining : b.pending.remaining = b.steps := max_eq_left b.steps_pos

/-! ## Part of an interleaving -/

/-- A part of what is called for a frame stops before the booking or behind it. -/
theorem part_cases {a c : List Call} (h : a ++ c = landed f pre ++ b.call f :: landed f post) :
    (∃ pre', a = landed f pre' ∧ b.call f ∈ c)
      ∨ ∃ post' rest, post = post' ++ rest ∧ a = landed f pre ++ b.call f :: landed f post' ∧ c = landed f rest := by
  obtain ⟨d, hpre, hc⟩ | ⟨d, ha, hd⟩ := append_eq_append_iff.mp h
  · obtain ⟨pre', -, -, rfl, -⟩ := map_eq_append_iff.mp hpre
    exact .inl ⟨pre', rfl, by rw [hc]; simp⟩
  · cases d with
    | nil => exact .inl ⟨pre, by rw [ha, append_nil], by rw [nil_append] at hd; rw [← hd]; simp⟩
    | cons x d =>
      obtain ⟨rfl, hpost⟩ := List.cons.inj hd
      obtain ⟨post', rest, hsplit, rfl, rfl⟩ := map_eq_append_iff.mp hpost
      exact .inr ⟨post', rest, hsplit, ha, rfl⟩

theorem landed_published : view (run (landed f outcomes)) f = ⟨none, tally outcomes, []⟩ := by
  rw [run, view_landed]
  exact land_unbooked []

theorem mem_published (hp : p ∈ ledger.published) : p ∈ (view ledger p.frame).published := by
  simpa [view] using hp

theorem booking_unique {b' : Booking} (h : callsOf f calls = landed f pre ++ b.call f :: landed f post)
    (hb' : b'.call f ∈ callsOf f calls) : b'.call f = b.call f := by
  rw [h] at hb'
  simpa [landed, Booking.call] using hb'

theorem leftover_ne_nil_iff :
    leftover pre post ≠ [] ↔ ∃ post' o rest, post = post' ++ o :: rest ∧ (pre ++ post').any isFaulted = true := by
  cases hpre : pre.any isFaulted with
  | true =>
    simp only [leftover, hpre, if_true, any_append, Bool.true_or, and_true]
    constructor
    · intro h
      obtain ⟨o, rest, rfl⟩ := exists_cons_of_ne_nil h
      exact ⟨[], o, rest, rfl⟩
    · rintro ⟨post', o, rest, rfl⟩
      simp
  | false =>
    simp only [leftover, hpre, Bool.false_eq_true, if_false, any_append, Bool.false_or]
    induction post with
    | nil => simp
    | cons x post ih =>
      cases hx : x.isFaulted with
      | true =>
        rw [dropWhile_cons_of_neg (by simp [hx]), tail_cons]
        constructor
        · intro h
          obtain ⟨o, rest, rfl⟩ := exists_cons_of_ne_nil h
          exact ⟨[x], o, rest, rfl, by simp [hx]⟩
        · rintro ⟨post', o, rest, hsplit, hany⟩
          cases post' with
          | nil => cases hany
          | cons y post' =>
            rw [(List.cons.inj hsplit).2]
            simp
      | false =>
        rw [dropWhile_cons_of_pos (by simp [hx]), ih]
        constructor
        · rintro ⟨post', o, rest, rfl, hany⟩
          exact ⟨x :: post', o, rest, rfl, by rw [any_cons, hany, Bool.or_true]⟩
        · rintro ⟨post', o, rest, hsplit, hany⟩
          cases post' with
          | nil => cases hany
          | cons y post' =>
            cases hsplit
            rw [any_cons, hx, Bool.false_or] at hany
            exact ⟨post', o, rest, rfl, hany⟩

theorem late_iff (h : callsOf f calls = landed f pre ++ b.call f :: landed f post) :
    Late f calls ↔ leftover pre post ≠ [] := by
  rw [leftover_ne_nil_iff]
  constructor
  · rintro ⟨before, o, after, rfl, ⟨b', hb'⟩, hfault⟩
    rw [callsOf_append] at h
    have hb'' : b'.call f ∈ callsOf f before := mem_filter.mpr ⟨hb', decide_eq_true rfl⟩
    obtain ⟨pre', hpre', -⟩ | ⟨post', rest, hpost, hbefore, hrest⟩ := part_cases h
    · rw [hpre'] at hb''
      simp [landed, Booking.call] at hb''
    · obtain ⟨o', rest', rfl, -, -⟩ := map_eq_cons_iff.mp
        (hrest.symm.trans (filter_cons_of_pos (decide_eq_true rfl)))
      exact ⟨post', o', rest', hpost, faulted_landed.mp (hbefore ▸ faulted_callsOf.mp hfault)⟩
  · rintro ⟨post', o, rest, rfl, hany⟩
    have hsplit : callsOf f calls = (landed f pre ++ b.call f :: landed f post') ++ .settled f o :: landed f rest := by
      rw [h]
      simp [landed]
    obtain ⟨before, tail, rfl, hbefore, htail⟩ := filter_eq_append_iff.mp hsplit
    obtain ⟨skip, after, rfl, -, -, -⟩ := filter_eq_cons_iff.mp htail
    refine ⟨before ++ skip, o, after, (append_assoc ..).symm, ⟨b, ?_⟩, ?_⟩
    · have : b.call f ∈ callsOf f before := by
        rw [callsOf, hbefore]
        simp
      exact mem_append_left _ ((mem_filter.mp this).1)
    · obtain ⟨why, hwhy⟩ := faulted_callsOf.mpr ((congrArg (Faulted f) hbefore).mpr (faulted_landed.mpr hany))
      exact ⟨why, mem_append_left _ hwhy⟩

/-! ## What is stored -/

theorem stores_cons : stores cell (p :: published) = stores cell [p] ++ stores cell published := by
  simp [stores]

theorem stores_eq_filter (h : ∀ p ∈ published, p.frame ≠ f → stores cell [p] = []) :
    stores cell published = stores cell (published.filter (·.frame = f)) := by
  induction published with
  | nil => rfl
  | cons p rest ih =>
    have hrest := ih fun q hq => h q (mem_cons_of_mem _ hq)
    rw [stores_cons, hrest]
    by_cases hp : p.frame = f
    · rw [filter_cons_of_pos (by simpa using hp), ← stores_cons]
    · rw [filter_cons_of_neg (by simpa using hp), h p mem_cons_self hp, nil_append]

theorem settle_stores {code : TerminalOutcomeCode} :
    (settle cells code).filterMap (storeOf cell) = replicate (cells.count (some cell)) code := by
  induction cells with
  | nil => rfl
  | cons c rest ih =>
    cases c with
    | none =>
      rw [count_cons_of_ne (by simp), ← ih]
      rfl
    | some c =>
      have hcons : settle (some c :: rest) code = .store c code :: settle rest code := rfl
      by_cases hc : c = cell
      · subst hc
        rw [hcons, filterMap_cons_some (b := code) (by simp [storeOf]), count_cons_self, replicate_succ, ih]
      · rw [hcons, filterMap_cons_none (by simp [storeOf, hc]), count_cons_of_ne (by simpa using hc), ih]

/-- A publication stores its outcome as often as it points to the cell. -/
theorem stores_singleton : stores cell [p] = replicate ((p.pending.cells ++ [p.pending.frameCell]).count (some cell))
        (if p.failed then .failed else .success) := by
  have hrest : (Effect.notify p.pending.waitId p.pending.epoch :: p.pending.wakes.map .wake).filterMap (storeOf cell)
      = [] := by
    simp [storeOf, filterMap_eq_nil_iff]
  unfold stores publish
  rw [flatMap_singleton, filterMap_append, filterMap_append, settle_stores, settle_stores,
    replicate_append_replicate, hrest, append_nil, count_append]

theorem cellsOf_landed : (landed f outcomes).flatMap cellsOf = [] := by
  simp [landed, cellsOf]

theorem cellsOf_whole : (landed f pre ++ b.call f :: landed f post).flatMap cellsOf = b.cells ++ [b.cell] := by
  rw [flatMap_append, flatMap_cons, cellsOf_landed, cellsOf_landed, nil_append, append_nil]
  simp [Booking.call, cellsOf, b.cell_eq]

/-! ## The frame and its calls -/

/-- What is published of a frame that has been called for as a whole. -/
theorem whole_view (hlen : pre.length + post.length = b.steps)
    (h : callsOf f calls = landed f pre ++ b.call f :: landed f post) :
    ∃ remaining, view (run calls) f = ⟨none, tally (leftover pre post),
      [⟨f, { b.pending with remaining }, (pre ++ post).any isFaulted⟩]⟩ := by
  rw [view_run, h, view_whole]
  rw [← pending_remaining] at hlen
  exact lands_closed hlen.le (.inl hlen)

theorem mem_frames_of_published (hp : p ∈ (run calls).published) : p.frame ∈ calls.map Call.frame := by
  by_contra hnot
  have hnone : callsOf p.frame calls = [] := by
    rw [callsOf, filter_eq_nil_iff]
    intro c hc heq
    exact hnot (mem_map.mpr ⟨c, hc, by simpa using heq⟩)
  have hview := mem_published hp
  rw [view_run, hnone] at hview
  cases hview

/-- The cells of another frame are those that were asked for with it. -/
theorem other_stores (hwhole : Whole calls) (hp : p ∈ (run calls).published)
    (hnot : ∀ c ∈ calls, c.frame = p.frame → some cell ∉ cellsOf c) : stores cell [p] = [] := by
  obtain ⟨b, pre, post, hlen, hcalls⟩ := hwhole p.frame (mem_frames_of_published hp)
  obtain ⟨remaining, hview⟩ := whole_view hlen hcalls
  have hmem := mem_published hp
  rw [hview, mem_singleton] at hmem
  have hb : b.call p.frame ∈ calls := (mem_filter.mp (hcalls ▸ by simp : b.call p.frame ∈ callsOf p.frame calls)).1
  have hcell := hnot _ hb rfl
  rw [stores_singleton, hmem]
  have hzero : (b.cells ++ [b.cell]).count (some cell) = 0 := by
    rw [count_eq_zero]
    simpa [Booking.call, cellsOf, b.cell_eq] using hcell
  show replicate ((b.cells ++ [b.cell]).count (some cell)) _ = []
  rw [hzero, replicate_zero]

theorem stored_once (hwhole : Whole calls) (hlen : pre.length + post.length = b.steps)
    (h : callsOf f calls = landed f pre ++ b.call f :: landed f post)
    (hone : ((callsOf f calls).flatMap cellsOf).count (some cell) = 1)
    (hother : ∀ c ∈ calls, c.frame ≠ f → some cell ∉ cellsOf c) :
    stores cell (run calls).published
      = [if (pre ++ post).any isFaulted then .failed else .success] := by
  obtain ⟨remaining, hview⟩ := whole_view hlen h
  have hpublished := congrArg View.published hview
  rw [stores_eq_filter (f := f) fun p hp hne => other_stores hwhole hp fun c hc hcp => hother c hc (hcp ▸ hne)]
  show stores cell (view (run calls) f).published = _
  rw [hpublished, stores_singleton]
  rw [h, cellsOf_whole] at hone
  show replicate ((b.cells ++ [b.cell]).count (some cell)) _ = _
  rw [hone, replicate_one]

/-- Part of the calls for a frame: it is published with all of its steps, or with a fault. -/
theorem part_published {before after : List Call} (hlen : pre.length + post.length = b.steps)
    (h : callsOf f (before ++ after) = landed f pre ++ b.call f :: landed f post)
    (hp : p ∈ (run before).published) (hf : p.frame = f) (hok : p.failed = false) :
    landings f before = b.steps ∧ ¬Faulted f before := by
  subst hf
  have hmem := mem_published hp
  rw [callsOf_append] at h
  obtain ⟨pre', hpre', -⟩ | ⟨post', rest, hpost, hbefore, -⟩ := part_cases h
  · rw [view_run, hpre', landed_published] at hmem
    cases hmem
  · have hle : pre.length + post'.length ≤ b.pending.remaining := by
      rw [pending_remaining, ← hlen, hpost, length_append]
      omega
    rw [view_run, hbefore, view_whole] at hmem
    by_cases hend : pre.length + post'.length = b.pending.remaining ∨ (pre ++ post').any isFaulted = true
    · obtain ⟨remaining, hview⟩ := lands_closed (f := p.frame) hle hend
      rw [hview, mem_singleton] at hmem
      have hany : (pre ++ post').any isFaulted = false := (congrArg Publication.failed hmem).symm.trans hok
      refine ⟨?_, ?_⟩
      · rw [landings_callsOf, hbefore, landings_whole, ← pending_remaining]
        exact hend.resolve_right (by rw [hany]; exact Bool.false_ne_true)
      · rw [faulted_callsOf, hbefore, faulted_landed, hany]
        exact Bool.false_ne_true
    · obtain ⟨hlt, hany⟩ := not_or.mp hend
      rw [lands_open (any_faulted_eq_false.mp (by simpa using hany)) (by omega)] at hmem
      cases hmem

/-- Part of the calls for a frame that has its booking and all of the steps is the whole. -/
theorem part_whole {before after : List Call} {b' : Booking} (hlen : pre.length + post.length = b.steps)
    (h : callsOf f (before ++ after) = landed f pre ++ b.call f :: landed f post) (hb' : b'.call f ∈ before)
    (hall : landings f before = b'.steps) : callsOf f before = landed f pre ++ b.call f :: landed f post := by
  have hb'' : b'.call f ∈ callsOf f before := mem_filter.mpr ⟨hb', decide_eq_true rfl⟩
  have hsteps : b'.steps = b.steps := by
    have : b'.call f = b.call f :=
      booking_unique h (by rw [callsOf_append]; exact mem_append_left _ hb'')
    simp only [Booking.call, Call.expect.injEq] at this
    exact this.2.1
  rw [callsOf_append] at h
  obtain ⟨pre', hpre', -⟩ | ⟨post', rest, hpost, hbefore, -⟩ := part_cases h
  · rw [hpre'] at hb''
    simp [landed, Booking.call] at hb''
  · rw [landings_callsOf, hbefore, landings_whole, hsteps, ← hlen, hpost, length_append] at hall
    obtain rfl : rest = [] := length_eq_zero_iff.mp (by omega)
    rw [hbefore, hpost, append_nil]

/-- The frame is settled exactly once unless a step of it lands behind the fault that has closed it. -/
theorem frame_settled_iff (hwhole : Whole calls) (hf : f ∈ calls.map Call.frame) :
    SettledOnce f calls ↔ ¬Late f calls := by
  obtain ⟨b, pre, post, hlen, hcalls⟩ := hwhole f hf
  obtain ⟨remaining, hview⟩ := whole_view hlen hcalls
  have hb : b.call f ∈ calls := (List.mem_filter.mp (hcalls ▸ by simp : b.call f ∈ callsOf f calls)).1
  have hsteps : landings f calls = b.steps := by rw [landings_callsOf, hcalls, landings_whole, hlen]
  have hfaulted : Faulted f calls ↔ (pre ++ post).any StepOutcome.isFaulted = true := by
    rw [faulted_callsOf, hcalls, faulted_landed]
  rw [late_iff hcalls, not_not]
  constructor
  · intro h
    have hearly := (h.gone calls [] b (append_nil _).symm hb hsteps).2
    have htally : (view (run calls) f).early = none := hearly
    rw [hview] at htally
    exact tally_eq_none.mp htally
  · intro hleft
    refine ⟨⟨b, remaining, _, hb, congrArg View.published hview⟩, ?_, ?_, ?_, ?_⟩
    · rintro before after b' rfl hb' p hp hpf hok
      have hcall : b'.call f = b.call f := booking_unique hcalls (List.mem_filter.mpr ⟨hb', decide_eq_true rfl⟩)
      obtain ⟨hall, hnone⟩ := part_published hlen hcalls hp hpf hok
      simp only [Booking.call, Call.expect.injEq] at hcall
      exact ⟨hall.trans hcall.2.1.symm, hnone⟩
    · intro p hp hpf
      subst hpf
      have hmem := mem_published hp
      rw [hview, mem_singleton] at hmem
      rw [hfaulted, congrArg Publication.failed hmem]
    · intro cell hone hother
      refine ⟨_, stored_once hwhole hlen hcalls hone hother, ?_⟩
      rw [hfaulted]
      cases (pre ++ post).any StepOutcome.isFaulted <;> simp
    · rintro before after b' rfl hb' hall
      have hbefore := part_whole hlen hcalls hb' hall
      obtain ⟨remaining', hview'⟩ := whole_view hlen hbefore
      rw [hleft] at hview'
      exact ⟨congrArg View.booked hview', congrArg View.early hview'⟩

/-- Two steps, and a cell for each of the two requests. -/
def twoSteps : Booking := ⟨2, [some 40, some 41], [5], ⟨some (some 42), 3, 1⟩, some 42, rfl, by decide⟩

def oneStep : Booking := ⟨1, [some 50], [], ⟨some (some 51), 4, 1⟩, some 51, rfl, by decide⟩

/-- A step of one frame lands before its booking and the last step with a fault, another frame in between. -/
theorem frame_settled_iff_holds : SettledOnce 7 [.settled 7 .wrote, .expect 9 1 [some 50] [] ⟨some (some 51), 4, 1⟩,
      .expect 7 2 [some 40, some 41] [5] ⟨some (some 42), 3, 1⟩, .settled 9 .committed, .settled 7 (.faulted "oom")] := by
  refine (frame_settled_iff ?_ (by decide)).mpr ?_
  · intro f hf
    have hcases : f = 7 ∨ f = 9 := by
      simp only [map_cons, map_nil, Call.frame, mem_cons, not_mem_nil] at hf
      grind
    obtain rfl | rfl := hcases
    · exact ⟨twoSteps, [.wrote], [.faulted "oom"], rfl, by decide⟩
    · exact ⟨oneStep, [], [.committed], rfl, by decide⟩
  · rintro ⟨before, o, after, hsplit, -, why, hfault⟩
    -- the one fault is the last call
    have hlast : ∀ c ∈ before, c ∈ [Call.settled 7 .wrote, .expect 9 1 [some 50] [] ⟨some (some 51), 4, 1⟩,
        .expect 7 2 [some 40, some 41] [5] ⟨some (some 42), 3, 1⟩, .settled 9 .committed] := by
      intro c hc
      have hdrop := congrArg dropLast hsplit
      rw [dropLast_append_of_ne_nil (cons_ne_nil _ _)] at hdrop
      have : c ∈ before ++ (Call.settled 7 o :: after).dropLast := mem_append_left _ hc
      rwa [← hdrop] at this
    have := hlast _ hfault
    simp at this

/-- The second step lands when the first one has closed the frame with its fault, and is kept as early. -/
theorem late_step_stays : ∃ calls f, Whole calls ∧ f ∈ calls.map Call.frame ∧ ¬SettledOnce f calls := by
  refine ⟨[.expect 7 2 [some 40, some 41] [5] ⟨some (some 42), 3, 1⟩, .settled 7 (.faulted "oom"),
    .settled 7 .committed], 7, ?_, by decide, ?_⟩
  · intro f hf
    obtain rfl : f = 7 := by simpa [Call.frame] using hf
    exact ⟨twoSteps, [], [.faulted "oom", .committed], rfl, by decide⟩
  · intro h
    have hgone := (h.gone _ [] twoSteps (append_nil _).symm (by decide) (by decide)).2
    revert hgone
    decide

end Pie.Proof.Settlements
