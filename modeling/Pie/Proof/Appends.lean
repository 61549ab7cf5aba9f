import Pie.Proof.Buffered

/-!
# Appends that are given up

A writer that goes on at the end of a file takes nothing from it, whatever comes
of its calls: it writes at the end, and what it takes back it has written
itself. So the old file is a prefix of what an append that is given up leaves.
-/

namespace Pie.Proof.Appends

open List Option Std Lib Lib.Words Lib.Effects Ztensor Planes Images Writing Building Tracks Endings Buffered Ends Writer Out
open Cbor (Value)

variable {n target : Nat} {how : Writer.GivingUp} {left : List UInt8} {name : Str}

variable {env : Env} {file : List UInt8} {o : Out} {w : Writer} {σ : Session}

/-! ## Going on -/

/-- The writer goes on after the file. -/
structure After (file : List UInt8) (w : Writer) : Prop where
  keeps : file <+: w.out.file
  beyond : file.length ≤ w.offset
  aligned : Aligned w
  appending : w.appending = true

/-- A program that leaves the writer after the file, with a result that satisfies `Q`. -/
def Stays (file : List UInt8) {α : Type} (r : EStateM.Result (Stop Error) Writer α) (Q : α → Prop) : Prop :=
  Ends r (fun a w' => After file w' ∧ Q a) (After file)

section

variable (h : file <+: o.file)
include h

theorem write_keeps (data : List UInt8) :
    Ends (write data o) (fun _ o' => file <+: o'.file) (fun o' => file <+: o'.file) := by
  unfold write
  dsimp only
  split
  · exact h
  · split
    · exact h.trans (prefix_append _ _)
    · exact h.trans (prefix_append _ _)

theorem flush_keeps :
    Ends (flush o) (fun _ o' => file <+: o'.file) (fun o' => file <+: o'.file) := by
  unfold flush
  split
  · exact h
  · split
    · exact h.trans (prefix_append _ _)
    · exact h.trans (prefix_append _ _)

theorem touch_keeps :
    Ends (touch o) (fun _ o' => file <+: o'.file) (fun o' => file <+: o'.file) := by
  unfold touch
  split
  · exact h
  · exact h

theorem setLen_keeps (hn : file.length ≤ n) :
    Ends (setLen n o) (fun _ o' => file <+: o'.file) (fun o' => file <+: o'.file) := by
  unfold setLen
  refine Ends.bind ((touch_keeps h).mono (fun _ o' ho' => modify ?_) (fun _ ho' => ho'))
  exact (prefix_take_iff.mpr ⟨ho', hn⟩).trans (prefix_append _ _)

theorem intoInner_keeps :
    Ends (intoInner o) (fun _ o' => file <+: o'.file) (fun o' => file <+: o'.file) := by
  have hflush := flush_keeps h
  unfold intoInner
  cases hx : flush o with
  | ok u o' =>
    rw [hx] at hflush
    exact hflush
  | error e o' =>
    rw [hx] at hflush
    have hagain := flush_keeps (o := o') hflush
    change file <+: (after (flush o')).file
    exact hagain.after

end

theorem After.congr {w' : Writer} (h : After file w) (hout : w'.out = w.out) (hoffset : w'.offset = w.offset)
    (halign : w'.align = w.align) (happending : w'.appending = w.appending) : After file w' where
  keeps := by rw [hout]; exact h.keeps
  beyond := by rw [hoffset]; exact h.beyond
  aligned := by
    obtain ⟨k, hk, hpower⟩ := h.aligned
    exact ⟨k, hk, halign.trans hpower⟩
  appending := happending.trans h.appending

theorem onOut_stays {x : Write Unit} (h : After file w)
    (hx : Ends (x w.out) (fun _ o' => file <+: o'.file) (fun o' => file <+: o'.file)) :
    Stays file (onOut x w) fun _ => True := by
  refine zoom (hx.mono (fun _ o' ho' => ⟨?_, trivial⟩) (fun o' ho' => ?_))
  · exact ⟨ho', h.beyond, h.aligned, h.appending⟩
  · exact ⟨ho', h.beyond, h.aligned, h.appending⟩

namespace Stays

variable {α β : Type} {Q : α → Prop} {R : β → Prop}

theorem bind {x : Act α} {f : α → Act β} (hx : Stays file (x w) Q)
    (hf : ∀ a w', Q a → After file w' → Stays file (f a w') R) : Stays file ((x >>= f) w) R :=
  Ends.bind (mono hx (fun a w' h => hf a w' h.2 h.1) (fun _ h => h))

theorem pure (h : After file w) {a : α} (ha : Q a) : Stays file ((Pure.pure a : Act α) w) Q := Ends.pure ⟨h, ha⟩

theorem lift (h : After file w) {x : Result α} (hx : ∀ a, x = .ok a → Q a) : Stays file ((Effects.lift x : Act α) w) Q :=
  Ends.lift (fun a ha => ⟨h, hx a ha⟩) (fun _ _ => h)

theorem throw (h : After file w) {e : Stop Error} : Stays file ((MonadExcept.throw e : Act α) w) Q := Ends.throw h

theorem modify {f : Writer → Writer} {Q : PUnit → Prop} (hf : After file (f w)) (hq : Q ⟨⟩) :
    Stays file ((modifyThe Writer f : Act PUnit) w) Q := Ends.modify ⟨hf, hq⟩

end Stays

/-! ## One operation -/

theorem writeBytes_stays (h : After file w) (data : List UInt8) :
    Stays file (writeBytes data w) fun _ => True := by
  unfold writeBytes
  refine (onOut_stays h (write_keeps h.keeps data)).bind (fun _ w' _ h' => ?_)
  refine Ends.bind (Ends.get (ite (fun _ => Ends.set ⟨?_, trivial⟩) (fun _ => throw h')))
  exact ⟨h'.keeps, Nat.le_trans h'.beyond (Nat.le_add_right _ _), h'.aligned, h'.appending⟩

theorem padLoop_stays : ∀ {rounds gap : Nat} {w : Writer}, After file w →
    Stays file (padLoop rounds gap w) fun _ => True := by
  intro rounds
  induction rounds with
  | zero => exact fun h => Stays.pure h trivial
  | succ rounds ih =>
    intro gap w h
    unfold padLoop
    refine ite (fun _ => Stays.pure h trivial) (fun _ => ?_)
    exact (onOut_stays h (write_keeps h.keeps _)).bind (fun _ w' _ h' => ih h')

theorem padTo_stays (h : After file w) (ht : file.length ≤ target) :
    Stays file (padTo target w) fun _ => True := by
  unfold padTo
  refine Ends.bind (Ends.get (padLoop_stays h |>.bind (fun _ w' _ h' => Stays.modify ?_ trivial)))
  exact ⟨h'.keeps, ht, h'.aligned, h'.appending⟩

theorem reserveBlob_stays (h : After file w) :
    Stays file (reserveBlob w) fun target => file.length ≤ target := by
  unfold reserveBlob
  refine Ends.bind (Ends.get (Stays.bind (Stays.lift h fun target ht => ?_) fun target w' ht h' =>
    (padTo_stays h' ht).bind fun _ w'' _ h'' => Stays.pure h'' ht))
  rw [← alignedOffset_eq_ok h.aligned ht]
  exact Nat.le_trans h.beyond (le_roundUp h.aligned.pos)

/-- What lies in the file is read when the buffer is empty. -/
theorem flushed_stays {α : Type} (h : After file w) (f : List UInt8 → Result α) : Stays file ((do
      onOut flush
      onOut touch
      let w ← get
      lift (f w.out.file) : Act α) w) fun _ => True := by
  refine (onOut_stays h (flush_keeps h.keeps)).bind (fun _ w' _ h' => ?_)
  refine (onOut_stays h' (touch_keeps h'.keeps)).bind (fun _ w'' _ h'' => ?_)
  exact Ends.bind (Ends.get (Stays.lift h'' fun _ _ => trivial))

theorem truncate_stays (h : After file w) {len : Nat} (hlen : file.length ≤ len) :
    Stays file (truncate len w) fun _ => True := by
  unfold truncate
  refine (onOut_stays h (flush_keeps h.keeps)).bind (fun _ w' _ h' => ?_)
  refine (onOut_stays h' (setLen_keeps h'.keeps hlen)).bind (fun _ w'' _ h'' => Stays.modify ?_ trivial)
  exact ⟨h''.keeps, hlen, h''.aligned, h''.appending⟩

theorem writeSegments_stays : ∀ {segments : List (Nat × List UInt8)} {w : Writer}, After file w →
    Stays file (writeSegments segments w) fun _ => True := by
  intro segments
  induction segments with
  | nil => exact fun h => Stays.pure h trivial
  | cons s segments ih =>
    intro w h
    unfold writeSegments
    refine (writeBytes_stays h _).bind (fun _ w₁ _ h₁ => ?_)
    exact (writeBytes_stays h₁ _).bind (fun _ w₂ _ h₂ => ih h₂)

section

variable (h : After file w)
include h

theorem shared_stays (key : Digest × Nat) (segments : List (Nat × List UInt8)) :
    Stays file (shared key segments w) fun _ => True := by
  unfold shared
  refine Ends.bind (Ends.get ?_)
  cases w.dedup.lookup key with
  | none => exact Stays.pure h trivial
  | some offset =>
    exact Stays.bind (Q := fun _ => True) (flushed_stays h fun file => compareSegments file offset segments)
      fun _ w' _ h' => Stays.pure h' trivial

theorem orInsert_after (key : Digest × Nat) (target : Nat) : After file (w.orInsert key target) := by
  unfold orInsert
  split
  · exact h
  · exact h.congr rfl rfl rfl rfl

theorem writeOrShareSegments_stays (segments : List (Nat × List UInt8)) (blocks : Option Nat) :
    Stays file (writeOrShareSegments env segments blocks w) fun _ => True := by
  unfold writeOrShareSegments
  refine Stays.bind (Q := fun _ => True) (Stays.lift h fun _ _ => trivial) (fun r w' _ h' => ?_)
  obtain ⟨hasher, length⟩ := r
  refine (shared_stays h' _ _).bind (fun place w₁ _ h₁ => ?_)
  cases place with
  | some offset => exact Stays.pure h₁ trivial
  | none =>
    refine (reserveBlob_stays h₁).bind (fun target w₂ _ h₂ => ?_)
    refine (writeSegments_stays h₂).bind (fun _ w₃ _ h₃ => ?_)
    exact Stays.bind (Q := fun _ => True) (Stays.modify (orInsert_after h₃ _ _) trivial) fun _ w₄ _ h₄ => Stays.pure h₄ trivial

theorem commit_stays (name : Str) (object : Object) :
    Stays file (commit name object w) fun _ => True := Stays.modify (h.congr rfl rfl rfl rfl) trivial

theorem object_stays (name : Str) (b : ObjectBuilder) :
    Stays file (object env name b w) fun _ => True := by
  unfold object
  refine Ends.bind (Ends.get (Stays.bind (Q := fun _ => True) (Stays.lift h fun _ _ => trivial) (fun r w' _ h' => ?_)))
  obtain ⟨object, payload⟩ := r
  cases payload with
  | bytes data => exact (writeOrShareSegments_stays h' _ _).bind (fun _ w₁ _ h₁ => commit_stays h₁ _ _)
  | planes pieces =>
    refine Stays.bind (Q := fun _ => True) ?_ (fun _ w₁ _ h₁ => commit_stays h₁ _ _)
    exact Stays.bind (Q := fun _ => True) (Stays.lift h' fun _ _ => trivial) fun segments w₁ _ h₁ =>
      writeOrShareSegments_stays h₁ segments _
  | encoded stored =>
    refine Stays.bind (Q := fun _ => True) ?_ (fun _ w₁ _ h₁ => commit_stays h₁ _ _)
    exact (reserveBlob_stays h').bind fun target w₁ _ h₁ =>
      (writeBytes_stays h₁ stored).bind fun _ w₂ _ h₂ => Stays.pure h₂ trivial
  | length n => exact .throw h'
  | external _ _ _ => exact commit_stays h' _ _
  | linked _ => exact commit_stays h' _ _
  | missing => exact commit_stays h' _ _

theorem link_stays (name : Str) (object : Object) (shard : Str) :
    Stays file (link env name object shard w) fun _ => True := by
  unfold link
  exact ite (fun _ => throw h) (fun _ => object_stays h _ _)

theorem addShard_stays (name : Str) (shard : Shard) :
    Stays file (addShard name shard w) fun _ => True := by
  unfold addShard
  refine Ends.bind (Ends.get (ite (fun _ => Ends.bind (throw h)) (fun _ => ?_)))
  refine Stays.bind (Q := fun _ => True) (Stays.lift h fun _ _ => trivial) (fun _ w₁ _ h₁ => ?_)
  refine Stays.bind (Q := fun _ => True) (Stays.lift h₁ fun _ _ => trivial) (fun _ w₂ _ h₂ => ?_)
  refine ite (fun _ => Ends.bind (throw h₂)) (fun _ => ?_)
  have hset : After file { w with manifest := { w.manifest with shards := w.manifest.shards.insert name shard } } :=
    h.congr rfl rfl rfl rfl
  cases w.manifest.shards[name]? with
  | some existing => exact ite (fun _ => Ends.bind (throw h₂)) (fun _ => Ends.set ⟨hset, trivial⟩)
  | none => exact Ends.set ⟨hset, trivial⟩

end

/-! ## Sinks -/

/-- The place of a blob that was begun is after the file. -/
def Begun (file : List UInt8) (sink : Sink) : Prop := sink.started = true → file.length ≤ sink.object.blob.offset

/-- A writer after the file, with a sink whose blob is too. -/
def Feeds (file : List UInt8) (st : Writer × Sink) : Prop := After file st.1 ∧ Begun file st.2

variable {sink : Sink} {st : Writer × Sink}

theorem start_feeds (h : Feeds file st) : Ends (Sink.start st) (fun _ st' => Feeds file st') (Feeds file) := by
  unfold Sink.start
  refine Ends.bind (Ends.get (ite (fun _ => Ends.pure h) (fun _ => ?_)))
  refine Ends.bind (zoom ((reserveBlob_stays h.1).mono (fun target w' hw' => ?_) (fun w' hw' => ⟨hw', h.2⟩)))
  exact modify ⟨hw'.1, fun _ => hw'.2⟩

theorem write_feeds (h : Feeds file st) (chunk : List UInt8) :
    Ends (Sink.write env chunk st) (fun _ st' => Feeds file st') (Feeds file) := by
  unfold Sink.write
  refine Ends.bind (Ends.get (Ends.bind (lift (fun _ _ => ?_) (fun _ _ => h))))
  refine Ends.bind ((start_feeds h).mono (fun _ st₁ h₁ => ?_) (fun _ h => h))
  refine Ends.bind (Ends.get (Ends.bind (lift (fun stop _ => ?_) (fun _ _ => h₁))))
  refine Ends.bind (zoom ((writeBytes_stays h₁.1 chunk).mono (fun _ w' hw' => ?_) (fun w' hw' => ⟨hw', h₁.2⟩)))
  have h₂ : Feeds file (w', st₁.2) := ⟨hw'.1, h₁.2⟩
  exact Ends.bind (lift (fun hasher _ => modify ⟨h₂.1, h₂.2⟩) (fun _ _ => h₂))

theorem settle_stays (h : After file w) (key : Digest × Nat) {offset : Nat} (hoffset : file.length ≤ offset) :
    Stays file (Sink.settle key offset w) fun _ => True := by
  unfold Sink.settle
  refine Ends.bind (Ends.get ?_)
  cases w.dedup.lookup key with
  | some prev =>
    refine Stays.bind (Q := fun _ => True)
      (flushed_stays h fun file => compareRanges file prev offset key.2 (min key.2 (2 ^ 20)) key.2 0)
      (fun same w' _ h' => ?_)
    refine ite (fun _ => ?_) (fun _ => Stays.pure h' trivial)
    exact (truncate_stays h' hoffset).bind fun _ w'' _ h'' => Stays.pure h'' trivial
  | none => exact Stays.bind (Q := fun _ => True) (Stays.modify (h.congr rfl rfl rfl rfl) trivial) fun _ w' _ h' => Stays.pure h' trivial

theorem close_stays (h : After file w) (hsink : Begun file sink) :
    Stays file (Sink.close env sink w) fun _ => True := by
  unfold Sink.close
  refine Ends.bind (Ends.get ?_)
  refine Stays.bind (Q := fun _ => True) (Stays.lift h fun _ _ => trivial) (fun _ w' _ h' => ?_)
  refine ite (fun _ => Ends.bind (throw h')) (fun _ => ?_)
  refine Stays.bind (Q := fun offset => file.length ≤ offset) ?_ (fun reserved w₁ hreserved h₁ => ?_)
  · exact ite (fun hstarted => Stays.pure h' (hsink hstarted)) (fun _ => reserveBlob_stays h')
  · refine (settle_stays h₁ _ hreserved).bind (fun offset w₂ _ h₂ => ?_)
    refine (commit_stays h₂ _ _).bind (fun _ w₃ _ h₃ => ?_)
    exact Stays.modify (h₃.congr rfl rfl rfl rfl) trivial

theorem stream_stays (h : After file w) (ticket : Nat) (name : Str) (b : ObjectBuilder) :
    Stays file (stream env ticket name b w) (Begun file) := by
  unfold stream
  refine Ends.bind (Ends.get (Stays.bind (Q := fun _ => True) (Stays.lift h fun _ _ => trivial) (fun r w' _ h' => ?_)))
  obtain ⟨object, payload⟩ := r
  cases payload with
  | length n =>
    refine Ends.bind (Ends.set (Ends.pure ⟨h.congr rfl rfl rfl rfl, fun hstarted => ?_⟩))
    cases hstarted
  | bytes _ => exact .throw h'
  | planes _ => exact .throw h'
  | encoded _ => exact .throw h'
  | external _ _ _ => exact .throw h'
  | linked _ => exact .throw h'
  | missing => exact .throw h'

/-! ## Sessions -/

/-- A session after the file. -/
structure Going (file : List UInt8) (σ : Session) : Prop where
  writer : After file σ.writer
  sink : ∀ sink, σ.sink = some sink → Begun file sink

theorem onWriter_going {α : Type} {x : Act α} {Q : α → Prop} (h : Going file σ) (hx : Stays file (x σ.writer) Q) :
    Ends (Session.onWriter x σ) (fun a σ' => Going file σ' ∧ Q a) (Going file) :=
  zoom (mono hx (fun _ _ hw' => ⟨⟨hw'.1, h.sink⟩, hw'.2⟩) (fun _ hw' => ⟨hw', h.sink⟩))

/-- **Whatever comes of a call**, the session goes on after the file. -/
theorem perform_going (h : Going file σ) (call : Call) :
    Ends (Session.perform env call σ) (fun _ σ' => Going file σ') (Going file) := by
  have hfirst {x : Act Unit} (hx : Stays file (x σ.writer) fun _ => True) :
      Ends (Session.onWriter x σ) (fun _ σ' => Going file σ') (Going file) :=
    (onWriter_going h hx).mono (fun _ _ hσ' => hσ'.1) (fun _ hσ' => hσ')
  cases call with
  | setAttributes attributes => exact hfirst (Stays.modify (h.writer.congr rfl rfl rfl rfl) trivial)
  | object name b => exact hfirst (object_stays h.writer name b)
  | link name object shard => exact hfirst (link_stays h.writer name object shard)
  | addShard name shard => exact hfirst (addShard_stays h.writer name shard)
  | stream name b =>
    refine Ends.bind (Ends.get (Ends.bind ?_))
    refine (onWriter_going h (stream_stays h.writer σ.ticket name b)).mono (fun sink σ' hσ' => ?_) (fun _ hσ' => hσ')
    exact modify ⟨hσ'.1.writer, fun sink' hsink' => some.inj hsink' ▸ hσ'.2⟩
  | write chunk =>
    refine Ends.bind (Ends.get ?_)
    cases hsink : σ.sink with
    | none => exact h
    | some sink =>
      have hfeeds : Feeds file (σ.writer, sink) := ⟨h.writer, h.sink sink hsink⟩
      refine zoom ((write_feeds hfeeds chunk).mono (fun _ st' hst' => ?_) (fun st' hst' => ?_))
      · exact ⟨hst'.1, fun sink' hsink' => some.inj hsink' ▸ hst'.2⟩
      · exact ⟨hst'.1, fun sink' hsink' => some.inj hsink' ▸ hst'.2⟩
  | close =>
    refine Ends.bind (Ends.get ?_)
    cases hsink : σ.sink with
    | none => exact h
    | some sink =>
      have hgone : Going file { σ with sink := none } := ⟨h.writer, fun sink' hsink' => (nomatch hsink')⟩
      refine Ends.bind (modify ?_)
      exact (onWriter_going hgone (close_stays h.writer (h.sink sink hsink))).mono (fun _ _ hσ' => hσ'.1) (fun _ hσ' => hσ')

/-- **A whole run** goes on after the file, its calls succeeding or not. -/
theorem goOn_going : ∀ {calls : List Call} {σ : Session}, Going file σ → Going file (Session.goOn env calls σ) := by
  intro calls
  induction calls with
  | nil => exact fun h => h
  | cons call calls ih => exact fun h => ih (perform_going h call).after

/-! ## From opening to giving up -/

variable {options : Options} {store : Store} {accesses : List Access}

theorem inherited_power (manifest : Manifest) (manifestAt : Nat) :
    ∃ k ≤ 63, inheritedAlignment manifest manifestAt = 2 ^ k := by
  unfold inheritedAlignment
  dsimp only
  split
  · exact ⟨12, by decide, rfl⟩
  · generalize manifest.objects.toList.foldl _ manifestAt = common
    refine ⟨max 12 (min (min (trailingZeros 64 common) 63) 16), by omega, ?_⟩
    have hmono : Monotone fun k : Nat => 2 ^ k := fun a b h => Nat.pow_le_pow_right (by decide) h
    have hfloor : ALIGN_FLOOR = 2 ^ 12 := rfl
    have hcanonical : ALIGN_CANONICAL = 2 ^ 16 := rfl
    rw [hfloor, hcanonical]
    exact ((congrArg (max (2 ^ 12)) (hmono.map_min).symm).trans (hmono.map_max).symm)

theorem append_eq_ok (hword : ∀ a, options.align = some a → a < WORD) (h : options.append env store accesses = .ok w) :
    Going store.bytes (.new w) ∧ w.out = ⟨store.bytes, [], accesses⟩ := by
  unfold Options.append at h
  obtain ⟨-, h⟩ := check_eq_ok.mp h
  obtain ⟨parsed, -, h⟩ := Fallible.bind_eq_ok.mp h
  dsimp only at h
  split at h
  · cases h
  · rename_i manifest placement _
    obtain ⟨align, halign, h⟩ := Fallible.bind_eq_ok.mp h
    cases h
    have hpower : ∃ k ≤ 63, align = 2 ^ k := by
      cases ha : options.align with
      | none =>
        rw [ha] at halign
        cases halign
        exact inherited_power _ _
      | some a =>
        rw [ha] at halign
        obtain ⟨⟨⟩, hcheck, halign⟩ := Fallible.bind_eq_ok.mp halign
        cases halign
        exact (checkAlignment_eq_ok hcheck (hword _ ha)).2
    exact ⟨⟨⟨prefix_refl _, le_rfl, hpower, rfl⟩, fun sink hsink => (nomatch hsink)⟩, rfl⟩

theorem finish_stays (h : After file w) : Stays file (finish env w) fun _ => True := by
  unfold Writer.finish
  refine Ends.bind (Ends.get (ite (fun _ => Ends.bind (throw h)) (fun _ => ?_)))
  refine Stays.bind (Q := fun _ => True) (Stays.lift h fun _ _ => trivial) (fun manifest w₁ _ h₁ => ?_)
  refine ite (fun _ => Ends.bind (throw h₁)) (fun _ => ?_)
  refine Stays.bind (Q := fun target => file.length ≤ target) (Stays.lift h₁ fun target ht => ?_) (fun target w₂ ht h₂ => ?_)
  · rw [← alignedOffset_eq_ok h.aligned ht]
    exact Nat.le_trans h.beyond (le_roundUp h.aligned.pos)
  · refine (padTo_stays h₂ ht).bind (fun _ w₃ _ h₃ => (writeBytes_stays h₃ _).bind (fun _ w₄ _ h₄ => ?_))
    refine (writeBytes_stays h₄ _).bind (fun _ w₅ _ h₅ => (onOut_stays h₅ (intoInner_keeps h₅.keeps)).bind (fun _ w₆ _ h₆ => ?_))
    exact Ends.bind (Ends.get (Stays.pure h₆ trivial))

theorem givenUp_keeps (h : After file w) (hleft : givenUp env w how = some left) : file <+: left := by
  cases how with
  | abandon =>
    unfold givenUp abandon at hleft
    rw [h.appending, if_pos rfl] at hleft
    exact some.inj hleft ▸ h.keeps
  | drop =>
    unfold Writer.givenUp Writer.drop at hleft
    rw [h.appending, if_pos rfl] at hleft
    exact some.inj hleft ▸ h.keeps
  | finish =>
    have hfinish := @finish_stays env file w h
    unfold givenUp at hleft
    dsimp only at hleft
    cases hx : finish env w with
    | ok n w' =>
      rw [hx] at hleft
      cases hleft
    | error e w' =>
      rw [hx] at hleft hfinish
      have h' : After file w' := hfinish
      unfold Writer.drop at hleft
      dsimp only at hleft
      rw [h'.appending, if_pos rfl] at hleft
      exact some.inj hleft ▸ h'.keeps

/-! ## Nothing reaches the file -/

/-- The buffer holds so many bytes more. -/
def Fits (w : Writer) (n : Nat) : Prop := w.out.buf.length + n ≤ CAPACITY

/-- The padding before the next blob. -/
def gap (w : Writer) : Nat := roundUp w.offset w.align - w.offset

/-- A blob fits, and is not one of those that were placed. -/
def LightBlob (env : Env) (w : Writer) (c : List UInt8) : Prop :=
  Fits w (gap w + c.length) ∧ w.dedup.lookup (digestOf env c, c.length) = none

/-- An object whose bytes stay in the buffer. -/
def LightObject (env : Env) (w : Writer) (name : Str) (b : ObjectBuilder) : Prop :=
  ∀ object payload, Writer.build env w name b = .ok (object, payload) →
    match payload with
    | .bytes data => LightBlob env w data
    | .planes pieces => LightBlob env w (planesContent 0 pieces)
    | .encoded stored => Fits w (gap w + stored.length)
    | _ => True

/-- The padding that a sink has still to write. -/
def sinkGap (w : Writer) (sink : Sink) : Nat := if sink.started then 0 else gap w

/-- A call whose bytes stay in the buffer, with no content that was placed before. -/
def Light (env : Env) (σ : Session) : Call → Prop
  | .object name b => LightObject env σ.writer name b
  | .link name object shard => LightObject env σ.writer name
      (ObjectBuilder.new.setPayload (.linked { object with blob := { object.blob with shard := some shard } }))
  | .write chunk => ∀ sink, σ.sink = some sink → Fits σ.writer (sinkGap σ.writer sink + chunk.length)
  | .close => ∀ sink, σ.sink = some sink → Fits σ.writer (sinkGap σ.writer sink) ∧
      σ.writer.dedup.lookup ((sink.hasher.finish env).1, sink.declared) = none
  | _ => True

/-- Every call of a run is light when its turn comes. -/
def AllLight (env : Env) : List Call → Session → Prop
  | [], _ => True
  | call :: calls, σ => Light env σ call ∧ AllLight env calls (after (Session.perform env call σ))

/-- A program that leaves the file as it is. -/
def Still (file : List UInt8) {α : Type} (r : EStateM.Result (Stop Error) Writer α) (Q : α → Writer → Prop) : Prop :=
  Ends r (fun a w' => w'.out.file = file ∧ Q a w') (fun w' => w'.out.file = file)

/-- The buffer has what it had, and `data`. -/
def Laid (w : Writer) (data : List UInt8) (w' : Writer) : Prop := Wrote w w' data ∧ w'.out.buf = w.out.buf ++ data

theorem Laid.fits {w₁ : Writer} {a : List UInt8} (h : Laid w a w₁) (hfits : Fits w (a.length + n)) : Fits w₁ n := by
  unfold Fits at hfits ⊢
  rw [h.2, length_append]
  omega

theorem writeBytes_still {data : List UInt8} (hfits : Fits w data.length) :
    Still w.out.file (writeBytes data w) fun _ => Laid w data := by
  unfold writeBytes
  refine Ends.bind ?_
  rw [onOut_write_ok hfits]
  refine Ends.bind (Ends.get (ite (fun _ => Ends.set ⟨rfl, ⟨rfl, ?_, rfl⟩, rfl⟩) (fun _ => throw rfl)))
  exact (append_assoc _ _ _).symm

theorem padTo_still (hle : w.offset ≤ target) (hfits : Fits w (target - w.offset)) :
    Still w.out.file (padTo target w) fun _ => Laid w (zeros (target - w.offset)) := by
  unfold padTo
  rw [Buffered.bind_ok get_ok, Buffered.bind_ok (padLoop_ok le_rfl hfits)]
  refine modify ⟨rfl, ⟨rfl, (append_assoc _ _ _).symm, ?_⟩, rfl⟩
  rw [length_zeros]
  exact (Nat.add_sub_cancel' hle).symm

theorem reserveBlob_still (ha : Aligned w) (hfits : Fits w (gap w)) :
    Still w.out.file (reserveBlob w) fun _ => Laid w (zeros (gap w)) := by
  unfold reserveBlob
  refine Ends.bind (Ends.get (Ends.bind (lift (fun target ht => ?_) (fun _ _ => rfl))))
  obtain rfl := alignedOffset_eq_ok ha ht
  refine Ends.bind (mono (padTo_still (le_roundUp ha.pos) hfits) (fun _ w' hw' => ?_) (fun _ h => h))
  exact Ends.pure hw'

theorem writeSegments_still : ∀ {segments : List (Nat × List UInt8)} {w : Writer}, Fits w (flat segments).length →
    Still w.out.file (writeSegments segments w) fun _ _ => True := by
  intro segments
  induction segments with
  | nil => exact fun {w} _ => Ends.pure ⟨rfl, trivial⟩
  | cons s segments ih =>
    obtain ⟨n, data⟩ := s
    intro w hfits
    have hlen : (flat ((n, data) :: segments)).length = (zeros n).length + (data.length + (flat segments).length) := by
      rw [flat_cons, length_append, length_append, add_assoc]
    rw [hlen] at hfits
    unfold writeSegments
    have hzeros : Fits w (zeros n).length := by unfold Fits at hfits ⊢; omega
    refine Ends.bind (mono (writeBytes_still hzeros) (fun _ w₁ h₁ => ?_) (fun _ h => h))
    have hrest := h₁.2.fits hfits
    have hdata : Fits w₁ data.length := by unfold Fits at hrest ⊢; omega
    refine Ends.bind (mono (writeBytes_still hdata) (fun _ w₂ h₂ => ?_) (fun _ h => h.trans h₁.1))
    have hstill := ih (h₂.2.fits hrest)
    rw [h₂.1, h₁.1] at hstill
    exact hstill

theorem writeOrShareSegments_still (ha : Aligned w) (segments : List (Nat × List UInt8)) (blocks : Option Nat)
    (h : LightBlob env w (flat segments)) :
    Still w.out.file (writeOrShareSegments env segments blocks w) fun _ _ => True := by
  obtain ⟨hfits, hnew⟩ := h
  unfold writeOrShareSegments
  refine Ends.bind (lift (fun r hr => ?_) (fun _ _ => rfl))
  obtain ⟨hasher, length⟩ := r
  rw [hashed_new env blocks] at hr
  obtain ⟨rfl, hlength⟩ := hashSegments_eq_ok (fun _ => rfl) hr
  obtain rfl : length = (flat segments).length := hlength.trans (zero_add _)
  rw [nil_append]
  dsimp only
  rw [finish_hashed]
  have hshared : shared (digestOf env (flat segments), (flat segments).length) segments w = .ok none w := by
    unfold shared
    rw [Buffered.bind_ok get_ok, hnew]
    rfl
  rw [Buffered.bind_ok hshared]
  have hgap : Fits w (gap w) := Nat.le_trans (Nat.add_le_add_left (Nat.le_add_right _ _) _) hfits
  refine Ends.bind (mono (reserveBlob_still ha hgap) (fun target w₁ h₁ => ?_) (fun _ h => h))
  have hrest : Fits w₁ (flat segments).length := h₁.2.fits (by rw [length_zeros]; exact hfits)
  refine Ends.bind (mono (writeSegments_still hrest) (fun _ w₂ h₂ => ?_) (fun _ h => h.trans h₁.1))
  refine Ends.bind (modify (Ends.pure ⟨?_, trivial⟩))
  have hinsert (key : Digest × Nat) : (w₂.orInsert key target).out = w₂.out := by
    unfold orInsert
    split <;> rfl
  rw [hinsert]
  exact h₂.1.trans h₁.1

theorem commit_still (h : w.out.file = file) (name : Str) (object : Object) :
    Still file (commit name object w) fun _ _ => True := modify ⟨h, trivial⟩

theorem object_still (ha : Aligned w) {b : ObjectBuilder} (h : LightObject env w name b) :
    Still w.out.file (object env name b w) fun _ _ => True := by
  unfold object
  refine Ends.bind (Ends.get (Ends.bind (lift (fun r hr => ?_) (fun _ _ => rfl))))
  obtain ⟨object, payload⟩ := r
  have hlight := h object payload hr
  cases payload with
  | bytes data =>
    have hblob : LightBlob env w (flat [(0, data)]) := by rw [flat_single]; exact hlight
    exact Ends.bind (mono (writeOrShareSegments_still ha _ _ hblob) (fun _ w₁ h₁ => commit_still h₁.1 _ _) (fun _ h => h))
  | planes pieces =>
    unfold writePlanes
    refine Ends.bind (Ends.bind (lift (fun segments hsegments => ?_) (fun _ _ => rfl)))
    have hblob : LightBlob env w (flat segments) := by rw [flat_planeSegments hsegments]; exact hlight
    exact mono (writeOrShareSegments_still ha _ _ hblob) (fun _ w₁ h₁ => commit_still h₁.1 _ _) (fun _ h => h)
  | encoded stored =>
    unfold writeBlob
    have hgap : Fits w (gap w) := Nat.le_trans (Nat.add_le_add_left (Nat.le_add_right _ _) _) hlight
    refine Ends.bind (Ends.bind (mono (reserveBlob_still ha hgap) (fun target w₁ h₁ => ?_) (fun _ h => h)))
    have hrest : Fits w₁ stored.length := h₁.2.fits (by rw [length_zeros]; exact hlight)
    refine Ends.bind (mono (writeBytes_still hrest) (fun _ w₂ h₂ => Ends.pure ?_) (fun _ h => h.trans h₁.1))
    exact commit_still (h₂.1.trans h₁.1) _ _
  | length n => exact throw rfl
  | external _ _ _ => exact commit_still rfl _ _
  | linked _ => exact commit_still rfl _ _
  | missing => exact commit_still rfl _ _

theorem link_still (ha : Aligned w) {object : Object} {shard : Str} (h : LightObject env w name
    (ObjectBuilder.new.setPayload (.linked { object with blob := { object.blob with shard := some shard } }))) :
    Still w.out.file (link env name object shard w) fun _ _ => True := by
  unfold link
  exact ite (fun _ => throw rfl) (fun _ => object_still ha h)

theorem addShard_still (name : Str) (shard : Shard) :
    Still w.out.file (addShard name shard w) fun _ _ => True := by
  unfold addShard
  refine Ends.bind (Ends.get (ite (fun _ => Ends.bind (throw rfl)) (fun _ => ?_)))
  refine Ends.bind (lift (fun _ _ => Ends.bind (lift (fun _ _ => ?_) (fun _ _ => rfl))) (fun _ _ => rfl))
  refine ite (fun _ => Ends.bind (throw rfl)) (fun _ => ?_)
  cases w.manifest.shards[name]? with
  | some existing => exact ite (fun _ => Ends.bind (throw rfl)) (fun _ => Ends.set ⟨rfl, trivial⟩)
  | none => exact Ends.set ⟨rfl, trivial⟩

/-- A sink whose blob begins leaves the file as it is. -/
theorem start_still (ha : Aligned st.1) (hfits : Fits st.1 (sinkGap st.1 st.2 + n)) :
    Ends (Sink.start st) (fun _ st' => st'.1.out.file = st.1.out.file ∧ Fits st'.1 n) (fun st' => st'.1.out.file = st.1.out.file) := by
  unfold sinkGap at hfits
  unfold Sink.start
  refine Ends.bind (Ends.get (ite (fun hstarted => Ends.pure ⟨rfl, ?_⟩) (fun hstarted => ?_)))
  · rw [if_pos hstarted, zero_add] at hfits
    exact hfits
  · rw [if_neg hstarted] at hfits
    have hgap : Fits st.1 (gap st.1) := Nat.le_trans (Nat.add_le_add_left (Nat.le_add_right _ _) _) hfits
    refine Ends.bind (zoom (mono (reserveBlob_still ha hgap) (fun target w' hw' => ?_) (fun _ h => h)))
    exact modify ⟨hw'.1, hw'.2.fits (by rw [length_zeros]; exact hfits)⟩

theorem write_still {chunk : List UInt8} (ha : Aligned st.1) (hfits : Fits st.1 (sinkGap st.1 st.2 + chunk.length)) :
    Ends (Sink.write env chunk st) (fun _ st' => st'.1.out.file = st.1.out.file) (fun st' => st'.1.out.file = st.1.out.file) := by
  unfold Sink.write
  refine Ends.bind (Ends.get (Ends.bind (lift (fun _ _ => ?_) (fun _ _ => rfl))))
  refine Ends.bind ((start_still ha hfits).mono (fun _ st₁ h₁ => ?_) (fun _ h => h))
  refine Ends.bind (Ends.get (Ends.bind (lift (fun stop _ => ?_) (fun _ _ => h₁.1))))
  refine Ends.bind (zoom (mono (writeBytes_still h₁.2) (fun _ w' hw' => ?_) (fun w' hw' => hw'.trans h₁.1)))
  exact Ends.bind (lift (fun hasher _ => modify (hw'.1.trans h₁.1)) (fun _ _ => hw'.1.trans h₁.1))

theorem close_still (ha : Aligned w) (hfits : Fits w (sinkGap w sink))
    (hnew : w.dedup.lookup ((sink.hasher.finish env).1, sink.declared) = none) :
    Still w.out.file (Sink.close env sink w) fun _ _ => True := by
  unfold Sink.close
  refine Ends.bind (Ends.get (Ends.bind (lift (fun _ _ => ?_) (fun _ _ => rfl))))
  refine ite (fun _ => Ends.bind (throw rfl)) (fun _ => ?_)
  have hreserved : Still w.out.file ((if sink.started = true then pure sink.object.blob.offset else reserveBlob : Act Nat) w)
      fun _ w' => w'.dedup = w.dedup := by
    unfold sinkGap at hfits
    refine ite (fun _ => Ends.pure ⟨rfl, rfl⟩) (fun hstarted => ?_)
    rw [if_neg hstarted] at hfits
    exact mono (reserveBlob_still ha hfits) (fun _ w' hw' => ⟨hw'.1, hw'.2.1.dedup⟩) (fun _ h => h)
  refine Ends.bind (mono hreserved (fun offset w₁ h₁ => ?_) (fun _ h => h))
  have hsettle : Still w.out.file (Sink.settle ((sink.hasher.finish env).1, sink.declared) offset w₁) fun _ _ => True := by
    unfold Sink.settle
    refine Ends.bind (Ends.get ?_)
    rw [h₁.2, hnew]
    exact Ends.bind (modify (Ends.pure ⟨h₁.1, trivial⟩))
  refine Ends.bind (mono hsettle (fun offset w₂ h₂ => ?_) (fun _ h => h))
  refine Ends.bind (mono (commit_still h₂.1 _ _) (fun _ w₃ h₃ => ?_) (fun _ h => h))
  exact modify ⟨h₃.1, trivial⟩

theorem stream_still (ticket : Nat) (name : Str) (b : ObjectBuilder) :
    Still w.out.file (stream env ticket name b w) fun _ _ => True := by
  unfold stream
  refine Ends.bind (Ends.get (Ends.bind (lift (fun r _ => ?_) (fun _ _ => rfl))))
  obtain ⟨object, payload⟩ := r
  cases payload with
  | length n => exact Ends.bind (Ends.set (Ends.pure ⟨rfl, trivial⟩))
  | bytes _ => exact throw rfl
  | planes _ => exact throw rfl
  | encoded _ => exact throw rfl
  | external _ _ _ => exact throw rfl
  | linked _ => exact throw rfl
  | missing => exact throw rfl

/-- A light call leaves the file as it is, whether or not it succeeds. -/
theorem perform_still (ha : Aligned σ.writer) {call : Call} (h : Light env σ call) :
    (after (Session.perform env call σ)).writer.out.file = σ.writer.out.file := by
  have hfirst {α : Type} {x : Act α} (hx : Still σ.writer.out.file (x σ.writer) fun _ _ => True) :
      Ends (Session.onWriter x σ) (fun _ σ' => σ'.writer.out.file = σ.writer.out.file)
        (fun σ' => σ'.writer.out.file = σ.writer.out.file) :=
    zoom (mono hx (fun _ _ hw' => hw'.1) (fun _ hw' => hw'))
  cases call with
  | setAttributes attributes => exact rfl
  | object name b => exact (hfirst (object_still ha h)).after
  | link name object shard => exact (hfirst (link_still ha h)).after
  | addShard name shard => exact (hfirst (addShard_still name shard)).after
  | stream name b =>
    have hstream : Ends (Session.perform env (.stream name b) σ) (fun _ σ' => σ'.writer.out.file = σ.writer.out.file)
        (fun σ' => σ'.writer.out.file = σ.writer.out.file) := by
      refine Ends.bind (Ends.get (Ends.bind ?_))
      exact (hfirst (stream_still σ.ticket name b)).mono (fun _ _ hσ' => modify hσ') (fun _ hσ' => hσ')
    exact hstream.after
  | write chunk =>
    have hwrite : Ends (Session.perform env (.write chunk) σ) (fun _ σ' => σ'.writer.out.file = σ.writer.out.file)
        (fun σ' => σ'.writer.out.file = σ.writer.out.file) := by
      refine Ends.bind (Ends.get ?_)
      cases hsink : σ.sink with
      | none => exact rfl
      | some sink => exact zoom (@write_still env (σ.writer, sink) chunk ha (h sink hsink))
    exact hwrite.after
  | close =>
    have hclose : Ends (Session.perform env .close σ) (fun _ σ' => σ'.writer.out.file = σ.writer.out.file)
        (fun σ' => σ'.writer.out.file = σ.writer.out.file) := by
      refine Ends.bind (Ends.get ?_)
      cases hsink : σ.sink with
      | none => exact rfl
      | some sink =>
        refine Ends.bind (modify (zoom ?_))
        obtain ⟨hfits, hnew⟩ := h sink hsink
        exact mono (close_still ha hfits hnew) (fun _ _ hw' => hw'.1) (fun _ hw' => hw')
    exact hclose.after

/-- **A run whose calls are all light** leaves the file as it is. -/
theorem goOn_still : ∀ {calls : List Call} {σ : Session}, Going file σ → AllLight env calls σ →
    (Session.goOn env calls σ).writer.out.file = σ.writer.out.file := by
  intro calls
  induction calls with
  | nil => exact fun _ _ => rfl
  | cons call calls ih =>
    intro σ hgoing h
    exact (ih (perform_going hgoing call).after h.2).trans (perform_still hgoing.writer.aligned h.1)

/-! ## Given up -/

theorem givenUp_still (h : After file w) (hfile : w.out.file = file)
    (hhow : how ≠ .finish) (hleft : givenUp env w how = some left) : left = file := by
  cases how with
  | abandon =>
    unfold givenUp abandon at hleft
    rw [h.appending, if_pos rfl, hfile] at hleft
    exact (some.inj hleft).symm
  | drop =>
    unfold Writer.givenUp Writer.drop at hleft
    rw [h.appending, if_pos rfl, hfile] at hleft
    exact (some.inj hleft).symm
  | finish => exact absurd rfl hhow

/-- A file with one object. -/
def pairStore : Store := ⟨.lit "pair.zt", pairFile⟩

/-- One byte under a name. -/
def oneByte (name : String) : Call :=
  .object (.lit name) (((ObjectBuilder.new.setShape [1]).setTerm (.leaf (.u 8))).setPayload (.bytes [7]))

/-- The manifest of a file is found. -/
def readable (left : List UInt8) : Bool :=
  match validateStore plain ⟨pairStore.path, left⟩ with
  | .ok p => p.manifest.isSome
  | .error _ => false

/-- The file, opened to go on. -/
def opened : Result Writer := ({ canonical := false } : Options).append plain pairStore []

/-- What is left of the file when it is abandoned after some calls. -/
def leftAfter (w : Writer) (calls : List Call) : Option (List UInt8) :=
  Writer.givenUp plain (Session.goOn plain calls (.new w)).writer .abandon

/-- A byte under one name leaves a file behind; under two names, one that is not readable. -/
def bothLeave : Result Writer → Bool
  | .ok w => (leftAfter w [oneByte "b"]).isSome && (leftAfter w [oneByte "b", oneByte "c"]).any fun left => ! readable left
  | .error _ => false

theorem opened_pair : ∃ w, opened = .ok w ∧ (leftAfter w [oneByte "b"]).isSome = true ∧
    (leftAfter w [oneByte "b", oneByte "c"]).any (fun left => ! readable left) = true := by
  have h : bothLeave opened = true := by decide +kernel
  cases ho : opened with
  | ok w =>
    rw [ho] at h
    exact ⟨w, rfl, (Bool.and_eq_true_iff.mp h).1, (Bool.and_eq_true_iff.mp h).2⟩
  | error e =>
    rw [ho] at h
    cases h

theorem readable_of_append (h : opened = .ok w) : readable pairStore.bytes = true := by
  unfold opened Options.append at h
  obtain ⟨-, h⟩ := check_eq_ok.mp h
  obtain ⟨parsed, hparsed, h⟩ := Fallible.bind_eq_ok.mp h
  have hparsed : validateStore plain ⟨pairStore.path, pairStore.bytes⟩ = .ok parsed := hparsed
  dsimp only at h
  unfold readable
  rw [hparsed]
  cases hm : parsed.manifest with
  | none =>
    rw [hm] at h
    cases h
  | some _ =>
    dsimp only
    rw [hm]
    rfl

end Pie.Proof.Appends
