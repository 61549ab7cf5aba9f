import Pie.Proof.Endings

/-!
# Writing that fits into the buffer

As long as the buffer holds all that is written nothing is read, nothing reaches
the file and nothing fails: a writer goes on by what it is given.
-/

namespace Pie.Proof.Buffered

open List Lib Lib.Words Lib.Effects Ztensor Planes Writing Shelves Tracks Writer Sink

variable {n ticket : Nat} {sink : Sink} {α : Type} {a : α}

variable {env : Env} {w : Writer} {data : List UInt8} {target : Nat}

theorem bind_ok {ε σ α β : Type} {x : EStateM ε σ α} {f : α → EStateM ε σ β} {s s' : σ} {a : α} (h : x s = .ok a s') :
    (x >>= f) s = f a s' := by
  change EStateM.bind x f s = _
  unfold EStateM.bind
  rw [h]

/-- The writer with some bytes more in its buffer. -/
def held (w : Writer) (data : List UInt8) : Writer :=
  { w with out := { w.out with buf := w.out.buf ++ data }, offset := w.offset + data.length }

/-- So many bytes fit. -/
def Room (w : Writer) (n : Nat) : Prop := w.out.buf.length + n ≤ CAPACITY ∧ w.offset + n < WORD

theorem Room.mono {n m : Nat} (h : Room w n) (hle : m ≤ n) : Room w m := by
  obtain ⟨hcap, hword⟩ := h
  exact ⟨by omega, by omega⟩

theorem Room.held (h : Room w (data.length + n)) : Room (held w data) n := by
  obtain ⟨hcap, hword⟩ := h
  refine ⟨?_, ?_⟩
  · change (w.out.buf ++ data).length + n ≤ CAPACITY
    rw [length_append]
    omega
  · change w.offset + data.length + n < WORD
    omega

theorem write_ok {o : Out} (h : o.buf.length + data.length ≤ CAPACITY) :
    Out.write data o = .ok ⟨⟩ { o with buf := o.buf ++ data } :=
  if_pos (by rw [length_append]; exact h)

theorem onOut_write_ok (h : w.out.buf.length + data.length ≤ CAPACITY) :
    onOut (Out.write data) w = .ok ⟨⟩ { w with out := { w.out with buf := w.out.buf ++ data } } := by
  unfold onOut zoom
  rw [write_ok h]

theorem writeBytes_ok (h : Room w data.length) : writeBytes data w = .ok ⟨⟩ (held w data) := by
  unfold writeBytes
  rw [bind_ok (onOut_write_ok h.1), bind_ok (rfl : (get : Act Writer) _ = .ok _ _)]
  dsimp only
  rw [if_pos h.2]
  rfl

theorem padLoop_ok : ∀ {rounds gap : Nat} {w : Writer}, gap ≤ rounds → w.out.buf.length + gap ≤ CAPACITY →
    padLoop rounds gap w = .ok ⟨⟩ { w with out := { w.out with buf := w.out.buf ++ Out.zeros gap } } := by
  intro rounds
  induction rounds with
  | zero =>
    intro gap w hle _
    obtain rfl := Nat.le_zero.mp hle
    unfold padLoop Out.zeros
    rw [replicate_zero, append_nil]
    rfl
  | succ rounds ih =>
    intro gap w hle hcap
    unfold padLoop
    by_cases h0 : gap = 0
    · rw [if_pos h0, h0, Out.zeros, replicate_zero, append_nil]
      rfl
    · rw [if_neg h0, bind_ok (onOut_write_ok (by rw [length_zeros]; omega)), ih (by omega)]
      · dsimp only
        rw [append_assoc, Out.zeros, Out.zeros, ← replicate_add, Nat.add_sub_cancel' (min_le_left _ _)]
        rfl
      · dsimp only
        rw [length_append, length_zeros]
        omega

theorem padTo_ok (hle : w.offset ≤ target) (h : Room w (target - w.offset)) :
    padTo target w = .ok ⟨⟩ (held w (Out.zeros (target - w.offset))) := by
  unfold padTo
  rw [bind_ok (rfl : (get : Act Writer) w = .ok w w), bind_ok (padLoop_ok le_rfl h.1)]
  unfold held
  rw [length_zeros, Nat.add_sub_cancel' hle]
  rfl

theorem alignedOffset_ok (ha : Aligned w) (h : w.offset + (w.align - 1) < WORD) :
    w.alignedOffset = .ok (roundUp w.offset w.align) := by
  obtain ⟨k, hk, halign⟩ := ha
  unfold alignedOffset
  rw [halign] at h ⊢
  rw [(alignUp_eq_some (by omega)).mpr ⟨h, rfl⟩]
  rfl

/-- The writer where the next blob begins. -/
def reserved (w : Writer) : Writer := held w (Out.zeros (roundUp w.offset w.align - w.offset))

theorem reserved_offset (ha : 0 < w.align) : (reserved w).offset = roundUp w.offset w.align := by
  change w.offset + (Out.zeros _).length = _
  rw [length_zeros]
  exact Nat.add_sub_cancel' (le_roundUp ha)

theorem Room.reserved (ha : Aligned w) (h : Room w (w.align - 1 + n)) : Room (reserved w) n := by
  have hlt := @roundUp_lt w.offset _ ha.pos
  refine Room.held (h.mono ?_)
  rw [length_zeros]
  omega

theorem reserveBlob_ok (ha : Aligned w) (h : Room w (w.align - 1)) :
    reserveBlob w = .ok (roundUp w.offset w.align) (reserved w) := by
  have hlt := @roundUp_lt w.offset _ ha.pos
  have hpos := ha.pos
  unfold reserveBlob
  rw [bind_ok (rfl : (get : Act Writer) w = .ok w w)]
  have htarget : (lift w.alignedOffset : Act Nat) w = .ok (roundUp w.offset w.align) w := by
    unfold lift
    rw [alignedOffset_ok ha h.2]
  rw [bind_ok htarget, bind_ok (padTo_ok (le_roundUp ha.pos) (h.mono (by omega)))]
  rfl

theorem get_ok {w : Writer} : (get : Act Writer) w = .ok w w := rfl

theorem writeOrShareBlob_ok (ha : Aligned w) (hblocks : w.blocks = none)
    (hnew : w.dedup.lookup (digestOf env data, data.length) = none) (h : Room w (w.align - 1 + data.length)) :
    writeOrShareBlob env data none w = .ok (roundUp w.offset w.align, digestOf env data, none)
      { held (reserved w) data with
        dedup := ((digestOf env data, data.length), roundUp w.offset w.align) :: w.dedup } := by
  have hroom : Room (reserved w) data.length := h.reserved ha
  have hzeros : writeBytes (Out.zeros 0) (reserved w) = .ok ⟨⟩ (reserved w) := by
    rw [writeBytes_ok (hroom.mono (by rw [length_zeros]; exact Nat.zero_le _))]
    unfold held
    rw [length_zeros, add_zero, Out.zeros, replicate_zero, append_nil]
  have hhash : hashSegments env [(0, data)] (BlobHasher.new none) 0 = .ok (hashed env none data, data.length) := by
    unfold hashSegments hashSegments
    change Except.ok ((⟨[] ++ Out.zeros 0 ++ data, none⟩ : BlobHasher), 0 + (0 + data.length)) = _
    rw [zero_add, zero_add]
    rfl
  have hshared : shared (digestOf env data, data.length) [(0, data)] w = .ok none w := by
    unfold shared
    rw [bind_ok get_ok, hnew]
    rfl
  have hwrite : writeSegments [(0, data)] (reserved w) = .ok ⟨⟩ (held (reserved w) data) := by
    unfold writeSegments writeSegments
    rw [bind_ok hzeros, bind_ok (writeBytes_ok hroom)]
    rfl
  unfold writeOrShareBlob writeOrShareSegments
  rw [bind_ok (by unfold lift; rw [hhash])]
  dsimp only
  rw [finish_hashed, bind_ok hshared]
  dsimp only
  rw [bind_ok (reserveBlob_ok ha (h.mono (Nat.le_add_right _ _))), bind_ok hwrite]
  change EStateM.Result.ok (roundUp w.offset w.align, digestOf env data, none) (orInsert _ _ _) = _
  unfold orInsert
  have hdedup : (held (reserved w) data).dedup = w.dedup := rfl
  rw [hdedup, hnew]

/-- The writer after an object with its bytes. -/
def entered (env : Env) (w : Writer) (name : Str) (object : Object) (data : List UInt8) : Writer :=
  { held (reserved w) data with
    dedup := ((digestOf env data, data.length), roundUp w.offset w.align) :: w.dedup
    manifest := { w.manifest with objects := w.manifest.objects.insert name { object with blob := { object.blob with
      offset := roundUp w.offset w.align, digest := some (digestOf env data), blocks := none } } }
    lastName := some name }

theorem Room.entered {name : Str} {object : Object} (ha : Aligned w)
    (h : Room w (w.align - 1 + (data.length + n))) : Room (entered env w name object data) n :=
  (h.reserved ha).held

/-- **An object with its bytes is entered.** -/
theorem object_ok {name : Str} {b : ObjectBuilder} {object : Object} (hbuild : build env w name b = .ok (object, .bytes data))
    (ha : Aligned w) (hblocks : w.blocks = none) (hnew : w.dedup.lookup (digestOf env data, data.length) = none)
    (h : Room w (w.align - 1 + data.length)) :
    Writer.object env name b w = .ok ⟨⟩ (entered env w name object data) := by
  unfold Writer.object
  rw [bind_ok get_ok, bind_ok (by unfold lift; rw [hbuild])]
  dsimp only
  rw [hblocks, bind_ok (writeOrShareBlob_ok ha hblocks hnew h)]
  rfl

/-! ## Streams -/

variable {name : Str} {b : ObjectBuilder} {object : Object} {declared : Nat}

/-- The sink of an object that is open. -/
def opened (w : Writer) (ticket : Nat) (name : Str) (object : Object) (declared : Nat) : Sink :=
  ⟨ticket, name, object, declared, 0, .new w.blocks, false⟩

theorem stream_ok (hbuild : build env w name b = .ok (object, .length declared)) :
    stream env ticket name b w = .ok (opened w ticket name object declared) { w with openSink := some ticket } := by
  unfold stream
  rw [bind_ok get_ok, bind_ok (by unfold lift; rw [hbuild])]
  rfl

/-- The sink of an object that is open, with all its bytes. -/
def filled (env : Env) (w : Writer) (ticket : Nat) (name : Str) (object : Object) (data : List UInt8) : Sink :=
  { opened w ticket name object data.length with
    object := { object with blob := { object.blob with offset := roundUp w.offset w.align } }
    written := data.length
    hasher := hashed env none data
    started := true }

/-- **All bytes in one chunk.** -/
theorem sink_write_ok (ha : Aligned w) (hblocks : w.blocks = none) (howner : w.openSink = some ticket)
    (h : Room w (w.align - 1 + data.length)) (hword : data.length < WORD) :
    write env data (w, opened w ticket name object data.length) = .ok ⟨⟩ (held (reserved w) data,
      filled env w ticket name object data) := by
  have hroom : Room (reserved w) data.length := h.reserved ha
  have hget {st : Writer × Sink} : (get : SinkAct (Writer × Sink)) st = .ok st st := rfl
  have hcheck : (opened w ticket name object data.length).checkOwner w = .ok ⟨⟩ := by
    unfold checkOwner
    rw [howner]
    exact if_neg (fun hne => hne rfl)
  have hreserve : onWriter reserveBlob (w, opened w ticket name object data.length) =
      .ok (roundUp w.offset w.align) (reserved w, opened w ticket name object data.length) := by
    unfold onWriter zoom
    rw [reserveBlob_ok ha (h.mono (Nat.le_add_right _ _))]
  have hstart : start (w, opened w ticket name object data.length) = .ok ⟨⟩ (reserved w,
      { (opened w ticket name object data.length).setOffset (roundUp w.offset w.align) with started := true }) := by
    unfold start
    rw [bind_ok hget]
    dsimp only
    rw [if_neg (by exact Bool.false_ne_true), bind_ok hreserve]
    rfl
  have hstop : (checkedAdd 0 data.length).filter (fun stop => decide (stop ≤ data.length)) = some data.length := by
    rw [checkedAdd_eq_some.mpr ⟨by rw [zero_add]; exact hword, zero_add _⟩]
    exact Option.filter_eq_some_iff.mpr ⟨rfl, decide_eq_true le_rfl⟩
  have hbytes (sink : Sink) : onWriter (writeBytes data) (reserved w, sink) =
      .ok ⟨⟩ (held (reserved w) data, sink) := by
    unfold onWriter zoom
    rw [writeBytes_ok hroom]
  unfold write
  rw [bind_ok hget]
  dsimp only
  rw [bind_ok (by unfold lift; rw [hcheck]), bind_ok hstart, bind_ok hget]
  dsimp only
  rw [bind_ok (by unfold lift; unfold setOffset opened; dsimp only; rw [hstop]; rfl), bind_ok (hbytes _)]
  have hupdate : (BlobHasher.new w.blocks).update env data = .ok (hashed env none data) := by
    rw [hblocks]
    rfl
  unfold setOffset opened
  dsimp only
  rw [bind_ok (by unfold lift; rw [hupdate])]
  rfl

/-- **A sink that closes with a content that is new** leaves what an object with its bytes does. -/
theorem close_ok (howner : w.openSink = some ticket) (hnew : w.dedup.lookup (digestOf env data, data.length) = none) :
    close env (filled env w ticket name object data) (held (reserved w) data) =
      .ok ⟨⟩ { entered env w name object data with openSink := none } := by
  have hcheck : (filled env w ticket name object data).checkOwner (held (reserved w) data) = .ok ⟨⟩ := by
    unfold checkOwner
    change (if w.openSink ≠ some ticket then _ else _) = _
    rw [howner]
    exact if_neg (fun hne => hne rfl)
  have hsettle : settle (digestOf env data, data.length) (roundUp w.offset w.align) (held (reserved w) data) =
      .ok (roundUp w.offset w.align) { held (reserved w) data with
        dedup := ((digestOf env data, data.length), roundUp w.offset w.align) :: w.dedup } := by
    unfold settle
    rw [bind_ok get_ok]
    dsimp only [held, reserved]
    rw [hnew]
    rfl
  unfold close
  rw [bind_ok get_ok, bind_ok (by unfold lift; rw [hcheck])]
  unfold filled
  dsimp only
  rw [if_neg (by exact lt_irrefl _)]
  dsimp only [opened]
  rw [if_pos rfl, bind_ok (rfl : (Pure.pure (roundUp w.offset w.align) : Act Nat) (held (reserved w) data) = .ok _ _), finish_hashed]
  dsimp only
  rw [bind_ok hsettle]
  rfl

/-- **A file that fits is written when the writer finishes.** -/
theorem finish_ok {manifest : List UInt8} (hopen : w.openSink = none) (hencode : Cbor.encode w.manifest.toValue = .ok manifest)
    (hmax : manifest.length ≤ MAX_MANIFEST_LEN) (ha : Aligned w) (h : Room w (w.align - 1 + (manifest.length + FOOTER_LEN)))
    (haccesses : w.out.accesses = []) :
    ∃ n w', finish env w = .ok n w' := by
  have hlt := @roundUp_lt w.offset _ ha.pos
  have hroom : Room (reserved w) (manifest.length + FOOTER_LEN) := h.reserved ha
  have hfooter := @Endings.footer_length env (roundUp w.offset w.align) manifest
  have hnext (o : Out) (ho : o.accesses = []) : ∃ o', Out.intoInner o = .ok ⟨⟩ o' := by
    have hfails : o.next.fails = false := by
      unfold Out.next
      rw [ho]
      rfl
    unfold Out.intoInner Out.flush
    rw [hfails]
    split
    · exact ⟨_, rfl⟩
    · rename_i hflush
      split at hflush <;> cases hflush
  obtain ⟨o', ho'⟩ := hnext (held (held (reserved w) manifest) (footer env (roundUp w.offset w.align) manifest)).out haccesses
  have hinner : onOut Out.intoInner
      (held (held (reserved w) manifest) (footer env (roundUp w.offset w.align) manifest)) = .ok ⟨⟩
        { held (held (reserved w) manifest) (footer env (roundUp w.offset w.align) manifest) with out := o' } := by
    unfold onOut zoom
    rw [ho']
  unfold Writer.finish
  rw [bind_ok get_ok, hopen]
  dsimp only
  rw [if_neg (by exact Bool.false_ne_true), bind_ok (by unfold lift; rw [hencode]; rfl), if_neg (not_lt.mpr hmax),
    bind_ok (by unfold lift; rw [alignedOffset_ok ha (by have := h.2; omega)]),
    bind_ok (padTo_ok (le_roundUp ha.pos) (h.mono (by omega)))]
  change ∃ n w', (do
    writeBytes manifest
    writeBytes (footer env (roundUp w.offset w.align) manifest)
    onOut Out.intoInner
    let w ← get
    pure w.offset : Act Nat) (reserved w) = .ok n w'
  rw [bind_ok (writeBytes_ok (hroom.mono (Nat.le_add_right _ _))),
    bind_ok (writeBytes_ok (hroom.held.mono (by rw [hfooter]))), bind_ok hinner, bind_ok get_ok]
  exact ⟨_, _, rfl⟩

/-! ## Runs -/

variable {σ σ' : Session} {call : Call} {calls : List Call} {w' : Writer}

theorem run_cons_ok (h : Session.perform env call σ = .ok ⟨⟩ σ') :
    Session.run env (call :: calls) σ = Session.run env calls σ' := by
  rw [Session.run, bind_ok h]

theorem onWriter_ok {x : Act α} (h : x σ.writer = .ok a w') :
    Session.onWriter x σ = .ok a { σ with writer := w' } := by
  unfold Session.onWriter zoom
  rw [h]

theorem perform_object_ok (h : Writer.object env name b σ.writer = .ok ⟨⟩ w') :
    Session.perform env (.object name b) σ = .ok ⟨⟩ { σ with writer := w' } := onWriter_ok h

theorem perform_stream_ok (h : stream env σ.ticket name b σ.writer = .ok sink w') :
    Session.perform env (.stream name b) σ = .ok ⟨⟩ ⟨w', some sink, σ.ticket + 1⟩ := by
  unfold Session.perform Session.stream
  dsimp only
  rw [bind_ok (rfl : (get : Session.Run Session) σ = .ok σ σ), bind_ok (onWriter_ok h)]
  rfl

theorem perform_write_ok {sink sink' : Sink} (hsink : σ.sink = some sink)
    (h : write env data (σ.writer, sink) = .ok ⟨⟩ (w', sink')) :
    Session.perform env (.write data) σ = .ok ⟨⟩ ⟨w', some sink', σ.ticket⟩ := by
  unfold Session.perform Session.write
  dsimp only
  rw [bind_ok (rfl : (get : Session.Run Session) σ = .ok σ σ), hsink]
  dsimp only
  unfold zoom
  rw [h]

theorem perform_close_ok (hsink : σ.sink = some sink) (h : close env sink σ.writer = .ok ⟨⟩ w') :
    Session.perform env .close σ = .ok ⟨⟩ ⟨w', none, σ.ticket⟩ := by
  unfold Session.perform Session.close
  dsimp only
  rw [bind_ok (rfl : (get : Session.Run Session) σ = .ok σ σ), hsink]
  dsimp only
  rw [bind_ok (rfl : (modify fun s : Session => { s with sink := none } : Session.Run PUnit) σ =
    .ok ⟨⟩ { σ with sink := none })]
  exact onWriter_ok h

end Pie.Proof.Buffered
