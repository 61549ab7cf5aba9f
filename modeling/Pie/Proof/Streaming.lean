import Pie.Tokenizer.Decode

/-!
# Decoding in pieces

A decoder that is fed a list of ids in pieces returns what decoding the list at
once does, for the pipelines that decode to raw bytes and, up to where the
marker is stripped, for byte fallback. The state between two pieces is the
start of a character, or a run of fallback bytes: `feedAll_raw` and
`feedAll_fallback` say what has been put out when it is reached.

A unigram pipeline streams its raw text, without the step that turns markers
into spaces, and the last run of fallback bytes is put out without the strip.
`run_eq_decode_iff` says exactly when neither shows.
-/

namespace Pie.Proof

open List Option Pie.Tokenizer Lib Lib.Utf8 Tokenizer TokenizerDecoder

variable {raw : List UInt8} {d : TokenizerDecoder} {id : TokenId} {skip : Bool}

/-! ## Raw bytes -/

variable (t : Tokenizer)

/-- What a list of ids spells. -/
def spell (skip : Bool) (ids : List TokenId) : List UInt8 :=
  ids.flatMap (fun id => (t.spelled skip id).getD [])

theorem spell_append (skip : Bool) (a b : List TokenId) :
    spell t skip (a ++ b) = spell t skip a ++ spell t skip b := by
  simp [spell]

theorem bytesToString_bytes (bytes : List UInt8) : (bytesToString bytes).bytes = fromUtf8Lossy bytes := by
  unfold bytesToString
  split
  · rename_i h
    exact (fromUtf8Lossy_valid (fromUtf8_ok h)).symm
  · rfl

theorem bytesToString_valid {bytes : List UInt8} (h : Valid bytes) : (bytesToString bytes).bytes = bytes := by
  rw [bytesToString_bytes, fromUtf8Lossy_valid h]

theorem decodeRaw_bytes (ids : List TokenId) (skip : Bool) :
    (t.decodeRaw ids skip).bytes = fromUtf8Lossy (spell t skip ids) := by
  have hfold : ∀ {ids : List TokenId} {acc : List UInt8},
      ids.foldl (fun bytes id => bytes ++ (t.spelled skip id).getD []) acc = acc ++ spell t skip ids := by
    intro ids
    induction ids with
    | nil => intro acc; simp [spell]
    | cons id ids ih =>
      intro acc
      rw [foldl_cons, ih, append_assoc]
      rfl
  rw [decodeRaw, bytesToString_bytes, hfold, nil_append]

/-- The loop reads what is left from `consumed` on. -/
theorem drainLoop_reads (pending : List UInt8) : ∀ (fuel consumed : Nat) (output : List UInt8),
    pending.length < consumed + fuel → consumed ≤ pending.length →
    ∃ out keep, Reads (pending.drop consumed) out keep
      ∧ (drainLoop pending fuel consumed output).2 = output ++ out
      ∧ pending.drop (drainLoop pending fuel consumed output).1 = keep := by
  intro fuel
  induction fuel with
  | zero => intro consumed output h1 h2; omega
  | succ fuel ih =>
    intro consumed output h1 h2
    rw [drainLoop]
    by_cases hlt : consumed < pending.length
    · rw [if_pos hlt]
      cases hrun : fromUtf8 (pending.drop consumed) with
      | ok =>
        exact ⟨_, [], (fromUtf8_ok hrun).reads, rfl, by simp⟩
      | error e =>
        obtain ⟨hk, hvalid, hat⟩ := fromUtf8_error hrun
        rw [length_drop] at hk
        have hsplit := take_append_drop e.validUpTo (pending.drop consumed)
        cases he : e.errorLen with
        | none =>
          rw [he, drop_drop] at hat
          have hne : pending.drop (consumed + e.validUpTo) ≠ [] := by
            rw [Ne, drop_eq_nil_iff]
            omega
          have h := hvalid.reads.append (b := pending.drop (consumed + e.validUpTo)) (.cut hat hne)
          rw [← drop_drop, hsplit, append_nil] at h
          simp only [he]
          refine ⟨_, _, h, rfl, ?_⟩
          rw [drop_drop, nil_append]
        | some n =>
          rw [he, drop_drop] at hat
          have hn := step_bad hat
          rw [length_drop] at hn
          obtain ⟨out, keep, hreads, hout, hkeep⟩ := ih (consumed + e.validUpTo + n)
            (output ++ (pending.drop consumed).take e.validUpTo ++ replacementChar)
            (by omega) (by omega)
          rw [← drop_drop] at hreads
          have h := hvalid.reads.append (b := pending.drop (consumed + e.validUpTo))
            (.bad hat hreads)
          rw [← drop_drop, hsplit] at h
          simp only [he]
          refine ⟨_, keep, h, ?_, hkeep⟩
          rw [hout]
          simp only [append_assoc]
    · rw [if_neg hlt]
      obtain rfl : consumed = pending.length := by omega
      exact ⟨[], [], by rw [drop_length]; exact .nil, by simp, by simp⟩

theorem drainUtf8_reads (pending output : List UInt8) : ∃ out keep, Reads pending out keep
    ∧ drainUtf8 pending output false = (keep, output ++ out) := by
  obtain ⟨out, keep, h, hout, hkeep⟩ := drainLoop_reads pending (pending.length + 1) 0
    output (by omega) (Nat.zero_le _)
  refine ⟨out, keep, by simpa using h, ?_⟩
  simp only [drainUtf8, Bool.false_and, Bool.false_eq_true, if_false, hout, hkeep]

theorem Reads.keeps {bs out keep : List UInt8} (h : Reads bs out keep) : Reads keep [] keep := by
  rcases h.keep_cut with rfl | ⟨hcut, hne⟩
  · exact .nil
  · exact .cut hcut hne

/-- The end of the bytes: what is left is read lossily. -/
theorem drainUtf8_finish (pending : List UInt8) : (drainUtf8 pending [] true).2 = fromUtf8Lossy pending := by
  obtain ⟨out, keep, h, hout, hkeep⟩ := drainLoop_reads pending (pending.length + 1)
    0 [] (by omega) (Nat.zero_le _)
  rw [drop_zero] at h
  rw [fromUtf8Lossy_eq h, drainUtf8]
  simp only [hout, hkeep, nil_append, Bool.true_and]
  cases keep with
  | nil => simp [flushKeep]
  | cons b keep =>
    have hk : fromUtf8Lossy (b :: keep) = replacementChar := by
      rw [fromUtf8Lossy_eq (Reads.keeps h)]
      rfl
    simp [flushKeep, hk]

/-- Ids fed to a pipeline that decodes to raw bytes. -/
theorem foldl_rawStep (skip : Bool) : ∀ (ids : List TokenId) {pending : List UInt8}
    (output : List UInt8), Reads pending [] pending → ∃ out keep, Reads (pending ++ spell t skip ids) out keep
      ∧ ids.foldl (rawStep t skip) (pending, output) = (keep, output ++ out) := by
  intro ids
  induction ids with
  | nil =>
    intro pending output h
    exact ⟨[], pending, by simpa [spell] using h, by simp⟩
  | cons id ids ih =>
    intro pending output h
    rw [foldl_cons]
    cases hs : t.spelled skip id with
    | none =>
      obtain ⟨out, keep, h1, h2⟩ := ih output h
      refine ⟨out, keep, by simpa [spell, hs] using h1, ?_⟩
      simp only [rawStep, hs]
      exact h2
    | some raw =>
      obtain ⟨out₁, keep₁, h1, hdrain⟩ := drainUtf8_reads (pending ++ raw) output
      obtain ⟨out₂, keep₂, h2, hfold⟩ := ih (output ++ out₁) (Reads.keeps h1)
      refine ⟨out₁ ++ out₂, keep₂, ?_, ?_⟩
      · have := h1.append h2
        simpa [spell, hs, append_assoc] using this
      · simp only [rawStep, hs, hdrain]
        rw [← append_assoc]
        exact hfold

theorem feedAll_cons (d : TokenizerDecoder) (ids : List TokenId) (pieces : List (List TokenId)) :
    d.feedAll (ids :: pieces) =
      ((d.feed ids).1 :: ((d.feed ids).2.feedAll pieces).1, ((d.feed ids).2.feedAll pieces).2) := by
  have hacc : ∀ {pieces : List (List TokenId)} {acc : List Str} {d : TokenizerDecoder},
      pieces.foldl (fun st ids => (st.1 ++ [(st.2.feed ids).1], (st.2.feed ids).2)) (acc, d)
        = (acc ++ (d.feedAll pieces).1, (d.feedAll pieces).2) := by
    intro pieces
    induction pieces with
    | nil => intro acc d; simp [feedAll]
    | cons ids pieces ih =>
      intro acc d
      have hd : d.feedAll (ids :: pieces) = ([(d.feed ids).1] ++ ((d.feed ids).2.feedAll pieces).1,
          ((d.feed ids).2.feedAll pieces).2) := ih
      rw [foldl_cons, ih, hd]
      simp
  rw [feedAll, foldl_cons, hacc]
  rfl

/-- The pipelines that stream raw bytes. -/
def StreamsRaw : Prop :=
  ∀ from_ to_ unk dummy strip, t.pipeline ≠ .byteFallbackReplace from_ to_ unk dummy strip

theorem StreamsRaw.feedBytes (h : StreamsRaw d.tokenizer) (ids : List TokenId) :
    d.feedBytes ids = ((ids.foldl (rawStep d.tokenizer d.skipSpecial) (d.pendingUtf8, [])).2,
      { d with pendingUtf8 := (ids.foldl (rawStep d.tokenizer d.skipSpecial)
        (d.pendingUtf8, [])).1 }) := by
  unfold TokenizerDecoder.feedBytes
  split
  · rename_i heq
    exact absurd heq (h _ _ _ _ _)
  · rfl

theorem StreamsRaw.finish (h : StreamsRaw d.tokenizer) :
    d.finish.1 = bytesToString (drainUtf8 d.pendingUtf8 [] true).2 := by
  unfold TokenizerDecoder.finish
  split
  · rename_i heq
    exact absurd heq (h _ _ _ _ _)
  · rfl

theorem StreamsRaw.stripsDecoderMarker {t : Tokenizer} (h : StreamsRaw t) : t.stripsDecoderMarker = false := by
  unfold Tokenizer.stripsDecoderMarker
  split
  · rename_i heq
    exact absurd heq (h _ _ _ _ _)
  · rfl

/-- Pieces fed to a pipeline that decodes to raw bytes. -/
theorem feedAll_raw : ∀ (pieces : List (List TokenId)) {d : TokenizerDecoder},
    StreamsRaw d.tokenizer → d.stripArmed = false → Reads d.pendingUtf8 [] d.pendingUtf8 →
    ∃ keep, Reads (d.pendingUtf8 ++ spell d.tokenizer d.skipSpecial pieces.flatten)
        ((d.feedAll pieces).1.flatMap Str.bytes) keep
      ∧ (d.feedAll pieces).2 = { d with pendingUtf8 := keep } := by
  intro pieces
  induction pieces with
  | nil =>
    intro d _ _ h
    exact ⟨d.pendingUtf8, by simpa [spell, feedAll] using h, rfl⟩
  | cons ids pieces ih =>
    intro d hraw harm h
    obtain ⟨out, keep, hreads, hfold⟩ := foldl_rawStep d.tokenizer d.skipSpecial ids [] h
    rw [nil_append] at hfold
    have hfeed : d.feed ids = (bytesToString out, { d with pendingUtf8 := keep }) := by
      simp only [feed, hraw.feedBytes, hfold, applyStreamStrip,
        harm, Bool.not_false, Bool.true_or, if_true]
    obtain ⟨keep', hreads', hend⟩ := ih (d := { d with pendingUtf8 := keep }) hraw harm (Reads.keeps hreads)
    refine ⟨keep', ?_, ?_⟩
    · rw [feedAll_cons, hfeed, flatMap_cons, bytesToString_valid hreads.valid,
        flatten_cons, spell_append, ← append_assoc]
      exact hreads.append hreads'
    · rw [feedAll_cons, hfeed]
      exact hend

/-- **Streams of raw bytes** return the lossy text of all the bytes. -/
theorem run_raw {t : Tokenizer} (h : StreamsRaw t) (skip : Bool) (pieces : List (List TokenId)) :
    ((t.decoder skip).run pieces).bytes = fromUtf8Lossy (spell t skip pieces.flatten) := by
  obtain ⟨keep, hreads, hend⟩ := feedAll_raw pieces (d := t.decoder skip) h
    h.stripsDecoderMarker .nil
  have hfin : ((t.decoder skip).feedAll pieces).2.finish.1.bytes = flushKeep keep := by
    rw [hend, StreamsRaw.finish (d := { t.decoder skip with pendingUtf8 := keep }) h,
      drainUtf8_finish, bytesToString_valid (valid_fromUtf8Lossy _), fromUtf8Lossy_eq (Reads.keeps hreads)]
    rfl
  rw [run, Str.concat_bytes, flatMap_append]
  simp only [flatMap_cons, flatMap_nil, append_nil, hfin]
  exact (fromUtf8Lossy_eq hreads).symm

/-! ## Markers -/

/-- A text that turning markers into spaces and stripping one leaves as it is: no marker stands in
it, and no space before it. -/
def Unmarked (marker text : List UInt8) : Prop :=
  if marker = [] then text = []
  else (marker = [0x20] ∨ ¬ marker <:+: text) ∧ text.head? ≠ some 0x20

theorem stripSpace_bytes (text : Str) : ((text.stripPrefix space).getD text).bytes
    = if text.bytes.head? = some 0x20 then text.bytes.tail else text.bytes := by
  have hpre : space.bytes <+: text.bytes ↔ text.bytes.head? = some 0x20 := by
    cases htext : text.bytes with
    | nil => simp [space]
    | cons b bs => simp [space, cons_prefix_cons, eq_comm]
  unfold Str.stripPrefix
  by_cases h : text.bytes.head? = some 0x20
  · rw [dif_pos (hpre.mpr h), if_pos h]
    exact drop_one
  · rw [dif_neg (fun hc => h (hpre.mp hc)), if_neg h]
    rfl

theorem tail_ne_of_head {text out : List UInt8} (hle : out.length ≤ text.length)
    (h : out.head? = some 0x20) : out.tail ≠ text := by
  intro heq
  have hlen := congrArg length heq
  rw [length_tail] at hlen
  cases out with
  | nil => simp at h
  | cons b bs =>
    rw [length_cons] at hle hlen
    omega

theorem replace_strip_iff (text marker : Str) :
    (((text.replace marker space).stripPrefix space).getD
        (text.replace marker space)) = text ↔ Unmarked marker.bytes text.bytes := by
  rw [Str.ext_iff, stripSpace_bytes, Unmarked]
  by_cases h0 : marker.bytes = []
  · rw [if_pos h0]
    have hout : (text.replace marker space).bytes
        = Str.interleaveLoop [0x20] text.bytes.length text.bytes := by
      rw [Str.replace, dif_pos h0]
      rfl
    rw [hout]
    obtain ⟨hlen, hlen'⟩ := Str.interleaveLoop_length [0x20] text.valid (le_refl _)
    constructor
    · intro heq
      by_contra hne
      have hl := hlen' hne
      have := congrArg length heq
      split at this
      · rw [length_tail] at this
        simp only [length_singleton] at hl
        omega
      · simp only [length_singleton] at hl
        omega
    · intro hnil
      rw [hnil]
      rfl
  · rw [if_neg h0]
    have hout : (text.replace marker space).bytes
        = splice text.bytes marker.bytes.length [0x20] (findIter marker.bytes text.bytes) := by
      rw [Str.replace, dif_neg h0]
      rfl
    rw [hout]
    have hrep := splice_replaced h0 [0x20] text.bytes
    generalize splice text.bytes marker.bytes.length [0x20] (findIter marker.bytes text.bytes) = out
      at hrep
    have hle : ([0x20] : List UInt8).length ≤ marker.bytes.length := by
      have := length_pos_iff.mpr h0
      rw [length_singleton]
      omega
    by_cases hsp : marker.bytes = [0x20]
    · rw [hsp] at hrep
      rw [hrep.self]
      simp only [hsp, true_or, true_and]
      by_cases hh : text.bytes.head? = some 0x20
      · rw [if_pos hh]
        simp [hh, tail_ne_of_head (le_refl _) hh]
      · rw [if_neg hh]
        simp [hh]
    · have heq := hrep.eq_iff hle (fun h => hsp h.symm)
      simp only [hsp, false_or]
      by_cases hh : out.head? = some 0x20
      · rw [if_pos hh]
        simp only [tail_ne_of_head (hrep.length_le hle) hh, false_iff, not_and, not_not]
        intro hno
        rw [← heq.mpr hno]
        exact hh
      · rw [if_neg hh, heq]
        constructor
        · intro hno
          refine ⟨hno, ?_⟩
          rw [← heq.mpr hno]
          exact hh
        · exact fun h => h.1

/-! ## Fallback bytes -/

section Fallback

variable {pattern content : List UInt8}

/-- Some tokens of a byte-fallback pipeline, from a run on. -/
def fallback (pattern content run : List UInt8) (raws : List (List UInt8)) : List UInt8 × List UInt8 :=
  raws.foldl (Tokenizer.fallbackToken pattern content) (run, [])

theorem flushByteFallback_out (run output : List UInt8) :
    flushByteFallback run output = ((flushByteFallback run []).1, output ++ (flushByteFallback run []).2) := by
  unfold flushByteFallback
  split
  · simp
  · split <;> simp

theorem appendReplaced_out (output haystack needle replacement : List UInt8) :
    appendReplaced output haystack needle replacement
      = output ++ appendReplaced [] haystack needle replacement := by
  unfold appendReplaced
  split <;> simp

theorem fallbackToken_out (run output raw : List UInt8) : fallbackToken pattern content (run, output) raw =
      ((fallbackToken pattern content (run, []) raw).1,
        output ++ (fallbackToken pattern content (run, []) raw).2) := by
  unfold fallbackToken
  cases byteFallbackValue raw with
  | some byte => simp
  | none =>
    simp only
    rw [flushByteFallback_out, appendReplaced_out, appendReplaced_out (flushByteFallback run []).2, append_assoc]

/-- The output so far stays before what follows. -/
theorem fallback_out : ∀ {raws : List (List UInt8)} {run output : List UInt8},
    raws.foldl (fallbackToken pattern content) (run, output) =
      ((fallback pattern content run raws).1, output ++ (fallback pattern content run raws).2) := by
  intro raws
  induction raws with
  | nil => intro run output; simp [fallback]
  | cons raw raws ih =>
    intro run output
    simp only [fallback, foldl_cons]
    rw [fallbackToken_out, ih]
    conv_rhs => rw [ih]
    simp [append_assoc]

theorem fallback_append (run : List UInt8) (a b : List (List UInt8)) : fallback pattern content run (a ++ b) =
      ((fallback pattern content (fallback pattern content run a).1 b).1, (fallback pattern content run a).2
          ++ (fallback pattern content (fallback pattern content run a).1 b).2) := by
  rw [fallback, foldl_append]
  exact fallback_out

theorem fallback_cons (run raw : List UInt8) (raws : List (List UInt8)) : fallback pattern content run (raw :: raws) =
      ((fallback pattern content (fallbackToken pattern content (run, []) raw).1 raws).1,
        (fallbackToken pattern content (run, []) raw).2
          ++ (fallback pattern content (fallbackToken pattern content (run, []) raw).1 raws).2) := by
  rw [fallback, foldl_cons]
  exact fallback_out

theorem foldl_fallbackStep {t : Tokenizer} : ∀ {ids : List TokenId}
    {st : List UInt8 × List UInt8}, ids.foldl (t.fallbackStep skip pattern content) st =
      (ids.filterMap (t.spelled skip)).foldl (fallbackToken pattern content) st := by
  intro ids
  induction ids with
  | nil => intro st; rfl
  | cons id ids ih =>
    intro st
    rw [foldl_cons, ih]
    cases hs : t.spelled skip id with
    | none => simp [hs, fallbackStep]
    | some raw => simp [hs, fallbackStep]

theorem valid_flatten {l : List (List UInt8)} (h : ∀ x ∈ l, Valid x) : Valid l.flatten := by
  induction l with
  | nil => exact .nil
  | cons x l ih =>
    rw [flatten_cons]
    exact (h x mem_cons_self).append (ih (fun y hy => h y (mem_cons_of_mem _ hy)))

theorem flush_valid (run : List UInt8) : Valid (flushByteFallback run []).2 := by
  unfold flushByteFallback
  split
  · exact .nil
  split
  · rename_i h
    simpa using fromUtf8_ok h
  · refine valid_flatten ?_
    intro x hx
    rw [eq_of_mem_replicate hx]
    exact valid_replacementChar

theorem replaced_valid (hp : Valid pattern) (hc : Valid content) (hr : Valid raw) :
    Valid (appendReplaced [] raw pattern content) := by
  unfold appendReplaced
  split
  · simpa using hr
  · rename_i hne
    have hne : pattern ≠ [] := fun h => hne (by rw [h]; rfl)
    simpa using (splice_replaced hne content raw).valid hr hp hne hc

theorem fallback_valid (hp : Valid pattern) (hc : Valid content) : ∀ {raws : List (List UInt8)}
    {run : List UInt8}, (∀ raw ∈ raws, Valid raw) → Valid (fallback pattern content run raws).2 := by
  intro raws
  induction raws with
  | nil => intro run _; exact .nil
  | cons raw raws ih =>
    intro run h
    rw [fallback_cons]
    refine Valid.append ?_ (ih (fun x hx => h x (mem_cons_of_mem _ hx)))
    unfold fallbackToken
    split
    · exact .nil
    · show Valid (appendReplaced (flushByteFallback run []).2 raw pattern content)
      rw [appendReplaced_out]
      exact (flush_valid run).append (replaced_valid hp hc (h raw mem_cons_self))

/-- A run of bytes goes on without output exactly through tokens that are bytes. -/
theorem fallback_silent_run : ∀ {raws : List (List UInt8)} {run : List UInt8}, run ≠ [] →
    ((fallback pattern content run raws).2 = [] ↔ ∃ bytes, raws.mapM byteFallbackValue = some bytes)
      ∧ ∀ {bytes}, raws.mapM byteFallbackValue = some bytes →
          (fallback pattern content run raws).1 = run ++ bytes := by
  intro raws
  induction raws with
  | nil =>
    intro run _
    refine ⟨⟨fun _ => ⟨[], rfl⟩, fun _ => rfl⟩, ?_⟩
    intro bytes h
    cases h
    simp [fallback]
  | cons raw raws ih =>
    intro run hrun
    rw [fallback_cons, mapM_cons]
    cases hv : byteFallbackValue raw with
    | some byte =>
      have hstep : fallbackToken pattern content (run, []) raw = (run ++ [byte], []) := by
        simp only [fallbackToken, hv]
      obtain ⟨h1, h2⟩ := @ih (run ++ [byte]) (by simp)
      rw [hstep]
      simp only [nil_append, bind_eq_bind, bind_some]
      rw [h1]
      refine ⟨⟨?_, ?_⟩, ?_⟩
      · rintro ⟨bytes, hb⟩
        exact ⟨byte :: bytes, by rw [hb]; rfl⟩
      · rintro ⟨bytes, hb⟩
        obtain ⟨rest, hr, -⟩ := bind_eq_some_iff.mp hb
        exact ⟨rest, hr⟩
      · intro bytes hb
        obtain ⟨rest, hr, hbytes⟩ := bind_eq_some_iff.mp hb
        cases hbytes
        rw [h2 hr]
        simp
    | none =>
      have hflush : (flushByteFallback run []).2 ≠ [] := by
        unfold flushByteFallback
        have hne : run.isEmpty = false := by simpa using hrun
        rw [hne]
        simp only [Bool.false_eq_true, if_false]
        split
        · simpa using hrun
        · obtain ⟨b, rest, rfl⟩ := exists_cons_of_ne_nil hrun
          simp [replacementChar, replicate_succ]
      have hstep : (fallbackToken pattern content (run, []) raw).2 ≠ [] := by
        simp only [fallbackToken, hv]
        rw [appendReplaced_out]
        simp [hflush]
      simp [hstep]

theorem byteFallbackValue_nil : byteFallbackValue [] = none := rfl

theorem appendReplaced_nil : appendReplaced [] [] pattern content = [] := by
  unfold appendReplaced
  split
  · rfl
  · rename_i hne
    have hfind : find pattern [] = none := by
      rw [find, if_neg (fun h => hne (by rw [h]; rfl))]
    simp [splice, findIter, findIterFrom, hfind]

/-- From no run on, tokens that spell nothing come first. -/
theorem fallback_silent (hc : content ≠ []) : ∀ {raws : List (List UInt8)}, ((fallback pattern content [] raws).2 = []
        ↔ ∃ bytes, (raws.dropWhile isEmpty).mapM byteFallbackValue = some bytes)
      ∧ ∀ {bytes}, (raws.dropWhile isEmpty).mapM byteFallbackValue = some bytes →
          (fallback pattern content [] raws).1 = bytes := by
  intro raws
  induction raws with
  | nil =>
    refine ⟨⟨fun _ => ⟨[], rfl⟩, fun _ => rfl⟩, ?_⟩
    intro bytes h
    exact some.inj h
  | cons raw raws ih =>
    rw [fallback_cons]
    by_cases h0 : raw = []
    · subst h0
      have hstep : fallbackToken pattern content ([], []) [] = ([], []) := by
        simp [fallbackToken, byteFallbackValue_nil, flushByteFallback, appendReplaced_nil]
      rw [hstep]
      simpa using ih
    · have hdrop : (raw :: raws).dropWhile isEmpty = raw :: raws := by
        rw [dropWhile_cons_of_neg]
        simpa using h0
      rw [hdrop, mapM_cons]
      cases hv : byteFallbackValue raw with
      | some byte =>
        have hstep : fallbackToken pattern content ([], []) raw = ([byte], []) := by
          simp only [fallbackToken, hv, nil_append]
        obtain ⟨h1, h2⟩ := @fallback_silent_run pattern content raws [byte] (by simp)
        rw [hstep]
        simp only [nil_append, bind_eq_bind, bind_some]
        rw [h1]
        refine ⟨⟨?_, ?_⟩, ?_⟩
        · rintro ⟨bytes, hb⟩
          exact ⟨byte :: bytes, by rw [hb]; rfl⟩
        · rintro ⟨bytes, hb⟩
          obtain ⟨rest, hr, -⟩ := bind_eq_some_iff.mp hb
          exact ⟨rest, hr⟩
        · intro bytes hb
          obtain ⟨rest, hr, hbytes⟩ := bind_eq_some_iff.mp hb
          cases hbytes
          rw [h2 hr]
          rfl
      | none =>
        have hstep : (fallbackToken pattern content ([], []) raw).2 ≠ [] := by
          simp only [fallbackToken, hv, flushByteFallback, isEmpty_nil, if_true]
          unfold appendReplaced
          split
          · simpa using h0
          · rename_i hne
            simpa using (splice_replaced (fun h => hne (by rw [h]; rfl)) content raw).ne_nil hc h0
        simp [hstep]

/-- What stripping a space once makes of the output. -/
def stripOnce (armed : Bool) (output : List UInt8) : List UInt8 :=
  if armed && output.head? == some 0x20 then output.tail else output

theorem stripOnce_nil (armed : Bool) : stripOnce armed [] = [] := by simp [stripOnce]

theorem stripOnce_false (output : List UInt8) : stripOnce false output = output := by
  simp [stripOnce]

theorem stripOnce_append {armed : Bool} {a : List UInt8} (ha : a ≠ []) (b : List UInt8) :
    stripOnce armed (a ++ b) = stripOnce armed a ++ b := by
  obtain ⟨x, a, rfl⟩ := exists_cons_of_ne_nil ha
  unfold stripOnce
  rw [cons_append, head?_cons, head?_cons]
  cases hc : (armed && some x == some 0x20) <;> simp

theorem stripOnce_valid {output : List UInt8} (h : Valid output) (armed : Bool) : Valid (stripOnce armed output) := by
  unfold stripOnce
  split
  · rename_i hs
    rw [Bool.and_eq_true, beq_iff_eq] at hs
    cases output with
    | nil => exact .nil
    | cons b bs =>
      simp only [head?_cons, some.injEq] at hs
      rw [hs.2] at h
      exact space.valid.of_append (b := bs) h
  · exact h

theorem isPrefixOf_space (output : List UInt8) :
    space.bytes.isPrefixOf output = (output.head? == some 0x20) := by
  cases output with
  | nil => rfl
  | cons b bs =>
    simp [space, isPrefixOf, Bool.beq_eq_decide_eq, eq_comm]

end Fallback

/-- What the loaders promise of a tokenizer: a pipeline that strips a marker strips a space, and the
vocabulary of a byte-fallback pipeline is text. -/
structure Loaded (t : Tokenizer) : Prop where
  strip : ∀ {from_ to_ unk dummy}, t.pipeline = .byteFallbackReplace from_ to_ unk dummy true →
    from_ = Tokenizer.space
  text : ∀ {from_ to_ unk dummy strip}, t.pipeline = .byteFallbackReplace from_ to_ unk dummy strip →
    ∀ {raw}, some raw ∈ t.bpe.decodeTable → Valid raw

theorem mem_decodeTable {bpe : BpeTable} (h : bpe.idToBytes id = some raw) : some raw ∈ bpe.decodeTable := by
  rw [BpeTable.idToBytes, Option.join_eq_some_iff] at h
  exact mem_of_getElem? h

theorem spelled_mem {t : Tokenizer} (h : t.spelled skip id = some raw) : some raw ∈ t.bpe.decodeTable := by
  unfold spelled at h
  split at h
  · cases h
  · exact mem_decodeTable h

section Streams

variable {t : Tokenizer} {from_ to_ : Str} {unk : Option TokenId} {dummy : DummyPrefix} {strip : Bool}

section

variable (h : Loaded t) (hp : t.pipeline = .byteFallbackReplace from_ to_ unk dummy strip)
include h hp

theorem Loaded.raws_valid
    (skip : Bool) (ids : List TokenId) : ∀ raw ∈ ids.filterMap (t.spelled skip), Valid raw := by
  intro raw hraw
  obtain ⟨id, -, hid⟩ := mem_filterMap.mp hraw
  exact h.text hp (spelled_mem hid)

theorem feedAll_fallback :
    ∀ (pieces : List (List TokenId)) {d : TokenizerDecoder}, d.tokenizer = t →
      (d.stripArmed = true → from_ = space) →
      ((d.feedAll pieces).1.flatMap Str.bytes) = stripOnce d.stripArmed
          (fallback to_.bytes from_.bytes d.fallbackRun (pieces.flatten.filterMap (t.spelled d.skipSpecial))).2
        ∧ (d.feedAll pieces).2.tokenizer = t
        ∧ (d.feedAll pieces).2.fallbackRun = (fallback to_.bytes from_.bytes d.fallbackRun
            (pieces.flatten.filterMap (t.spelled d.skipSpecial))).1 := by
  intro pieces
  induction pieces with
  | nil =>
    intro d hd _
    exact ⟨(stripOnce_nil _).symm, hd, rfl⟩
  | cons ids pieces ih =>
    intro d hd harm
    subst hd
    set raws := ids.filterMap (d.tokenizer.spelled d.skipSpecial) with hraws
    set first := fallback to_.bytes from_.bytes d.fallbackRun raws with hfirst
    have hvalid : Valid first.2 :=
      fallback_valid to_.valid from_.valid (h.raws_valid hp d.skipSpecial ids)
    have hbytes : d.feedBytes ids = (first.2, { d with fallbackRun := first.1 }) := by
      unfold feedBytes
      rw [hp]
      simp only [foldl_fallbackStep]
      rfl
    -- the first feed that puts something out disarms the strip
    have hstrip : (applyStreamStrip { d with fallbackRun := first.1 } first.2)
        = (stripOnce d.stripArmed first.2, { d with
            fallbackRun := first.1
            stripArmed := d.stripArmed && first.2.isEmpty }) := by
      unfold applyStreamStrip
      cases harmed : d.stripArmed with
      | false => simp [stripOnce_false, harmed]
      | true =>
        cases hout : first.2 with
        | nil => simp [stripOnce_nil, harmed]
        | cons b bs =>
          simp only [hp, harmed, Bool.not_true, isEmpty_cons, Bool.or_self, Bool.false_eq_true,
            if_false, harm harmed, isPrefixOf_space, Bool.and_false]
          rw [stripOnce, head?_cons, Bool.true_and]
          cases hb : (some b == some 0x20) <;> simp [space]
    have hfeed : d.feed ids = (bytesToString (stripOnce d.stripArmed first.2), { d with
        fallbackRun := first.1
        stripArmed := d.stripArmed && first.2.isEmpty }) := by
      simp only [feed, hbytes, hstrip]
    obtain ⟨h1, h2, h3⟩ := @ih { d with
        fallbackRun := first.1
        stripArmed := d.stripArmed && first.2.isEmpty } rfl (by
      intro hc
      simp only [Bool.and_eq_true] at hc
      exact harm hc.1)
    rw [feedAll_cons, hfeed, flatten_cons, filterMap_append, fallback_append, ← hraws, ← hfirst]
    refine ⟨?_, h2, h3⟩
    rw [flatMap_cons, bytesToString_valid (stripOnce_valid hvalid _), h1]
    cases hout : first.2 with
    | nil => simp [stripOnce_nil]
    | cons b bs =>
      rw [← hout, stripOnce_append (by rw [hout]; simp)]
      simp [hout, stripOnce_false]

theorem decode_fallback
    (skip : Bool) (ids : List TokenId) : (t.decode ids skip).bytes = stripOnce strip
      ((fallback to_.bytes from_.bytes [] (ids.filterMap (t.spelled skip))).2
        ++ (flushByteFallback (fallback to_.bytes from_.bytes [] (ids.filterMap (t.spelled skip))).1 []).2) := by
  set all := fallback to_.bytes from_.bytes [] (ids.filterMap (t.spelled skip)) with hall
  set output := all.2 ++ (flushByteFallback all.1 []).2 with hout
  have hvalid : Valid output :=
    (fallback_valid to_.valid from_.valid (h.raws_valid hp skip ids)).append (flush_valid _)
  have hfold : (flushByteFallback (ids.foldl (t.fallbackStep skip to_.bytes from_.bytes) ([], [])).1
      (ids.foldl (t.fallbackStep skip to_.bytes from_.bytes) ([], [])).2).2 = output := by
    rw [foldl_fallbackStep, flushByteFallback_out]
    rfl
  cases strip with
  | false =>
    simp only [decode, hp, decodeByteFallback, Bool.false_eq_true, if_false, hfold]
    rw [bytesToString_valid hvalid, stripOnce_false]
  | true =>
    obtain rfl := h.strip hp
    simp only [decode, hp, decodeByteFallback, if_true, hfold, isPrefixOf_space]
    have hstrip := stripOnce_valid hvalid true
    rw [stripOnce, Bool.true_and] at hstrip ⊢
    cases hb : (output.head? == some 0x20) with
    | true =>
      rw [hb, if_pos rfl] at hstrip
      simp only [if_true]
      rw [show space.bytes.length = 1 from rfl, drop_one, bytesToString_valid hstrip]
    | false =>
      simp only [Bool.false_eq_true, if_false]
      exact bytesToString_valid hvalid

theorem run_fallback
    (skip : Bool) (pieces : List (List TokenId)) : ((t.decoder skip).run pieces).bytes = stripOnce strip
      (fallback to_.bytes from_.bytes [] (pieces.flatten.filterMap (t.spelled skip))).2
        ++ (flushByteFallback (fallback to_.bytes from_.bytes []
            (pieces.flatten.filterMap (t.spelled skip))).1 []).2 := by
  have harmed : t.stripsDecoderMarker = strip := by simp only [stripsDecoderMarker, hp]
  obtain ⟨h1, h2, h3⟩ := feedAll_fallback h hp pieces (d := t.decoder skip) rfl (by
    intro hc
    rw [show (t.decoder skip).stripArmed = strip from harmed] at hc
    subst hc
    exact h.strip hp)
  have hfin : ((t.decoder skip).feedAll pieces).2.finish.1.bytes
      = (flushByteFallback ((t.decoder skip).feedAll pieces).2.fallbackRun []).2 := by
    unfold finish
    rw [h2, hp]
    exact bytesToString_valid (flush_valid _)
  rw [run, Str.concat_bytes, flatMap_append, h1]
  simp only [flatMap_cons, flatMap_nil, append_nil]
  rw [hfin, h3]
  show stripOnce t.stripsDecoderMarker _ ++ _ = _
  rw [harmed]
  rfl

end

end Streams

/-! ## Pieces against the whole -/

/-- The tokens that spell something are all fallback bytes, and these are a text that starts with a
space. -/
def SpaceBytes (raws : List (List UInt8)) : Prop :=
  ∃ bytes, (raws.dropWhile List.isEmpty).mapM byteFallbackValue = some bytes
    ∧ Valid bytes ∧ bytes.head? = some 0x20

/-- Where a decoder fed in pieces misses nothing of what decoding at once does: a unigram pipeline
has no marker to turn into a space and no space to strip, and a pipeline that strips puts something
out before the end. -/
def StreamsWhole (skip : Bool) (ids : List TokenId) : Prop :=
  match t.pipeline with
  | .unigram _ replacement _ _ => Unmarked replacement.bytes (fromUtf8Lossy (spell t skip ids))
  | .byteFallbackReplace _ _ _ _ true => ¬ SpaceBytes (ids.filterMap (t.spelled skip))
  | _ => True

theorem stripOnce_flush_iff (out flushed : List UInt8) :
    stripOnce true out ++ flushed = stripOnce true (out ++ flushed)
      ↔ ¬ (out = [] ∧ flushed.head? = some 0x20) := by
  by_cases h0 : out = []
  · subst h0
    rw [stripOnce_nil, nil_append, stripOnce, Bool.true_and]
    by_cases hh : flushed.head? = some 0x20
    · have := tail_ne_of_head (le_refl _) hh
      simp [hh, Ne.symm this]
    · simp [hh]
  · rw [stripOnce_append h0]
    simp [h0]

theorem flush_head_iff (run : List UInt8) :
    (flushByteFallback run []).2.head? = some 0x20 ↔ Valid run ∧ run.head? = some 0x20 := by
  unfold flushByteFallback
  cases run with
  | nil => simp
  | cons b run =>
    simp only [isEmpty_cons, Bool.false_eq_true, if_false, fromUtf8_iff]
    by_cases hv : Valid (b :: run)
    · simp [hv]
    · simp [hv, replacementChar, replicate_succ]

/-- **Streams and whole decodes agree** exactly where the missed steps have nothing to do. -/
theorem run_eq_decode_iff (t : Tokenizer) (h : Loaded t) (skip : Bool) (pieces : List (List TokenId)) :
    (t.decoder skip).run pieces = t.decode pieces.flatten skip
      ↔ StreamsWhole t skip pieces.flatten := by
  have hraw : StreamsRaw t → ((t.decoder skip).run pieces) = t.decodeRaw pieces.flatten skip := by
    intro hr
    ext1
    rw [run_raw hr, decodeRaw_bytes]
  unfold StreamsWhole
  cases hp : t.pipeline with
  | byteLevelRegex nfc splitters mode =>
    have hr : StreamsRaw t := fun _ _ _ _ _ hc => by rw [hp] at hc; cases hc
    simp only [Tokenizer.decode, hp, hraw hr]
  | rawChar =>
    have hr : StreamsRaw t := fun _ _ _ _ _ hc => by rw [hp] at hc; cases hc
    simp only [Tokenizer.decode, hp, hraw hr]
  | unigram scores replacement prepend eos =>
    have hr : StreamsRaw t := fun _ _ _ _ _ hc => by rw [hp] at hc; cases hc
    simp only [Tokenizer.decode, hp, hraw hr]
    rw [eq_comm, replace_strip_iff, decodeRaw_bytes]
  | byteFallbackReplace from_ to_ unk dummy strip =>
    rw [Str.ext_iff, run_fallback h hp, decode_fallback h hp]
    cases strip with
    | false => simp only [stripOnce_false]
    | true =>
      obtain rfl := h.strip hp
      obtain ⟨h1, h2⟩ := @fallback_silent to_.bytes Tokenizer.space.bytes (by decide)
        (pieces.flatten.filterMap (t.spelled skip))
      rw [stripOnce_flush_iff, h1, flush_head_iff]
      refine not_congr ⟨?_, ?_⟩
      · rintro ⟨⟨bytes, hb⟩, hv, hh⟩
        rw [h2 hb] at hv hh
        exact ⟨bytes, hb, hv, hh⟩
      · rintro ⟨bytes, hb, hv, hh⟩
        rw [h2 hb]
        exact ⟨⟨bytes, hb⟩, hv, hh⟩

/-- `▁`. -/
def metaspace : Str := ⟨[0xE2, 0x96, 0x81], .char (n := 3) (by decide) .nil⟩

/-- A table whose ids spell the given tokens, with no merges. -/
def spelling (tokens : List (List UInt8)) (byteFallbackIds : List (Option TokenId)) : BpeTable where
  tokenToId := tokens.zipIdx.foldl (fun m p => m.insert p.1 (BitVec.ofNat 32 p.2)) ∅
  merges := ∅
  decodeTable := tokens.map some
  byteFallbackIds := byteFallbackIds

def hexChar (n : Nat) : UInt8 := UInt8.ofNat (if n < 10 then 0x30 + n else 0x41 + (n - 10))

/-- `<unk>`, every `<0xNN>`, and `▁a`. -/
def sentencepieceTokens : List (List UInt8) :=
  [[0x3C, 0x75, 0x6E, 0x6B, 0x3E]]
    ++ (List.range 256).map (fun n => [0x3C, 0x30, 0x78, hexChar (n / 16), hexChar (n % 16), 0x3E])
    ++ [[0xE2, 0x96, 0x81, 0x61]]

/-- Byte fallback with the marker stripped. -/
def sentencepiece : Tokenizer :=
  .new (spelling sentencepieceTokens ((List.range 256).map (fun n => some (BitVec.ofNat 32 (n + 1)))))
    (.byteFallbackReplace Tokenizer.space metaspace (some 0) .everySegment true) []

/-- A unigram of the one piece `▁a`. -/
def unigramPiece : Tokenizer :=
  .new (spelling [[0xE2, 0x96, 0x81, 0x61]] (List.replicate 256 none))
    (.unigram ⟨AList.singleton ⟨[0xE2, 0x96, 0x81, 0x61], by decide⟩ (0, 0), 4, 0⟩ metaspace true none) []

theorem loaded_sentencepiece : Loaded sentencepiece where
  strip := by
    intro _ _ _ _ h
    cases h
    rfl
  text := by
    intro _ _ _ _ _ _ raw h
    have hall : ∀ raw ∈ sentencepieceTokens, Valid raw := by decide +kernel
    exact hall raw (by simpa [sentencepiece, spelling, new] using h)

theorem loaded_unigramPiece : Loaded unigramPiece where
  strip := by intro _ _ _ _ h; cases h
  text := by intro _ _ _ _ _ h; cases h

/-- `▁a` and a fallback byte, in two pieces. -/
theorem run_eq_decode_sentencepiece : Loaded sentencepiece
    ∧ (sentencepiece.decoder false).run [[257], [33]] = sentencepiece.decode [257, 33] false := by
  refine ⟨loaded_sentencepiece, (run_eq_decode_iff sentencepiece loaded_sentencepiece false [[257], [33]]).mpr ?_⟩
  rintro ⟨bytes, h, -⟩
  have hnone : (([257, 33].filterMap (sentencepiece.spelled false)).dropWhile isEmpty).mapM
      byteFallbackValue = none := by decide +kernel
  rw [show [[(257 : TokenId)], [33]].flatten = [257, 33] from rfl, hnone] at h
  cases h

/-- The piece of a unigram keeps its marker in a stream, and a space from a fallback byte is not
stripped at the end of one. -/
theorem run_ne_decode : Loaded unigramPiece ∧ (unigramPiece.decoder false).run [[0]] ≠ unigramPiece.decode [0] false
    ∧ Loaded sentencepiece
    ∧ (sentencepiece.decoder false).run [[33]] ≠ sentencepiece.decode [33] false :=
  ⟨loaded_unigramPiece, by decide, loaded_sentencepiece, by decide +kernel⟩

end Pie.Proof
