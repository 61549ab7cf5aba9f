import Pie.Proof.Planes
import Pie.Proof.Shelves

/-!
# Through a sink

A sink writes its bytes at the end of the file before it is known whether the
file holds them. When it closes they stay, or the file is cut back to where they
begin: the writer then holds the shelf that placing the content gives, as if it
had come in one piece.
-/

namespace Pie.Proof.Sinks

open List Lib Lib.Words Lib.Effects Ztensor Planes Writing Shelves Ends

variable {env : Env} {w w' : Writer} {s : Shelf} {c : List UInt8}

/-- After the last blob and the padding come these bytes. -/
structure Trails (w : Writer) (s : Shelf) (c : List UInt8) : Prop extends Indexed w s where
  content : w.out.content = s.image ++ Out.zeros (s.stop w.align - s.image.length) ++ c

namespace Trails

section

variable (h : Trails w s c)
include h

theorem front_length :
    (s.image ++ Out.zeros (s.stop w.align - s.image.length)).length = s.stop w.align := by
  have hle : s.image.length ≤ s.stop w.align := le_roundUp h.aligned.pos
  rw [length_append, length_zeros]
  omega

theorem length : w.out.content.length = s.stop w.align + c.length := by
  rw [h.content, length_append, h.front_length]

theorem wrote {data : List UInt8} (hw : Wrote w w' data) : Trails w' s (c ++ data) where
  aligned := by
    obtain ⟨k, hk, halign⟩ := h.aligned
    exact ⟨k, hk, hw.align.trans halign⟩
  dedup := hw.dedup.trans h.dedup
  sound := h.sound
  offset := by rw [hw.offset, hw.content, length_append, h.offset]
  content := by rw [hw.content, h.content, hw.align, append_assoc _ c]

theorem kept : Holds { w with dedup := (s.append env w.align c).index } (s.append env w.align c) where
  aligned := h.aligned
  dedup := rfl
  sound := h.sound.append h.aligned.pos
  offset := h.offset
  content := ⟨0, h.content.trans (append_nil _).symm, le_roundUp h.aligned.pos⟩

theorem slice_eq : slice w.out.content (s.stop w.align) c.length = c := by
  unfold slice
  rw [h.content, drop_left' h.front_length, take_length]

end

end Trails

/-- The padding before the first bytes of a blob. -/
theorem reserved (h : Holds w s) (hw : Wrote w w' (Out.zeros (s.stop w.align - w.offset))) : Trails w' s [] where
  aligned := by
    obtain ⟨k, hk, halign⟩ := h.aligned
    exact ⟨k, hk, hw.align.trans halign⟩
  dedup := hw.dedup.trans h.dedup
  sound := h.sound
  offset := by rw [hw.offset, hw.content, length_append, h.offset]
  content := by rw [hw.content, h.padded, hw.align, append_nil]

theorem reserve_ends (h : Holds w s) :
    Ends (Writer.reserveBlob w) (fun target w' => target = s.stop w.align ∧ Trails w' s []
      ∧ w' = { w with out := w'.out, offset := w'.offset }) (fun _ => True) := by
  refine (reserveBlob_ends h.aligned).mono (fun target w' hw' => ?_) (fun _ h => h)
  obtain ⟨htarget, hw'⟩ := hw'
  rw [h.roundUp_offset] at htarget
  subst htarget
  exact ⟨rfl, reserved h hw', hw'.frame⟩

theorem truncate_ends {n : Nat} (hn : n ≤ w.out.content.length) :
    Ends (Writer.truncate n w) (fun _ w' => w' = { w with out := w'.out, offset := n }
      ∧ w'.out.content = w.out.content.take n) (fun _ => True) := by
  unfold Writer.truncate
  refine Ends.bind (onOut_ends (flush_ends.mono (fun _ o ho => ?_) (fun _ h => h)))
  have hfile : o.file = w.out.content := by
    rw [← ho.1, Out.content, ho.2]
    exact (append_nil _).symm
  refine Ends.bind (onOut_ends ((setLen_ends ho.2 (by rw [hfile]; exact hn)).mono (fun _ o' ho' => ?_) (fun _ h => h)))
  refine modify ⟨rfl, ?_⟩
  change o'.content = _
  rw [ho'.1, ho.1]

/-- **A closing sink places its bytes as the shelf does.** -/
theorem settle_ends (h : Trails w s c) : Ends (Sink.settle (digestOf env c, c.length) (s.stop w.align) w)
      (fun offset w' => offset = (s.place env w.align c).1 ∧ Shelves.Placed w w' ∧ Holds w' (s.place env w.align c).2)
      (fun _ => True) := by
  unfold Sink.settle Shelf.place Shelf.find
  refine Ends.bind (Ends.get ?_)
  rw [← h.dedup]
  cases hl : w.dedup.lookup (digestOf env c, c.length) with
  | none =>
    refine Ends.bind (modify (Ends.pure ⟨rfl, rfl, ?_⟩))
    have hindex : (s.append env w.align c).index = ((digestOf env c, c.length), s.stop w.align) :: w.dedup := by
      unfold Shelf.append
      rw [← h.dedup, hl]
    have hkept := @Trails.kept env _ _ _ h
    rw [hindex] at hkept
    exact hkept
  | some prev =>
    refine Ends.bind ((rangesEqual_ends prev _ c.length).mono (fun same w₁ hw₁ => ?_) (fun _ h => h))
    obtain ⟨hw₁, -, hsame⟩ := hw₁
    have h₁ : Trails w₁ s c := by
      have hall := h.wrote hw₁
      rw [append_nil] at hall
      exact hall
    rw [h.slice_eq, h.content, append_assoc, h.sound.slice (by rw [← h.dedup]; exact hl)] at hsame
    rw [Option.filter_some]
    cases same with
    | true =>
      rw [if_pos rfl, if_pos (decide_eq_true (hsame.mp rfl))]
      refine Ends.bind ((truncate_ends ?_).mono (fun _ w₂ hw₂ => Ends.pure ⟨rfl, ?_, ?_⟩) (fun _ h => h))
      · rw [h₁.length, hw₁.align]
        exact Nat.le_add_right _ _
      · unfold Shelves.Placed
        rw [hw₂.1, hw₁.frame]
      · -- Cut back, the file ends in the padding that the next blob would need anyway.
        have hcontent : w₂.out.content = s.image ++ Out.zeros (s.stop w.align - s.image.length) := by
          have hfront := h₁.front_length
          rw [hw₁.align] at hfront
          rw [hw₂.2, h₁.content, hw₁.align, take_left' hfront]
        have halign : w₂.align = w.align := by rw [hw₂.1]; exact hw₁.align
        have hlength : s.stop w.align = w₂.out.content.length := by
          rw [hcontent]
          exact h.front_length.symm
        refine ⟨⟨?_, ?_, h.sound, ?_⟩, _, hcontent, ?_⟩
        · obtain ⟨k, hk, hpow⟩ := h.aligned
          exact ⟨k, hk, halign.trans hpow⟩
        · rw [hw₂.1]
          exact h₁.dedup
        · rw [hw₂.1]
          exact hlength.trans (by rw [hw₂.1])
        · have hle : s.image.length ≤ s.stop w.align := le_roundUp h.aligned.pos
          change s.image.length + _ ≤ s.stop w₂.align
          rw [halign, Nat.add_sub_cancel' hle]
    | false =>
      rw [if_neg Bool.false_ne_true, if_neg]
      · refine Ends.pure ⟨rfl, ?_, ?_⟩
        · unfold Shelves.Placed
          rw [hw₁.frame]
        · have hindex : (s.append env w₁.align c).index = w₁.dedup := by
            unfold Shelf.append
            rw [← h.dedup, hl, hw₁.dedup]
          have hkept := @Trails.kept env _ _ _ h₁
          rw [hindex] at hkept
          change Holds w₁ (s.append env w.align c)
          rw [← hw₁.align]
          exact hkept
      · rw [decide_eq_true_eq]
        exact fun he => nomatch hsame.mpr he

/-! ## The chunks -/

/-- The sink that is open on a writer has received these bytes. -/
structure Streaming (env : Env) (w : Writer) (sink : Sink) (s : Shelf) (received : List UInt8) : Prop where
  owner : w.openSink = some sink.ticket
  written : sink.written = received.length
  declared : received.length ≤ sink.declared
  hasher : sink.hasher = hashed env w.blocks received
  zero : w.blocks = some 0 → received = []
  place : (sink.started = false ∧ received = [] ∧ Holds w s) ∨
    (sink.started = true ∧ sink.object.blob.offset = s.stop w.align ∧ Trails w s received)

theorem Streaming.congr {sink : Sink} {received : List UInt8} {m : Manifest} (h : Streaming env w sink s received)
    (hw : w' = { w with manifest := m }) : Streaming env w' sink s received := by
  subst hw
  refine ⟨h.owner, h.written, h.declared, h.hasher, h.zero, ?_⟩
  rcases h.place with ⟨hstarted, hnil, hholds⟩ | ⟨hstarted, hoffset, htrails⟩
  · exact .inl ⟨hstarted, hnil, hholds.congr rfl rfl rfl rfl⟩
  · exact .inr ⟨hstarted, hoffset, ⟨htrails.aligned, htrails.dedup, htrails.sound, htrails.offset⟩, htrails.content⟩

/-- What a chunk changes of a sink. -/
def Fed (sink sink' : Sink) : Prop :=
  sink' = { sink with
    object := { sink.object with blob := { sink.object.blob with offset := sink'.object.blob.offset } }
    written := sink'.written
    hasher := sink'.hasher
    started := sink'.started }

variable {sink : Sink} {received : List UInt8}

theorem start_ends (h : Streaming env w sink s received) :
    Ends (Sink.start (w, sink)) (fun _ st => Streaming env st.1 st.2 s received ∧ st.2.started = true
      ∧ st.1 = { w with out := st.1.out, offset := st.1.offset } ∧ Fed sink st.2) (fun _ => True) := by
  unfold Sink.start
  refine Ends.bind (Ends.get ?_)
  refine ite (fun hs => ?_) (fun hs => ?_)
  · exact ⟨h, hs, rfl, rfl⟩
  · obtain ⟨hnil, hholds⟩ : received = [] ∧ Holds w s :=
      h.place.elim (fun hp => hp.2) (fun hp => absurd hp.1 hs)
    refine Ends.bind (zoom ((reserve_ends hholds).mono (fun target w' hw' => modify ?_) (fun _ _ => trivial)))
    obtain ⟨rfl, htrails, hframe⟩ := hw'
    subst hnil
    have hsame : ∀ {α : Type} (f : Writer → α), f w' = f { w with out := w'.out, offset := w'.offset } :=
      fun f => congrArg f hframe
    refine ⟨⟨?_, h.written, h.declared, ?_, fun _ => rfl, .inr ⟨rfl, ?_, htrails⟩⟩, rfl, hframe, rfl⟩
    · exact (hsame Writer.openSink).trans h.owner
    · exact h.hasher.trans (congrArg (hashed env · []) (hsame Writer.blocks).symm)
    · exact congrArg s.stop (hsame Writer.align).symm

/-- **A chunk that is written was received.** -/
theorem write_ends (h : Streaming env w sink s received) (chunk : List UInt8) :
    Ends (Sink.write env chunk (w, sink)) (fun _ st => Streaming env st.1 st.2 s (received ++ chunk)
      ∧ st.1 = { w with out := st.1.out, offset := st.1.offset } ∧ Fed sink st.2) (fun _ => True) := by
  unfold Sink.write
  refine Ends.bind (Ends.get ?_)
  refine Ends.bind (lift (fun _ _ => ?_) (fun _ _ => trivial))
  refine Ends.bind ((start_ends h).mono (fun _ st hst => ?_) (fun _ h => h))
  obtain ⟨w₁, sink₁⟩ := st
  obtain ⟨h₁, hstarted, hframe, hfed⟩ := hst
  refine Ends.bind (Ends.get ?_)
  refine Ends.bind (lift (fun stop hstop => ?_) (fun _ _ => trivial))
  refine Ends.bind (zoom ((writeBytes_ends chunk).mono (fun _ w₂ hw₂ => ?_) (fun _ _ => trivial)))
  refine Ends.bind (lift (fun hasher hhash => modify ?_) (fun _ _ => trivial))
  obtain ⟨hfit, hle⟩ := Option.filter_eq_some_iff.mp (okOr_eq_ok.mp hstop)
  obtain ⟨-, rfl⟩ := checkedAdd_eq_some.mp hfit
  have hblocks : w₂.blocks = w₁.blocks := by rw [hw₂.frame]
  rw [h₁.hasher] at hhash
  obtain ⟨rfl, hzero⟩ := update_eq_ok h₁.zero hhash
  obtain ⟨hoffset, htrails⟩ : sink₁.object.blob.offset = s.stop w₁.align ∧ Trails w₁ s received :=
    h₁.place.elim (fun hp => absurd (hp.1.symm.trans hstarted) Bool.false_ne_true) (fun hp => hp.2)
  have hlength : sink₁.written + chunk.length = (received ++ chunk).length := by
    rw [h₁.written, length_append]
  refine ⟨⟨?_, hlength, ?_, ?_, ?_, .inr ⟨hstarted, ?_, htrails.wrote hw₂⟩⟩, ?_, ?_⟩
  · rw [hw₂.frame]
    exact h₁.owner
  · rw [← hlength]
    exact of_decide_eq_true hle
  · rw [hblocks]
  · rw [hblocks]
    exact hzero
  · rw [hw₂.align]
    exact hoffset
  · rw [hw₂.frame, hframe]
  · unfold Fed
    rw [hfed]

/-- The object of a sink, placed. -/
def located (env : Env) (blocks : Option Nat) (object : Object) (offset : Nat) (c : List UInt8) : Object :=
  { object with blob := { object.blob with
    offset := offset, digest := some (digestOf env c), blocks := blocksOf env blocks c } }

/-- `w'` is `w` after an object was placed that has this content. -/
structure Committed (env : Env) (w w' : Writer) (s : Shelf) (name : Str) (object : Object) (c : List UInt8) : Prop where
  holds : Holds w' (s.place env w.align c).2
  frame : w' = { w with
    out := w'.out
    offset := w'.offset
    dedup := w'.dedup
    lastName := some name
    openSink := none
    manifest := w'.manifest }
  manifest : w'.manifest = { w.manifest with objects := w'.manifest.objects }
  objects : w'.manifest.objects =
    w.manifest.objects.insert name (located env w.blocks object (s.place env w.align c).1 c)

theorem place_ends (h : Streaming env w sink s received) :
    Ends ((if sink.started then pure sink.object.blob.offset else Writer.reserveBlob : Act Nat) w)
      (fun target w' => target = s.stop w.align ∧ Trails w' s received
        ∧ w' = { w with out := w'.out, offset := w'.offset }) (fun _ => True) := by
  refine ite (fun hs => ?_) (fun hs => ?_)
  · have hp := h.place.resolve_left fun hp => absurd (hp.1.symm.trans hs) Bool.false_ne_true
    exact ⟨hp.2.1, hp.2.2, rfl⟩
  · obtain ⟨hnil, hholds⟩ : received = [] ∧ Holds w s :=
      h.place.elim (fun hp => hp.2) (fun hp => absurd hp.1 hs)
    subst hnil
    exact reserve_ends hholds

/-- **A sink that closes places what it received.** -/
theorem close_ends (h : Streaming env w sink s received) :
    Ends (Sink.close env sink w) (fun _ w' => received.length = sink.declared
      ∧ Committed env w w' s sink.name sink.object received) (fun _ => True) := by
  unfold Sink.close
  refine Ends.bind (Ends.get ?_)
  refine Ends.bind (lift (fun _ _ => ?_) (fun _ _ => trivial))
  refine ite (fun _ => Ends.bind trivial) (fun hdone => ?_)
  have hlength : received.length = sink.declared :=
    le_antisymm h.declared (h.written ▸ not_lt.mp hdone)
  refine Ends.bind ((place_ends h).mono (fun target w₁ hw₁ => ?_) (fun _ h => h))
  obtain ⟨rfl, htrails, hframe⟩ := hw₁
  have hsame : ∀ {α : Type} (f : Writer → α), f w₁ = f { w with out := w₁.out, offset := w₁.offset } :=
    fun f => congrArg f hframe
  have halign : w₁.align = w.align := hsame Writer.align
  rw [h.hasher, finish_hashed, ← hlength, ← halign]
  refine Ends.bind ((settle_ends htrails).mono (fun offset w₂ hw₂ => ?_) (fun _ h => h))
  obtain ⟨rfl, hplaced, hholds⟩ := hw₂
  have hmanifest : w₂.manifest = w.manifest := by rw [hplaced, hframe]
  refine Ends.bind (modify (modify ⟨rfl, ?_⟩))
  rw [halign] at hholds ⊢
  refine ⟨hholds.congr rfl rfl rfl rfl, ?_, ?_, ?_⟩
  · rw [hplaced, hframe]
  · rw [hmanifest]
  · rw [hmanifest]
    rfl

end Pie.Proof.Sinks
