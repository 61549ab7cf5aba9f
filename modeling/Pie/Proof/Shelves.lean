import Pie.Proof.Writing

/-!
# Shelves

What a file is for, without buffers, padding still to come or bytes to be taken
back: the blobs it holds, and where each content first lies. To place a content
is to find it, or to put it at the end. A writer holds a shelf whatever way its
bytes came, in segments or through a sink.
-/

namespace Pie.Proof.Shelves

open List Lib Lib.Words Lib.Effects Ztensor Writing

/-- The bytes of a file up to the end of its last blob, and where contents lie. -/
structure Shelf where
  image : List UInt8
  index : List ((Digest × Nat) × Nat)

namespace Shelf

/-- The file before any blob. -/
def new : Shelf := ⟨MAGIC, []⟩

variable (env : Env) (align : Nat) (s : Shelf) (c : List UInt8)

/-- A place where `c` lies: the first content with its digest, if that is `c`. -/
def find : Option Nat :=
  (s.index.lookup (digestOf env c, c.length)).filter fun offset => decide (slice s.image offset c.length = c)

/-- Where the next blob goes. -/
def stop : Nat := roundUp s.image.length align

def append : Shelf :=
  ⟨s.image ++ Out.zeros (s.stop align - s.image.length) ++ c,
    match s.index.lookup (digestOf env c, c.length) with
    | some _ => s.index
    | none => ((digestOf env c, c.length), s.stop align) :: s.index⟩

def place : Nat × Shelf :=
  match s.find env c with
  | some offset => (offset, s)
  | none => (s.stop align, s.append env align c)

/-- Every place of the index lies in the image. -/
def Sound : Prop := ∀ e ∈ s.index, e.2 + e.1.2 ≤ s.image.length

variable {env align s c}

theorem length_append (ha : 0 < align) : (s.append env align c).image.length = s.stop align + c.length := by
  have hle : s.image.length ≤ s.stop align := le_roundUp ha
  unfold append
  rw [List.length_append, List.length_append, length_zeros]
  omega

theorem Sound.append (h : s.Sound) (ha : 0 < align) : (s.append env align c).Sound := by
  have hle : s.image.length ≤ s.stop align := le_roundUp ha
  have hlen := @length_append env align s c ha
  have hold : ∀ e ∈ s.index, e.2 + e.1.2 ≤ (s.append env align c).image.length := fun e he => by
    have := h e he
    omega
  intro e he
  unfold Shelf.append at he
  dsimp only at he
  split at he
  · exact hold e he
  · rcases mem_cons.mp he with rfl | he
    · rw [hlen]
    · exact hold e he

theorem mem_of_lookup {key : Digest × Nat} {offset : Nat} : ∀ {l : List ((Digest × Nat) × Nat)},
    l.lookup key = some offset → (key, offset) ∈ l := by
  intro l
  induction l with
  | nil => exact nofun
  | cons e l ih =>
    obtain ⟨k, v⟩ := e
    intro h
    rw [lookup_cons] at h
    split at h
    · rename_i hk
      cases h
      rw [eq_of_beq hk]
      exact mem_cons_self
    · exact mem_cons_of_mem _ (ih h)

end Shelf

/-! ## A writer holds a shelf -/

/-- What does not depend on how far the writer is with a blob. -/
structure Indexed (w : Writer) (s : Shelf) : Prop where
  aligned : Aligned w
  dedup : w.dedup = s.index
  sound : s.Sound
  offset : w.offset = w.out.content.length

/-- The image was written, and padding that the next blob would need anyway. -/
structure Holds (w : Writer) (s : Shelf) : Prop extends Indexed w s where
  content : ∃ k, w.out.content = s.image ++ Out.zeros k ∧ s.image.length + k ≤ s.stop w.align

variable {env : Env} {w w' : Writer} {s : Shelf} {c : List UInt8}

theorem zeros_add (m n : Nat) : Out.zeros m ++ Out.zeros n = Out.zeros (m + n) := by
  rw [Out.zeros, Out.zeros, Out.zeros, replicate_add]

theorem Holds.offset_le (h : Holds w s) : s.image.length ≤ w.offset ∧ w.offset ≤ s.stop w.align := by
  obtain ⟨k, hk, hle⟩ := h.content
  rw [h.offset, hk, length_append, length_zeros]
  exact ⟨Nat.le_add_right _ _, hle⟩

/-- The next blob goes where the shelf puts it. -/
theorem Holds.roundUp_offset (h : Holds w s) : roundUp w.offset w.align = s.stop w.align :=
  roundUp_between h.aligned.pos h.offset_le.1 h.offset_le.2

/-- What was written with the padding up to the next blob. -/
theorem Holds.padded (h : Holds w s) : w.out.content ++ Out.zeros (s.stop w.align - w.offset)
      = s.image ++ Out.zeros (s.stop w.align - s.image.length) := by
  obtain ⟨k, hk, hle⟩ := h.content
  have hoff : w.offset = s.image.length + k := by rw [h.offset, hk, length_append, length_zeros]
  rw [hk, append_assoc, zeros_add]
  congr 2
  omega

/-- A slice of the index is the same in all that was written. -/
theorem Shelf.Sound.slice {rest : List UInt8} {offset : Nat} (h : s.Sound)
    (hl : s.index.lookup (digestOf env c, c.length) = some offset) :
    Writing.slice (s.image ++ rest) offset c.length = Writing.slice s.image offset c.length :=
  slice_append (h _ (mem_of_lookup hl))

theorem Holds.congr (h : Holds w s) (hout : w'.out = w.out) (hoffset : w'.offset = w.offset)
    (halign : w'.align = w.align) (hdedup : w'.dedup = w.dedup) : Holds w' s where
  aligned := by
    obtain ⟨k, hk, hpow⟩ := h.aligned
    exact ⟨k, hk, halign.trans hpow⟩
  dedup := hdedup.trans h.dedup
  sound := h.sound
  offset := by rw [hoffset, hout, h.offset]
  content := by
    rw [hout, halign]
    exact h.content

/-- After the padding and its bytes, the content is at the end of the shelf. -/
theorem Holds.append (h : Holds w s) (hw : Wrote w w' (Out.zeros (s.stop w.align - w.offset) ++ c)) :
    Holds { w' with dedup := (s.append env w.align c).index } (s.append env w.align c) where
  aligned := by
    obtain ⟨k, hk, halign⟩ := h.aligned
    exact ⟨k, hk, hw.align.trans halign⟩
  dedup := rfl
  sound := h.sound.append h.aligned.pos
  offset := by
    change w'.offset = w'.out.content.length
    rw [hw.offset, hw.content, h.offset]
    exact length_append.symm
  content := by
    refine ⟨0, ?_, le_roundUp (hw.align ▸ h.aligned.pos)⟩
    change w'.out.content = _
    rw [hw.content, ← append_assoc, h.padded]
    exact (append_nil _).symm

theorem orInsert_eq (h : w.dedup = s.index) (align : Nat) :
    w.orInsert (digestOf env c, c.length) (s.stop align) = { w with dedup := (s.append env align c).index } := by
  unfold Writer.orInsert Shelf.append
  rw [h]
  cases s.index.lookup (digestOf env c, c.length) with
  | none => rfl
  | some _ => rw [← h]

/-- What placing a blob may change of a writer. -/
def Placed (w w' : Writer) : Prop := w' = { w with out := w'.out, offset := w'.offset, dedup := w'.dedup }

theorem shared_ends (h : Holds w s) (segments : List (Nat × List UInt8)) :
    Ends (Writer.shared (digestOf env (flat segments), (flat segments).length) segments w)
      (fun r w' => r = s.find env (flat segments) ∧ Wrote w w' []) (fun _ => True) := by
  obtain ⟨k, hk, -⟩ := h.content
  unfold Writer.shared Shelf.find
  refine Ends.bind (Ends.get ?_)
  rw [← h.dedup]
  cases hl : w.dedup.lookup (digestOf env (flat segments), (flat segments).length) with
  | none => exact ⟨rfl, rfl, (append_nil _).symm, rfl⟩
  | some offset =>
    refine Ends.bind ((segmentsEqual_ends offset segments).mono (fun same w' hw' => ?_) (fun _ h => h))
    refine Ends.pure ⟨?_, hw'.1⟩
    have hsame := hw'.2
    rw [hk, h.sound.slice (by rw [← h.dedup]; exact hl)] at hsame
    rw [Option.filter_some]
    cases same with
    | true => rw [if_pos rfl, if_pos (decide_eq_true (hsame.mp rfl))]
    | false =>
      rw [if_neg Bool.false_ne_true, if_neg]
      rw [decide_eq_true_eq]
      exact fun he => nomatch hsame.mpr he

/-- **Segments are placed as the shelf places their bytes.** -/
theorem writeOrShareSegments_ends (h : Holds w s) (segments : List (Nat × List UInt8)) (blocks : Option Nat) :
    Ends (Writer.writeOrShareSegments env segments blocks w)
      (fun r w' => r.1 = (s.place env w.align (flat segments)).1 ∧ r.2.1 = digestOf env (flat segments)
        ∧ r.2.2 = blocksOf env blocks (flat segments) ∧ Placed w w' ∧ Holds w' (s.place env w.align (flat segments)).2)
      (fun _ => True) := by
  unfold Writer.writeOrShareSegments
  refine Ends.bind (Ends.lift (fun r hr => ?_) (fun _ _ => trivial))
  obtain ⟨hasher, length⟩ := r
  rw [hashed_new env blocks] at hr
  obtain ⟨rfl, hlength⟩ := hashSegments_eq_ok (fun _ => rfl) hr
  obtain rfl : length = (flat segments).length := hlength.trans (zero_add _)
  rw [nil_append]
  dsimp only
  rw [finish_hashed]
  refine Ends.bind ((shared_ends h segments).mono (fun r w₁ hr => ?_) (fun _ h => h))
  obtain ⟨rfl, hw₁⟩ := hr
  unfold Shelf.place
  have h₁ : Holds w₁ s := by
    have hc : w₁.out.content = w.out.content := hw₁.content.trans (append_nil _)
    refine ⟨⟨?_, hw₁.dedup.trans h.dedup, h.sound, ?_⟩, ?_⟩
    · obtain ⟨k, hk, halign⟩ := h.aligned
      exact ⟨k, hk, hw₁.align.trans halign⟩
    · rw [hw₁.offset, hc]
      exact h.offset
    · rw [hc, hw₁.align]
      exact h.content
  cases hf : s.find env (flat segments) with
  | some offset =>
    refine ⟨rfl, rfl, rfl, ?_, h₁⟩
    unfold Placed
    rw [hw₁.frame]
  | none =>
    refine Ends.bind ((reserveBlob_ends h₁.aligned).mono (fun target w₂ h₂ => ?_) (fun _ h => h))
    obtain ⟨htarget, h₂⟩ := h₂
    refine Ends.bind (writeSegments_ends.mono (fun _ w₃ h₃ => ?_) (fun _ h => h))
    rw [h₁.roundUp_offset] at htarget
    subst htarget
    have hall := h₂.trans h₃
    have hholds := @Holds.append env _ _ _ _ h₁ hall
    refine ⟨by rw [hw₁.align], rfl, rfl, ?_, ?_⟩
    · change Placed w (w₃.orInsert _ _)
      rw [orInsert_eq (hall.dedup.trans h₁.dedup)]
      unfold Placed
      rw [hall.frame, hw₁.frame]
    · change Holds (w₃.orInsert _ _) _
      rw [orInsert_eq (hall.dedup.trans h₁.dedup), ← hw₁.align]
      exact hholds

end Pie.Proof.Shelves
