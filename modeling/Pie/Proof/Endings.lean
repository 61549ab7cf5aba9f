import Pie.Proof.Tracks

/-!
# From opening to closing

A new writer keeps the book of nothing, and so does one that goes on at the end
of a file. A writer that finishes leaves a file that is its shelf, the manifest
where the next blob would be, and the footer that says so.
-/

namespace Pie.Proof.Endings

open List Std Lib Lib.Words Lib.Effects Ztensor Planes Writing Shelves Sinks Tracks Writer

variable {env : Env} {w : Writer} {s : Shelf} {o : Options} {accesses : List Access}

/-! ## Opening -/

theorem sound_of_nil {image : List UInt8} : Shelf.Sound ⟨image, []⟩ := fun e he => (nomatch he)

theorem checkAlignment_eq_ok {align : Nat} (h : checkAlignment align = .ok ⟨⟩) (hword : align < WORD) :
    ALIGN_FLOOR ≤ align ∧ ∃ k ≤ 63, align = 2 ^ k := by
  unfold checkAlignment at h
  split at h
  · cases h
  · rename_i hok
    rw [not_or, not_not, Nat.not_lt, isPowerOfTwo, decide_eq_true_iff] at hok
    refine ⟨hok.2, align.log2, ?_, hok.1⟩
    have hne : align ≠ 0 := fun h0 => by
      have := hok.2
      rw [h0] at this
      exact absurd this (by decide)
    exact Nat.le_of_lt_succ ((Nat.log2_lt hne).mpr hword)

/-- What an alignment is. -/
structure Spaced (w : Writer) : Prop where
  floor : ALIGN_FLOOR ≤ w.align
  power : Aligned w

theorem build_ends (hword : ∀ a, o.align = some a → a < WORD) (h : o.build accesses = .ok w) :
    ∃ out align, w = ⟨out, MAGIC.length, align, o.canonical, o.blocks, .new, [], none, none, false⟩ ∧
      out.content = MAGIC ∧ Spaced w ∧ (o.canonical = true → align = ALIGN_CANONICAL ∧ o.blocks = none) ∧
      (o.align = some align ∨ o.align = none ∧ align = ALIGN_CANONICAL) ∧ o.blocks ≠ some 0 := by
  unfold Options.build at h
  obtain ⟨align, halign, h⟩ := Fallible.bind_eq_ok.mp h
  obtain ⟨hcanonical, h⟩ := check_eq_ok.mp h
  obtain ⟨hblocks, h⟩ := check_eq_ok.mp h
  have hpower : (ALIGN_FLOOR ≤ align ∧ ∃ k ≤ 63, align = 2 ^ k) ∧ (o.canonical = true → align = ALIGN_CANONICAL) ∧
      (o.align = some align ∨ o.align = none ∧ align = ALIGN_CANONICAL) := by
    have hdefault : ALIGN_FLOOR ≤ ALIGN_CANONICAL ∧ ∃ k ≤ 63, ALIGN_CANONICAL = 2 ^ k := ⟨by decide, 16, by decide, by decide⟩
    cases hc : o.canonical with
    | true =>
      cases ha : o.align with
      | none =>
        rw [hc, ha] at halign
        cases halign
        exact ⟨hdefault, fun _ => rfl, .inr ⟨rfl, rfl⟩⟩
      | some a =>
        rw [hc, ha] at halign
        dsimp only at halign
        split at halign
        · rename_i hcan
          cases halign
          exact ⟨hdefault, fun _ => rfl, .inl (congrArg some hcan)⟩
        · cases halign
    | false =>
      cases ha : o.align with
      | none =>
        rw [hc, ha] at halign
        cases halign
        exact ⟨hdefault, nofun, .inr ⟨rfl, rfl⟩⟩
      | some a =>
        rw [hc, ha] at halign
        obtain ⟨⟨⟩, hcheck, halign⟩ := Fallible.bind_eq_ok.mp halign
        cases halign
        exact ⟨checkAlignment_eq_ok hcheck (hword _ ha), nofun, .inl rfl⟩
  have hmagic := @write_ends ⟨[], [], accesses⟩ MAGIC
  cases hw : Out.write MAGIC ⟨[], [], accesses⟩ with
  | error e out => rw [hw] at h; cases h
  | ok u out =>
    rw [hw] at h hmagic
    cases h
    refine ⟨out, align, rfl, hmagic, ⟨hpower.1.1, hpower.1.2⟩, fun hc => ⟨hpower.2.1 hc, ?_⟩, hpower.2.2, hblocks⟩
    cases hb : o.blocks with
    | none => rfl
    | some _ => exact absurd ⟨hc, by rw [hb]; rfl⟩ hcanonical

theorem build_holds (hword : ∀ a, o.align = some a → a < WORD) (h : o.build accesses = .ok w) : Holds w Shelf.new := by
  obtain ⟨out, align, rfl, hcontent, hspaced, -⟩ := build_ends hword h
  refine ⟨⟨hspaced.power, rfl, sound_of_nil, (congrArg length hcontent).symm⟩, 0, ?_, le_roundUp hspaced.power.pos⟩
  exact hcontent.trans (append_nil _).symm

/-- Nothing is open, and nothing was given yet. -/
theorem start_kept (h : Holds w s) (hsink : w.openSink = none) (hlast : w.lastName = none)
    (hshards : w.canonical = true → w.manifest.shards = ∅) :
    Tracks.Kept env w s (Session.new w) [] w.manifest.attributes none where
  attributes := rfl
  align := rfl
  blocks := rfl
  canonical := rfl
  shards := hshards
  objects := rfl
  last := hlast
  tidy := ⟨fun n hn => (nomatch hn), fun n hn => (nomatch hn), .nil⟩
  checked := fun g hg => (nomatch hg)
  between := ⟨rfl, hsink, h⟩

/-! ## Closing -/

/-- A shelf with its manifest and its footer. -/
def fileOf (env : Env) (s : Shelf) (align : Nat) (manifest : List UInt8) : List UInt8 :=
  s.image ++ Out.zeros (s.stop align - s.image.length) ++ (manifest ++ Writer.footer env (s.stop align) manifest)

theorem writeBytes_word (data : List UInt8) :
    Ends (writeBytes data w) (fun _ w' => Wrote w w' data ∧ w'.offset < WORD) (fun _ => True) := by
  unfold writeBytes
  refine Ends.bind (onOut_ends ((write_ends data).mono (fun _ o h => ?_) (fun _ h => h)))
  refine Ends.bind (Ends.get ?_)
  refine Ends.ite (fun hlt => Ends.set ⟨⟨rfl, h, rfl⟩, hlt⟩) (fun _ => trivial)

theorem ofCbor_eq_ok {α : Type} {x : Except (Stop Cbor.Error) α} {a : α} : Result.ofCbor x = .ok a ↔ x = .ok a := by
  cases x with
  | ok b => exact ⟨fun h => congrArg _ (Except.ok.inj h), fun h => congrArg _ (Except.ok.inj h)⟩
  | error stop => cases stop <;> exact ⟨nofun, nofun⟩

/-- **A writer that finishes leaves its shelf, its manifest and a footer.** -/
theorem finish_ends (h : Holds w s) :
    Ends (finish env w) (fun n w' => w.openSink = none ∧ w'.manifest = w.manifest ∧ ∃ manifest,
      Cbor.encode w.manifest.toValue = .ok manifest ∧ manifest.length ≤ MAX_MANIFEST_LEN ∧
        w'.out.file = fileOf env s w.align manifest ∧ n = w'.out.file.length ∧ n < WORD) (fun _ => True) := by
  unfold Writer.finish
  refine Ends.bind (Ends.get ?_)
  refine Ends.ite (fun _ => Ends.bind trivial) (fun hopen => ?_)
  refine Ends.bind (Ends.lift (fun manifest hmanifest => ?_) (fun _ _ => trivial))
  refine Ends.ite (fun _ => Ends.bind trivial) (fun hlen => ?_)
  refine Ends.bind (Ends.lift (fun target htarget => ?_) (fun _ _ => trivial))
  have htarget := alignedOffset_eq_ok h.aligned htarget
  rw [h.roundUp_offset] at htarget
  subst htarget
  refine Ends.bind ((padTo_ends h.offset_le.2).mono (fun _ w₁ hw₁ => ?_) (fun _ h => h))
  refine Ends.bind ((writeBytes_ends manifest).mono (fun _ w₂ hw₂ => ?_) (fun _ h => h))
  refine Ends.bind ((writeBytes_word _).mono (fun _ w₃ hw₃ => ?_) (fun _ h => h))
  obtain ⟨hw₃, hword⟩ := hw₃
  have hall := (hw₁.trans hw₂).trans hw₃
  refine Ends.bind (onOut_ends (intoInner_ends.mono (fun _ out hout => ?_) (fun _ h => h)))
  refine Ends.bind (Ends.get (Ends.pure ?_))
  have hfile : out.file = w₃.out.content := by
    rw [← hout.1, Out.content, hout.2]
    exact (append_nil _).symm
  have hcontent : w₃.out.content = fileOf env s w.align manifest := by
    rw [hall.content, fileOf, ← h.padded]
    simp only [append_assoc]
  refine ⟨Option.not_isSome_iff_eq_none.mp hopen, ?_, manifest, ?_, Nat.not_lt.mp hlen, hfile.trans hcontent, ?_, hword⟩
  · rw [hall.frame]
  · exact ofCbor_eq_ok.mp hmanifest
  · change w₃.offset = out.file.length
    rw [hfile, hall.offset, hall.content]
    simp only [length_append, h.offset]

/-! ## The footer -/

theorem footerField_append {before field after : List UInt8} :
    footerField (before ++ (field ++ after)) before.length field.length = field := by
  unfold footerField
  rw [drop_left, take_left]

theorem footer_length (offset : Nat) (manifest : List UInt8) : (footer env offset manifest).length = FOOTER_LEN := by
  unfold footer
  simp only [length_append, toLe_length, length_zeros]
  rfl

/-- **The footer is read as it was written.** -/
theorem parseFooter_footer {offset : Nat} {manifest : List UInt8} (hoffset : offset < WORD)
    (haligned : ALIGN_FLOOR ∣ offset) (hfloor : ALIGN_FLOOR ≤ offset) (hpos : 0 < manifest.length)
    (hlength : manifest.length ≤ MAX_MANIFEST_LEN) : parseFooter (footer env offset manifest) =
      .ok (some ⟨offset, manifest.length, env.xxh3 manifest⟩) := by
  have hmax : MAX_MANIFEST_LEN < 256 ^ 8 := by decide
  have hword : WORD = 256 ^ 8 := by decide
  have hassoc : footer env offset manifest = toLe 8 offset ++ (toLe 8 manifest.length ++
      (toLe 8 (env.xxh3 manifest).toNat ++ (toLe 4 VERSION ++ Out.zeros 4 ++ MAGIC))) := by
    unfold footer
    simp only [append_assoc]
  have hfirst : footerField (footer env offset manifest) 0 8 = toLe 8 offset := by
    have h := @footerField_append [] (toLe 8 offset)
    rw [hassoc]
    rw [toLe_length] at h
    exact h
  have hsecond : footerField (footer env offset manifest) 8 8 = toLe 8 manifest.length := by
    have h := @footerField_append (toLe 8 offset) (toLe 8 manifest.length)
    rw [hassoc]
    rw [toLe_length, toLe_length] at h
    exact h
  have hthird : footerField (footer env offset manifest) 16 8 = toLe 8 (env.xxh3 manifest).toNat := by
    have h := @footerField_append (toLe 8 offset ++ toLe 8 manifest.length) (toLe 8 (env.xxh3 manifest).toNat)
    rw [hassoc, ← append_assoc]
    rw [toLe_length, length_append, toLe_length, toLe_length] at h
    exact h
  unfold parseFooter
  dsimp only
  rw [hword] at hoffset
  rw [hfirst, hsecond, hthird, ofLe_toLe (Nat.lt_of_le_of_lt hlength hmax), ofLe_toLe hoffset,
    ofLe_toLe (env.xxh3 manifest).isLt, BitVec.ofNat_toNat, BitVec.setWidth_eq, if_neg (ne_of_gt hpos),
    if_neg (Nat.not_lt.mpr hlength), if_neg]
  rintro (h | h)
  · exact h (Nat.mod_eq_zero_of_dvd haligned)
  · omega

theorem fileOf_length (ha : 0 < w.align) (manifest : List UInt8) :
    (fileOf env s w.align manifest).length = s.stop w.align + manifest.length + FOOTER_LEN := by
  have hle : s.image.length ≤ s.stop w.align := le_roundUp ha
  unfold fileOf
  simp only [length_append, length_zeros, footer_length]
  omega

theorem fileOf_footer (ha : 0 < w.align) (manifest : List UInt8) :
    (fileOf env s w.align manifest).drop ((fileOf env s w.align manifest).length - FOOTER_LEN) =
      footer env (s.stop w.align) manifest := by
  have hlen := @fileOf_length env w s ha manifest
  rw [hlen, Nat.add_sub_cancel]
  unfold fileOf
  rw [← append_assoc]
  refine drop_left' ?_
  have hle : s.image.length ≤ s.stop w.align := le_roundUp ha
  simp only [length_append, length_zeros]
  omega

end Pie.Proof.Endings
