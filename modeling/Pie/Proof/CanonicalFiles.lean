import Pie.Proof.Buffered
import Pie.Proof.Records

/-!
# Canonical files and their check

The check goes through the objects of a manifest again, with a cursor, the
offsets it has seen and the contents it has seen. As long as no content that is
new comes after one without bytes it follows the shelf of the writer step by
step. The first that does goes where the one without bytes is, and is refused.
-/

namespace Pie.Proof.CanonicalFiles

open Std Lib Lib.Words Lib.Effects Ztensor Planes Writing Shelves Sinks Tracks Endings Buffered Shelf

variable {offset : Nat} {c₁ c₂ c' : List UInt8} {object : Object}

variable {env : Env} {s : Shelf} {before cs : List (List UInt8)} {c : List UInt8} {align : Nat}

/-! ## Contents -/

/-- A content after one without bytes is not new, unless it has none itself. -/
def Fine (before : List (List UInt8)) (c : List UInt8) : Prop := [] ∈ before → c = [] ∨ c ∈ before

/-- No content with bytes that differ from all before it comes after one without bytes. -/
def Clean (cs : List (List UInt8)) : Prop := ∀ before c after, cs = before ++ c :: after → Fine before c

theorem clean_nil : Clean [] := fun before c after h => by simp at h

theorem clean_concat : Clean (cs ++ [c]) ↔ Clean cs ∧ Fine cs c := by
  constructor
  · refine fun h => ⟨fun before c' after hcs => h before c' (after ++ [c]) (by rw [hcs]; simp), h cs c [] rfl⟩
  · rintro ⟨hcs, hc⟩ before c' after heq
    rcases List.eq_nil_or_concat after with rfl | ⟨after, last, rfl⟩
    · obtain ⟨rfl, hlast⟩ := List.append_inj' heq rfl
      rw [← List.cons.inj hlast |>.1]
      exact hc
    · rw [List.concat_eq_append, ← List.cons_append, ← List.append_assoc] at heq
      exact hcs before c' after (List.append_inj' heq rfl).1

/-- Contents of one length with one hash are the same. -/
def Apart (env : Env) (cs : List (List UInt8)) : Prop :=
  ∀ c ∈ cs, ∀ c' ∈ cs, c.length = c'.length → env.xxh3 c = env.xxh3 c' → c = c'

theorem xxh3_of_digest {c c' : List UInt8} (h : (digestOf env c).value = (digestOf env c').value) :
    env.xxh3 c = env.xxh3 c' := by
  have hlt : ∀ x : BitVec 64, x.toNat < 256 ^ 8 := fun x => x.isLt
  have hvalue : Ztensor.Cbor.toBe 8 (env.xxh3 c).toNat = Ztensor.Cbor.toBe 8 (env.xxh3 c').toNat := h
  have hnat := congrArg Ztensor.Cbor.ofBe hvalue
  rw [Cbor.ofBe_toBe (hlt _), Cbor.ofBe_toBe (hlt _)] at hnat
  exact BitVec.eq_of_toNat_eq hnat

/-- The shelf holds exactly these contents. -/
structure Shelved (env : Env) (before : List (List UInt8)) (s : Shelf) : Prop where
  known : ∀ c ∈ before, ∃ offset, s.find env c = some offset
  index : ∀ e ∈ s.index, ∃ c ∈ before, e.1 = (digestOf env c, c.length)
  sound : s.Sound

theorem find_eq_some : s.find env c = some offset ↔
    s.index.lookup (digestOf env c, c.length) = some offset ∧ slice s.image offset c.length = c := by
  unfold Shelf.find
  rw [Option.filter_eq_some_iff, decide_eq_true_iff]

namespace Shelved

section

variable (h : Shelved env before s)
include h

theorem key_mem (hapart : Apart env (before ++ [c]))
    (hl : s.index.lookup (digestOf env c, c.length) = some offset) : c ∈ before := by
  obtain ⟨c', hc', he⟩ := h.index _ (mem_of_lookup hl)
  obtain ⟨hdigest, hlength⟩ := Prod.mk.inj he
  have hsame := hapart c (List.mem_append_right _ (List.mem_singleton_self c)) c' (List.mem_append_left _ hc') hlength
    (xxh3_of_digest (congrArg Digest.value hdigest))
  rw [hsame]
  exact hc'

theorem lookup_none (hapart : Apart env (before ++ [c])) (hc : c ∉ before) :
    s.index.lookup (digestOf env c, c.length) = none := by
  cases hl : s.index.lookup (digestOf env c, c.length) with
  | none => rfl
  | some offset => exact absurd (h.key_mem hapart hl) hc

theorem find_none (hapart : Apart env (before ++ [c])) (hc : c ∉ before) :
    s.find env c = none := by
  unfold Shelf.find
  rw [h.lookup_none hapart hc]
  rfl

theorem find_append (hf : s.find env c' = some offset) :
    (s.append env align c).find env c' = some offset := by
  obtain ⟨hl, hslice⟩ := find_eq_some.mp hf
  refine find_eq_some.mpr ⟨?_, ?_⟩
  · unfold append
    cases hkey : s.index.lookup (digestOf env c, c.length) with
    | some _ => exact hl
    | none =>
      dsimp only
      rw [List.lookup_cons]
      split
      · rename_i heq
        rw [eq_of_beq heq, hkey] at hl
        cases hl
      · exact hl
  · unfold append
    dsimp only
    rw [List.append_assoc, h.sound.slice hl]
    exact hslice

theorem append (ha : 0 < align) (hapart : Apart env (before ++ [c])) (hc : c ∉ before) :
    Shelved env (before ++ [c]) (s.append env align c) ∧ (s.append env align c).find env c = some (s.stop align) := by
  have hnone := h.lookup_none hapart hc
  have hindex : (s.append env align c).index = ((digestOf env c, c.length), s.stop align) :: s.index := by
    unfold Shelf.append
    rw [hnone]
  have hself : (s.append env align c).find env c = some (s.stop align) := by
    refine find_eq_some.mpr ⟨?_, ?_⟩
    · rw [hindex, List.lookup_cons_self]
    · have hle : s.image.length ≤ s.stop align := le_roundUp ha
      have hfront : (s.image ++ Out.zeros (s.stop align - s.image.length)).length = s.stop align := by
        rw [List.length_append, length_zeros]
        omega
      unfold slice Shelf.append
      dsimp only
      rw [List.drop_left' hfront, List.take_length]
  refine ⟨⟨fun c' hc' => ?_, fun e he => ?_, h.sound.append ha⟩, hself⟩
  · rcases List.mem_append.mp hc' with hc' | hc'
    · obtain ⟨offset, hoffset⟩ := h.known c' hc'
      exact ⟨offset, h.find_append hoffset⟩
    · rw [List.mem_singleton.mp hc']
      exact ⟨_, hself⟩
  · rw [hindex] at he
    rcases List.mem_cons.mp he with rfl | he
    · exact ⟨c, List.mem_append_right _ (List.mem_singleton_self c), rfl⟩
    · obtain ⟨c', hc', heq⟩ := h.index e he
      exact ⟨c', List.mem_append_left _ hc', heq⟩

theorem stay (hc : c ∈ before) : Shelved env (before ++ [c]) s where
  known := by
    intro c' hc'
    rcases List.mem_append.mp hc' with hc' | hc'
    · exact h.known c' hc'
    · rw [List.mem_singleton.mp hc']
      exact h.known c hc
  index := fun e he => by
    obtain ⟨c', hc', heq⟩ := h.index e he
    exact ⟨c', List.mem_append_left _ hc', heq⟩
  sound := h.sound

theorem place (ha : 0 < align) (hapart : Apart env (before ++ [c])) :
    Shelved env (before ++ [c]) (s.place env align c).2 := by
  unfold Shelf.place
  by_cases hc : c ∈ before
  · obtain ⟨offset, hoffset⟩ := h.known c hc
    rw [hoffset]
    exact h.stay hc
  · rw [h.find_none hapart hc]
    exact (h.append ha hapart hc).1

end

end Shelved

/-! ## The sweep -/

/-- Up to an aligned place that is a word, rounding up does not overflow. -/
theorem alignUp_word {n stop : Nat} (h : n ≤ stop) (haligned : 2 ^ 16 ∣ stop) (hword : stop < WORD) :
    n + (2 ^ 16 - 1) < WORD := by
  unfold WORD at hword ⊢
  omega

/-- A blob of a file without blocks violates nothing by itself. -/
theorem blobViolations_blobOf (label : Part) (offset : Nat) : blobViolations label (blobOf env none offset c) = [] := by
  have halgorithm : ¬ ((digestOf env c).algorithm ≠ Str.lit "xxh3") := fun hne => hne rfl
  unfold blobViolations blobOf
  dsimp only
  rw [if_neg halgorithm]
  rfl

/-- **What the check knows** after these contents: where each lies, and that nothing was wrong so far. -/
structure Swept (env : Env) (before : List (List UInt8)) (s : Shelf) (bad : List Message) (t : Sweep) : Prop where
  bad : t.bad = bad
  going : t.stopped = false
  cursor : t.cursor = s.image.length
  bounded : ∀ e ∈ t.placed, e.1 + e.2 ≤ s.image.length
  empty : ∀ e ∈ t.placed, e.2 = 0 → [] ∈ before
  placed : ∀ c ∈ before, ∀ offset, s.find env c = some offset → t.placed.lookup offset = some c.length
  contents : ∀ e ∈ t.byContent, ∃ c ∈ before, e.1 = ((digestOf env c).value, c.length)
  stop : [] ∈ before → s.stop ALIGN_CANONICAL = s.image.length ∧ t.placed.lookup s.image.length = some 0

theorem mem_of_lookup {β γ : Type} [BEq β] [LawfulBEq β] {key : β} {v : γ} : ∀ {l : List (β × γ)},
    l.lookup key = some v → (key, v) ∈ l := by
  intro l
  induction l with
  | nil => exact nofun
  | cons e l ih =>
    obtain ⟨k, u⟩ := e
    intro h
    rw [List.lookup_cons] at h
    split at h
    · rename_i hk
      cases h
      rw [eq_of_beq hk]
      exact List.mem_cons_self
    · exact List.mem_cons_of_mem _ (ih h)

namespace Swept

variable {bad : List Message} {t : Sweep} {name : Str} {g : Given}

theorem lookup_none (h : Swept env before s bad t) (hempty : [] ∉ before) (hoffset : s.image.length ≤ offset) :
    t.placed.lookup offset = none := by
  cases hl : t.placed.lookup offset with
  | none => rfl
  | some len =>
    have hmem := mem_of_lookup hl
    have hle : offset + len ≤ s.image.length := h.bounded _ hmem
    have hlen : len = 0 := by omega
    exact absurd (h.empty _ hmem hlen) hempty

theorem content_none (h : Swept env before s bad t) (hapart : Apart env (before ++ [c])) (hc : c ∉ before) :
    t.byContent.lookup ((digestOf env c).value, c.length) = none := by
  cases hl : t.byContent.lookup ((digestOf env c).value, c.length) with
  | none => rfl
  | some first =>
    obtain ⟨c', hc', he⟩ := h.contents _ (mem_of_lookup hl)
    obtain ⟨hvalue, hlength⟩ := Prod.mk.inj he
    have hsame := hapart c (List.mem_append_right _ (List.mem_singleton_self c)) c' (List.mem_append_left _ hc') hlength
      (xxh3_of_digest hvalue)
    exact absurd (hsame ▸ hc') hc

theorem step_taken {offset len : Nat} (hgoing : t.stopped = false)
    (hblob : object.blob = blobOf env none offset c) (hl : t.placed.lookup offset = some len) :
    t.step name object = if len ≠ c.length then { t with bad := t.bad ++ [[.lit "rule 3: ", .debug name.bytes,
      .lit " shares offset ", .num offset, .lit " with a blob of a different length"]] } else t := by
  have hviolations (label : Part) : blobViolations label object.blob = [] := by
    rw [hblob, blobViolations_blobOf]
  have hlocal : ¬ (object.blob.shard.isSome = true) := by rw [hblob]; exact Bool.false_ne_true
  have hoffset : object.blob.offset = offset := by rw [hblob]; rfl
  have hlength : object.blob.length = c.length := by rw [hblob]; rfl
  unfold Sweep.step
  rw [hgoing, if_neg Bool.false_ne_true]
  dsimp only
  rw [hviolations, List.append_nil, if_neg hlocal, hoffset, hl]
  dsimp only
  rw [hlength, ← hgoing]

/-- An object whose place is free and where it is expected, with a content that was not seen. -/
theorem step_free (hgoing : t.stopped = false)
    (hblob : object.blob = blobOf env none offset c) (hl : t.placed.lookup offset = none)
    (hcontent : t.byContent.lookup ((digestOf env c).value, c.length) = none)
    (hnext : alignUp t.cursor ALIGN_CANONICAL = some offset) (haligned : ALIGN_CANONICAL ∣ offset) :
    t.step name object = ⟨t.bad, offset + c.length, (offset, c.length) :: t.placed,
      (((digestOf env c).value, c.length), offset) :: t.byContent, false⟩ := by
  have hviolations (label : Part) : blobViolations label object.blob = [] := by
    rw [hblob, blobViolations_blobOf]
  have hlocal : ¬ (object.blob.shard.isSome = true) := by rw [hblob]; exact Bool.false_ne_true
  have hoffset : object.blob.offset = offset := by rw [hblob]; rfl
  have hlength : object.blob.length = c.length := by rw [hblob]; rfl
  have hrecord : recordContent t.byContent object.blob = (((digestOf env c).value, c.length), offset) :: t.byContent := by
    rw [hblob]
    unfold recordContent
    dsimp only [blobOf]
    rw [hcontent]
  have hnew (label : Part) : repeated t label object.blob = [] := by
    rw [hblob]
    unfold repeated
    dsimp only [blobOf]
    rw [hcontent]
  have hright (label : Part) : placeViolations label offset offset = [] := by
    unfold placeViolations
    rw [if_neg (fun hne => hne (Nat.mod_eq_zero_of_dvd haligned)), if_neg (lt_irrefl _), if_neg (lt_irrefl _)]
  unfold Sweep.step
  -- the sum in `alignUp` is not to be computed
  rw [hgoing, if_neg Bool.false_ne_true, hnext]
  dsimp only
  rw [hviolations, List.append_nil, if_neg hlocal, hoffset, hl]
  dsimp only
  rw [hnew, hrecord, List.append_nil, hright, List.append_nil, hlength]

section

variable (h : Swept env before s bad t) (hheld : Shelved env before s)
include h hheld

/-- A content that is known is shared, and the check finds it. -/
theorem known (hc : c ∈ before) (hcontent : g.content = c) :
    Swept env (before ++ [c]) (s.place env ALIGN_CANONICAL c).2 bad
      (t.step name (g.object (blobOf env none (s.place env ALIGN_CANONICAL c).1 c))) := by
  subst hcontent
  obtain ⟨offset, hoffset⟩ := hheld.known _ hc
  have hplace : s.place env ALIGN_CANONICAL g.content = (offset, s) := by
    unfold place
    rw [hoffset]
  have hstep : t.step name (g.object (blobOf env none offset g.content)) = t := by
    rw [step_taken h.going rfl (h.placed _ hc _ hoffset), if_neg (not_not.mpr rfl)]
  rw [hplace]
  dsimp only
  rw [hstep]
  have hmem : ∀ c', c' ∈ before ++ [g.content] → c' ∈ before := by
    intro c' hc'
    rcases List.mem_append.mp hc' with hc' | hc'
    · exact hc'
    · rw [List.mem_singleton.mp hc']
      exact hc
  exact ⟨h.bad, h.going, h.cursor, h.bounded, fun e he h0 => List.mem_append_left _ (h.empty e he h0),
    fun c' hc' => h.placed c' (hmem c' hc'),
    fun e he => by
      obtain ⟨c', hc', heq⟩ := h.contents e he
      exact ⟨c', List.mem_append_left _ hc', heq⟩,
    fun hempty => h.stop (hmem _ hempty)⟩

/-- A content that is new, with none before it that has no bytes, goes where the check expects it. -/
theorem new (hapart : Apart env (before ++ [c]))
    (hc : c ∉ before) (hempty : [] ∉ before) (hword : s.stop ALIGN_CANONICAL < WORD) (hcontent : g.content = c) :
    Swept env (before ++ [c]) (s.place env ALIGN_CANONICAL c).2 bad
      (t.step name (g.object (blobOf env none (s.place env ALIGN_CANONICAL c).1 c))) := by
  subst hcontent
  have hpos : 0 < ALIGN_CANONICAL := by decide
  have hle : s.image.length ≤ s.stop ALIGN_CANONICAL := le_roundUp hpos
  have hfree := h.lookup_none hempty hle
  have hplace : s.place env ALIGN_CANONICAL g.content = (s.stop ALIGN_CANONICAL, s.append env ALIGN_CANONICAL g.content) := by
    unfold place
    rw [hheld.find_none hapart hc]
  obtain ⟨hheld', hself⟩ := hheld.append hpos hapart hc
  have hnext : alignUp t.cursor ALIGN_CANONICAL = some (s.stop ALIGN_CANONICAL) := by
    rw [h.cursor]
    exact (@alignUp_eq_some _ 16 _ (by decide)).mpr ⟨alignUp_word hle (dvd_roundUp _ _) hword, rfl⟩
  have hlength : (s.append env ALIGN_CANONICAL g.content).image.length = s.stop ALIGN_CANONICAL + g.content.length :=
    length_append hpos
  have hstep : t.step name (g.object (blobOf env none (s.stop ALIGN_CANONICAL) g.content)) =
      ⟨t.bad, s.stop ALIGN_CANONICAL + g.content.length, (s.stop ALIGN_CANONICAL, g.content.length) :: t.placed,
        (((digestOf env g.content).value, g.content.length), s.stop ALIGN_CANONICAL) :: t.byContent, false⟩ :=
    step_free h.going rfl hfree (h.content_none hapart hc) hnext (dvd_roundUp _ _)
  rw [hplace]
  dsimp only
  rw [hstep]
  refine ⟨h.bad, rfl, hlength.symm, fun e he => ?_, fun e he h0 => ?_, fun c' hc' offset hoffset => ?_, fun e he => ?_,
    fun hmem => ?_⟩
  · rw [hlength]
    rcases List.mem_cons.mp he with rfl | he
    · exact le_rfl
    · have := h.bounded e he
      omega
  · rcases List.mem_cons.mp he with rfl | he
    · rw [List.length_eq_zero_iff.mp h0]
      exact List.mem_append_right _ (List.mem_singleton_self _)
    · exact List.mem_append_left _ (h.empty e he h0)
  · rcases List.mem_append.mp hc' with hc' | hc'
    · obtain ⟨offset', hoffset'⟩ := hheld.known c' hc'
      obtain rfl := Option.some.inj ((hheld.find_append hoffset').symm.trans hoffset)
      have hlookup := h.placed c' hc' offset' hoffset'
      rw [List.lookup_cons]
      split
      · rename_i heq
        rw [eq_of_beq heq, hfree] at hlookup
        cases hlookup
      · exact hlookup
    · obtain rfl := List.mem_singleton.mp hc'
      cases hself.symm.trans hoffset
      exact List.lookup_cons_self
  · rcases List.mem_cons.mp he with rfl | he
    · exact ⟨g.content, List.mem_append_right _ (List.mem_singleton_self _), rfl⟩
    · obtain ⟨c', hc', heq⟩ := h.contents e he
      exact ⟨c', List.mem_append_left _ hc', heq⟩
  · have hnil : g.content = [] := by
      rcases List.mem_append.mp hmem with hmem | hmem
      · exact absurd hmem hempty
      · exact (List.mem_singleton.mp hmem).symm
    have hend : (s.append env ALIGN_CANONICAL g.content).image.length = s.stop ALIGN_CANONICAL := by
      rw [hlength, hnil]
      exact add_zero _
    refine ⟨?_, ?_⟩
    · unfold Shelf.stop
      rw [hend]
      exact roundUp_self hpos (dvd_roundUp _ _)
    · rw [hend, List.lookup_cons_self, hnil]
      rfl

/-- The first content that is new after one without bytes shares its place, and the check says so. -/
theorem refused (hapart : Apart env (before ++ [c]))
    (hfine : ¬ Fine before c) (hcontent : g.content = c) :
    bad.length < (t.step name (g.object (blobOf env none (s.place env ALIGN_CANONICAL c).1 c))).bad.length := by
  subst hcontent
  unfold Fine at hfine
  rw [Classical.not_imp, not_or] at hfine
  obtain ⟨hempty, hne, hc⟩ := hfine
  obtain ⟨hstop, hlookup⟩ := h.stop hempty
  have hplace : (s.place env ALIGN_CANONICAL g.content).1 = s.image.length := by
    unfold place
    rw [hheld.find_none hapart hc]
    exact hstop
  rw [hplace]
  rw [step_taken h.going rfl hlookup, if_pos (fun h0 => hne (List.length_eq_zero_iff.mp h0.symm)), h.bad,
    List.length_append, List.length_singleton]
  exact Nat.lt_succ_self _

end

end Swept

theorem step_bad (t : Sweep) (name : Str) (object : Object) : t.bad.length ≤ (t.step name object).bad.length := by
  obtain ⟨next, hnext⟩ : ∃ next, alignUp t.cursor ALIGN_CANONICAL = next := ⟨_, rfl⟩
  unfold Sweep.step
  rw [hnext]
  split
  · exact le_rfl
  · dsimp only
    split
    · rw [List.length_append]
      omega
    · split
      · split <;> simp only [List.length_append] <;> omega
      · split <;> simp only [List.length_append] <;> omega

/-! ## The book -/

variable {w₀ : Writer} {gs : List Given} {bad : List Message}

theorem le_place (ha : 0 < align) : s.image.length ≤ (s.place env align c).2.image.length := by
  unfold place
  split
  · exact le_rfl
  · rw [length_append ha]
    exact Nat.le_trans (le_roundUp ha) (Nat.le_add_right _ _)

theorem stop_le_place (ha : 0 < align) : s.stop align ≤ (s.place env align c).2.stop align :=
  roundUp_le ha (dvd_roundUp _ _) (Nat.le_trans (le_place ha) (le_roundUp ha))

theorem le_book (ha : 0 < w₀.align) : MAGIC.length ≤ (book env w₀ .new gs).shelf.image.length := by
  induction gs using List.reverseRecOn with
  | nil => exact le_rfl
  | append_singleton gs g ih =>
    rw [book_concat]
    exact Nat.le_trans ih (le_place ha)

theorem shelved_new : Shelved env [] .new :=
  ⟨fun c hc => (nomatch hc), fun e he => (nomatch he), sound_of_nil⟩

/-- The check of the entries of a book. -/
def sweep (bad : List Message) (k : Book) : Sweep :=
  k.entries.foldl (fun t e => Sweep.step t e.1 e.2) ⟨bad, MAGIC.length, [], [], false⟩

theorem sweep_enter (k : Book) (g : Given) (blocks : Option Nat) : sweep bad (k.enter env align blocks g) =
    (sweep bad k).step g.name (g.object (blobOf env blocks (k.shelf.place env align g.content).1 g.content)) :=
  List.foldl_concat ..

theorem apart_concat (h : Apart env (cs ++ [c])) : Apart env cs :=
  fun a ha b hb => h a (List.mem_append_left _ ha) b (List.mem_append_left _ hb)

theorem book_shelved (ha : 0 < w₀.align) (hapart : Apart env (gs.map (·.content))) :
    Shelved env (gs.map (·.content)) (book env w₀ .new gs).shelf := by
  induction gs using List.reverseRecOn with
  | nil => exact shelved_new
  | append_singleton gs g ih =>
    rw [List.map_append] at hapart ⊢
    rw [book_concat]
    exact (ih (apart_concat hapart)).place ha hapart

/-- **The check follows the book as long as the contents are clean, and no further.** -/
theorem book_swept (halign : w₀.align = ALIGN_CANONICAL) (hblocks : w₀.blocks = none)
    (hapart : Apart env (gs.map (·.content))) (hword : (book env w₀ .new gs).shelf.stop ALIGN_CANONICAL < WORD) :
    (Clean (gs.map (·.content)) →
        Swept env (gs.map (·.content)) (book env w₀ .new gs).shelf bad (sweep bad (book env w₀ .new gs))) ∧
      (¬ Clean (gs.map (·.content)) → bad.length < (sweep bad (book env w₀ .new gs)).bad.length) := by
  have hpos : 0 < w₀.align := by rw [halign]; decide
  induction gs using List.reverseRecOn with
  | nil =>
    refine ⟨fun _ => ?_, fun h => absurd clean_nil h⟩
    exact ⟨rfl, rfl, rfl, fun e he => (nomatch he), fun e he => (nomatch he), fun c hc => (nomatch hc),
      fun e he => (nomatch he), nofun⟩
  | append_singleton gs g ih =>
    rw [List.map_append] at hapart ⊢
    have hbefore := apart_concat hapart
    have hheld := @book_shelved env w₀ gs hpos hbefore
    rw [book_concat] at hword ⊢
    rw [sweep_enter, hblocks]
    change ((book env w₀ .new gs).shelf.place env w₀.align g.content).2.stop ALIGN_CANONICAL < WORD at hword
    rw [halign] at hword ⊢
    have hstop : (book env w₀ .new gs).shelf.stop ALIGN_CANONICAL < WORD :=
      Nat.lt_of_le_of_lt (stop_le_place (by decide)) hword
    obtain ⟨hclean, hnot⟩ := ih hbefore hstop
    rw [List.map_singleton, clean_concat]
    by_cases hcs : Clean (gs.map (·.content))
    · have hswept := hclean hcs
      refine ⟨fun h => ?_, fun h => ?_⟩
      · by_cases hc : g.content ∈ gs.map (·.content)
        · exact hswept.known hheld hc rfl
        · refine hswept.new hheld hapart hc (fun hempty => ?_) hstop rfl
          rcases h.2 hempty with hnil | hmem
          · rw [hnil] at hc
            exact hc hempty
          · exact hc hmem
      · exact hswept.refused hheld hapart (fun hfine => h ⟨hcs, hfine⟩) rfl
    · exact ⟨fun h => absurd h.1 hcs, fun _ => Nat.lt_of_lt_of_le (hnot hcs) (step_bad _ _ _)⟩

/-- Objects that are entered in the order of their names lie in a manifest in that order. -/
theorem toList_insertAll : ∀ {entries : List (Str × Object)}, entries.Pairwise (fun a b => compare a.1 b.1 = .lt) →
    (insertAll ∅ entries).toList = entries := by
  have hperm : ∀ entries : List (Str × Object), entries.Pairwise (fun a b => compare a.1 b.1 = .lt) →
      (insertAll ∅ entries).toList.Perm entries := by
    intro entries
    induction entries using List.reverseRecOn with
    | nil => exact fun _ => .nil
    | append_singleton entries e ih =>
      intro h
      obtain ⟨hentries, -, hlast⟩ := List.pairwise_append.mp h
      have hinsert : insertAll ∅ (entries ++ [e]) = (insertAll ∅ entries).insert e.1 e.2 := List.foldl_concat ..
      have hfilter : (insertAll ∅ entries).toList.filter (fun e' => decide (¬ (e.1 == e'.1) = true)) =
          (insertAll ∅ entries).toList := by
        refine List.filter_eq_self.mpr fun e' he' => ?_
        have hlt := hlast e' ((ih hentries).mem_iff.mp he') e (List.mem_singleton_self e)
        refine decide_eq_true fun heq => ?_
        have hsame : compare e'.1 e.1 = .eq := Std.LawfulEqCmp.compare_eq_iff_eq.mpr (eq_of_beq heq).symm
        rw [hsame] at hlt
        cases hlt
      rw [hinsert]
      refine TreeMap.toList_insert_perm.trans ?_
      rw [hfilter]
      exact ((ih hentries).cons e).trans (@List.perm_append_comm _ [e] entries)
  intro entries h
  refine List.Perm.eq_of_pairwise (fun a b _ _ hab hba => ?_) TreeMap.ordered_keys_toList h (hperm entries h)
  rw [OrientedCmp.gt_iff_lt.mpr hba] at hab
  cases hab

/-- A book of canonical form has no name that is not in its normal form. -/
theorem names_normal {names : List Str} (h : Tidy env w₀ names) (hcanonical : w₀.canonical = true) {name : Str}
    (hname : name ∈ names) : nameViolations env name = [] := by
  unfold nameViolations
  refine if_neg fun hbad => ?_
  rcases h.normal name hname hcanonical with hascii | hnfc
  · exact hbad.1 hascii
  · exact hbad.2 hnfc

/-! ## Files -/

variable {o : Options} {accesses : List Access} {w w' : Writer} {calls : List Call} {σ : Session} {n : Nat}

/-- What a canonical writer leaves: the book of what it was given, its manifest and its footer. -/
structure Finished (env : Env) (gs : List Given) (attributes : Option Cbor.Value) (w₀ w' : Writer) : Prop where
  tidy : Tidy env w₀ (gs.map (·.name))
  checked : ∀ g ∈ gs, CheckedGiven env g
  attributes : w'.manifest.attributes = attributes
  shards : w'.manifest.shards = ∅
  objects : w'.manifest.objects = insertAll ∅ (book env w₀ .new gs).entries
  file : ∃ manifest, Cbor.encode w'.manifest.toValue = .ok manifest ∧ manifest.length ≤ MAX_MANIFEST_LEN ∧
    w'.out.file = fileOf env (book env w₀ .new gs).shelf w₀.align manifest ∧ w'.out.file.length < WORD

/-- A canonical writer. -/
structure CanonicalWriter (w₀ : Writer) : Prop where
  canonical : w₀.canonical = true
  align : w₀.align = ALIGN_CANONICAL
  blocks : w₀.blocks = none

theorem canonical_align (hcanonical : o.canonical = true) (hbuild : o.build accesses = .ok w) :
    ∀ a, o.align = some a → a < WORD := by
  intro a ha
  unfold Options.build at hbuild
  obtain ⟨align, halign, -⟩ := Fallible.bind_eq_ok.mp hbuild
  rw [hcanonical, ha] at halign
  dsimp only at halign
  split at halign
  · rename_i heq
    rw [heq]
    decide
  · cases halign

theorem finish_free (hfinish : Writer.finish env w = .ok n w') : w.openSink = none := by
  unfold Writer.finish at hfinish
  rw [← Option.not_isSome_iff_eq_none]
  intro hopen
  change EStateM.bind _ _ w = _ at hfinish
  unfold EStateM.bind at hfinish
  dsimp only [get, getThe, MonadStateOf.get, EStateM.get] at hfinish
  rw [if_pos hopen] at hfinish
  cases hfinish

/-- **A canonical run ends in a book.** -/
theorem finished (hcanonical : o.canonical = true) (hbuild : o.build accesses = .ok w)
    (hrun : Session.run env calls (.new w) = .ok ⟨⟩ σ) (hfinish : Writer.finish env σ.writer = .ok n w') :
    CanonicalWriter w ∧ Finished env (givens none calls) (attributesAfter none calls) w w' := by
  have hword := canonical_align hcanonical hbuild
  have hholds := build_holds hword hbuild
  obtain ⟨out, align, rfl, -, -, hform, -⟩ := build_ends hword hbuild
  obtain ⟨rfl, hblocks⟩ := hform hcanonical
  refine ⟨⟨hcanonical, rfl, hblocks⟩, ?_⟩
  have hstart := @Endings.start_kept env _ _ hholds rfl rfl fun _ => rfl
  have hkept := @Tracks.run_kept env _ _ calls _ _ _ _ hstart (.inl hcanonical)
  rw [hrun] at hkept
  obtain ⟨opened, hkept⟩ := hkept
  rw [List.nil_append] at hkept
  match opened with
  | some (name, b, received) =>
    obtain ⟨-, sink, -, -, -, hstreaming⟩ := hkept.between
    have hopen := finish_free hfinish
    rw [hstreaming.owner] at hopen
    cases hopen
  | none =>
    obtain ⟨-, -, hholds⟩ := hkept.between
    have hend := @finish_ends env _ _ hholds
    rw [hfinish] at hend
    obtain ⟨-, hmanifest, manifest, hencode, hlength, hfile, rfl, hlt⟩ := hend
    rw [← hmanifest] at hencode
    rw [hkept.align] at hfile
    refine ⟨hkept.tidy, hkept.checked, ?_, ?_, ?_, manifest, hencode, hlength, hfile, hlt⟩
    · rw [hmanifest]
      exact hkept.attributes
    · rw [hmanifest]
      exact hkept.shards hcanonical
    · rw [hmanifest]
      exact hkept.objects

/-- **What the check makes of a canonical file.** It accepts it just when the contents are clean. -/
theorem canonicalViolations_iff {attributes : Option Cbor.Value} (hform : CanonicalWriter w)
    (hfinished : Finished env gs attributes w w') (hapart : Apart env (gs.map (·.content))) :
    ∃ footer, parseFooter (w'.out.file.drop (w'.out.file.length - FOOTER_LEN)) = .ok (some footer) ∧
      (canonicalViolations env w'.manifest ⟨footer.offset, footer.length, w'.out.file.length⟩ = [] ↔
        Clean (gs.map (·.content))) := by
  obtain ⟨manifest, hencode, hmax, hfile, hlt⟩ := hfinished.file
  have hpos : 0 < w.align := by rw [hform.align]; decide
  have hlen := @fileOf_length env w (book env w .new gs).shelf hpos manifest
  have hdrop := @fileOf_footer env w (book env w .new gs).shelf hpos manifest
  rw [← hfile] at hlen hdrop
  rw [hform.align] at hlen hdrop
  have hstop : (book env w .new gs).shelf.stop ALIGN_CANONICAL < WORD := by omega
  have hpositive : 0 < (book env w .new gs).shelf.stop ALIGN_CANONICAL :=
    Nat.lt_of_lt_of_le (by decide) (Nat.le_trans (le_book hpos) (le_roundUp (by decide)))
  have hdvd : ALIGN_CANONICAL ∣ (book env w .new gs).shelf.stop ALIGN_CANONICAL := dvd_roundUp _ _
  have hfloor : ALIGN_FLOOR ∣ ALIGN_CANONICAL := by decide
  have hparsed := @parseFooter_footer env _ manifest hstop (hfloor.trans hdvd) (Nat.le_of_dvd hpositive (hfloor.trans hdvd))
    (Cbor.encodeInto_pos (Cbor.encode_eq_ok.mp hencode).1) hmax
  rw [hdrop]
  refine ⟨_, hparsed, ?_⟩
  have hentries : w'.manifest.objects.toList = (book env w .new gs).entries := by
    rw [hfinished.objects]
    refine toList_insertAll ?_
    have horder := hfinished.tidy.order
    rw [← @book_names env w .new gs, List.pairwise_map] at horder
    exact horder.imp fun h => h.2 hform.canonical
  have hnames : (book env w .new gs).entries.flatMap (fun e => nameViolations env e.1) = [] := by
    refine List.flatMap_eq_nil_iff.mpr fun e he => names_normal hfinished.tidy hform.canonical ?_
    rw [← @book_names env w .new gs]
    exact List.mem_map_of_mem he
  obtain ⟨hclean, hnot⟩ := @book_swept env w gs [] hform.align hform.blocks hapart hstop
  unfold canonicalViolations
  dsimp only
  rw [hentries, hnames, hfinished.shards, if_pos TreeMap.isEmpty_emptyc, List.append_nil]
  have hsweep : (book env w .new gs).entries.foldl (fun t e => Sweep.step t e.1 e.2) ⟨[], MAGIC.length, [], [], false⟩ =
      sweep [] (book env w .new gs) := rfl
  rw [hsweep, if_neg (fun hne => hne hlen.symm), List.append_nil, List.append_eq_nil_iff]
  constructor
  · rintro ⟨hbad, -⟩
    by_contra hno
    have hlt := hnot hno
    rw [hbad] at hlt
    exact absurd hlt (lt_irrefl _)
  · intro hcs
    have hswept := hclean hcs
    have hnext : alignUp (sweep [] (book env w .new gs)).cursor ALIGN_CANONICAL =
        some ((book env w .new gs).shelf.stop ALIGN_CANONICAL) := by
      rw [hswept.cursor]
      exact (@alignUp_eq_some _ 16 _ (by decide)).mpr
        ⟨alignUp_word (le_roundUp (by decide)) (dvd_roundUp _ _) hstop, rfl⟩
    refine ⟨hswept.bad, ?_⟩
    rw [hnext]
    exact if_neg (fun hne => hne rfl)

/-! ## Two objects -/

/-- XXH3 of no bytes and of the byte 1. -/
def digests : Env :=
  ⟨fun bs => if bs = [] then 0x2D06800538D394C2#64 else if bs = [1] then 0xE12EF9D2EB86CEEB#64 else 0, fun _ => true,
    fun _ => none, fun _ => none⟩

/-- Bytes as an object. -/
def bytesObject (c : List UInt8) : ObjectBuilder :=
  ((ObjectBuilder.new.setShape [c.length]).setTerm (.leaf (.u 8))).setPayload (.bytes c)

def placedAt (offset : Nat) (c : List UInt8) : Object :=
  ⟨[c.length], some (.leaf (.u 8)), none, none, Records.hashedBlob offset c.length (digestOf digests c).value⟩

/-- Two contents under the names `a` and `b`. -/
def pairCalls (c₁ c₂ : List UInt8) : List Call :=
  [.object (.lit "a") (bytesObject c₁), .object (.lit "b") (bytesObject c₂)]

def lengthObject (n : Nat) : ObjectBuilder :=
  ((ObjectBuilder.new.setShape [n]).setTerm (.leaf (.u 8))).setPayload (.length n)

/-- The same, the first through a sink. -/
def streamCalls (c₁ c₂ : List UInt8) : List Call :=
  [.stream (.lit "a") (lengthObject c₁.length), .write c₁, .close, .object (.lit "b") (bytesObject c₂)]

/-- What a canonical writer begins with. -/
def fresh : Writer := ⟨⟨[], MAGIC, []⟩, MAGIC.length, ALIGN_CANONICAL, true, none, .new, [], none, none, false⟩

def described (c : List UInt8) : Object := ⟨[c.length], some (.leaf (.u 8)), none, none, .local 0 c.length⟩

def first (c : List UInt8) : Writer := entered digests fresh (.lit "a") (described c) c

def second (c₁ c₂ : List UInt8) : Writer := entered digests (first c₁) (.lit "b") (described c₂) c₂

def fieldAt (name : Str) (offset : Nat) (c : List UInt8) : Str × Object × List UInt8 :=
  (name, placedAt offset c, Records.objectBytes c.length (Term.leaf (.u 8)).display (placedAt offset c).blob
    (Records.blobBytes offset c.length (digestOf digests c).value))

def pairFields (c₁ c₂ : List UInt8) : List (Str × Object × List UInt8) :=
  [fieldAt (.lit "a") ALIGN_CANONICAL c₁, fieldAt (.lit "b") (roundUp (ALIGN_CANONICAL + c₁.length) ALIGN_CANONICAL) c₂]

theorem pair_objects (c₁ c₂ : List UInt8) :
    (second c₁ c₂).manifest.objects.toList = (pairFields c₁ c₂).map fun f => (f.1, f.2.1) := by
  have hoffset : (first c₁).offset = ALIGN_CANONICAL + c₁.length :=
    congrArg (· + c₁.length) (@reserved_offset fresh (by decide))
  have hobjects : (second c₁ c₂).manifest.objects = insertAll ∅ [(.lit "a", placedAt (roundUp fresh.offset ALIGN_CANONICAL) c₁),
      (.lit "b", placedAt (roundUp (first c₁).offset ALIGN_CANONICAL) c₂)] := rfl
  have horder : compare (Str.lit "a") (.lit "b") = .lt := by decide
  rw [hobjects, hoffset]
  exact toList_insertAll (.cons (List.forall_mem_singleton.mpr horder) (List.pairwise_singleton _ _))

/-- **Two contents, one of one byte and one of none, go through**, the first in hand or through a sink. -/
theorem pair_finished
    (hbuild₁ : Writer.build digests fresh (.lit "a") (bytesObject c₁) = .ok (described c₁, .bytes c₁))
    (hstream₁ : Writer.build digests fresh (.lit "a") (lengthObject c₁.length) = .ok (described c₁, .length c₁.length))
    (hbuild₂ : Writer.build digests (first c₁) (.lit "b") (bytesObject c₂) = .ok (described c₂, .bytes c₂))
    (hshort : c₁.length + c₂.length = 1) (hlength : (Records.manifestBytes (pairFields c₁ c₂)).length ≤ 1000) :
    Session.run digests (pairCalls c₁ c₂) (.new fresh) = .ok ⟨⟩ ⟨second c₁ c₂, none, 1⟩ ∧
      Session.run digests (streamCalls c₁ c₂) (.new fresh) = .ok ⟨⟩ ⟨second c₁ c₂, none, 2⟩ ∧
      ∃ n w', Writer.finish digests (second c₁ c₂) = .ok n w' := by
  have ha : Aligned fresh := ⟨16, by decide, rfl⟩
  have hroom : Room fresh 300000 := ⟨by decide, by decide⟩
  have hfirst : Room (first c₁) 200000 := Room.entered ha (hroom.mono (by change 65535 + _ ≤ _; omega))
  have hsecond : Room (second c₁ c₂) 100000 :=
    @Room.entered 100000 digests (first c₁) c₂ (.lit "b") (described c₂) ha (hfirst.mono (by change 65535 + _ ≤ _; omega))
  have hnew : (first c₁).dedup.lookup (digestOf digests c₂, c₂.length) = none := by
    change List.lookup _ [((digestOf digests c₁, c₁.length), _)] = none
    have hne : c₂.length ≠ c₁.length := by omega
    rw [List.lookup_cons, beq_eq_false_iff_ne.mpr (fun h => hne (congrArg Prod.snd h))]
    rfl
  have hfirstRun : Writer.object digests (.lit "a") (bytesObject c₁) fresh = .ok ⟨⟩ (first c₁) :=
    object_ok hbuild₁ ha rfl rfl (hroom.mono (by change 65535 + _ ≤ _; omega))
  have hsecondRun : Writer.object digests (.lit "b") (bytesObject c₂) (first c₁) = .ok ⟨⟩ (second c₁ c₂) :=
    object_ok hbuild₂ ha rfl hnew (hfirst.mono (by change 65535 + _ ≤ _; omega))
  have hrun : Session.run digests (pairCalls c₁ c₂) (.new fresh) = .ok ⟨⟩ ⟨second c₁ c₂, none, 1⟩ :=
    (run_cons_ok (@perform_object_ok _ _ _ (.new fresh) _ hfirstRun)).trans
      (run_cons_ok (@perform_object_ok _ _ _ ⟨first c₁, none, 1⟩ _ hsecondRun))
  have hencode : Ztensor.Cbor.encode (second c₁ c₂).manifest.toValue = .ok (Records.manifestBytes (pairFields c₁ c₂)) := by
    have hordered : Records.Ordered [.lit "a", .lit "b"] := by decide
    refine Records.encode_manifest _ rfl rfl (pair_objects c₁ c₂) hordered ?_ (Nat.le_trans hlength (by decide))
    refine List.forall_mem_cons.mpr ⟨?_, List.forall_mem_singleton.mpr ?_⟩
    · exact @Records.encodeInto_object 27 _ _ _ _ Records.encodeInto_blob
    · exact @Records.encodeInto_object 27 _ _ _ _ Records.encodeInto_blob
  obtain ⟨n, w', hfinish⟩ := finish_ok rfl hencode (Nat.le_trans hlength (by decide)) ha
    (hsecond.mono (by change 65535 + (_ + 40) ≤ _; omega)) rfl
  refine ⟨hrun, ?_, n, w', hfinish⟩
  let open₁ : Writer := { fresh with openSink := some 1 }
  let σ₁ : Session := ⟨open₁, some (opened open₁ 1 (.lit "a") (described c₁) c₁.length), 2⟩
  let σ₂ : Session := ⟨held (reserved open₁) c₁, some (filled digests open₁ 1 (.lit "a") (described c₁) c₁), 2⟩
  have hstream := @stream_ok 1 digests fresh (.lit "a") _ _ _ hstream₁
  have hwrite := @sink_write_ok 1 digests open₁ c₁ (.lit "a") (described c₁) ha rfl rfl
    (hroom.mono (by change 65535 + _ ≤ _; omega)) (by change _ < 2 ^ 64; omega)
  have hclose := @close_ok 1 digests open₁ c₁ (.lit "a") (described c₁) rfl rfl
  have h₁ : Session.perform digests (.stream (.lit "a") (lengthObject c₁.length)) (.new fresh) = .ok ⟨⟩ σ₁ :=
    @perform_stream_ok _ _ _ _ (.new fresh) _ hstream
  have h₂ : Session.perform digests (.write c₁) σ₁ = .ok ⟨⟩ σ₂ := @perform_write_ok digests c₁ σ₁ _ _ _ rfl hwrite
  have h₃ : Session.perform digests .close σ₂ = .ok ⟨⟩ ⟨first c₁, none, 2⟩ := @perform_close_ok _ digests σ₂ _ rfl hclose
  have h₄ : Session.perform digests (.object (.lit "b") (bytesObject c₂)) ⟨first c₁, none, 2⟩ =
      .ok ⟨⟩ ⟨second c₁ c₂, none, 2⟩ := @perform_object_ok _ _ _ ⟨first c₁, none, 2⟩ _ hsecondRun
  exact (run_cons_ok h₁).trans ((run_cons_ok h₂).trans ((run_cons_ok h₃).trans (run_cons_ok h₄)))

/-- Contents that are not as long as each other are told apart. -/
theorem apart_pair (h : c₁.length ≠ c₂.length) : Apart env [c₁, c₂] := by
  intro c hc c' hc' hlength _
  rcases List.mem_pair.mp hc with rfl | rfl <;> rcases List.mem_pair.mp hc' with rfl | rfl
  · rfl
  · exact absurd hlength h
  · exact absurd hlength.symm h
  · rfl

/-- **A canonical file passes the canonical check just when no content with bytes that differ from all before it comes
after one without bytes.** -/
theorem canonical_files_pass (hcanonical : o.canonical = true) (hbuild : o.build accesses = .ok w)
    (hrun : Session.run env calls (.new w) = .ok ⟨⟩ σ) (hfinish : Writer.finish env σ.writer = .ok n w')
    (hapart : Apart env ((givens none calls).map (·.content))) :
    ∃ footer, parseFooter (w'.out.file.drop (w'.out.file.length - FOOTER_LEN)) = .ok (some footer) ∧
      (canonicalViolations env w'.manifest ⟨footer.offset, footer.length, w'.out.file.length⟩ = [] ↔
        Clean ((givens none calls).map (·.content))) := by
  obtain ⟨hform, hfinished⟩ := finished hcanonical hbuild hrun hfinish
  exact canonicalViolations_iff hform hfinished hapart

theorem canonical_files_pass_pair : ∃ σ n w', Session.run digests (pairCalls [1] []) (.new fresh) = .ok ⟨⟩ σ ∧
    Writer.finish digests σ.writer = .ok n w' ∧
    ∃ footer, parseFooter (w'.out.file.drop (w'.out.file.length - FOOTER_LEN)) = .ok (some footer) ∧
      (canonicalViolations digests w'.manifest ⟨footer.offset, footer.length, w'.out.file.length⟩ = [] ↔ Clean [[1], []]) := by
  obtain ⟨hrun, -, n, w', hfinish⟩ := @pair_finished [1] [] rfl rfl rfl rfl (by decide +kernel)
  exact ⟨_, n, w', hrun, hfinish, @canonical_files_pass digests {} [] fresh w' (pairCalls [1] []) _ n rfl rfl hrun hfinish
    (apart_pair (by decide))⟩

/-- A content without bytes, and then one with a byte: the file is refused. -/
theorem empty_before_new_is_refused : Options.build {} [] = .ok fresh ∧ Apart digests [[], [1]] ∧
    ∃ σ n w', Session.run digests (pairCalls [] [1]) (.new fresh) = .ok ⟨⟩ σ ∧ Writer.finish digests σ.writer = .ok n w' ∧
      ∃ footer, parseFooter (w'.out.file.drop (w'.out.file.length - FOOTER_LEN)) = .ok (some footer) ∧
        canonicalViolations digests w'.manifest ⟨footer.offset, footer.length, w'.out.file.length⟩ ≠ [] := by
  obtain ⟨hrun, -, n, w', hfinish⟩ := @pair_finished [] [1] rfl rfl rfl rfl (by decide +kernel)
  obtain ⟨hform, hfinished⟩ := @finished digests {} [] fresh w' (pairCalls [] [1]) _ n rfl rfl hrun hfinish
  obtain ⟨footer, hfooter, hiff⟩ := canonicalViolations_iff hform hfinished (apart_pair (by decide))
  refine ⟨rfl, apart_pair (by decide), _, n, w', hrun, hfinish, footer, hfooter, fun hnone => ?_⟩
  rcases hiff.mp hnone [[]] [1] [] rfl (List.mem_singleton_self _) with h | h
  · cases h
  · cases List.mem_singleton.mp h

/-- Manifests that differ in the order of their attributes are written alike. -/
theorem toValue_alike {m m' : Manifest} (hattributes : Option.Rel Records.Alike m.attributes m'.attributes)
    (hshards : m'.shards = m.shards) (hobjects : m'.objects = m.objects) : Records.Alike m.toValue m'.toValue := by
  unfold Manifest.toValue
  rw [hshards, hobjects]
  generalize m.attributes = attributes at hattributes ⊢
  generalize m'.attributes = attributes' at hattributes ⊢
  cases hattributes with
  | none => exact .same _
  | @some a a' h =>
    have hzip (rest : List (Cbor.Value × Cbor.Value)) (v : Cbor.Value) :
        (text "attributes" :: rest.map (·.1)).zip (v :: rest.map (·.2)) = (text "attributes", v) :: rest := by
      rw [List.zip_cons_cons, ← List.unzip_fst, ← List.unzip_snd, List.zip_unzip]
    unfold Blob.entry
    dsimp only [id]
    rw [List.append_assoc, List.append_assoc, List.singleton_append, List.singleton_append, ← hzip _ a]
    refine .map (.cons h (List.forall₂_same.mpr fun v _ => .same v)) ?_
    rw [hzip]

/-- **Canonical bytes depend only on the content.** -/
theorem canonical_bytes_same {o₁ o₂ : Options} {accesses₁ accesses₂ : List Access} {w₁ w₂ w₁' w₂' : Writer}
    {calls₁ calls₂ : List Call} {σ₁ σ₂ : Session} {n₁ n₂ : Nat}
    (hcanonical₁ : o₁.canonical = true) (hbuild₁ : o₁.build accesses₁ = .ok w₁)
    (hrun₁ : Session.run env calls₁ (.new w₁) = .ok ⟨⟩ σ₁) (hfinish₁ : Writer.finish env σ₁.writer = .ok n₁ w₁')
    (hcanonical₂ : o₂.canonical = true) (hbuild₂ : o₂.build accesses₂ = .ok w₂)
    (hrun₂ : Session.run env calls₂ (.new w₂) = .ok ⟨⟩ σ₂) (hfinish₂ : Writer.finish env σ₂.writer = .ok n₂ w₂')
    (hgivens : givens none calls₂ = givens none calls₁)
    (hattributes : Option.Rel Records.Alike (attributesAfter none calls₁) (attributesAfter none calls₂)) :
    w₂'.out.file = w₁'.out.file := by
  obtain ⟨hform₁, hfinished₁⟩ := finished hcanonical₁ hbuild₁ hrun₁ hfinish₁
  obtain ⟨hform₂, hfinished₂⟩ := finished hcanonical₂ hbuild₂ hrun₂ hfinish₂
  have hbook : book env w₂ .new (givens none calls₂) = book env w₁ .new (givens none calls₁) := by
    unfold book
    rw [hgivens, hform₁.align, hform₁.blocks, hform₂.align, hform₂.blocks]
  obtain ⟨manifest₁, hencode₁, -, hfile₁, -⟩ := hfinished₁.file
  obtain ⟨manifest₂, hencode₂, -, hfile₂, -⟩ := hfinished₂.file
  have halike : Records.Alike w₁'.manifest.toValue w₂'.manifest.toValue := by
    refine toValue_alike ?_ (hfinished₂.shards.trans hfinished₁.shards.symm) ?_
    · rw [hfinished₁.attributes, hfinished₂.attributes]
      exact hattributes
    · rw [hfinished₁.objects, hfinished₂.objects, hbook]
  have hsame := halike.encodeInto (Cbor.encode_eq_ok.mp hencode₁).1
  have hmanifest : manifest₂ = manifest₁ := Except.ok.inj ((Cbor.encode_eq_ok.mp hencode₂).1.symm.trans hsame)
  rw [hfile₁, hfile₂, hbook, hmanifest, hform₁.align, hform₂.align]

theorem canonical_bytes_same_streamed : ∃ σ₁ σ₂ n₁ n₂ w₁ w₂,
    Session.run digests (pairCalls [1] []) (.new fresh) = .ok ⟨⟩ σ₁ ∧ Writer.finish digests σ₁.writer = .ok n₁ w₁ ∧
    Session.run digests (streamCalls [1] []) (.new fresh) = .ok ⟨⟩ σ₂ ∧ Writer.finish digests σ₂.writer = .ok n₂ w₂ ∧
    w₂.out.file = w₁.out.file := by
  obtain ⟨hrun, hstream, n, w', hfinish⟩ := @pair_finished [1] [] rfl rfl rfl rfl (by decide +kernel)
  exact ⟨_, _, n, n, w', w', hrun, hfinish, hstream, hfinish,
    @canonical_bytes_same digests {} {} [] [] fresh fresh w' w' (pairCalls [1] []) (streamCalls [1] []) _ _ n n
      rfl rfl hrun hfinish rfl rfl hstream hfinish rfl .none⟩

end Pie.Proof.CanonicalFiles
