import Pie.Proof.CanonicalLoad

/-!
# What the objects of a Unigram keep

The vocabulary of a Unigram is its pieces, each under the first place it stands
at. The ids have no gap, so a piece that stands twice stands only after all the
others: the pieces are `first ++ later`, and `later` is read by nobody. The
objects store the spellings and the scores of `first`.

So the scores come back, but two things need not. An id of an unknown that
points into `later` is outside of what is read back; and an added token is
stored as the text its id spells, which the loader never compared with the text
the token has.
-/

namespace Pie.Proof

open List Pie.Tokenizer Lib Lib.Utf8 UnigramScores AList

variable {p : Str × Score} {k : Nat} {scores : UnigramScores} {t : Tokenizer} {c : CanonicalTokenizer}
  {st : AList (fun _ : Str => TokenId × Score) × Nat} {vocab : Vocabulary} {added : List AddedToken}
  {eosId : Option TokenId} {replacement : Str}

/-! ## The pieces -/

theorem addFirst_mem (h : p.1 ∈ vocab) : addFirst vocab (p, k) = vocab :=
  if_pos (lookup_isSome.mpr h)

theorem addFirst_new (h : p.1 ∉ vocab) : addFirst vocab (p, k) = vocab.insert p.1 (BitVec.ofNat 32 k) :=
  if_neg (fun hs => h (lookup_isSome.mp hs))

theorem length_insert {token : Str} {id : TokenId} (h : token ∉ vocab) :
    (vocab.insert token id).entries.length = vocab.entries.length + 1 := by
  rw [entries_insert_of_notMem h, length_cons]

/-- Once a piece stood there before, ids lag behind places: one more piece would leave a gap. -/
theorem addFirst_stuck : ∀ {rest : List (Str × Score)} {k : Nat} {vocab vocab' : Vocabulary},
    (rest.zipIdx k).foldl addFirst vocab = vocab' → k + rest.length ≤ 2 ^ 32 →
    vocab.entries.length < k → BpeTable.maxId vocab' + 1 ≤ vocab'.entries.length →
    vocab' = vocab ∧ ∀ p ∈ rest, p.1 ∈ vocab := by
  intro rest
  induction rest with
  | nil =>
    intro k vocab vocab' h _ _ _
    exact ⟨h.symm, by simp⟩
  | cons p rest ih =>
    intro k vocab vocab' h hk hlag hmax
    rw [length_cons] at hk
    rw [zipIdx_cons, foldl_cons] at h
    by_cases hp : p.1 ∈ vocab
    · rw [addFirst_mem hp] at h
      obtain ⟨h1, h2⟩ := ih h (by omega) (by omega) hmax
      refine ⟨h1, ?_⟩
      intro q hq
      rcases mem_cons.mp hq with rfl | hq
      · exact hp
      · exact h2 q hq
    · rw [addFirst_new hp] at h
      obtain ⟨rfl, -⟩ := ih h (by omega) (by rw [length_insert hp]; omega) hmax
      -- the id of the new piece is its place, which is beyond the number of pieces
      have hmem : (BitVec.ofNat 32 k).toNat ∈
          ((vocab.insert p.1 (BitVec.ofNat 32 k)).entries.map (fun e => e.2.toNat)) := by
        rw [entries_insert_of_notMem hp, map_cons]
        exact mem_cons_self
      have hle : (BitVec.ofNat 32 k).toNat ≤ BpeTable.maxId (vocab.insert p.1 (BitVec.ofNat 32 k)) :=
        le_foldl_max (.inr hmem)
      rw [BitVec.toNat_ofNat, Nat.mod_eq_of_lt (by omega)] at hle
      rw [length_insert hp] at hmax
      omega

/-- The pieces that got an id, in order, and the ones that repeat them. -/
theorem addFirst_split : ∀ {rest : List (Str × Score)} {k : Nat} {vocab vocab' : Vocabulary},
    (rest.zipIdx k).foldl addFirst vocab = vocab' → k + rest.length ≤ 2 ^ 32 →
    vocab.entries.length = k → BpeTable.maxId vocab' + 1 ≤ vocab'.entries.length →
    ∃ first later, rest = first ++ later ∧ (first.map Prod.fst).Nodup ∧ (∀ p ∈ first, p.1 ∉ vocab)
      ∧ (∀ p ∈ later, p.1 ∈ vocab ∨ p.1 ∈ first.map Prod.fst)
      ∧ vocab'.entries.length = k + first.length
      ∧ ∀ {s id}, vocab'.lookup s = some id → vocab.lookup s = some id
        ∨ ∃ i p, first[i]? = some p ∧ p.1 = s ∧ id = BitVec.ofNat 32 (k + i) := by
  intro rest
  induction rest with
  | nil =>
    intro k vocab vocab' h _ hlen _
    obtain rfl : vocab = vocab' := h
    exact ⟨[], [], by simp, by simp, by simp, by simp, by simpa using hlen, fun h => .inl h⟩
  | cons p rest ih =>
    intro k vocab vocab' h hk hlen hmax
    rw [length_cons] at hk
    rw [zipIdx_cons, foldl_cons] at h
    by_cases hp : p.1 ∈ vocab
    · rw [addFirst_mem hp] at h
      obtain ⟨rfl, hrest⟩ := addFirst_stuck h (by omega) (by omega) hmax
      refine ⟨[], p :: rest, by simp, by simp, by simp, ?_, by simpa using hlen, fun h => .inl h⟩
      intro q hq
      rcases mem_cons.mp hq with rfl | hq
      · exact .inl hp
      · exact .inl (hrest q hq)
    · rw [addFirst_new hp] at h
      obtain ⟨first, later, rfl, hnodup, hfirst, hlater, hlen', hids⟩ :=
        ih h (by omega) (by rw [length_insert hp]; omega) hmax
      refine ⟨p :: first, later, by simp, ?_, ?_, ?_, by rw [hlen', length_cons]; omega, ?_⟩
      · rw [map_cons, nodup_cons]
        refine ⟨?_, hnodup⟩
        intro hmem
        obtain ⟨q, hq, hqp⟩ := mem_map.mp hmem
        exact hfirst q hq ((mem_insert _).mpr (.inl hqp))
      · intro q hq
        rcases mem_cons.mp hq with rfl | hq
        · exact hp
        · exact fun hv => hfirst q hq ((mem_insert _).mpr (.inr hv))
      · intro q hq
        rcases hlater q hq with hv | hv
        · rcases (mem_insert _).mp hv with hv | hv
          · exact .inr (by rw [hv]; simp)
          · exact .inl hv
        · exact .inr (mem_cons_of_mem _ hv)
      · intro s id hs
        rcases hids hs with hs | ⟨i, q, hi, hq, hid⟩
        · by_cases hsp : s = p.1
          · subst hsp
            rw [lookup_insert, Option.some.injEq] at hs
            exact .inr ⟨0, p, rfl, rfl, hs.symm⟩
          · rw [lookup_insert_ne hsp] at hs
            exact .inl hs
        · refine .inr ⟨i + 1, q, hi, hq, ?_⟩
          rw [hid]
          congr 1
          omega

/-! ## Their scores -/

/-- A piece that changes nothing any more. -/
def Absorbed (st : AList (fun _ : Str => TokenId × Score) × Nat) (token : Str) : Prop :=
  token.bytes = [] ∨ (token ∈ st.1 ∧ token.bytes.length ≤ st.2)

theorem addPiece_empty (h : p.1.bytes = []) : addPiece st (p, k) = st := by
  unfold addPiece
  rw [if_pos (by simp [h])]

theorem addPiece_absorbed (h : Absorbed st p.1) : addPiece st (p, k) = st := by
  rcases h with h | ⟨hmem, hlen⟩
  · exact addPiece_empty h
  · unfold addPiece
    split
    · rfl
    · rw [if_pos (lookup_isSome.mpr hmem), max_eq_left hlen]

theorem addPiece_foldl_absorbed : ∀ {rest : List (Str × Score)} {k : Nat}
    {st : AList (fun _ : Str => TokenId × Score) × Nat}, (∀ p ∈ rest, Absorbed st p.1) →
    (rest.zipIdx k).foldl addPiece st = st := by
  intro rest
  induction rest with
  | nil => intro k st _; rfl
  | cons p rest ih =>
    intro k st h
    rw [zipIdx_cons, foldl_cons, addPiece_absorbed (h p mem_cons_self)]
    exact ih (fun q hq => h q (mem_cons_of_mem _ hq))

theorem addPiece_new (hne : p.1.bytes ≠ []) (hp : p.1 ∉ st.1) : addPiece st (p, k)
      = (st.1.insert p.1 (BitVec.ofNat 32 k, p.2), max st.2 p.1.bytes.length) := by
  unfold addPiece
  rw [if_neg (by simpa using hne), if_neg (fun hs => hp (lookup_isSome.mp hs))]

/-- What the state of the scores becomes over pieces that are new and differ. -/
theorem addPiece_foldl_new : ∀ {rest : List (Str × Score)} {k : Nat}
    {st : AList (fun _ : Str => TokenId × Score) × Nat}, (rest.map Prod.fst).Nodup →
    (∀ p ∈ rest, p.1 ∉ st.1) →
    ((rest.zipIdx k).foldl addPiece st).1.entries
      = (((rest.zipIdx k).filter (fun p => !p.1.1.bytes.isEmpty)).map
          (fun p => ⟨p.1.1, (BitVec.ofNat 32 p.2, p.1.2)⟩)).reverse ++ st.1.entries
      ∧ st.2 ≤ ((rest.zipIdx k).foldl addPiece st).2
      ∧ ∀ p ∈ rest, p.1.bytes.length ≤ ((rest.zipIdx k).foldl addPiece st).2 := by
  intro rest
  induction rest with
  | nil => intro k st _ _; exact ⟨rfl, le_refl _, by simp⟩
  | cons p rest ih =>
    intro k st hnodup hnew
    rw [map_cons, nodup_cons] at hnodup
    rw [zipIdx_cons, foldl_cons]
    by_cases hne : p.1.bytes = []
    · rw [addPiece_empty hne, filter_cons_of_neg (by simp [hne])]
      obtain ⟨h1, h2, h3⟩ := ih hnodup.2 (fun q hq => hnew q (mem_cons_of_mem _ hq)) (k := k + 1)
      refine ⟨h1, h2, ?_⟩
      intro q hq
      rcases mem_cons.mp hq with rfl | hq
      · rw [hne]
        exact Nat.zero_le _
      · exact h3 q hq
    · have hp := hnew p mem_cons_self
      rw [addPiece_new hne hp, filter_cons_of_pos (by simpa using hne)]
      have hnew' : ∀ q ∈ rest, q.1 ∉ st.1.insert p.1 (BitVec.ofNat 32 k, p.2) := by
        intro q hq hmem
        rcases (mem_insert _).mp hmem with he | hmem
        · exact hnodup.1 (he ▸ mem_map_of_mem hq)
        · exact hnew q (mem_cons_of_mem _ hq) hmem
      obtain ⟨h1, h2, h3⟩ := @ih (k + 1)
        (st.1.insert p.1 (BitVec.ofNat 32 k, p.2), max st.2 p.1.bytes.length) hnodup.2 hnew'
      refine ⟨?_, le_trans (le_max_left _ _) h2, ?_⟩
      · rw [h1, map_cons, reverse_cons, entries_insert_of_notMem hp]
        simp
      · intro q hq
        rcases mem_cons.mp hq with rfl | hq
        · exact le_trans (le_max_right _ _) h2
        · exact h3 q hq

/-- The pieces of a Unigram whose ids have no gap: those with an id, and repetitions. -/
structure Repeating (first later : List (Str × Score)) : Prop where
  nodup : (first.map Prod.fst).Nodup
  small : first.length ≤ 2 ^ 32
  repeats : ∀ p ∈ later, p.1 ∈ first.map Prod.fst

namespace Repeating

variable {first later : List (Str × Score)}

/-- The state of the scores once the pieces are read. -/
def scoresOf (first : List (Str × Score)) : AList (fun _ : Str => TokenId × Score) × Nat :=
  first.zipIdx.foldl UnigramScores.addPiece (∅, 0)

section

variable (h : Repeating first later)
include h

theorem entries : (scoresOf first).1.entries
    = ((first.zipIdx.filter (fun p => !p.1.1.bytes.isEmpty)).map
        (fun p => ⟨p.1.1, (BitVec.ofNat 32 p.2, p.1.2)⟩)).reverse := by
  obtain ⟨h1, -, -⟩ := @addPiece_foldl_new first 0 (∅, 0) h.nodup (fun p _ => notMem_empty p.1)
  rw [scoresOf, h1]
  exact append_nil _

theorem mem_entries {i : Nat} (hi : first[i]? = some p) (hne : p.1.bytes ≠ []) :
    (⟨p.1, (BitVec.ofNat 32 i, p.2)⟩ : Sigma fun _ : Str => TokenId × Score) ∈ (scoresOf first).1.entries := by
  rw [h.entries, mem_reverse, mem_map]
  refine ⟨(p, i), mem_filter.mpr ⟨mem_zipIdx_iff_getElem?.mpr hi, by simpa using hne⟩, rfl⟩

theorem foldl_eq :
    (first ++ later).zipIdx.foldl addPiece (∅, 0) = scoresOf first := by
  rw [zipIdx_append, foldl_append]
  refine addPiece_foldl_absorbed ?_
  intro q hq
  obtain ⟨p, hp, hpq⟩ := mem_map.mp (h.repeats q hq)
  obtain ⟨i, hi⟩ := getElem?_of_mem hp
  rw [← hpq]
  by_cases hne : p.1.bytes = []
  · exact .inl hne
  · obtain ⟨-, -, hlen⟩ := @addPiece_foldl_new first 0 (∅, 0) h.nodup (fun p _ => notMem_empty p.1)
    have hmem := mem_map_of_mem (f := Sigma.fst) (h.mem_entries hi hne)
    exact .inr ⟨mem_keys.mpr hmem, hlen p hp⟩

/-- The score that is stored at a place is the one of the piece there. -/
theorem scoresById (hs : scores.pieces = (scoresOf first).1) :
    (scores.scoresById first.length).length = first.length
      ∧ ∀ {i : Nat} {p : Str × Score}, first[i]? = some p → p.1.bytes ≠ [] →
        (scores.scoresById first.length)[i]? = some p.2 := by
  have hcells : scores.scoresById first.length
      = (scores.pieces.entries.map (fun e => (e.2.1.toNat, e.2.2))).foldl
          (fun out c => out.set c.1 (id c.2)) (replicate first.length 0) := by
    rw [foldl_map]
    rfl
  have hnodup : ((scores.pieces.entries.map (fun e => (e.2.1.toNat, e.2.2))).map Prod.fst).Nodup := by
    rw [hs, h.entries, map_map, map_reverse, nodup_reverse, map_map]
    have hsame : (first.zipIdx.filter (fun p => !p.1.1.bytes.isEmpty)).map
        (((fun e : Nat × Score => e.1) ∘ fun e : Sigma (fun _ : Str => TokenId × Score) => (e.2.1.toNat, e.2.2))
          ∘ fun p => ⟨p.1.1, (BitVec.ofNat 32 p.2, p.1.2)⟩)
        = (first.zipIdx.filter (fun p => !p.1.1.bytes.isEmpty)).map Prod.snd := by
      refine map_congr_left ?_
      intro p hp
      obtain ⟨hlt, -⟩ := List.getElem?_eq_some_iff.mp
        (mem_zipIdx_iff_getElem?.mp (mem_filter.mp hp).1)
      have hsmall := h.small
      exact (BitVec.toNat_ofNat _ _).trans (Nat.mod_eq_of_lt (by omega))
    refine hsame ▸ ((filter_sublist).map Prod.snd).nodup ?_
    rw [zipIdx_map_snd]
    exact nodup_range'
  refine ⟨by rw [hcells, foldl_set_length, length_replicate], ?_⟩
  intro i p hi hne
  have hlt := (List.getElem?_eq_some_iff.mp hi).1
  have hsmall := h.small
  have hmem : (i, p.2) ∈ scores.pieces.entries.map (fun e => (e.2.1.toNat, e.2.2)) := by
    rw [hs]
    refine mem_map.mpr ⟨_, h.mem_entries hi hne, ?_⟩
    rw [BitVec.toNat_ofNat, Nat.mod_eq_of_lt (by omega)]
  rw [hcells]
  exact foldl_set_of_mem hnodup hmem (by rw [length_replicate]; exact hlt)

end

end Repeating

theorem addPiece_congr : ∀ {l l' : List (Str × Score)} {k : Nat} {st : AList (fun _ : Str => TokenId × Score) × Nat},
    Forall₂ (fun p q => p.1 = q.1 ∧ (p.1.bytes ≠ [] → p.2 = q.2)) l l' →
    (l.zipIdx k).foldl addPiece st = (l'.zipIdx k).foldl addPiece st := by
  intro l
  induction l with
  | nil =>
    intro l' k st h
    cases h
    rfl
  | cons p l ih =>
    intro l' k st h
    cases h with
    | @cons _ q _ l' hpq hrest =>
      rw [zipIdx_cons, zipIdx_cons, foldl_cons, foldl_cons]
      have hsame : addPiece st (p, k) = addPiece st (q, k) := by
        by_cases hne : p.1.bytes = []
        · rw [addPiece_empty hne, addPiece_empty (hpq.1 ▸ hne)]
        · rw [Prod.ext hpq.1 (hpq.2 hne)]
      rw [hsame]
      exact ih hrest

theorem pieces_mapM : ∀ {first : List (Str × Score)} {scores : List Score}, scores.length = first.length →
    ((first.map (fun p => p.1.bytes)).zip scores).mapM (fun p => piece p.1 p.2)
      = .ok ((first.map Prod.fst).zip scores) := by
  intro first
  induction first with
  | nil => intro scores _; rfl
  | cons p first ih =>
    intro scores hlen
    cases scores with
    | nil => cases hlen
    | cons score scores =>
      have hp : piece p.1.bytes score = .ok (p.1, score) := dif_pos p.1.valid
      rw [map_cons, map_cons, zip_cons_cons, zip_cons_cons, mapM_cons, ok_bind hp, ok_bind (ih (by simpa using hlen))]
      rfl

theorem new_eq {pieces : List (Str × Score)} (hne : pieces ≠ []) (hsmall : pieces.length ≤ 2 ^ 32)
    (unkId : TokenId) : new pieces unkId
      = if unkId.toNat < pieces.length then
          .ok ⟨(Repeating.scoresOf pieces).1, (Repeating.scoresOf pieces).2, unkId⟩
        else .error .unkOutside := by
  unfold new
  rw [ok_bind (ensure_ok.mpr (decide_eq_true hne))]
  by_cases hunk : unkId.toNat < pieces.length
  · have hfit : ensure (decide (∀ p ∈ pieces.zipIdx, p.1.1.bytes.isEmpty ∨ p.2 < 2 ^ 32)) .tooLarge
        = .ok () := by
      rw [ensure_ok, decide_eq_true_eq]
      intro p hp
      have hlt := (List.getElem?_eq_some_iff.mp (mem_zipIdx_iff_getElem?.mp hp)).1
      exact .inr (by omega)
    rw [if_pos hunk, ok_bind (ensure_ok.mpr (decide_eq_true hunk)), ok_bind hfit]
    rfl
  · rw [if_neg hunk]
    simp only [ensure, hunk, decide_false]
    rfl

variable {first later : List (Str × Score)}

/-- The scores come back where the unknown is one of the pieces with an id. -/
theorem Repeating.rebuild (h : Repeating first later) (hne : first ≠ []) (hs : new (first ++ later) scores.unkId = .ok scores)
    (replacement : Str) (prependAlways : Bool) (eosId : Option TokenId) :
    rebuildPipeline (describePipeline (.unigram scores replacement prependAlways eosId))
        (first.map (fun p => p.1.bytes)) (some (words (scores.scoresById first.length)))
      = if scores.unkId.toNat < first.length then .ok (.unigram scores replacement prependAlways eosId)
        else .error (.load .unkOutside) := by
  unfold new at hs
  simp only [unit_bind_ok, ensure_ok] at hs
  obtain ⟨-, -, -, hs⟩ := hs
  rw [h.foldl_eq] at hs
  have hs := Except.ok.inj hs
  have hpieces : scores.pieces = (Repeating.scoresOf first).1 := by rw [← hs]
  obtain ⟨hlen, hscore⟩ := h.scoresById hpieces
  generalize scores.scoresById first.length = stored at hlen hscore
  -- the pieces that are read back have the spellings, and the scores that count
  have hagree : Forall₂ (fun p q => p.1 = q.1 ∧ (p.1.bytes ≠ [] → p.2 = q.2))
      ((first.map Prod.fst).zip stored) first := by
    rw [forall₂_iff_get]
    refine ⟨by simp [hlen], ?_⟩
    intro i h1 h2
    simp only [get_eq_getElem, getElem_zip, getElem_map, true_and]
    intro hb
    have := hscore (getElem?_eq_getElem h2) hb
    exact Option.some.inj ((getElem?_eq_getElem (by rw [hlen]; exact h2)).symm.trans this)
  have hback : Repeating.scoresOf ((first.map Prod.fst).zip stored) = Repeating.scoresOf first :=
    addPiece_congr hagree
  have hcount : ((first.map Prod.fst).zip stored).length = first.length := by simp [hlen]
  have hnonempty : (first.map Prod.fst).zip stored ≠ [] := by
    intro hnil
    rw [hnil] at hcount
    exact hne (length_eq_zero_iff.mp hcount.symm)
  have hnew := new_eq hnonempty (by rw [hcount]; exact h.small) scores.unkId
  rw [hback, hcount, hs] at hnew
  have hread : (readLe 4 (first.map (fun p => p.1.bytes)).length (words stored)).map (BitVec.ofNat 32)
      = stored := by
    rw [length_map, ← hlen]
    exact readLe_words stored
  have hsize : check (decide ((words stored).length = (first.map (fun p => p.1.bytes)).length * 4)) .scores
      = .ok () := by
    rw [check_ok, decide_eq_true_eq, words_length, hlen, length_map]
  show (check _ _ >>= _) = _
  rw [ok_bind hsize]
  simp only [hread]
  rw [ok_bind (pieces_mapM hlen), hnew]
  by_cases hunk : scores.unkId.toNat < first.length
  · rw [if_pos hunk, if_pos hunk]
  · rw [if_neg hunk, if_neg hunk]

/-- What the loader knows of a Unigram it built. -/
structure IsUnigram (t : Tokenizer) (first later : List (Str × Score)) (scores : UnigramScores)
    (replacement : Str) (eosId : Option TokenId) (added : List AddedToken) : Prop where
  ordered : Repeating first later
  nonempty : first ≠ []
  table : TableOk t.bpe
  length : t.bpe.decodeTable.length = first.length
  new : UnigramScores.new (first ++ later) scores.unkId = .ok scores
  spells : ∀ {i : Nat} {bytes : List UInt8}, t.bpe.decodeTable[i]? = some (some bytes) →
    ∃ p, first[i]? = some p ∧ p.1.bytes = bytes
  eq : t = .new t.bpe (.unigram scores replacement true eosId) added

theorem unigramFromValue_isUnigram {v : UnigramValue} (h : unigramFromValue v = .ok t) :
    ∃ first later scores eosId, IsUnigram t first later scores v.replacement eosId
      (v.addedTokens.map HfAddedToken.toAdded) := by
  unfold unigramFromValue at h
  rw [unit_bind_ok, ensure_ok, decide_eq_true_eq] at h
  obtain ⟨hsmall, h⟩ := h
  obtain ⟨eosId, -, h⟩ := bind_ok.mp h
  obtain ⟨scores, hscores, h⟩ := bind_ok.mp h
  obtain ⟨bpe, hbpe, h⟩ := bind_ok.mp h
  cases h
  have hbuilt := fromVocabAndMerges_built hbpe
  have hcont : BpeTable.maxId (unigramVocab v.pieces) + 1 = (unigramVocab v.pieces).entries.length := by
    unfold BpeTable.fromVocabAndMerges at hbpe
    simp only [unit_bind_ok, ensure_ok, decide_eq_true_eq] at hbpe
    exact hbpe.2.2.1
  obtain ⟨first, later, hsplit, hnodup, -, hlater, hlen, hids⟩ :=
    addFirst_split (rfl : v.pieces.zipIdx.foldl addFirst ∅ = _) (by omega) rfl (le_of_eq hcont)
  have hcount : bpe.decodeTable.length = first.length := by
    rw [hbuilt.length]
    exact hlen.trans (zero_add _)
  have hsmall := hbuilt.small
  have hunk : scores.unkId = v.unkId := by
    unfold new at hscores
    simp only [unit_bind_ok] at hscores
    obtain ⟨-, -, -, hs⟩ := hscores
    rw [← Except.ok.inj hs]
  refine ⟨first, later, scores, eosId, ⟨hnodup, by omega, ?_⟩, ?_, hbuilt.ok, hcount,
    by rw [hunk, ← hsplit]; exact hscores, ?_, rfl⟩
  · intro p hp
    exact (hlater p hp).resolve_left (notMem_empty _)
  · intro hnil
    rw [hnil] at hcount
    exact hbuilt.nonempty (length_eq_zero_iff.mp hcount)
  · -- an id is the place of the piece it spells
    intro i bytes hi
    have hlt : i < bpe.decodeTable.length := (List.getElem?_eq_some_iff.mp hi).1
    obtain ⟨token, htoken, hkey⟩ := hbuilt.spells hi
    rcases hids htoken with hempty | ⟨j, p, hj, hp, hij⟩
    · rw [lookup_empty] at hempty
      cases hempty
    · have hjlt := (List.getElem?_eq_some_iff.mp hj).1
      have : i = j := by
        have heq := congrArg BitVec.toNat hij
        rw [BitVec.toNat_ofNat, BitVec.toNat_ofNat, Nat.mod_eq_of_lt (by omega), Nat.mod_eq_of_lt (by omega)] at heq
        omega
      subst this
      exact ⟨p, hj, by rw [hp]; exact hkey⟩

/-- What `from_canonical` makes of the objects of a Unigram. -/
theorem IsUnigram.back (h : IsUnigram t first later scores replacement eosId added)
    (hc : t.toCanonical = .ok c) : Tokenizer.fromCanonical c
      = if scores.unkId.toNat < t.bpe.decodeTable.length then
          .ok (.new t.bpe t.pipeline (added.map t.describeAdded))
        else .error (.load .unkOutside) := by
  obtain ⟨tokens, htokens, hback⟩ := fromCanonical_toCanonical h.table hc
  have hpipe : t.pipeline = .unigram scores replacement true eosId := by rw [h.eq]; rfl
  have hadded : t.addedTokens = added := by rw [h.eq]; rfl
  have hlen : tokens.length = first.length := by
    rw [← h.length, htokens, length_map]
  have hspelled : tokens = first.map (fun p => p.1.bytes) := by
    refine ext_getElem? ?_
    intro i
    rw [getElem?_map]
    cases hi : tokens[i]? with
    | none =>
      have : first[i]? = none := by
        rw [getElem?_eq_none_iff] at hi ⊢
        omega
      rw [this]
      rfl
    | some bytes =>
      obtain ⟨p, hp, hb⟩ := @IsUnigram.spells _ _ _ _ _ _ _ h i bytes (by
        rw [htokens, getElem?_map, hi]
        rfl)
      rw [hp, ← hb]
      rfl
  have hstored : t.scoreBytes = some (words (scores.scoresById first.length)) := by
    unfold Tokenizer.scoreBytes
    rw [hpipe, h.length]
  rw [hback, hstored, hpipe, hspelled, h.ordered.rebuild h.nonempty h.new, hadded, h.length]
  by_cases hunk : scores.unkId.toNat < first.length
  · rw [if_pos hunk, if_pos hunk]
    rfl
  · rw [if_neg hunk, if_neg hunk]
    rfl

/-! ## What is kept -/

/-- The objects give back a tokenizer that encodes and decodes alike, with the same added tokens. -/
def Kept (encode : Tokenizer → Str → List TokenId) (t : Tokenizer) (c : CanonicalTokenizer) : Prop :=
  ∃ t', Tokenizer.fromCanonical c = .ok t' ∧ (∀ text, encode t' text = encode t text)
    ∧ (∀ ids skipSpecial, t'.decode ids skipSpecial = t.decode ids skipSpecial)
    ∧ t'.addedTokens = t.addedTokens ∧ t'.specialTokenIds = t.specialTokenIds

/-- The tokenizers the loader builds. -/
inductive HfLoads : Tokenizer → Prop where
  | bpe {hf : HfTokenizer} {profile : CompiledProfile} {t : Tokenizer} :
      CompiledProfile.IsBpe profile → fromHf hf profile = .ok t → HfLoads t
  | unigram {v : UnigramValue} {t : Tokenizer} : unigramFromValue v = .ok t → HfLoads t

/-- A Unigram whose unknown has an id, and whose added tokens are what their ids say. -/
def Restorable (t : Tokenizer) : Prop :=
  match t.pipeline with
  | .unigram scores _ _ _ =>
    scores.unkId.toNat < t.bpe.decodeTable.length
      ∧ ∀ token ∈ t.addedTokens, (t.bpe.idToBytes token.id).getD [] = token.content.bytes
        ∧ ∀ other ∈ t.addedTokens, other.id = token.id → other.special = true → token.special = true
  | _ => True

theorem kept_of_eq {encode : Tokenizer → Str → List TokenId}
    (h : Tokenizer.fromCanonical c = .ok t) : Kept encode t c :=
  ⟨t, h, fun _ => rfl, fun _ _ => rfl, rfl, rfl⟩

theorem IsUnigram.kept_iff (h : IsUnigram t first later scores replacement eosId added)
    (hc : t.toCanonical = .ok c) (encode : Tokenizer → Str → List TokenId) :
    Kept encode t c ↔ Restorable t := by
  have hback := h.back hc
  have hpipe : t.pipeline = .unigram scores replacement true eosId := by rw [h.eq]; rfl
  have hadded : t.addedTokens = added := by rw [h.eq]; rfl
  have htext : ∀ {id bytes}, t.bpe.idToBytes id = some bytes → Valid bytes := by
    intro id bytes hb
    obtain ⟨p, -, hp⟩ := h.spells (Option.join_eq_some_iff.mp hb)
    rw [← hp]
    exact p.1.valid
  have hdescribe : ∀ token ∈ added, (t.describeAdded token = token
      ↔ (t.bpe.idToBytes token.id).getD [] = token.content.bytes
        ∧ ∀ other ∈ added, other.id = token.id → other.special = true → token.special = true) := by
    intro token ht
    rw [h.eq]
    exact describeAdded_eq_iff ht (fun hb => htext hb)
  rw [Restorable, hpipe, hadded]
  constructor
  · rintro ⟨t', ht', -, -, hsame, -⟩
    rw [hback] at ht'
    by_cases hunk : scores.unkId.toNat < t.bpe.decodeTable.length
    · rw [if_pos hunk] at ht'
      cases ht'
      refine ⟨hunk, ?_⟩
      intro token ht
      refine (hdescribe token ht).mp ?_
      have hmap : added.map t.describeAdded = added.map id := by
        rw [map_id, ← hadded]
        rw [← hadded] at hsame
        exact hsame
      exact map_inj_left.mp hmap token ht
    · rw [if_neg hunk] at ht'
      cases ht'
  · rintro ⟨hunk, hall⟩
    rw [if_pos hunk] at hback
    have hmap : added.map t.describeAdded = added := by
      refine (map_congr_left ?_).trans (map_id _)
      intro token ht
      exact (hdescribe token ht).mpr (hall token ht)
    refine kept_of_eq ?_
    rw [hback, hmap, hpipe]
    exact congrArg Except.ok h.eq.symm

/-- **What the objects of a loaded tokenizer keep.** All of it for a BPE model; for a Unigram, exactly
where its unknown has an id and its added tokens are what their ids spell. -/
theorem canonical_kept_iff (encode : Tokenizer → Str → List TokenId) {t : Tokenizer} (h : HfLoads t)
    {c : CanonicalTokenizer} (hc : t.toCanonical = .ok c) : Kept encode t c ↔ Restorable t := by
  cases h with
  | @bpe hf profile _ hp hload =>
    have hback := fromHf_kept hp hload hc
    refine ⟨fun _ => ?_, fun _ => kept_of_eq hback⟩
    obtain ⟨st, -, rfl⟩ := fromHf_ok hload
    unfold CompiledProfile.IsBpe at hp
    unfold Restorable
    show (match profile.pipeline with
      | .unigram scores _ _ _ => _
      | _ => True)
    cases hpipe : profile.pipeline with
    | unigram a b c d =>
      rw [hpipe] at hp
      exact hp.elim
    | _ => trivial
  | unigram hload =>
    obtain ⟨first, later, scores, eosId, hload⟩ := unigramFromValue_isUnigram hload
    exact hload.kept_iff hc encode

/-- A Unigram of the one piece `a`, with an added token. -/
def lonePiece (added : HfAddedToken) : UnigramValue where
  pieces := [(⟨[0x61], by decide⟩, 0)]
  unkId := 0
  replacement := ⟨[0x5F], by decide⟩
  templateTail := none
  addedTokens := [added]

/-- An added token with the id of the piece and its text comes back. -/
theorem canonical_kept_piece : ∃ t c, HfLoads t ∧ t.toCanonical = .ok c ∧ ∀ encode, Kept encode t c := by
  have hload : ∃ t, unigramFromValue (lonePiece ⟨0, ⟨[0x61], by decide⟩, true, false, false, false, false⟩) = .ok t
      ∧ ∃ c, t.toCanonical = .ok c ∧ Restorable t := by
    refine ⟨_, rfl, _, rfl, ?_⟩
    refine ⟨by decide, ?_⟩
    intro token ht
    obtain rfl := List.mem_singleton.mp ht
    exact ⟨rfl, fun _ _ _ _ => rfl⟩
  obtain ⟨t, ht, c, hc, hr⟩ := hload
  exact ⟨t, c, .unigram ht, hc, fun encode => (canonical_kept_iff encode (.unigram ht) hc).mpr hr⟩

/-- An added token `b` whose id is outside of the vocabulary comes back as the empty text. -/
theorem canonical_loses_added : ∃ t c, HfLoads t ∧ t.toCanonical = .ok c ∧ ∀ encode, ¬ Kept encode t c := by
  have hload : ∃ t, unigramFromValue (lonePiece ⟨1, ⟨[0x62], by decide⟩, true, false, false, false, false⟩) = .ok t
      ∧ ∃ c, t.toCanonical = .ok c ∧ ¬ Restorable t := by
    refine ⟨_, rfl, _, rfl, ?_⟩
    rintro ⟨-, hall⟩
    have := (hall _ (List.mem_singleton.mpr rfl)).1
    cases this
  obtain ⟨t, ht, c, hc, hr⟩ := hload
  obtain ⟨first, later, scores, eosId, hu⟩ := unigramFromValue_isUnigram ht
  exact ⟨t, c, .unigram ht, hc, fun encode hk => hr ((hu.kept_iff hc encode).mp hk)⟩

end Pie.Proof
