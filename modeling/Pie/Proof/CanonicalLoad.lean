import Pie.Proof.CanonicalTables

/-!
# What the loader builds

A table that `from_vocab_and_merges` builds names ids of its vocabulary only,
and an id is the id of what it spells; adding tokens keeps that. So a tokenizer
with a BPE model is read back as it was: the added tokens spell what their ids
do, because the loader put them there.
-/

namespace Pie.Proof

open List Pie.Tokenizer Lib Lib.Utf8 BpeTable Tokenizer

variable {bpe : BpeTable} {raw normalizes : Bool} {id : TokenId} {pipeline : Pipeline} {size : Nat}
  {added : List AddedToken} {bytes : List UInt8} {hf : HfTokenizer} {profile : CompiledProfile} {t : Tokenizer}

/-! ## The vocabulary -/

/-- The tables after some entries: an id spells an entry, and is the id of its bytes. -/
structure Entered (raw : Bool) (size : Nat) (entries : List (Str × TokenId)) (st : BpeTable.Filling) :
    Prop where
  length : st.1.length = size
  bound : ∀ {bytes id}, st.2.lookup bytes = some id → id.toNat < size
  known : ∀ {i bytes}, st.1[i]? = some (some bytes) →
    st.2.lookup bytes = some (BitVec.ofNat 32 i)
      ∧ ∃ entry ∈ entries, entry.2.toNat = i ∧ BpeTable.key raw entry.1 = bytes

theorem addEntry_entered {entries : List (Str × TokenId)}
    {st st' : Filling} {entry : Str × TokenId} (h : Entered raw size entries st)
    (hadd : addEntry raw st entry = .ok st') : Entered raw size (entries ++ [entry]) st' := by
  unfold addEntry at hadd
  simp only [unit_bind_ok, ensure_ok, beq_iff_eq, Option.isNone_iff_eq_none] at hadd
  obtain ⟨hfree, hnew, hst⟩ := hadd
  cases hst
  have hlt : entry.2.toNat < size := by
    rw [← h.length]
    exact (List.getElem?_eq_some_iff.mp hfree).1
  have hself : BitVec.ofNat 32 entry.2.toNat = entry.2 := BitVec.eq_of_toNat_eq (by simp)
  refine ⟨by rw [length_set]; exact h.length, ?_, ?_⟩
  · intro bytes id hid
    by_cases hb : bytes = key raw entry.1
    · subst hb
      rw [Finmap.lookup_insert, Option.some.injEq] at hid
      rw [← hid]
      exact hlt
    · rw [Finmap.lookup_insert_of_ne _ hb] at hid
      exact h.bound hid
  · intro i bytes hi
    by_cases hid : entry.2.toNat = i
    · subst hid
      rw [getElem?_set_self (by rw [h.length]; exact hlt), Option.some.injEq, Option.some.injEq] at hi
      subst hi
      exact ⟨by rw [Finmap.lookup_insert, hself], entry, by simp, rfl, rfl⟩
    · rw [getElem?_set_ne hid] at hi
      obtain ⟨h1, e, he, h2⟩ := h.known hi
      have hb : bytes ≠ key raw entry.1 := by
        intro hb
        rw [hb, hnew] at h1
        cases h1
      exact ⟨by rw [Finmap.lookup_insert_of_ne _ hb]; exact h1, e, mem_append_left _ he, h2⟩

theorem addEntry_foldlM : ∀ {rest entries : List (Str × TokenId)}
    {st st' : Filling}, Entered raw size entries st →
    rest.foldlM (addEntry raw) st = .ok st' → Entered raw size (entries ++ rest) st' := by
  intro rest
  induction rest with
  | nil =>
    intro entries st st' h hrun
    cases hrun
    simpa using h
  | cons entry rest ih =>
    intro entries st st' h hrun
    obtain ⟨st₁, hadd, hrest⟩ := foldlM_ok_cons.mp hrun
    have := ih (addEntry_entered h hadd) hrest
    rwa [append_assoc] at this

theorem addMerge_foldlM {tokenToId : Finmap (fun _ : List UInt8 => TokenId)}
    (hbound : ∀ {bytes id}, tokenToId.lookup bytes = some id → id.toNat < size) :
    ∀ {pairs : List ((Str × Str) × Nat)} {merges merges'},
      (∀ {pair m}, merges.lookup pair = some m → pair.1.toNat < size ∧ pair.2.toNat < size ∧ m.2.toNat < size) →
      pairs.foldlM (addMerge raw tokenToId) merges = .ok merges' →
      ∀ {pair m}, merges'.lookup pair = some m →
        pair.1.toNat < size ∧ pair.2.toNat < size ∧ m.2.toNat < size := by
  intro pairs
  induction pairs with
  | nil =>
    intro merges merges' h hrun
    cases hrun
    exact h
  | cons p pairs ih =>
    intro merges merges' h hrun
    obtain ⟨merges₁, hadd, hrest⟩ := foldlM_ok_cons.mp hrun
    refine ih ?_ hrest
    simp only [addMerge] at hadd
    split at hadd
    · rename_i left right merged hl hr hm
      simp only [unit_bind_ok] at hadd
      obtain ⟨-, -, hst⟩ := hadd
      cases hst
      intro pair m hpair
      by_cases hp : pair = (left, right)
      · subst hp
        rw [Finmap.lookup_insert, Option.some.injEq] at hpair
        subst hpair
        exact ⟨hbound hl, hbound hr, hbound hm⟩
      · rw [Finmap.lookup_insert_of_ne _ hp] at hpair
        exact h hpair
    · cases hadd

theorem le_foldl_max : ∀ {l : List Nat} {acc x : Nat}, (x ≤ acc ∨ x ∈ l) → x ≤ l.foldl max acc := by
  intro l
  induction l with
  | nil => intro acc x h; simpa using h
  | cons y l ih =>
    intro acc x h
    rw [foldl_cons]
    refine ih ?_
    rcases h with h | h
    · exact .inl (le_trans h (le_max_left _ _))
    · rcases mem_cons.mp h with rfl | h
      · exact .inl (le_max_right _ _)
      · exact .inr h

/-- What `from_vocab_and_merges` gives: the table, and where its tokens come from. -/
structure Built (vocab : Vocabulary) (raw : Bool) (bpe : BpeTable) : Prop where
  ok : TableOk bpe
  length : bpe.decodeTable.length = vocab.entries.length
  nonempty : bpe.decodeTable ≠ []
  small : bpe.decodeTable.length < 2 ^ 32
  id_lt : ∀ {token id}, vocab.lookup token = some id → id.toNat < bpe.decodeTable.length
  spells : ∀ {i bytes}, bpe.decodeTable[i]? = some (some bytes) →
    ∃ token, vocab.lookup token = some (BitVec.ofNat 32 i) ∧ BpeTable.key raw token = bytes

theorem fromVocabAndMerges_built {vocab : Vocabulary} {merges : List (Str × Str)} (h : fromVocabAndMerges vocab merges raw = .ok bpe) : Built vocab raw bpe := by
  unfold fromVocabAndMerges at h
  simp only [unit_bind_ok, ensure_ok, decide_eq_true_eq] at h
  obtain ⟨hne, hsmall, hcont, h⟩ := h
  obtain ⟨st, hentries, h⟩ := bind_ok.mp h
  obtain ⟨table, hmerges, h⟩ := bind_ok.mp h
  cases h
  have hentered : Entered raw vocab.entries.length (vocab.entries.map (fun e => (e.1, e.2))) st := by
    have hinit : Entered raw vocab.entries.length [] (replicate vocab.entries.length none, ∅) := by
      refine ⟨by simp, ?_, ?_⟩
      · intro bytes id hid
        rw [Finmap.lookup_empty] at hid
        cases hid
      · intro i bytes hi
        rw [getElem?_replicate] at hi
        split at hi <;> simp at hi
    simpa using addEntry_foldlM hinit hentries
  have hid : ∀ {token id}, vocab.lookup token = some id → id.toNat < vocab.entries.length := by
    intro token id hl
    have hmem : (⟨token, id⟩ : Sigma fun _ : Str => TokenId) ∈ vocab.entries := AList.mem_lookup_iff.mp hl
    have hle : id.toNat ≤ maxId vocab :=
      le_foldl_max (.inr (mem_map_of_mem (f := fun e => e.2.toNat) hmem))
    omega
  have hlen := hentered.length
  refine ⟨⟨by rw [hlen]; omega, ?_, by simp, ?_, fun hi => (hentered.known hi).1⟩, hlen, ?_, by rw [hlen]; omega,
    fun hl => by rw [hlen]; exact hid hl, ?_⟩
  · rw [hlen]
    refine addMerge_foldlM hentered.bound ?_ hmerges
    intro pair m hp
    rw [Finmap.lookup_empty] at hp
    cases hp
  · intro id hmem
    rw [hlen]
    obtain ⟨byte, -, hb⟩ := mem_map.mp hmem
    unfold lookupBytes at hb
    split at hb
    · exact hid hb
    · cases hb
  · intro hnil
    rw [show st.1 = [] from hnil] at hlen
    exact hne (length_eq_zero_iff.mp hlen.symm)
  · intro i bytes hi
    obtain ⟨h1, e, he, h2, h3⟩ := hentered.known hi
    obtain ⟨s, hs, rfl⟩ := mem_map.mp he
    refine ⟨s.1, ?_, h3⟩
    have hi' : BitVec.ofNat 32 i = s.2 := BitVec.eq_of_toNat_eq (by rw [← h2]; simp)
    rw [hi']
    exact AList.mem_lookup_iff.mpr hs

/-! ## Added tokens -/

theorem insertAdded_ok {bpe bpe' : BpeTable} (h : TableOk bpe)
    (hadd : bpe.insertAdded bytes id = .ok bpe') : TableOk bpe'
      ∧ bpe'.decodeTable[id.toNat]? = some (some bytes)
      ∧ ∀ i < bpe.decodeTable.length, i ≠ id.toNat → bpe'.decodeTable[i]? = bpe.decodeTable[i]? := by
  unfold insertAdded at hadd
  rw [unit_bind_ok, ensure_ok, decide_eq_true_eq] at hadd
  obtain ⟨hle, hadd⟩ := hadd
  obtain ⟨tokenToId, hmap, hadd⟩ := bind_ok.mp hadd
  cases hadd
  have hself : BitVec.ofNat 32 id.toNat = id := BitVec.eq_of_toNat_eq (by simp)
  -- the bytes get the id, and no other bytes lose theirs
  have hids : tokenToId.lookup bytes = some id
      ∧ ∀ {b x}, bpe.tokenToId.lookup b = some x → tokenToId.lookup b = some x := by
    unfold claimBytes at hmap
    cases hl : bpe.tokenToId.lookup bytes with
    | none =>
      simp only [hl] at hmap
      cases hmap
      refine ⟨Finmap.lookup_insert _, ?_⟩
      intro b x hb
      have hne : b ≠ bytes := fun h => by rw [h, hl] at hb; cases hb
      rw [Finmap.lookup_insert_of_ne _ hne]
      exact hb
    | some previous =>
      simp only [hl] at hmap
      split at hmap
      · rename_i he
        cases hmap
        exact ⟨he ▸ hl, fun hb => hb⟩
      · cases hmap
  obtain ⟨hnew, hkeep⟩ := hids
  set table := if id.toNat = bpe.decodeTable.length then bpe.decodeTable ++ [some bytes]
    else bpe.decodeTable.set id.toNat (some bytes) with htable
  have hsize : bpe.decodeTable.length ≤ table.length ∧ table.length ≤ 2 ^ 32 := by
    have hlt := id.isLt
    have hsz := h.size
    rw [htable]
    split
    · rw [length_append, length_singleton]
      omega
    · rw [length_set]
      omega
  have hat : table[id.toNat]? = some (some bytes) := by
    rw [htable]
    split
    · rename_i he
      rw [he, getElem?_append_right (le_refl _)]
      simp
    · exact getElem?_set_self (by omega)
  have hother : ∀ i < bpe.decodeTable.length, i ≠ id.toNat → table[i]? = bpe.decodeTable[i]? := by
    intro i hi hne
    rw [htable]
    split
    · exact getElem?_append_left hi
    · exact getElem?_set_ne (fun h => hne h.symm)
  refine ⟨⟨hsize.2, ?_, h.fallback, ?_, ?_⟩, hat, hother⟩
  · intro pair m hm
    obtain ⟨hl, hr, hm⟩ := h.merges hm
    exact ⟨lt_of_lt_of_le hl hsize.1, lt_of_lt_of_le hr hsize.1, lt_of_lt_of_le hm hsize.1⟩
  · intro x hx
    have := h.fallback_mem hx
    exact lt_of_lt_of_le this hsize.1
  · intro i b hi
    by_cases hid : i = id.toNat
    · subst hid
      rw [hat, Option.some.injEq, Option.some.injEq] at hi
      rw [← hi, hself]
      exact hnew
    · have hlt : i < table.length := (List.getElem?_eq_some_iff.mp hi).1
      have hlt' : i < bpe.decodeTable.length := by
        rw [htable] at hlt
        split at hlt
        · rw [length_append, length_singleton] at hlt
          omega
        · rwa [length_set] at hlt
      rw [hother i hlt' hid] at hi
      exact hkeep (h.known hi)

/-- The tables after some added tokens, each spelled where its id is. -/
structure AddedOk (st : Adding) : Prop where
  table : TableOk st.bpe
  spelled : ∀ token ∈ st.addedTokens, st.bpe.decodeTable[token.id.toNat]? = some (some token.content.bytes)
  ids : ∀ token ∈ st.addedTokens, token.id ∈ st.ids
  nodup : (st.addedTokens.map (·.id)).Nodup

theorem addToken_ok {st st' : Adding} {token : HfAddedToken} (h : AddedOk st)
    (hadd : addToken normalizes st token = .ok st') : AddedOk st' := by
  unfold addToken at hadd
  simp only [unit_bind_ok, ensure_ok, Bool.not_eq_true', contains_eq_mem, decide_eq_false_iff_not] at hadd
  obtain ⟨-, hid, -, -, -, hadd⟩ := hadd
  obtain ⟨bpe, hins, hst⟩ := bind_ok.mp hadd
  cases hst
  obtain ⟨h1, h2, h3⟩ := insertAdded_ok h.table hins
  refine ⟨h1, ?_, ?_, ?_⟩
  · intro t ht
    rcases mem_append.mp ht with ht | ht
    · have hat := h.spelled t ht
      have hne : t.id.toNat ≠ token.id.toNat := by
        intro he
        exact hid (BitVec.eq_of_toNat_eq he ▸ h.ids t ht)
      rw [h3 _ (List.getElem?_eq_some_iff.mp hat).1 hne]
      exact hat
    · rw [mem_singleton.mp ht]
      exact h2
  · intro t ht
    rcases mem_append.mp ht with ht | ht
    · exact mem_cons_of_mem _ (h.ids t ht)
    · rw [mem_singleton.mp ht]
      exact mem_cons_self
  · rw [map_append, nodup_append]
    refine ⟨h.nodup, by simp, ?_⟩
    intro a ha b hb
    obtain ⟨t, ht, rfl⟩ := mem_map.mp ha
    simp only [map_cons, map_nil, mem_singleton] at hb
    intro he
    have he : t.id = token.id := he.trans hb
    exact hid (he ▸ h.ids t ht)

theorem addToken_foldlM : ∀ {tokens : List HfAddedToken} {st st' : Adding},
    AddedOk st → tokens.foldlM (addToken normalizes) st = .ok st' → AddedOk st' := by
  intro tokens
  induction tokens with
  | nil =>
    intro st st' h hrun
    cases hrun
    exact h
  | cons token tokens ih =>
    intro st st' h hrun
    obtain ⟨st₁, hadd, hrest⟩ := foldlM_ok_cons.mp hrun
    exact ih (addToken_ok h hadd) hrest

theorem mem_specialTokenIds : (new bpe pipeline added).isSpecial id = true
      ↔ ∃ token ∈ added, token.special = true ∧ token.id = id := by
  unfold isSpecial new
  rw [contains_iff_mem, (mergeSort_perm _ _).mem_iff, mem_map]
  simp only [mem_filter, and_assoc]

theorem describeAdded_eq_iff {token : AddedToken} (ht : token ∈ added)
    (htext : ∀ {bytes}, bpe.idToBytes token.id = some bytes → Valid bytes) :
    (new bpe pipeline added).describeAdded token = token
      ↔ (bpe.idToBytes token.id).getD [] = token.content.bytes
        ∧ ∀ other ∈ added, other.id = token.id → other.special = true → token.special = true := by
  have hcontent : (describeAdded (new bpe pipeline added) token).content.bytes
      = (bpe.idToBytes token.id).getD [] := by
    unfold describeAdded
    rw [show (new bpe pipeline added).bpe = bpe from rfl]
    cases hb : bpe.idToBytes token.id with
    | none => rfl
    | some bytes => exact fromUtf8Lossy_valid (htext hb)
  have hspecial : (new bpe pipeline added).isSpecial token.id = token.special
      ↔ ∀ other ∈ added, other.id = token.id → other.special = true → token.special = true := by
    constructor
    · intro he other ho hid hs
      rw [← he, mem_specialTokenIds]
      exact ⟨other, ho, hs, hid⟩
    · intro hall
      cases hs : token.special with
      | true => exact mem_specialTokenIds.mpr ⟨token, ht, hs, rfl⟩
      | false =>
        cases hm : (new bpe pipeline added).isSpecial token.id with
        | false => rfl
        | true =>
          obtain ⟨other, ho, hos, hid⟩ := mem_specialTokenIds.mp hm
          have := hall other ho hid hos
          rw [hs] at this
          cases this
  rw [← hcontent, ← hspecial, ← Str.ext_iff]
  constructor
  · intro he
    rw [he]
    exact ⟨rfl, congrArg AddedToken.special he⟩
  · rintro ⟨h1, h2⟩
    cases token
    simp only [describeAdded] at h1 ⊢
    simp only [AddedToken.mk.injEq, true_and, and_true]
    exact ⟨h1, h2⟩

/-! ## BPE models -/

/-- The pipelines `compile_profile` gives. -/
def CompiledProfile.IsBpe (profile : CompiledProfile) : Prop :=
  match profile.pipeline with
  | .byteLevelRegex .. => True
  | .byteFallbackReplace .. => True
  | _ => False

theorem rebuildSplitter_describe (s : Splitter) : rebuildSplitter (describeSplitter s) = s := by
  obtain ⟨regex, keepGaps⟩ := s
  cases keepGaps <;> rfl

theorem rebuildPipeline_bpe (h : ∀ a b c d, pipeline ≠ .unigram a b c d)
    (vocab : List (List UInt8)) (scores : Option (List UInt8)) :
    rebuildPipeline (describePipeline pipeline) vocab scores = .ok pipeline := by
  cases pipeline with
  | byteLevelRegex nfc splitters mode =>
    have hs : (splitters.map describeSplitter).map rebuildSplitter = splitters := by
      rw [map_map]
      exact (map_congr_left (fun s _ => rebuildSplitter_describe s)).trans (map_id _)
    cases mode <;> simp [describePipeline, rebuildPipeline, hs]
  | byteFallbackReplace from_ to_ unk dummy strip => rfl
  | unigram a b c d => exact absurd rfl (h a b c d)
  | rawChar => rfl

theorem idToBytes_eq (h : bpe.decodeTable[id.toNat]? = some (some bytes)) : bpe.idToBytes id = some bytes := by
  rw [idToBytes, h]
  rfl

theorem fromHf_ok
    (h : fromHf hf profile = .ok t) : ∃ st, AddedOk st ∧ t = .new st.bpe profile.pipeline st.addedTokens := by
  unfold fromHf at h
  obtain ⟨bpe, hbuilt, h⟩ := bind_ok.mp h
  have hinit : AddedOk ⟨bpe, [], [], []⟩ :=
    ⟨(fromVocabAndMerges_built hbuilt).ok, by simp, by simp, by simp⟩
  split at h
  all_goals
    obtain ⟨-, h⟩ := unit_bind_ok.mp h
    obtain ⟨st, hst, h⟩ := bind_ok.mp h
    exact ⟨st, addToken_foldlM hinit hst, (Except.ok.inj h).symm⟩

/-- **A BPE tokenizer is read back as it was written.** -/
theorem fromHf_kept (hp : CompiledProfile.IsBpe profile) (h : fromHf hf profile = .ok t) {c : CanonicalTokenizer} (hc : t.toCanonical = .ok c) :
    fromCanonical c = .ok t := by
  obtain ⟨st, hadded, rfl⟩ := fromHf_ok h
  obtain ⟨tokens, -, hback⟩ := fromCanonical_toCanonical hadded.table hc
  have hpipe : ∀ a b c d, profile.pipeline ≠ .unigram a b c d := by
    intro a b c d he
    rw [CompiledProfile.IsBpe, he] at hp
    exact hp
  have hsame : st.addedTokens.map (describeAdded (.new st.bpe profile.pipeline st.addedTokens))
      = st.addedTokens := by
    refine (map_congr_left ?_).trans (map_id _)
    intro token ht
    have hat := idToBytes_eq (hadded.spelled token ht)
    refine (describeAdded_eq_iff ht ?_).mpr ⟨by rw [hat]; rfl, ?_⟩
    · intro bytes hb
      rw [hat, Option.some.injEq] at hb
      rw [← hb]
      exact token.content.valid
    · intro other ho hid hs
      rw [← inj_on_of_nodup_map hadded.nodup ho ht hid]
      exact hs
  rw [hback]
  show (rebuildPipeline (describePipeline profile.pipeline) _ _ >>= _) = _
  rw [rebuildPipeline_bpe hpipe]
  show Except.ok (new st.bpe profile.pipeline (st.addedTokens.map _)) = _
  rw [hsame]

end Pie.Proof
