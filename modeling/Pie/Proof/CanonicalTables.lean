import Pie.Tokenizer.Canonical
import Pie.Lib.Loops

/-!
# The objects of a tokenizer, read back

Each object that `to_canonical` writes is read back as what was written: the
words of a table, the tokens between the offsets, the merges, the fallback ids.
What is not written is what the vocabulary gives: `derivable_eq` says that the
check `to_canonical` makes first is enough for that.
-/

namespace Pie.Proof

open Pie.Tokenizer Lib Lib.Utf8 BpeTable BitVec Finmap

variable {bpe : BpeTable} {size : Nat} {tokens : List (List UInt8)} {β ε α : Type} {b : β} {c : Bool}
  {f : α → Except ε β} {x : Except ε α} {a : α}

/-! ## Results that may fail -/

theorem check_ok {e : CanonicalError} : check c e = .ok () ↔ c = true := by
  unfold check
  cases c <;> simp

theorem ensure_ok {e : LoadError} : ensure c e = .ok () ↔ c = true := by
  unfold ensure
  cases c <;> simp

theorem bind_ok : (x >>= f) = .ok b ↔ ∃ a, x = .ok a ∧ f a = .ok b := by
  cases x with
  | error e =>
    refine ⟨fun h => ?_, ?_⟩
    · cases h
    · rintro ⟨a, h, -⟩
      cases h
  | ok a =>
    refine ⟨fun h => ⟨a, rfl, h⟩, ?_⟩
    rintro ⟨a', h, h'⟩
    cases h
    exact h'

theorem unit_bind_ok {x : Except ε Unit} {f : Unit → Except ε β} : (x >>= f) = .ok b ↔ x = .ok () ∧ f () = .ok b := by
  rw [bind_ok]
  exact ⟨fun ⟨a, h, h'⟩ => ⟨h, h'⟩, fun ⟨h, h'⟩ => ⟨(), h, h'⟩⟩

theorem ok_bind (h : x = .ok a) : (x >>= f) = f a := by
  rw [h]
  rfl

theorem foldlM_ok_cons {ε α σ : Type} {f : σ → α → Except ε σ} {s s' : σ} {a : α} {l : List α} :
    (a :: l).foldlM f s = .ok s' ↔ ∃ s₁, f s a = .ok s₁ ∧ l.foldlM f s₁ = .ok s' := by
  rw [List.foldlM_cons, bind_ok]

/-! ## Words -/

theorem words_length (l : List TokenId) : (words l).length = l.length * 4 := by
  induction l with
  | nil => rfl
  | cons x l ih =>
    have hcons : words (x :: l) = toLe 4 x.toNat ++ words l := rfl
    rw [hcons, List.length_append, ih, toLe_length, List.length_cons]
    omega

theorem readLe_words (l : List TokenId) : (readLe 4 l.length (words l)).map (BitVec.ofNat 32) = l := by
  have h := readLe_flatMap (n := 4) (l.map BitVec.toNat) (by
    intro x hx
    obtain ⟨y, -, rfl⟩ := List.mem_map.mp hx
    exact y.isLt)
  rw [List.length_map] at h
  rw [words, h, List.map_map]
  refine (List.map_congr_left ?_).trans (List.map_id l)
  intro x _
  exact eq_of_toNat_eq (by simp)

theorem readU32s_words (l : List TokenId) : readU32s (words l) = some l := by
  rw [readU32s, words_length, if_pos (by omega), show l.length * 4 / 4 = l.length by omega, readLe_words]

theorem readWords_words (l : List TokenId) (e : CanonicalError) : readWords (words l) e = .ok l := by
  rw [readWords, readU32s_words]

/-! ## The vocabulary -/

/-- Where the tokens end, from position `n` on. -/
def ends : Nat → List (List UInt8) → List TokenId
  | _, [] => []
  | n, t :: ts => BitVec.ofNat 32 (n + t.length) :: ends (n + t.length) ts

theorem addVocab_ok {st st' : List UInt8 × List TokenId} {entry : Option (List UInt8)}
    (h : Tokenizer.addVocab st entry = .ok st') : ∃ bytes, entry = some bytes
      ∧ (st.1 ++ bytes).length < 2 ^ 32
      ∧ st' = (st.1 ++ bytes, st.2 ++ [BitVec.ofNat 32 (st.1 ++ bytes).length]) := by
  cases entry with
  | none => cases h
  | some bytes =>
    simp only [Tokenizer.addVocab] at h
    rw [unit_bind_ok, check_ok, decide_eq_true_eq] at h
    exact ⟨bytes, rfl, h.1, (Except.ok.inj h.2).symm⟩

/-- **Writing the vocabulary** concatenates tokens that are all there. -/
theorem addVocab_foldlM : ∀ {table : List (Option (List UInt8))} {st st' : List UInt8 × List TokenId},
    table.foldlM Tokenizer.addVocab st = .ok st' → st.1.length < 2 ^ 32 →
    ∃ tokens, table = tokens.map some
      ∧ st' = (st.1 ++ tokens.flatten, st.2 ++ ends st.1.length tokens)
      ∧ (st.1 ++ tokens.flatten).length < 2 ^ 32 := by
  intro table
  induction table with
  | nil =>
    intro st st' h hlt
    cases h
    exact ⟨[], rfl, by simp [ends], by simpa using hlt⟩
  | cons entry table ih =>
    intro st st' h _
    obtain ⟨st₁, h₁, h₂⟩ := foldlM_ok_cons.mp h
    obtain ⟨bytes, rfl, hlt, rfl⟩ := addVocab_ok h₁
    obtain ⟨tokens, rfl, rfl, hlen⟩ := ih h₂ hlt
    refine ⟨bytes :: tokens, rfl, ?_, ?_⟩
    · simp [ends, List.append_assoc]
    · simpa [List.append_assoc] using hlen

theorem ends_getLastD : ∀ {tokens : List (List UInt8)} {n : Nat} {x : TokenId}, x = BitVec.ofNat 32 n →
    (x :: ends n tokens).getLastD 0 = BitVec.ofNat 32 (n + tokens.flatten.length) := by
  intro tokens
  induction tokens with
  | nil => intro n x h; simp [ends, h]
  | cons t ts ih =>
    intro n x _
    have hlast : ∀ (y : TokenId) (l : List TokenId), (x :: y :: l).getLastD 0 = (y :: l).getLastD 0 := by
      intro y l
      rw [List.getLastD_cons, List.getLastD_cons, List.getLastD_cons]
    rw [ends, hlast, ih rfl, List.flatten_cons, List.length_append, add_assoc]

/-- **Reading the vocabulary** cuts the tokens out again. -/
theorem spans_ok : ∀ {tokens : List (List UInt8)} {before all : List UInt8},
    all = before ++ tokens.flatten → all.length < 2 ^ 32 →
    ((BitVec.ofNat 32 before.length :: ends before.length tokens).zip (ends before.length tokens)).mapM
      (span all) = .ok tokens := by
  intro tokens
  induction tokens with
  | nil => intro before all _ _; rfl
  | cons t ts ih =>
    intro before all hall hlt
    have hlen := congrArg List.length hall
    simp only [List.flatten_cons, List.length_append] at hlen
    have h1 : (BitVec.ofNat 32 before.length).toNat = before.length := by
      rw [toNat_ofNat]
      exact Nat.mod_eq_of_lt (by omega)
    have h2 : (BitVec.ofNat 32 (before.length + t.length)).toNat = before.length + t.length := by
      rw [toNat_ofNat]
      exact Nat.mod_eq_of_lt (by omega)
    have hspan : span all (BitVec.ofNat 32 before.length, BitVec.ofNat 32 (before.length + t.length))
        = .ok t := by
      simp only [span, h1, h2]
      rw [unit_bind_ok, check_ok, decide_eq_true_eq]
      refine ⟨⟨by omega, by omega⟩, ?_⟩
      rw [hall, List.flatten_cons, ← List.append_assoc, List.take_left' (by simp), List.drop_left]
    have := @ih (before ++ t) all (by simpa using hall) hlt
    rw [List.length_append] at this
    rw [ends, List.zip_cons_cons, List.mapM_cons]
    exact bind_ok.mpr ⟨t, hspan, bind_ok.mpr ⟨ts, this, rfl⟩⟩

theorem derivedMap_some (tokens : List (List UInt8)) :
    derivedMap (tokens.map some) = firstIds tokens := by
  unfold derivedMap firstIds
  rw [List.zipIdx_map, List.foldl_map]
  rfl

/-- **The check is enough**: a map that it passes is the one the vocabulary gives. -/
theorem derivable_eq (hd : bpe.decodeTable = tokens.map some)
    (h : bpe.encodeMapIsDerivable = true) : bpe.tokenToId = firstIds tokens := by
  unfold encodeMapIsDerivable at h
  rw [hd, derivedMap_some] at h
  simp only [Bool.and_eq_true, decide_eq_true_eq] at h
  obtain ⟨hcard, hall⟩ := h
  have hsub : bpe.tokenToId.keys ⊆ (firstIds tokens).keys := by
    intro k hk
    rw [mem_keys, ← lookup_isSome, hall k hk, lookup_isSome, ← mem_keys]
    exact hk
  have hkeys := Finset.eq_of_subset_of_card_le hsub (le_of_eq hcard)
  refine ext_lookup ?_
  intro k
  by_cases hk : k ∈ bpe.tokenToId.keys
  · exact (hall k hk).symm
  · have h1 : bpe.tokenToId.lookup k = none :=
      lookup_eq_none.mpr (fun h => hk (mem_keys.mpr h))
    have h2 : (firstIds tokens).lookup k = none :=
      lookup_eq_none.mpr (fun h => hk (hkeys ▸ mem_keys.mpr h))
    rw [h1, h2]

/-! ## Merges -/

theorem quads_flatMap (l : List (TokenId × TokenId × TokenId × TokenId)) :
    quads (l.flatMap (fun q => [q.1, q.2.1, q.2.2.1, q.2.2.2])) = l := by
  induction l with
  | nil => rfl
  | cons q l ih =>
    rw [List.flatMap_cons]
    exact congrArg (q :: ·) ih

theorem flatMap_length (l : List (TokenId × TokenId × TokenId × TokenId)) :
    (l.flatMap (fun q => [q.1, q.2.1, q.2.2.1, q.2.2.2])).length % 4 = 0 := by
  induction l with
  | nil => rfl
  | cons q l ih =>
    rw [List.flatMap_cons, List.length_append]
    simp only [List.length_cons, List.length_nil]
    omega

theorem addQuad_foldlM {merges : Finmap (fun _ : TokenId × TokenId => TokenId × TokenId)}
    (hin : ∀ {pair m}, merges.lookup pair = some m → pair.1.toNat < size ∧ pair.2.toNat < size ∧ m.2.toNat < size) :
    ∀ {pairs : List (TokenId × TokenId)} {table}, pairs.Nodup → (∀ p ∈ pairs, p ∈ merges) →
      (∀ p ∈ pairs, table.lookup p = none) →
      ∃ table', (pairs.filterMap (fun pair => (merges.lookup pair).map
          (fun m => (pair.1, pair.2, m.1, m.2)))).foldlM (addQuad size) table = .ok table'
        ∧ ∀ p, table'.lookup p = if p ∈ pairs then merges.lookup p else table.lookup p := by
  intro pairs
  induction pairs with
  | nil => intro table _ _ _; exact ⟨table, rfl, fun p => by simp⟩
  | cons pair pairs ih =>
    intro table hnd hmem hfree
    rw [List.nodup_cons] at hnd
    obtain ⟨m, hm⟩ := Option.isSome_iff_exists.mp
      (lookup_isSome.mpr (hmem pair List.mem_cons_self))
    have hadd : addQuad size table (pair.1, pair.2, m.1, m.2)
        = .ok (table.insert pair m) := by
      simp only [addQuad]
      rw [unit_bind_ok, check_ok, decide_eq_true_eq, unit_bind_ok, check_ok]
      refine ⟨hin hm, ?_, rfl⟩
      rw [hfree pair List.mem_cons_self]
      rfl
    obtain ⟨table', hrun, hlook⟩ := @ih (table.insert pair m) hnd.2
      (fun p hp => hmem p (List.mem_cons_of_mem _ hp)) (by
        intro p hp
        have hne : p ≠ pair := fun h => hnd.1 (h ▸ hp)
        rw [lookup_insert_of_ne _ hne]
        exact hfree p (List.mem_cons_of_mem _ hp))
    refine ⟨table', ?_, ?_⟩
    · rw [List.filterMap_cons, hm]
      exact foldlM_ok_cons.mpr ⟨_, hadd, hrun⟩
    · intro p
      rw [hlook]
      by_cases hp : p = pair
      · subst hp
        simp [hnd.1, lookup_insert, hm]
      · simp [hp, lookup_insert_of_ne _ hp]

theorem mergeQuads_foldlM (hin : ∀ {pair m}, bpe.merges.lookup pair = some m →
    pair.1.toNat < size ∧ pair.2.toNat < size ∧ m.2.toNat < size) :
    bpe.mergeQuads.foldlM (addQuad size) ∅ = .ok bpe.merges := by
  obtain ⟨table, hrun, hlook⟩ := @addQuad_foldlM _ _ hin (bpe.merges.keys.sort pairLe) ∅
    (Finset.sort_nodup _ _) (by
      intro p hp
      exact mem_keys.mp ((Finset.mem_sort _).mp hp)) (fun p _ => lookup_empty p)
  rw [mergeQuads, hrun]
  congr 1
  refine ext_lookup ?_
  intro p
  rw [hlook]
  split
  · rfl
  · rename_i hp
    have hno : p ∉ bpe.merges := fun h => hp ((Finset.mem_sort _).mpr (mem_keys.mpr h))
    rw [lookup_empty, lookup_eq_none.mpr hno]

theorem fallback_map {ids : List (Option TokenId)} (hsize : size < 2 ^ 32)
    (hin : ∀ {id}, some id ∈ ids → id.toNat < size) :
    (ids.map (fun id => id.getD noToken)).map (fun id => if id ≠ noToken then some id else none) = ids := by
  rw [List.map_map]
  refine (List.map_congr_left ?_).trans (List.map_id ids)
  intro id hid
  cases id with
  | none => simp [noToken]
  | some id =>
    have hlt := hin hid
    have hne : id ≠ noToken := by
      intro h
      rw [h, noToken, toNat_allOnes] at hlt
      omega
    simp [hne]

/-! ## The whole -/

/-- What the loaders keep of a table: the ids it names are of its vocabulary, and an id is the id of
what it spells. -/
structure TableOk (bpe : BpeTable) : Prop where
  size : bpe.decodeTable.length ≤ 2 ^ 32
  merges : ∀ {pair m}, bpe.merges.lookup pair = some m → pair.1.toNat < bpe.decodeTable.length
    ∧ pair.2.toNat < bpe.decodeTable.length ∧ m.2.toNat < bpe.decodeTable.length
  fallback : bpe.byteFallbackIds.length = 256
  fallback_mem : ∀ {id}, some id ∈ bpe.byteFallbackIds → id.toNat < bpe.decodeTable.length
  known : ∀ {i bytes}, bpe.decodeTable[i]? = some (some bytes) →
    bpe.tokenToId.lookup bytes = some (BitVec.ofNat 32 i)

theorem length_le_of_nodup (h : tokens.Nodup) : 2 * tokens.length ≤ tokens.flatten.length + 2 * 257 := by
  set short := tokens.filter (fun t => decide (t.length ≤ 1)) with hshort
  have hfew : short.length ≤ 257 := by
    have hsub : short ⊆ [] :: (List.range 256).map (fun b => [UInt8.ofNat b]) := by
      intro t ht
      have hlen : t.length ≤ 1 := by simpa using (List.mem_filter.mp ht).2
      cases t with
      | nil => exact List.mem_cons_self
      | cons b rest =>
        obtain rfl : rest = [] := by
          rw [List.length_cons] at hlen
          exact List.length_eq_zero_iff.mp (by omega)
        refine List.mem_cons_of_mem _ (List.mem_map.mpr ⟨b.toNat, List.mem_range.mpr b.toNat_lt, ?_⟩)
        simp
    have := (List.Nodup.subperm (h.filter _) hsub).length_le
    simpa using this
  have hsum : ∀ l : List (List UInt8), 2 * l.length ≤ l.flatten.length
      + 2 * (l.filter (fun t => decide (t.length ≤ 1))).length := by
    intro l
    induction l with
    | nil => simp
    | cons t l ih =>
      rw [List.flatten_cons, List.length_append, List.length_cons, List.filter_cons]
      by_cases ht : t.length ≤ 1
      · simp only [ht, decide_true, if_true, List.length_cons]
        omega
      · simp only [ht, decide_false, Bool.false_eq_true, if_false]
        omega
  have := hsum tokens
  rw [← hshort] at this
  omega

theorem TableOk.nodup (h : TableOk bpe) (hd : bpe.decodeTable = tokens.map some) : tokens.Nodup := by
  have hsize := h.size
  rw [hd, List.length_map] at hsize
  refine List.nodup_iff_injective_get.mpr ?_
  intro i j hij
  have hat : ∀ k : Fin tokens.length, bpe.tokenToId.lookup (tokens.get k) = some (BitVec.ofNat 32 k) := by
    intro k
    refine h.known ?_
    rw [hd, List.getElem?_map, List.getElem?_eq_getElem k.isLt]
    rfl
  have hk := hat i
  rw [hij, hat j, Option.some.injEq] at hk
  have := congrArg BitVec.toNat hk
  rw [toNat_ofNat, toNat_ofNat, Nat.mod_eq_of_lt (by omega), Nat.mod_eq_of_lt (by omega)] at this
  exact Fin.ext this.symm

/-- **Reading back what was written**: the table is the one written, and what is left to decide is
the pipeline. -/
theorem fromCanonical_toCanonical {t : Tokenizer} (h : TableOk t.bpe) {c : CanonicalTokenizer}
    (hc : t.toCanonical = .ok c) : ∃ tokens, t.bpe.decodeTable = tokens.map some
      ∧ Tokenizer.fromCanonical c =
        (rebuildPipeline (describePipeline t.pipeline) tokens t.scoreBytes >>= fun pipeline =>
          .ok (.new t.bpe pipeline (t.addedTokens.map t.describeAdded))) := by
  unfold Tokenizer.toCanonical at hc
  rw [unit_bind_ok, check_ok] at hc
  obtain ⟨hder, hc⟩ := hc
  obtain ⟨st, hvocab, hc⟩ := bind_ok.mp hc
  obtain ⟨tokens, hd, rfl, hlen⟩ := addVocab_foldlM hvocab (by simp)
  simp only [List.nil_append] at hlen hc
  have hnd := h.nodup hd
  have hsize : tokens.length < 2 ^ 32 := by
    have := length_le_of_nodup hnd
    have hle := h.size
    rw [hd, List.length_map] at hle
    omega
  have hlength : t.bpe.decodeTable.length = tokens.length := by rw [hd, List.length_map]
  refine ⟨tokens, hd, ?_⟩
  cases hc
  have hbpe : fromCanonical tokens t.bpe.mergeQuads t.bpe.byteFallbackIds = .ok t.bpe := by
    unfold fromCanonical
    rw [unit_bind_ok, check_ok, decide_eq_true_eq]
    refine ⟨hsize, bind_ok.mpr ⟨t.bpe.merges, ?_, ?_⟩⟩
    · rw [← hlength]
      exact mergeQuads_foldlM h.merges
    · rw [unit_bind_ok, check_ok, List.all_eq_true]
      refine ⟨?_, ?_⟩
      · intro id hid
        cases id with
        | none => rfl
        | some id => simpa [← hlength] using h.fallback_mem hid
      · rw [← derivable_eq hd hder, ← hd]
  have hspans := @spans_ok tokens [] tokens.flatten rfl hlen
  have hfall := fallback_map hsize (fun {id} (hid : some id ∈ t.bpe.byteFallbackIds) => by
    rw [← hlength]
    exact h.fallback_mem hid)
  have hlast : (((0 : TokenId) :: ends 0 tokens).getLastD 0).toNat = tokens.flatten.length := by
    rw [ends_getLastD (show (0 : TokenId) = BitVec.ofNat 32 0 from rfl), zero_add, BitVec.toNat_ofNat]
    exact Nat.mod_eq_of_lt hlen
  have hquads := flatMap_length t.bpe.mergeQuads
  unfold Tokenizer.fromCanonical
  refine (ok_bind (check_ok.mpr (by simp))).trans ?_
  refine (ok_bind (readWords_words _ _)).trans ?_
  refine (ok_bind (check_ok.mpr (by simp))).trans ?_
  refine (ok_bind hspans).trans ?_
  refine (ok_bind (check_ok.mpr (by simpa using hlast))).trans ?_
  refine (ok_bind (readWords_words _ _)).trans ?_
  refine (ok_bind (check_ok.mpr (by simpa using hquads))).trans ?_
  refine (ok_bind (readWords_words _ _)).trans ?_
  refine (ok_bind (check_ok.mpr (by simpa using h.fallback))).trans ?_
  rw [quads_flatMap, hfall]
  cases rebuildPipeline (describePipeline t.pipeline) tokens t.scoreBytes with
  | error e => rfl
  | ok pipeline => exact ok_bind hbpe

end Pie.Proof
