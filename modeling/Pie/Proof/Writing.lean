import Pie.Ztensor.Session

/-!
# What a writer has written

The file and the buffer together hold what was written, wherever the line
between the two is. Each program of the writer is one lemma about that, for the
case that it succeeds; comparing what lies in the file is comparing slices of it.
-/

namespace Pie.Proof.Writing

open List Lib Lib.Words Lib.Effects Ztensor Writer Out BlobHasher

/-! ## The buffer -/

section Buffer

variable {o : Out}

theorem write_ends (data : List UInt8) :
    Ends (write data o) (fun _ o' => o'.content = o.content ++ data) (fun _ => True) := by
  unfold write
  dsimp only
  split
  · exact (append_assoc _ _ _).symm
  · split
    · trivial
    · change o.file ++ _ ++ _ = _
      rw [append_assoc, take_append_drop]
      exact (append_assoc _ _ _).symm

theorem flush_ends : Ends (flush o) (fun _ o' => o'.content = o.content ∧ o'.buf = []) (fun _ => True) := by
  unfold flush
  split
  · rename_i h
    exact ⟨rfl, h⟩
  · split
    · trivial
    · exact ⟨append_nil _, rfl⟩

theorem intoInner_ends :
    Ends (intoInner o) (fun _ o' => o'.content = o.content ∧ o'.buf = []) (fun _ => True) := by
  have h := flush_ends (o := o)
  unfold intoInner
  cases hf : flush o with
  | ok _ o' => rw [hf] at h; exact h
  | error e o' => trivial

theorem touch_ends : Ends (touch o) (fun _ o' => o'.file = o.file ∧ o'.buf = o.buf) (fun _ => True) := by
  unfold touch
  split
  · trivial
  · exact ⟨rfl, rfl⟩

theorem setLen_ends {n : Nat} (hb : o.buf = []) (hn : n ≤ o.file.length) :
    Ends (setLen n o) (fun _ o' => o'.content = o.content.take n ∧ o'.buf = []) (fun _ => True) := by
  unfold setLen
  refine Ends.bind (touch_ends.mono (fun _ o' h => ?_) (fun _ h => h))
  have hlen : n - o'.file.length = 0 := by rw [h.1]; omega
  refine ⟨?_, h.2.trans hb⟩
  change (o'.file.take n ++ zeros (n - o'.file.length)) ++ o'.buf = _
  rw [hlen, h.2, hb, h.1, content, hb, append_nil, append_nil]
  exact append_nil _

end Buffer

/-! ## Writing on -/

/-- `w'` is `w` after `data` was written. -/
structure Wrote (w w' : Writer) (data : List UInt8) : Prop where
  frame : w' = { w with out := w'.out, offset := w'.offset }
  content : w'.out.content = w.out.content ++ data
  offset : w'.offset = w.offset + data.length

namespace Wrote

variable {w w₁ w₂ : Writer} {a b : List UInt8}

theorem trans (h : Wrote w w₁ a) (h' : Wrote w₁ w₂ b) : Wrote w w₂ (a ++ b) where
  frame := by rw [h'.frame, h.frame]
  content := by rw [h'.content, h.content, append_assoc]
  offset := by rw [h'.offset, h.offset, length_append, add_assoc]

theorem align (h : Wrote w w₁ a) : w₁.align = w.align := by rw [h.frame]

theorem dedup (h : Wrote w w₁ a) : w₁.dedup = w.dedup := by rw [h.frame]

end Wrote

variable {w : Writer}

theorem onOut_ends {α : Type} {x : Write α} {Q : α → Writer → Prop} {E : Out → Prop}
    (h : Ends (x w.out) (fun a o => Q a { w with out := o }) E) : Ends (onOut x w) Q (fun _ => True) :=
  Ends.zoom (h.mono (fun _ _ h => h) (fun _ _ => trivial))

theorem writeBytes_ends (data : List UInt8) :
    Ends (writeBytes data w) (fun _ w' => Wrote w w' data) (fun _ => True) := by
  unfold writeBytes
  refine Ends.bind (onOut_ends ((write_ends data).mono (fun _ o h => ?_) (fun _ h => h)))
  refine Ends.bind (Ends.get ?_)
  refine Ends.ite (fun _ => Ends.set ⟨rfl, h, rfl⟩) (fun _ => trivial)

theorem padLoop_ends : ∀ {rounds gap : Nat} {w : Writer}, gap ≤ rounds → Ends (padLoop rounds gap w)
      (fun _ w' => w' = { w with out := w'.out } ∧ w'.out.content = w.out.content ++ zeros gap) (fun _ => True) := by
  intro rounds
  induction rounds with
  | zero =>
    intro gap w h
    obtain rfl := Nat.le_zero.mp h
    exact ⟨rfl, (append_nil _).symm⟩
  | succ rounds ih =>
    intro gap w h
    unfold padLoop
    refine Ends.ite (fun h0 => ?_) (fun h0 => ?_)
    · subst h0
      exact ⟨rfl, (append_nil _).symm⟩
    · refine Ends.bind (onOut_ends ((write_ends _).mono (fun _ o ho => ?_) (fun _ h => h)))
      refine (ih (w := { w with out := o }) (by omega)).mono (fun _ w' hw' => ⟨hw'.1, ?_⟩) (fun _ h => h)
      rw [hw'.2, ho, append_assoc, zeros, zeros, ← replicate_add, Nat.add_sub_cancel' (min_le_left _ _)]
      rfl

theorem padTo_ends {target : Nat} (h : w.offset ≤ target) :
    Ends (padTo target w) (fun _ w' => Wrote w w' (zeros (target - w.offset))) (fun _ => True) := by
  unfold padTo
  refine Ends.bind (Ends.get ?_)
  refine Ends.bind ((padLoop_ends le_rfl).mono (fun _ w' hw' => ?_) (fun _ h => h))
  refine ⟨?_, hw'.2, ?_⟩
  · change { w' with offset := target } = _
    rw [hw'.1]
  · change target = w.offset + (replicate _ _).length
    rw [length_replicate, Nat.add_sub_cancel' h]

/-- The alignment is a power of two. -/
def Aligned (w : Writer) : Prop := ∃ k, k ≤ 63 ∧ w.align = 2 ^ k

theorem Aligned.pos (h : Aligned w) : 0 < w.align := by
  obtain ⟨k, -, hk⟩ := h
  rw [hk]
  exact Nat.two_pow_pos k

theorem alignedOffset_eq_ok (h : Aligned w) {target : Nat} (ht : w.alignedOffset = .ok target) :
    roundUp w.offset w.align = target := by
  obtain ⟨k, hk, halign⟩ := h
  unfold alignedOffset at ht
  cases ha : alignUp w.offset w.align with
  | none => rw [ha] at ht; cases ht
  | some t =>
    rw [ha] at ht
    obtain rfl : t = target := by cases ht; rfl
    rw [halign] at ha ⊢
    exact ((alignUp_eq_some (by omega)).mp ha).2

theorem reserveBlob_ends (h : Aligned w) :
    Ends (reserveBlob w) (fun target w' => target = roundUp w.offset w.align
      ∧ Wrote w w' (zeros (target - w.offset))) (fun _ => True) := by
  unfold reserveBlob
  refine Ends.bind (Ends.get ?_)
  refine Ends.bind (Ends.lift (fun target ht => ?_) (fun _ _ => trivial))
  have htarget := alignedOffset_eq_ok h ht
  have hle : w.offset ≤ target := htarget ▸ le_roundUp h.pos
  refine Ends.bind ((padTo_ends hle).mono (fun _ w' hw' => ?_) (fun _ h => h))
  exact ⟨htarget.symm, hw'⟩

/-! ## Comparing -/

/-- The bytes of a file from `pos` on. -/
def slice (file : List UInt8) (pos n : Nat) : List UInt8 := (file.drop pos).take n

theorem slice_append {file rest : List UInt8} {pos n : Nat} (h : pos + n ≤ file.length) :
    slice (file ++ rest) pos n = slice file pos n := by
  unfold slice
  rw [drop_append_of_le_length (by omega), take_append_of_le_length (by rw [length_drop]; omega)]

theorem slice_add (file : List UInt8) (pos n m : Nat) : slice file pos (n + m) = slice file pos n ++ slice file (pos + n) m := by
  unfold slice
  rw [take_add, drop_drop]

theorem readExact_eq_ok {file buf : List UInt8} {pos n : Nat} (h : readExact file pos n = .ok buf) :
    buf = slice file pos n ∧ buf.length = n := by
  unfold readExact at h
  unfold slice
  split at h
  · rename_i h0
    subst h0
    exact ⟨by rw [take_zero]; exact (Except.ok.inj h).symm, by rw [← Except.ok.inj h]; rfl⟩
  · split at h
    · cases h
    · rename_i hlen
      cases h
      refine ⟨rfl, ?_⟩
      rw [length_take, length_drop]
      omega

/-- The bytes of some segments. -/
def flat (segments : List (Nat × List UInt8)) : List UInt8 := segments.flatMap fun s => Out.zeros s.1 ++ s.2

theorem flat_cons (s : Nat × List UInt8) (segments : List (Nat × List UInt8)) :
    flat (s :: segments) = (zeros s.1 ++ s.2) ++ flat segments := flatMap_cons

theorem length_zeros (n : Nat) : (zeros n).length = n := length_replicate

theorem any_ne_zero {bs : List UInt8} : bs.any (· ≠ 0) = false ↔ bs = zeros bs.length := by
  rw [zeros, eq_replicate_iff, any_eq_false]
  exact ⟨fun h => ⟨rfl, fun b hb => by simpa using h b hb⟩, fun h b hb => by simpa using h.2 b hb⟩

theorem piece_eq_iff {buf data : List UInt8} {gap : Nat} (h : buf.length = gap + data.length) :
    ((buf.take gap).any (· ≠ 0) ∨ buf.drop gap ≠ data) ↔ buf ≠ zeros gap ++ data := by
  have htake : (buf.take gap).length = gap := by rw [length_take]; omega
  constructor
  · intro hbad he
    subst he
    rcases hbad with hz | hd
    · rw [take_left' (length_zeros gap)] at hz
      have hzero : (zeros gap).any (· ≠ 0) = false := any_ne_zero.mpr (by rw [length_zeros])
      rw [hzero] at hz
      cases hz
    · exact hd (drop_left' (length_zeros gap))
  · intro hne
    by_contra hbad
    rw [not_or, not_not, Bool.not_eq_true, any_ne_zero, htake] at hbad
    refine hne ?_
    rw [← take_append_drop gap buf, hbad.1, hbad.2]

variable {file : List UInt8} {size : Nat} {env : Env}

theorem compareSegments_eq_ok : ∀ {segments : List (Nat × List UInt8)} {pos : Nat} {same : Bool},
    compareSegments file pos segments = .ok same →
    (same = true ↔ slice file pos (flat segments).length = flat segments) := by
  intro segments
  induction segments with
  | nil =>
    intro pos same h
    cases h
    exact ⟨fun _ => take_zero, fun _ => rfl⟩
  | cons s segments ih =>
    obtain ⟨gap, data⟩ := s
    intro pos same h
    unfold compareSegments at h
    obtain ⟨buf, hbuf, h⟩ := Fallible.bind_eq_ok.mp h
    obtain ⟨hslice, hlen⟩ := readExact_eq_ok hbuf
    have hpiece : (zeros gap ++ data).length = gap + data.length := by rw [length_append, length_zeros]
    rw [flat_cons, length_append, hpiece, slice_add, ← hslice]
    split at h
    · rename_i hbad
      rw [piece_eq_iff hlen] at hbad
      cases h
      exact ⟨nofun, fun h => absurd (append_inj h (hlen.trans hpiece.symm)).1 hbad⟩
    · rename_i hgood
      rw [piece_eq_iff hlen, not_not] at hgood
      rw [ih h, hgood]
      exact ⟨fun h => congrArg _ h, fun h => append_cancel_left h⟩

theorem compareRanges_eq_ok {a b len chunk : Nat} (hchunk : 0 < len → 0 < chunk) :
    ∀ {rounds done : Nat} {same : Bool}, len - done ≤ rounds →
    compareRanges file a b len chunk rounds done = .ok same →
    (same = true ↔ slice file (a + done) (len - done) = slice file (b + done) (len - done)) := by
  intro rounds
  induction rounds with
  | zero =>
    intro done same hr h
    cases h
    rw [Nat.le_zero.mp hr]
    exact ⟨fun _ => by rw [slice, slice, take_zero, take_zero], fun _ => rfl⟩
  | succ rounds ih =>
    intro done same hr h
    unfold compareRanges at h
    split at h
    · cases h
      rw [show len - done = 0 by omega]
      exact ⟨fun _ => by rw [slice, slice, take_zero, take_zero], fun _ => rfl⟩
    · rename_i hlt
      rw [not_not] at hlt
      obtain ⟨x, hx, h⟩ := Fallible.bind_eq_ok.mp h
      obtain ⟨y, hy, h⟩ := Fallible.bind_eq_ok.mp h
      obtain ⟨hx, hxlen⟩ := readExact_eq_ok hx
      obtain ⟨hy, hylen⟩ := readExact_eq_ok hy
      have hsplit : len - done = min (len - done) chunk + (len - (done + min (len - done) chunk)) := by omega
      rw [hsplit, slice_add, slice_add, ← hx, ← hy, add_assoc, add_assoc]
      split at h
      · rename_i hne
        cases h
        exact ⟨nofun, fun h => absurd (append_inj h (hxlen.trans hylen.symm)).1 hne⟩
      · rename_i heq
        rw [not_not] at heq
        rw [ih (by omega) h, heq]
        exact ⟨fun h => congrArg _ h, fun h => append_cancel_left h⟩

/-- What is asked of the file after a flush is asked of all that was written. -/
theorem flushed_ends {α : Type} (f : List UInt8 → Result α) : Ends ((do
      onOut flush
      onOut touch
      let w ← get
      lift (f w.out.file) : Act α) w)
      (fun a w' => Wrote w w' [] ∧ w'.out.buf = [] ∧ f w.out.content = .ok a) (fun _ => True) := by
  refine Ends.bind (onOut_ends (flush_ends.mono (fun _ o ho => ?_) (fun _ h => h)))
  refine Ends.bind (onOut_ends (touch_ends.mono (fun _ o' ho' => ?_) (fun _ h => h)))
  have hcontent : o'.content = w.out.content := by rw [← ho.1, content, content, ho'.1, ho'.2]
  have hfile : o'.file = w.out.content := by
    rw [← hcontent, content, ho'.2, ho.2]
    exact (append_nil _).symm
  refine Ends.bind (Ends.get ?_)
  refine Ends.lift (fun a h => ⟨⟨rfl, hcontent.trans (append_nil _).symm, rfl⟩, ho'.2.trans ho.2, ?_⟩)
    (fun _ _ => trivial)
  rw [← hfile]
  exact h

theorem segmentsEqual_ends (offset : Nat) (segments : List (Nat × List UInt8)) :
    Ends (segmentsEqual offset segments w) (fun same w' => Wrote w w' []
      ∧ (same = true ↔ slice w.out.content offset (flat segments).length = flat segments)) (fun _ => True) :=
  Ends.mono (flushed_ends fun file => compareSegments file offset segments)
    (fun _ _ h => ⟨h.1, compareSegments_eq_ok h.2.2⟩) (fun _ h => h)

theorem rangesEqual_ends (a b len : Nat) :
    Ends (rangesEqual a b len w) (fun same w' => Wrote w w' [] ∧ w'.out.buf = []
      ∧ (same = true ↔ slice w.out.content a len = slice w.out.content b len)) (fun _ => True) :=
  Ends.mono (flushed_ends fun file => compareRanges file a b len (min len (2 ^ 20)) len 0)
    (fun same _ h => ⟨h.1, h.2.1, @compareRanges_eq_ok _ a b len _ (by omega) len 0 same le_rfl h.2.2⟩)
    (fun _ h => h)

/-! ## Hashing -/

/-- The blocks of so many bytes that are full. -/
def fullBlocks (size : Nat) (bs : List UInt8) : List (List UInt8) :=
  (List.range (bs.length / size)).map fun i => slice bs (i * size) size

/-- What is left after the full blocks. -/
def lastBlock (size : Nat) (bs : List UInt8) : List UInt8 := bs.drop (bs.length / size * size)

theorem length_lastBlock (size : Nat) (bs : List UInt8) : (lastBlock size bs).length = bs.length % size := by
  unfold lastBlock
  rw [length_drop, Nat.mod_eq_sub_div_mul]

theorem blocks_append_lt {bs piece : List UInt8} (h : (lastBlock size bs).length + piece.length < size) :
    fullBlocks size (bs ++ piece) = fullBlocks size bs ∧ lastBlock size (bs ++ piece) = lastBlock size bs ++ piece := by
  rw [length_lastBlock] at h
  have hdiv : (bs ++ piece).length / size = bs.length / size := by
    rw [length_append]
    refine Nat.div_eq_of_lt_le ?_ ?_
    · have := Nat.div_mul_le_self bs.length size
      omega
    · have := Nat.div_add_mod bs.length size
      rw [Nat.succ_mul, mul_comm (bs.length / size)]
      omega
  unfold fullBlocks lastBlock
  rw [hdiv]
  have hle := Nat.div_mul_le_self bs.length size
  refine ⟨map_congr_left fun i hi => slice_append ?_, drop_append_of_le_length hle⟩
  have hi := mem_range.mp hi
  calc i * size + size = (i + 1) * size := (Nat.succ_mul i size).symm
    _ ≤ bs.length / size * size := Nat.mul_le_mul_right _ hi
    _ ≤ bs.length := hle

theorem blocks_append_eq {bs piece : List UInt8} (hsize : 0 < size)
    (h : (lastBlock size bs).length + piece.length = size) :
    fullBlocks size (bs ++ piece) = fullBlocks size bs ++ [lastBlock size bs ++ piece] ∧ lastBlock size (bs ++ piece) = [] := by
  rw [length_lastBlock] at h
  have hle := Nat.div_mul_le_self bs.length size
  have hmod := Nat.div_add_mod bs.length size
  have hlen : (bs ++ piece).length = (bs.length / size + 1) * size := by
    rw [length_append, Nat.succ_mul, mul_comm (bs.length / size)]
    omega
  have hdiv : (bs ++ piece).length / size = bs.length / size + 1 := by
    rw [hlen, Nat.mul_div_cancel _ hsize]
  unfold fullBlocks lastBlock
  rw [hdiv]
  refine ⟨?_, drop_eq_nil_iff.mpr hlen.le⟩
  rw [range_succ, map_append]
  congr 1
  · refine map_congr_left fun i hi => slice_append ?_
    have hi := mem_range.mp hi
    calc i * size + size = (i + 1) * size := (Nat.succ_mul i size).symm
      _ ≤ bs.length / size * size := Nat.mul_le_mul_right _ hi
      _ ≤ bs.length := hle
  · rw [map_singleton, slice, drop_append_of_le_length hle]
    congr 1
    refine take_of_length_le ?_
    rw [length_append, length_drop, mul_comm (bs.length / size)]
    omega

/-- A hasher of blocks that has seen some bytes. -/
def hashedBlocks (env : Env) (size : Nat) (bs : List UInt8) : BlockHasher :=
  ⟨size, lastBlock size bs, (lastBlock size bs).length, (fullBlocks size bs).map fun block => (digestOf env block).value⟩

/-- A hasher that has seen some bytes. -/
def hashed (env : Env) (blocks : Option Nat) (bs : List UInt8) : BlobHasher :=
  ⟨bs, blocks.map fun size => hashedBlocks env size bs⟩

theorem hashed_new (env : Env) (blocks : Option Nat) : new blocks = hashed env blocks [] := by
  cases blocks with
  | none => rfl
  | some size =>
    have hlast : lastBlock size [] = [] := drop_nil
    have hfull : fullBlocks size [] = [] := by rw [fullBlocks, length_nil, Nat.zero_div]; rfl
    unfold new hashed
    rw [Option.map_some, Option.map_some, hashedBlocks, hlast, hfull]
    rfl

theorem updateBlocks_zero : ∀ {rounds : Nat} {bytes : List UInt8} {digests : List (List UInt8)} {b : BlockHasher},
    updateBlocks env rounds bytes ⟨0, [], 0, digests⟩ = .ok b → bytes = [] := by
  intro rounds
  induction rounds with
  | zero =>
    intro bytes digests b h
    cases bytes with
    | nil => rfl
    | cons _ _ => cases h
  | succ rounds ih =>
    intro bytes digests b h
    unfold updateBlocks at h
    split at h
    · assumption
    · dsimp only at h
      rw [Nat.sub_self, Nat.zero_min, if_pos rfl, drop_zero] at h
      exact ih h

theorem updateBlocks_eq_ok (hsize : 0 < size) : ∀ {rounds : Nat} {bytes bs : List UInt8}
    {b : BlockHasher}, bytes.length ≤ rounds → updateBlocks env rounds bytes (hashedBlocks env size bs) = .ok b →
    b = hashedBlocks env size (bs ++ bytes) := by
  intro rounds
  induction rounds with
  | zero =>
    intro bytes bs b hlen h
    obtain rfl := length_eq_zero_iff.mp (Nat.le_zero.mp hlen)
    rw [append_nil]
    exact (Except.ok.inj h).symm
  | succ rounds ih =>
    intro bytes bs b hlen h
    unfold updateBlocks at h
    split at h
    · rename_i hnil
      subst hnil
      rw [append_nil]
      exact (Except.ok.inj h).symm
    · rename_i hne
      have hpos : 0 < bytes.length := length_pos_iff.mpr hne
      have hroom : (lastBlock size bs).length < size := by
        rw [length_lastBlock]
        exact Nat.mod_lt _ hsize
      dsimp only at h
      generalize htake : min ((hashedBlocks env size bs).size - (hashedBlocks env size bs).filled) bytes.length = take at h
      change min (size - (lastBlock size bs).length) bytes.length = take at htake
      change (if (lastBlock size bs).length + take = size then _ else _) = _ at h
      have hpiece : (bytes.take take).length = take := by rw [length_take]; omega
      -- The block that is being filled, with what it takes of the bytes.
      have hstate : hashedBlocks env size (bs ++ bytes.take take) =
          if (lastBlock size bs).length + take = size then
            ⟨size, [], 0, (hashedBlocks env size bs).digests ++ [(digestOf env (lastBlock size bs ++ bytes.take take)).value]⟩
          else ⟨size, lastBlock size bs ++ bytes.take take, (lastBlock size bs).length + take,
            (hashedBlocks env size bs).digests⟩ := by
        split
        · rename_i hfull
          obtain ⟨hblocks, hlast⟩ := @blocks_append_eq size bs (bytes.take take) hsize (by rw [hpiece]; exact hfull)
          rw [hashedBlocks, hblocks, hlast, map_append]
          rfl
        · rename_i hfull
          obtain ⟨hblocks, hlast⟩ := @blocks_append_lt size bs (bytes.take take) (by rw [hpiece]; omega)
          rw [hashedBlocks, hblocks, hlast, length_append, hpiece]
          rfl
      have hsplit : bs ++ bytes.take take ++ bytes.drop take = bs ++ bytes := by
        rw [append_assoc, take_append_drop]
      rw [← hsplit]
      refine ih (by rw [length_drop]; omega) ?_
      rw [hstate]
      split at h
      · rename_i hfull
        rw [if_pos hfull]
        exact h
      · rename_i hfull
        rw [if_neg hfull]
        exact h

/-- **What a hasher has seen is all that counts**, not how it came. -/
theorem update_eq_ok {blocks : Option Nat} {bs bytes : List UInt8} {h : BlobHasher}
    (hzero : blocks = some 0 → bs = []) (hu : (hashed env blocks bs).update env bytes = .ok h) :
    h = hashed env blocks (bs ++ bytes) ∧ (blocks = some 0 → bs ++ bytes = []) := by
  unfold update at hu
  cases blocks with
  | none => exact ⟨(Except.ok.inj hu).symm, nofun⟩
  | some size =>
    obtain ⟨b, hb, hu⟩ := Fallible.bind_eq_ok.mp hu
    rcases Nat.eq_zero_or_pos size with rfl | hsize
    · obtain rfl := hzero rfl
      obtain rfl : bytes = [] := updateBlocks_zero hb
      cases hb
      cases hu
      exact ⟨rfl, fun _ => rfl⟩
    · obtain rfl := updateBlocks_eq_ok hsize le_rfl hb
      cases hu
      exact ⟨rfl, fun h => absurd (Option.some.inj h) hsize.ne'⟩

theorem hashSegments_eq_ok {blocks : Option Nat} : ∀ {segments : List (Nat × List UInt8)} {bs : List UInt8}
    {h : BlobHasher} {length length' : Nat}, (blocks = some 0 → bs = []) →
    hashSegments env segments (hashed env blocks bs) length = .ok (h, length') →
    h = hashed env blocks (bs ++ flat segments) ∧ length' = length + (flat segments).length := by
  intro segments
  induction segments with
  | nil =>
    intro bs h length length' _ hs
    cases hs
    rw [flat, flatMap_nil, append_nil]
    exact ⟨rfl, rfl⟩
  | cons s segments ih =>
    obtain ⟨gap, data⟩ := s
    intro bs h length length' hzero hs
    unfold hashSegments at hs
    obtain ⟨h₁, h1, hs⟩ := Fallible.bind_eq_ok.mp hs
    obtain ⟨h₂, h2, hs⟩ := Fallible.bind_eq_ok.mp hs
    obtain ⟨rfl, hz1⟩ := update_eq_ok hzero h1
    obtain ⟨rfl, hz2⟩ := update_eq_ok hz1 h2
    obtain ⟨hw, hl⟩ := ih hz2 hs
    rw [flat_cons, ← append_assoc bs, ← append_assoc bs]
    refine ⟨hw, ?_⟩
    rw [hl, length_append, length_append, length_zeros, add_assoc]

/-- The digests of the blocks of some bytes. -/
def blocksOf (env : Env) (blocks : Option Nat) (bs : List UInt8) : Option Blocks :=
  blocks.map fun size => ⟨size, (fullBlocks size bs).map (fun block => (digestOf env block).value) ++
    if 0 < (lastBlock size bs).length then [(digestOf env (lastBlock size bs)).value] else []⟩

theorem finish_hashed (env : Env) (blocks : Option Nat) (bs : List UInt8) :
    (hashed env blocks bs).finish env = (digestOf env bs, blocksOf env blocks bs) := by
  cases blocks <;> rfl

theorem writeSegments_ends : ∀ {segments : List (Nat × List UInt8)} {w : Writer},
    Ends (writeSegments segments w) (fun _ w' => Wrote w w' (flat segments)) (fun _ => True) := by
  intro segments
  induction segments with
  | nil => exact fun {w} => ⟨rfl, (append_nil _).symm, rfl⟩
  | cons s segments ih =>
    obtain ⟨gap, data⟩ := s
    intro w
    unfold writeSegments
    refine Ends.bind ((writeBytes_ends _).mono (fun _ w₁ h₁ => ?_) (fun _ h => h))
    refine Ends.bind ((writeBytes_ends _).mono (fun _ w₂ h₂ => ?_) (fun _ h => h))
    exact ih.mono (fun _ w₃ h₃ => (h₁.trans h₂).trans h₃) (fun _ h => h)

end Pie.Proof.Writing
