import Pie.Proof.CborFloats
import Pie.Lib.Fallible

/-!
# The CBOR codec

Each writer has its reader: what one writes the other reads back, and what the
reader accepts is what the writer writes. The two directions are proved part by
part, for heads, floats and maps, and put together by induction on the nesting
that is left.
-/

namespace Pie.Proof.Cbor

open Pie.Ztensor Pie.Ztensor.Cbor Lib Lib.Utf8 Lib.Binary Fallible Decode Consumes

/-! ## Numbers -/

@[simp] theorem toBe_length (n x : Nat) : (toBe n x).length = n := by
  unfold toBe
  rw [List.length_reverse, toLe_length]

theorem ofBe_toBe {n x : Nat} (h : x < 256 ^ n) : ofBe (toBe n x) = x := by
  unfold ofBe toBe
  rw [List.reverse_reverse, ofLe_toLe h]

theorem toBe_ofBe {n : Nat} {bs : List UInt8} (h : bs.length = n) : toBe n (ofBe bs) = bs := by
  unfold ofBe toBe
  rw [toLe_ofLe (by rw [List.length_reverse, h]), List.reverse_reverse]

theorem ofBe_lt (bs : List UInt8) : ofBe bs < 256 ^ bs.length := by
  have h := ofLe_lt bs.reverse
  rwa [List.length_reverse] at h

theorem number_reads {n x : Nat} (h : x < 256 ^ n) : Lib.Reads (number n) (toBe n x) x := by
  refine (Reads.take (toBe_length n x)).bind_last ?_
  rw [if_pos (toBe_length n x), ofBe_toBe h]
  exact Reads.pure x

theorem number_consumes (n : Nat) : Consumes (number n) (fun w x => w = toBe n x ∧ x < 256 ^ n) := by
  refine (take _ n).bind ?_
  rintro w bs ⟨rfl, hlen⟩
  rw [if_pos hlen]
  refine Consumes.pure ⟨?_, ?_⟩
  · rw [List.append_nil, toBe_ofBe hlen]
  · rw [← hlen]
    exact ofBe_lt w

theorem byte_reads (b : UInt8) : Lib.Reads byte [b] b :=
  (Reads.take rfl).bind_last (Reads.pure b)

theorem byte_consumes : Consumes byte (fun w b => w = [b]) := by
  refine (take _ 1).bind ?_
  rintro w bs ⟨rfl, hlen⟩
  obtain ⟨b, rfl⟩ := List.length_eq_one_iff.mp hlen
  exact Consumes.pure rfl

/-! ## Heads -/

theorem first_toNat {major ai : Nat} (hm : major < 8) (ha : ai < 32) : (first major ai).toNat = major * 32 + ai := by
  unfold first
  rw [UInt8.toNat_ofNat']
  omega

theorem first_of (b : UInt8) : first (b.toNat / 32) (b.toNat % 32) = b := by
  refine UInt8.toNat.inj ?_
  have := b.toNat_lt
  rw [first_toNat (by omega) (by omega)]
  omega

/-- Five bits and the bytes after them: how an argument is spelled. -/
inductive Arg : Nat → List UInt8 → Nat → Prop
  | short {arg : Nat} (h : arg < 24) : Arg arg [] arg
  | one {arg : Nat} (h1 : 24 ≤ arg) (h2 : arg < 256 ^ 1) : Arg 24 (toBe 1 arg) arg
  | two {arg : Nat} (h1 : 0x100 ≤ arg) (h2 : arg < 256 ^ 2) : Arg 25 (toBe 2 arg) arg
  | four {arg : Nat} (h1 : 0x10000 ≤ arg) (h2 : arg < 256 ^ 4) : Arg 26 (toBe 4 arg) arg
  | eight {arg : Nat} (h1 : 0x100000000 ≤ arg) (h2 : arg < 256 ^ 8) : Arg 27 (toBe 8 arg) arg

theorem Arg.head {ai arg : Nat} {w : List UInt8} (h : Arg ai w arg) (major : Nat) :
    head major arg = first major ai :: w := by
  unfold Ztensor.Cbor.head
  cases h with
  | short h => rw [if_pos h]
  | one h1 h2 => rw [if_neg (by omega), if_pos (by omega)]
  | two h1 h2 => rw [if_neg (by omega), if_neg (by omega), if_pos (by omega)]
  | four h1 h2 => rw [if_neg (by omega), if_neg (by omega), if_neg (by omega), if_pos (by omega)]
  | eight h1 h2 => rw [if_neg (by omega), if_neg (by omega), if_neg (by omega), if_neg (by omega)]

theorem Arg.ai_lt {ai arg : Nat} {w : List UInt8} (h : Arg ai w arg) : ai < 28 := by
  cases h with
  | short h => omega
  | one | two | four | eight => decide

theorem Arg.lt {ai arg : Nat} {w : List UInt8} (h : Arg ai w arg) : arg < 2 ^ 64 := by
  cases h with
  | short h => omega
  | one h1 h2 | two h1 h2 | four h1 h2 | eight h1 h2 => omega

theorem exists_arg {arg : Nat} (h : arg < 2 ^ 64) : ∃ ai w, Arg ai w arg := by
  by_cases h1 : arg < 24
  · exact ⟨_, _, .short h1⟩
  · by_cases h2 : arg < 256 ^ 1
    · exact ⟨_, _, .one (by omega) h2⟩
    · by_cases h3 : arg < 256 ^ 2
      · exact ⟨_, _, .two (by omega) h3⟩
      · by_cases h4 : arg < 256 ^ 4
        · exact ⟨_, _, .four (by omega) h4⟩
        · exact ⟨_, _, .eight (by omega) (by omega)⟩

theorem longHead_reads {size least x : Nat} (h1 : least ≤ x) (h2 : x < 256 ^ size) :
    Lib.Reads (longHead size least) (toBe size x) x := by
  refine (number_reads h2).bind_last ?_
  rw [if_neg (by omega)]
  exact Reads.pure x

theorem longHead_consumes (size least : Nat) :
    Consumes (longHead size least) (fun w x => w = toBe size x ∧ least ≤ x ∧ x < 256 ^ size) := by
  refine (number_consumes size).bind ?_
  rintro w x ⟨rfl, hx⟩
  split
  · exact fail _
  · rename_i hge
    exact Consumes.pure ⟨by rw [List.append_nil], by omega, hx⟩

theorem headArg_reads {ai arg : Nat} {w : List UInt8} (h : Arg ai w arg) : Lib.Reads (headArg ai) w arg := by
  unfold headArg
  cases h with
  | short h =>
    rw [if_pos (by omega)]
    exact Reads.pure _
  | one h1 h2 => exact longHead_reads h1 h2
  | two h1 h2 => exact longHead_reads h1 h2
  | four h1 h2 => exact longHead_reads h1 h2
  | eight h1 h2 => exact longHead_reads h1 h2

theorem headArg_consumes (ai : Nat) : Consumes (headArg ai) (Arg ai) := by
  unfold headArg
  split
  · exact Consumes.pure (.short (by omega))
  · split
    · rename_i h
      subst h
      exact (longHead_consumes 1 24).mono (fun w x ⟨hw, h1, h2⟩ => hw ▸ .one h1 h2)
    · split
      · rename_i h
        subst h
        exact (longHead_consumes 2 0x100).mono (fun w x ⟨hw, h1, h2⟩ => hw ▸ .two h1 h2)
      · split
        · rename_i h
          subst h
          exact (longHead_consumes 4 0x10000).mono (fun w x ⟨hw, h1, h2⟩ => hw ▸ .four h1 h2)
        · split
          · rename_i h
            subst h
            exact (longHead_consumes 8 0x100000000).mono (fun w x ⟨hw, h1, h2⟩ => hw ▸ .eight h1 h2)
          · exact fail _

/-! ## Floats -/

/-- One NaN for all. -/
def oneNan (x : B64) : B64 := if B64.isNan x then widen (f16BitsToF32 0x7E00#16) else x

theorem oneNan_of {x : B64} (h : B64.isNan x = false) : oneNan x = x := by
  unfold oneNan
  rw [if_neg (by rw [h]; exact Bool.false_ne_true)]

theorem ofNat_toNat {n : Nat} (x : BitVec n) : BitVec.ofNat n x.toNat = x := BitVec.eq_of_toNat_eq (by simp)

theorem simple_reads {x : B64} {w : List UInt8} (h : Width x w) :
    ∃ ai w', ai < 32 ∧ w = first 7 ai :: w' ∧ Lib.Reads (simple ai) w' (.float (oneNan x)) := by
  cases h with
  | nan hn =>
    refine ⟨25, toBe 2 0x7E00, by decide, rfl, (number_reads (by decide)).bind_last ?_⟩
    unfold half oneNan
    rw [if_neg (by decide), if_pos hn]
    exact Reads.pure _
  | @half h hn =>
    refine ⟨25, toBe 2 h.toNat, by decide, rfl, (number_reads h.isLt).bind_last ?_⟩
    unfold half
    rw [ofNat_toNat, if_neg (by rw [hn]; exact fun hc => Bool.false_ne_true hc.1), oneNan_of (by rw [widen_isNan, hn])]
    exact Reads.pure _
  | @single x hn hs =>
    refine ⟨26, toBe 4 x.toNat, by decide, rfl, (number_reads x.isLt).bind_last ?_⟩
    unfold single
    rw [ofNat_toNat, if_neg (by rw [hn]; exact Bool.false_ne_true), if_neg (by rw [hs]; exact Bool.false_ne_true),
      oneNan_of (by rw [widen_isNan, hn])]
    exact Reads.pure _
  | double hn hs =>
    refine ⟨27, toBe 8 x.toNat, by decide, rfl, (number_reads x.isLt).bind_last ?_⟩
    unfold double
    rw [ofNat_toNat, if_neg (by rw [hn]; exact Bool.false_ne_true), if_neg (by rw [hs]; exact Bool.false_ne_true),
      oneNan_of hn]
    exact Reads.pure _

theorem half_consumes {h : BitVec 16} :
    Consumes (half h) (fun w v => w = [] ∧ ∃ x, v = .float x ∧ Width x (0xF9 :: toBe 2 h.toNat)) := by
  unfold half
  dsimp only
  split
  · exact fail _
  · rename_i hc
    refine Consumes.pure ⟨rfl, _, rfl, ?_⟩
    cases hn : B32.isNan (f16BitsToF32 h) with
    | false => exact .half hn
    | true =>
      have hh : h = 0x7E00#16 := by
        by_contra hne
        exact hc ⟨hn, hne⟩
      rw [hh] at hn ⊢
      exact .nan (by rw [widen_isNan, hn])

theorem single_consumes {x : B32} :
    Consumes (single x) (fun w v => w = [] ∧ ∃ y, v = .float y ∧ Width y (0xFA :: toBe 4 x.toNat)) := by
  unfold single
  split
  · exact fail _
  · rename_i hn
    split
    · exact fail _
    · rename_i hs
      exact Consumes.pure ⟨rfl, _, rfl, .single (Bool.eq_false_iff.mpr hn) (Bool.eq_false_iff.mpr hs)⟩

theorem double_consumes {x : B64} :
    Consumes (double x) (fun w v => w = [] ∧ ∃ y, v = .float y ∧ Width y (0xFB :: toBe 8 x.toNat)) := by
  unfold double
  split
  · exact fail _
  · rename_i hn
    split
    · exact fail _
    · rename_i hs
      exact Consumes.pure ⟨rfl, _, rfl, .double (Bool.eq_false_iff.mpr hn) (Bool.eq_false_iff.mpr hs)⟩

theorem simple_consumes (left ai : Nat) :
    Consumes (simple ai) (fun w v => encodeInto (left + 1) v = .ok (first 7 ai :: w)) := by
  unfold simple
  split
  · rename_i h
    subst h
    exact Consumes.pure rfl
  · split
    · rename_i h
      subst h
      exact Consumes.pure rfl
    · split
      · rename_i h
        subst h
        exact Consumes.pure rfl
      · split
        · rename_i h
          subst h
          refine (number_consumes 2).bind (fun w n ⟨hw, hn⟩ => half_consumes.mono ?_)
          rintro _ _ ⟨rfl, x, rfl, hx⟩
          show Except.ok (encodeFloat x) = _
          rw [hx.encode, BitVec.toNat_ofNat, Nat.mod_eq_of_lt (by omega), hw, List.append_nil]
          rfl
        · split
          · rename_i h
            subst h
            refine (number_consumes 4).bind (fun w n ⟨hw, hn⟩ => single_consumes.mono ?_)
            rintro _ _ ⟨rfl, x, rfl, hx⟩
            show Except.ok (encodeFloat x) = _
            rw [hx.encode, BitVec.toNat_ofNat, Nat.mod_eq_of_lt (by omega), hw, List.append_nil]
            rfl
          · split
            · rename_i h
              subst h
              refine (number_consumes 8).bind (fun w n ⟨hw, hn⟩ => double_consumes.mono ?_)
              rintro _ _ ⟨rfl, x, rfl, hx⟩
              show Except.ok (encodeFloat x) = _
              rw [hx.encode, BitVec.toNat_ofNat, Nat.mod_eq_of_lt (by omega), hw, List.append_nil]
              rfl
            · exact fail _

/-! ## The order of keys -/

/-- The bytes of a key and of its value. -/
abbrev Pair := List UInt8 × List UInt8

theorem sortKeys_perm (enc : List Pair) : (sortKeys enc).Perm enc := List.mergeSort_perm _ _

theorem sortKeys_le (enc : List Pair) : (sortKeys enc).Pairwise (fun a b => a.1 ≤ b.1) := by
  refine (List.pairwise_mergeSort (fun a b c hab hbc => ?_) (fun a b => ?_) enc).imp of_decide_eq_true
  · exact decide_eq_true (List.le_trans (of_decide_eq_true hab) (of_decide_eq_true hbc))
  · rw [Bool.or_eq_true, decide_eq_true_eq, decide_eq_true_eq]
    exact List.le_total a.1 b.1

theorem sortKeys_of_lt {enc : List Pair} (h : enc.Pairwise (fun a b => a.1 < b.1)) : sortKeys enc = enc :=
  List.mergeSort_of_pairwise (h.imp (fun hab => decide_eq_true (List.le_of_lt hab)))

theorem noDuplicate_iff : ∀ {enc : List Pair}, enc.Pairwise (fun a b => a.1 ≤ b.1) →
    (noDuplicate enc = .ok () ↔ enc.Pairwise (fun a b => a.1 < b.1))
  | [], _ => ⟨fun _ => .nil, fun _ => rfl⟩
  | [a], _ => ⟨fun _ => List.pairwise_singleton _ _, fun _ => rfl⟩
  | a :: b :: rest, hs => by
    have ih := noDuplicate_iff hs.tail
    rw [noDuplicate]
    constructor
    · intro h
      split at h
      · cases h
      · rename_i hne
        have hlt := ih.mp h
        have hab : a.1 < b.1 := Std.lt_of_le_of_ne (List.rel_of_pairwise_cons hs List.mem_cons_self) hne
        refine List.pairwise_cons.mpr ⟨fun c hc => ?_, hlt⟩
        rcases List.mem_cons.mp hc with rfl | hc
        · exact hab
        · exact List.lt_trans hab (List.rel_of_pairwise_cons hlt hc)
    · intro h
      have hab : a.1 < b.1 := List.rel_of_pairwise_cons h List.mem_cons_self
      rw [if_neg (fun heq => List.lt_irrefl _ (heq ▸ hab))]
      exact ih.mpr h.tail

/-! ## Entries -/

/-- The bytes between two positions. -/
def Between (bytes : List UInt8) (p : Nat × Nat) (k : List UInt8) : Prop :=
  p.1 ≤ p.2 ∧ p.2 ≤ bytes.length ∧ (bytes.drop p.1).take (p.2 - p.1) = k

theorem slice_of {r : Reader} {s e : Nat} {k : List UInt8} (h : Between r.bytes (s, e) k) :
    slice s e r = .ok (k, r) := by
  obtain ⟨h1, h2, h3⟩ := h
  unfold slice
  rw [if_pos ⟨h1, h2⟩, h3]

/-- What was taken stands between the two readers. -/
theorem between_of {r r' : Reader} {w : List UInt8} (hb : r'.bytes = r.bytes) (hr : r.rest = w ++ r'.rest) :
    Between r'.bytes (r.offset, r'.offset) w := by
  have hoff := offset hb hr
  refine ⟨by dsimp only; omega, r'.le, ?_⟩
  show (r'.bytes.drop r.offset).take (r'.offset - r.offset) = w
  rw [hb, show r.bytes.drop r.offset = w ++ r'.rest from hr, show r'.offset - r.offset = w.length by omega, List.take_left]

/-- The key before, if there is one. -/
def Before (bytes : List UInt8) (prev : Option (Nat × Nat)) (P : List UInt8 → Prop) : Prop :=
  ∀ p ∈ prev, ∃ k, Between bytes p k ∧ P k

theorem keyOrder_of {r : Reader} {prev : Option (Nat × Nat)} {ks ke : Nat} {k : List UInt8}
    (hprev : Before r.bytes prev (· < k)) (hk : Between r.bytes (ks, ke) k) :
    keyOrder prev ks ke r = .ok ((), r) := by
  cases prev with
  | none => rfl
  | some p =>
    obtain ⟨k0, h0, hlt⟩ := hprev p rfl
    unfold keyOrder
    dsimp only
    rw [Read.bind_ok (slice_of h0), Read.bind_ok (slice_of hk), if_pos hlt]
    rfl

theorem keyOrder_from {r : Reader} {prev : Option (Nat × Nat)} {ks ke : Nat} {k : List UInt8}
    (hprev : Before r.bytes prev (fun _ => True)) (hk : Between r.bytes (ks, ke) k) :
    From r (keyOrder prev ks ke) (fun _ r' => r' = r ∧ Before r.bytes prev (· < k)) := by
  cases prev with
  | none => exact From.pure ⟨rfl, nofun⟩
  | some p =>
    obtain ⟨k0, h0, -⟩ := hprev p rfl
    unfold keyOrder
    dsimp only
    unfold From
    rw [Read.bind_ok (slice_of h0), Read.bind_ok (slice_of hk)]
    split
    · rename_i hlt
      refine From.pure ⟨rfl, fun q hq => ?_⟩
      cases hq
      exact ⟨k0, h0, hlt⟩
    · split
      · exact From.fail _
      · exact From.fail _

section

variable {item : Decode Value}

/-- The bytes of the entries of a map. -/
abbrev flat (enc : List Pair) : List UInt8 := enc.flatMap (fun p => p.1 ++ p.2)

theorem flat_cons (p : Pair) (enc : List Pair) : flat (p :: enc) = (p.1 ++ p.2) ++ flat enc := List.flatMap_cons

theorem entries_run : ∀ {enc : List Pair} {es : List (Value × Value)},
    List.Forall₂ (fun p e => Lib.Reads item p.1 e.1 ∧ Lib.Reads item p.2 e.2) enc es →
    enc.Pairwise (fun a b => a.1 < b.1) → ∀ (r : Reader) (rest : List UInt8) (prev : Option (Nat × Nat)),
    r.rest = flat enc ++ rest → (∀ p ∈ enc, Before r.bytes prev (· < p.1)) →
      ∃ r' : Reader, entries item es.length prev r = .ok (es, r') ∧ r'.bytes = r.bytes ∧ r'.rest = rest := by
  intro enc es h
  induction h with
  | nil => exact fun _ r rest _ hr _ => ⟨r, rfl, rfl, hr⟩
  | @cons p e enc es hpe _ ih =>
    intro hlt r rest prev hr hprev
    rw [List.pairwise_cons] at hlt
    have hr0 : r.rest = p.1 ++ (p.2 ++ (flat enc ++ rest)) := by
      rw [hr, flat_cons, List.append_assoc, List.append_assoc]
    obtain ⟨r₁, h1, hb1, hr1⟩ := hpe.1 r _ hr0
    obtain ⟨r₂, h2, hb2, hr2⟩ := hpe.2 r₁ _ hr1
    have hk : Between r₁.bytes (r.offset, r₁.offset) p.1 := between_of hb1 (by rw [hr1]; exact hr0)
    -- the key just read comes before all those that follow
    obtain ⟨r₃, h3, hb3, hr3⟩ := ih hlt.2 r₂ rest (some (r.offset, r₁.offset)) hr2 (fun q hq s hs => by
      cases hs
      exact ⟨p.1, hb2 ▸ hk, hlt.1 q hq⟩)
    refine ⟨r₃, ?_, hb3.trans (hb2.trans hb1), hr3⟩
    show entries item (es.length + 1) prev r = _
    unfold entries
    have hpos : ∀ r : Reader, pos r = .ok (r.offset, r) := fun _ => rfl
    have hord := keyOrder_of (hb1 ▸ hprev p List.mem_cons_self) hk
    rw [Read.bind_ok (hpos r), Read.bind_ok h1, Read.bind_ok (hpos r₁), Read.bind_ok hord, Read.bind_ok h2,
      Read.bind_ok h3]
    rfl

theorem entries_reads {enc : List Pair} {es : List (Value × Value)}
    (h : List.Forall₂ (fun p e => Lib.Reads item p.1 e.1 ∧ Lib.Reads item p.2 e.2) enc es)
    (hlt : enc.Pairwise (fun a b => a.1 < b.1)) : Lib.Reads (entries item es.length none) (flat enc) es :=
  fun r rest hr => entries_run h hlt r rest none hr (fun _ _ _ hs => nomatch hs)

theorem entries_from {Q : List UInt8 → Value → Prop} (h : Consumes item Q) :
    ∀ (n : Nat) (r : Reader) (prev : Option (Nat × Nat)), Before r.bytes prev (fun _ => True) →
      From r (entries item n prev) (fun es r' => ∃ enc, r'.bytes = r.bytes ∧ r.rest = flat enc ++ r'.rest
        ∧ es.length = n ∧ List.Forall₂ (fun p e => Q p.1 e.1 ∧ Q p.2 e.2) enc es
        ∧ enc.Pairwise (fun a b => a.1 < b.1) ∧ ∀ p ∈ enc, Before r.bytes prev (· < p.1)) := by
  intro n
  induction n with
  | zero => exact fun r _ _ => From.pure ⟨[], rfl, rfl, rfl, .nil, .nil, nofun⟩
  | succ n ih =>
    intro r prev hprev
    unfold entries
    have hpos : ∀ r : Reader, From r pos (fun n r' => n = r.offset ∧ r' = r) :=
      fun r => ⟨nofun, fun a r' ha => by cases ha; exact ⟨rfl, rfl⟩⟩
    refine (hpos r).bind ?_
    rintro _ _ ⟨rfl, rfl⟩
    refine (h _).bind ?_
    rintro key r₁ ⟨w, hb1, hr1, hw⟩
    refine (hpos r₁).bind ?_
    rintro _ _ ⟨rfl, rfl⟩
    have hk := between_of hb1 hr1
    refine (keyOrder_from (hb1 ▸ hprev) hk).bind ?_
    rintro _ _ ⟨rfl, hlt⟩
    refine (h _).bind ?_
    rintro val r₂ ⟨w', hb2, hr2, hw'⟩
    refine (ih r₂ _ (fun q hq => by cases hq; exact ⟨w, hb2 ▸ hk, trivial⟩)).bind ?_
    rintro es r₃ ⟨enc, hb3, hr3, hlen, hall, hsorted, hafter⟩
    have hnext : ∀ p ∈ enc, w < p.1 := by
      intro p hp
      obtain ⟨k, hk', hlt'⟩ := hafter p hp _ rfl
      have : k = w := hk'.2.2.symm.trans (hb2 ▸ hk).2.2
      exact this ▸ hlt'
    refine From.pure ⟨(w, w') :: enc, hb3.trans (hb2.trans hb1), ?_, by rw [List.length_cons, hlen],
      .cons ⟨hw, hw'⟩ hall, List.pairwise_cons.mpr ⟨hnext, hsorted⟩, ?_⟩
    · rw [hr1, hr2, hr3, flat_cons, List.append_assoc, List.append_assoc]
    · intro p hp q hq
      obtain ⟨k, hk0, hkw⟩ := hlt q hq
      rw [hb1] at hk0
      rcases List.mem_cons.mp hp with rfl | hp
      · exact ⟨k, hk0, hkw⟩
      · exact ⟨k, hk0, List.lt_trans hkw (hnext p hp)⟩

theorem entries_consumes {Q : List UInt8 → Value → Prop} (h : Consumes item Q) (n : Nat) :
    Consumes (entries item n none) (fun w es => es.length = n ∧ ∃ enc, w = flat enc
      ∧ List.Forall₂ (fun p e => Q p.1 e.1 ∧ Q p.2 e.2) enc es ∧ enc.Pairwise (fun a b => a.1 < b.1)) := by
  intro r
  refine (entries_from h n r none nofun).mono ?_
  rintro es r' ⟨enc, hb, hr, hlen, hall, hsorted, -⟩
  exact ⟨flat enc, hb, hr, hlen, enc, rfl, hall, hsorted⟩

end

/-! ## Lists and maps written -/

theorem encodeInto_array {left : Nat} {items : List Value} {w : List UInt8} :
    encodeInto (left + 1) (.array items) = .ok w
      ↔ ∃ enc, List.Forall₂ (fun w v => encodeInto left v = .ok w) enc items
        ∧ w = head 4 items.length ++ enc.flatten := by
  have hrun : encodeInto (left + 1) (.array items)
      = items.mapM (encodeInto left) >>= fun enc => .ok (head 4 items.length ++ enc.flatten) := rfl
  rw [hrun, bind_eq_ok]
  constructor
  · rintro ⟨enc, henc, h⟩
    exact ⟨enc, (mapM_eq_ok.mp henc).flip, (Except.ok.inj h).symm⟩
  · rintro ⟨enc, henc, rfl⟩
    exact ⟨enc, mapM_eq_ok.mpr henc.flip, rfl⟩

/-- A key and its value written. -/
def Written (left : Nat) (p : Pair) (e : Value × Value) : Prop :=
  encodeInto left e.1 = .ok p.1 ∧ encodeInto left e.2 = .ok p.2

theorem encodeInto_map {left : Nat} {es : List (Value × Value)} {w : List UInt8} :
    encodeInto (left + 1) (.map es) = .ok w
      ↔ ∃ enc, List.Forall₂ (Written left) enc es ∧ (sortKeys enc).Pairwise (fun a b => a.1 < b.1)
        ∧ w = head 5 es.length ++ flat (sortKeys enc) := by
  have hrun : encodeInto (left + 1) (.map es) = (es.mapM (fun e => do
        let k ← encodeInto left e.1
        let v ← encodeInto left e.2
        Except.ok (k, v)) >>= fun enc => noDuplicate (sortKeys enc) >>= fun _ =>
          .ok (head 5 (sortKeys enc).length ++ flat (sortKeys enc))) := rfl
  have hpair : ∀ (e : Value × Value) (p : Pair), (do
        let k ← encodeInto left e.1
        let v ← encodeInto left e.2
        Except.ok (k, v)) = Except.ok p ↔ Written left p e := by
    intro e p
    rw [bind_eq_ok]
    constructor
    · rintro ⟨k, hk, h⟩
      obtain ⟨v, hv, h⟩ := bind_eq_ok.mp h
      obtain rfl : (k, v) = p := Except.ok.inj h
      exact ⟨hk, hv⟩
    · rintro ⟨hk, hv⟩
      exact ⟨p.1, hk, bind_eq_ok.mpr ⟨p.2, hv, rfl⟩⟩
  have hlen : ∀ enc : List Pair, List.Forall₂ (Written left) enc es → (sortKeys enc).length = es.length :=
    fun enc henc => (sortKeys_perm enc).length_eq.trans henc.length_eq
  rw [hrun, bind_eq_ok]
  constructor
  · rintro ⟨enc, henc, h⟩
    obtain ⟨_, hdup, h⟩ := bind_eq_ok.mp h
    have hall : List.Forall₂ (Written left) enc es := ((mapM_eq_ok.mp henc).imp (fun e p => (hpair e p).mp)).flip
    refine ⟨enc, hall, (noDuplicate_iff (sortKeys_le enc)).mp hdup, ?_⟩
    rw [← hlen enc hall]
    exact (Except.ok.inj h).symm
  · rintro ⟨enc, hall, hlt, rfl⟩
    refine ⟨enc, mapM_eq_ok.mpr (hall.flip.imp (fun e p => (hpair e p).mpr)), bind_eq_ok.mpr ⟨(), ?_, ?_⟩⟩
    · exact (noDuplicate_iff (sortKeys_le enc)).mpr hlt
    · rw [hlen enc hall]

theorem encodeInto_pos {left : Nat} {v : Value} {w : List UInt8} (h : encodeInto left v = .ok w) : 1 ≤ w.length := by
  have hhead : ∀ (major arg : Nat) (l : List UInt8), 1 ≤ (head major arg ++ l).length := by
    intro major arg l
    have : 1 ≤ (head major arg).length := by
      unfold head
      split
      · exact le_refl 1
      · split
        · exact Nat.succ_pos _
        · split
          · exact Nat.succ_pos _
          · split
            · exact Nat.succ_pos _
            · exact Nat.succ_pos _
    rw [List.length_append]
    omega
  cases left with
  | zero => cases h
  | succ left =>
    cases v with
    | uint n =>
      rw [← Except.ok.inj h, ← List.append_nil (head _ _)]
      exact hhead _ _ _
    | nint n =>
      rw [← Except.ok.inj h, ← List.append_nil (head _ _)]
      exact hhead _ _ _
    | bytes b =>
      rw [← Except.ok.inj h]
      exact hhead _ _ _
    | text s =>
      rw [← Except.ok.inj h]
      exact hhead _ _ _
    | array items =>
      obtain ⟨enc, -, rfl⟩ := encodeInto_array.mp h
      exact hhead _ _ _
    | map es =>
      obtain ⟨enc, -, -, rfl⟩ := encodeInto_map.mp h
      exact hhead _ _ _
    | bool b =>
      rw [← Except.ok.inj h]
      exact le_refl 1
    | null =>
      rw [← Except.ok.inj h]
      exact le_refl 1
    | float x =>
      rw [← Except.ok.inj h]
      obtain ⟨ai, w', -, hw, -⟩ := simple_reads (width x)
      rw [hw]
      exact Nat.succ_pos _

theorem flatten_length_le {ws : List (List UInt8)} (h : ∀ w ∈ ws, 1 ≤ w.length) : ws.length ≤ ws.flatten.length := by
  induction ws with
  | nil => exact le_refl 0
  | cons w ws ih =>
    have h1 := h w List.mem_cons_self
    have h2 := ih (fun w hw => h w (List.mem_cons_of_mem _ hw))
    rw [List.flatten_cons, List.length_append, List.length_cons]
    omega

theorem flat_length_le {enc : List Pair} (h : ∀ p ∈ enc, 1 ≤ p.1.length ∧ 1 ≤ p.2.length) :
    enc.length * 2 ≤ (flat enc).length := by
  induction enc with
  | nil => exact le_refl 0
  | cons p enc ih =>
    have h1 := h p List.mem_cons_self
    have h2 := ih (fun p hp => h p (List.mem_cons_of_mem _ hp))
    rw [flat_cons, List.length_append, List.length_append, List.length_cons]
    omega

/-! ## What is written is read back -/

/-- The bytes of a key. -/
def keyBytes (left : Nat) (k : Value) : List UInt8 :=
  match encodeInto left k with
  | .ok w => w
  | .error _ => []

/-- The value with one NaN for all and every map in the order of its encoded keys. -/
def arranged : Nat → Value → Value
  | 0, v => v
  | left + 1, v =>
    match v with
    | .array items => .array (items.map (arranged left))
    | .map es =>
      .map ((es.mergeSort (fun a b => decide (keyBytes left a.1 ≤ keyBytes left b.1))).map
        (fun e => (arranged left e.1, arranged left e.2)))
    | .float x => .float (oneNan x)
    | v => v

theorem keyBytes_of {left : Nat} {k : Value} {w : List UInt8} (h : encodeInto left k = .ok w) : keyBytes left k = w := by
  unfold keyBytes
  rw [h]

/-- Sorting the written entries sorts the entries. -/
theorem sortKeys_written {left : Nat} {enc : List Pair} {es : List (Value × Value)}
    (h : List.Forall₂ (Written left) enc es) :
    List.Forall₂ (Written left) (sortKeys enc)
      (es.mergeSort (fun a b => decide (keyBytes left a.1 ≤ keyBytes left b.1))) := by
  have henc : enc = es.map (fun e => (keyBytes left e.1, keyBytes left e.2))
      ∧ ∀ e ∈ es, Written left (keyBytes left e.1, keyBytes left e.2) e := by
    induction h with
    | nil => exact ⟨rfl, nofun⟩
    | @cons p e enc es hp _ ih =>
      have heq : (keyBytes left e.1, keyBytes left e.2) = p := by rw [keyBytes_of hp.1, keyBytes_of hp.2]
      refine ⟨by rw [List.map_cons, ← ih.1, heq], List.forall_mem_cons.mpr ⟨?_, ih.2⟩⟩
      rw [heq]
      exact hp
  have hsort : sortKeys enc = (es.mergeSort (fun a b => decide (keyBytes left a.1 ≤ keyBytes left b.1))).map
      (fun e => (keyBytes left e.1, keyBytes left e.2)) := by
    rw [henc.1, sortKeys, List.map_mergeSort]
    exact fun _ _ _ _ => rfl
  rw [hsort, List.forall₂_map_left_iff, List.forall₂_same]
  exact fun e he => henc.2 e (List.mem_mergeSort.mp he)

/-- A declared length is no obstacle to bytes that are there. -/
theorem checkedLen_reads {α : Type} {f : Nat → Decode α} {arg minBytes : Nat} {w : List UInt8} {a : α}
    (hmin : 0 < minBytes) (hlen : arg * minBytes ≤ w.length) (h : Lib.Reads (f arg) w a) :
    Lib.Reads (checkedLen arg minBytes >>= f) w a := by
  intro r rest hr
  have hfits : ¬(r.remaining / minBytes < arg) := by
    rw [Nat.div_lt_iff_lt_mul hmin, Reader.remaining_eq, hr, List.length_append]
    omega
  have hrun : checkedLen arg minBytes r = .ok (arg, r) := if_neg hfits
  obtain ⟨r', h', hb, hr'⟩ := h r rest hr
  exact ⟨r', by rw [Read.bind_ok hrun, h'], hb, hr'⟩

theorem checkedLen_consumes (arg minBytes : Nat) :
    Consumes (checkedLen arg minBytes) (fun w n => w = [] ∧ n = arg) := by
  intro r
  by_cases hlt : r.remaining / minBytes < arg
  · have hrun : checkedLen arg minBytes r = .error (.error _) := if_pos hlt
    exact ⟨fun hpanic => (nomatch hrun.symm.trans hpanic), fun _ _ h => (nomatch hrun.symm.trans h)⟩
  · have hrun : checkedLen arg minBytes r = .ok (arg, r) := if_neg hlt
    refine ⟨fun hpanic => (nomatch hrun.symm.trans hpanic), fun n r' h => ?_⟩
    cases hrun.symm.trans h
    exact ⟨[], rfl, rfl, rfl, rfl⟩

theorem headed_reads {left major arg : Nat} {w : List UInt8} {v : Value} (hm : major < 6) (ha : arg < 2 ^ 64)
    (h : Lib.Reads (argued (value left) major arg) w v) :
    Lib.Reads (value (left + 1)) (head major arg ++ w) v := by
  obtain ⟨ai, w0, harg⟩ := exists_arg ha
  have hai := harg.ai_lt
  rw [harg.head]
  show Lib.Reads _ ([first major ai] ++ (w0 ++ w)) v
  unfold value
  refine (byte_reads _).bind ?_
  dsimp only
  rw [first_toNat (by omega) (by omega), show (major * 32 + ai) / 32 = major by omega,
    show (major * 32 + ai) % 32 = ai by omega, if_neg (by omega), if_neg (by omega)]
  exact (headArg_reads harg).bind h

/-- A simple value is read from its first byte. -/
theorem plain_reads {left ai : Nat} {w : List UInt8} {v : Value} (ha : ai < 32)
    (h : Lib.Reads (simple ai) w v) : Lib.Reads (value (left + 1)) (first 7 ai :: w) v := by
  show Lib.Reads _ ([first 7 ai] ++ w) v
  unfold value
  refine (byte_reads _).bind ?_
  dsimp only
  rw [first_toNat (by decide) ha, show (7 * 32 + ai) / 32 = 7 by omega, show (7 * 32 + ai) % 32 = ai by omega,
    if_pos rfl]
  exact h

/-- **What the writer writes the reader reads**, by induction on the nesting that is left. -/
theorem value_reads : ∀ {left : Nat} {v : Value} {w : List UInt8}, encodeInto left v = .ok w → w.length < 2 ^ 64 →
    Lib.Reads (value left) w (arranged left v) := by
  intro left
  induction left with
  | zero => exact fun h => nomatch h
  | succ left ih =>
    intro v w h hlen
    cases v with
    | uint n =>
      cases h
      have hread := @headed_reads left 0 n.toNat [] (.uint (BitVec.ofNat 64 n.toNat)) (by decide) n.isLt
        (Reads.pure _)
      rwa [List.append_nil, ofNat_toNat] at hread
    | nint n =>
      cases h
      have hread := @headed_reads left 1 n.toNat [] (.nint (BitVec.ofNat 64 n.toNat)) (by decide) n.isLt
        (Reads.pure _)
      rwa [List.append_nil, ofNat_toNat] at hread
    | bytes b =>
      cases h
      rw [List.length_append] at hlen
      refine headed_reads (by decide) (by omega) (checkedLen_reads (by decide) (by omega) ?_)
      exact (Reads.take rfl).bind_last (Reads.pure _)
    | text s =>
      cases h
      rw [List.length_append] at hlen
      refine headed_reads (by decide) (by omega) (checkedLen_reads (by decide) (by omega) ?_)
      refine (Reads.take rfl).bind_last ?_
      rw [dif_pos s.valid]
      exact Reads.pure _
    | array items =>
      obtain ⟨enc, hall, rfl⟩ := encodeInto_array.mp h
      rw [List.length_append] at hlen
      have hcount : items.length ≤ enc.flatten.length := by
        rw [← hall.length_eq]
        exact flatten_length_le (forall₂_left hall (fun _ _ hv => encodeInto_pos hv))
      have hread : List.Forall₂ (Lib.Reads (value left)) enc (items.map (arranged left)) := by
        rw [List.forall₂_map_right_iff]
        refine forall₂_imp_mem hall (fun w v hw hv => ?_)
        have hle := (List.sublist_flatten_of_mem hw).length_le
        exact ih hv (by omega)
      refine headed_reads (by decide) (by omega) (checkedLen_reads (by decide) (by omega) ?_)
      have hitems := Reads.replicateAll hread
      rw [List.length_map] at hitems
      exact hitems.bind_last (Reads.pure _)
    | map es =>
      obtain ⟨enc, hall, hlt, rfl⟩ := encodeInto_map.mp h
      have hsorted := sortKeys_written hall
      rw [List.length_append] at hlen
      have hcount : es.length * 2 ≤ (flat (sortKeys enc)).length := by
        rw [← hall.length_eq, ← (sortKeys_perm enc).length_eq]
        exact flat_length_le (forall₂_left hsorted (fun _ _ he => ⟨encodeInto_pos he.1, encodeInto_pos he.2⟩))
      refine headed_reads (by decide) (by omega) (checkedLen_reads (by decide) hcount ?_)
      have hread : List.Forall₂
          (fun (p : Pair) (e : Value × Value) =>
            Lib.Reads (value left) p.1 e.1 ∧ Lib.Reads (value left) p.2 e.2)
          (sortKeys enc) ((es.mergeSort (fun a b => decide (keyBytes left a.1 ≤ keyBytes left b.1))).map
            (fun e => (arranged left e.1, arranged left e.2))) := by
        rw [List.forall₂_map_right_iff]
        refine forall₂_imp_mem hsorted (fun p e hp he => ?_)
        have hsub : (p.1 ++ p.2).Sublist (flat (sortKeys enc)) := by
          rw [flat, List.flatMap_def]
          exact List.sublist_flatten_of_mem (List.mem_map_of_mem hp)
        have hle := hsub.length_le
        rw [List.length_append] at hle
        exact ⟨ih he.1 (by omega), ih he.2 (by omega)⟩
      have hentries := entries_reads hread hlt
      rw [List.length_map, List.length_mergeSort] at hentries
      exact hentries.bind_last (Reads.pure _)
    | bool b =>
      cases h
      cases b with
      | false => exact plain_reads (by decide : 20 < 32) (Reads.pure _)
      | true => exact plain_reads (by decide : 21 < 32) (Reads.pure _)
    | null =>
      cases h
      exact plain_reads (by decide : 22 < 32) (Reads.pure _)
    | float x =>
      cases h
      obtain ⟨ai, w', hai, hw, hread⟩ := simple_reads (width x)
      rw [hw]
      exact plain_reads hai hread

theorem argued_consumes {left : Nat} (ih : Consumes (value left) (fun w v => encodeInto left v = .ok w))
    {major arg : Nat} (hm : major < 6) (ha : arg < 2 ^ 64) :
    Consumes (argued (value left) major arg)
      (fun w v => encodeInto (left + 1) v = .ok (head major arg ++ w)) := by
  have hnum : (BitVec.ofNat 64 arg).toNat = arg := by rw [BitVec.toNat_ofNat, Nat.mod_eq_of_lt ha]
  match major, hm with
  | 0, _ =>
    refine Consumes.pure ?_
    show Except.ok (head 0 (BitVec.ofNat 64 arg).toNat) = _
    rw [hnum, List.append_nil]
  | 1, _ =>
    refine Consumes.pure ?_
    show Except.ok (head 1 (BitVec.ofNat 64 arg).toNat) = _
    rw [hnum, List.append_nil]
  | 2, _ =>
    refine (checkedLen_consumes arg 1).bind ?_
    rintro _ _ ⟨rfl, rfl⟩
    refine (take _ _).bind ?_
    rintro w _ ⟨rfl, rfl⟩
    refine Consumes.pure ?_
    rw [List.append_nil]
    rfl
  | 3, _ =>
    refine (checkedLen_consumes arg 1).bind ?_
    rintro _ _ ⟨rfl, rfl⟩
    refine (take _ _).bind ?_
    rintro w _ ⟨rfl, rfl⟩
    split
    · refine Consumes.pure ?_
      rw [List.append_nil]
      rfl
    · exact fail _
  | 4, _ =>
    refine (checkedLen_consumes arg 1).bind ?_
    rintro _ _ ⟨rfl, rfl⟩
    refine (replicate ih _).bind ?_
    rintro _ items ⟨rfl, ws, hall, rfl⟩
    refine Consumes.pure ?_
    rw [List.append_nil]
    exact encodeInto_array.mpr ⟨ws, hall, rfl⟩
  | 5, _ =>
    refine (checkedLen_consumes arg 2).bind ?_
    rintro _ _ ⟨rfl, rfl⟩
    refine (entries_consumes ih _).bind ?_
    rintro _ es ⟨rfl, enc, rfl, hall, hlt⟩
    refine Consumes.pure (encodeInto_map.mpr ⟨enc, hall, ?_, ?_⟩)
    · rwa [sortKeys_of_lt hlt]
    · rw [List.append_nil, sortKeys_of_lt hlt]
      rfl

/-- **The reader takes only what the writer writes**, by induction on the nesting that is left. -/
theorem value_consumes : ∀ left : Nat, Consumes (value left) (fun w v => encodeInto left v = .ok w) := by
  intro left
  induction left with
  | zero => exact fail _
  | succ left ih =>
    unfold value
    refine byte_consumes.bind ?_
    rintro _ b rfl
    dsimp only
    have hb := b.toNat_lt
    split
    · rename_i hmajor
      refine (simple_consumes left _).mono (fun w v hv => ?_)
      rw [← hmajor, first_of] at hv
      exact hv
    · split
      · exact fail _
      · refine (headArg_consumes _).bind (fun w0 arg harg => ?_)
        refine (argued_consumes ih (by omega) harg.lt).mono (fun w v hv => ?_)
        rw [harg.head, first_of] at hv
        exact hv

/-! ## Whole messages -/

/-- How deep a value nests: fewer than this many values hold one another. -/
def Fits : Nat → Value → Prop
  | 0, _ => False
  | left + 1, v =>
    match v with
    | .array items => ∀ i ∈ items, Fits left i
    | .map es => ∀ e ∈ es, Fits left e.1 ∧ Fits left e.2
    | _ => True

theorem fits_of_encodeInto : ∀ {left : Nat} {v : Value} {w : List UInt8}, encodeInto left v = .ok w → Fits left v := by
  intro left
  induction left with
  | zero => exact fun h => nomatch h
  | succ left ih =>
    intro v w h
    cases v with
    | array items =>
      obtain ⟨enc, hall, -⟩ := encodeInto_array.mp h
      exact forall₂_left hall.flip (fun _ _ hv => ih hv)
    | map es =>
      obtain ⟨enc, hall, -⟩ := encodeInto_map.mp h
      exact forall₂_left hall.flip (fun _ _ he => ⟨ih he.1, ih he.2⟩)
    | uint | nint | bytes | text | bool | null | float => trivial

theorem encode_eq_ok {v : Value} {b : List UInt8} :
    encode v = .ok b ↔ encodeInto (MAX_DEPTH + 1) v = .ok b ∧ b.length ≤ ISIZE_MAX := by
  unfold encode
  rw [bind_eq_ok]
  constructor
  · rintro ⟨out, hout, h⟩
    split at h
    · rename_i hlen
      cases h
      exact ⟨hout, hlen⟩
    · cases h
  · rintro ⟨hout, hlen⟩
    exact ⟨b, hout, if_pos hlen⟩

theorem decode_of_encode {v : Value} {b : List UInt8} (h : encode v = .ok b) :
    decode b = .ok (arranged (MAX_DEPTH + 1) v) := by
  obtain ⟨hout, hlen⟩ := encode_eq_ok.mp h
  unfold ISIZE_MAX at hlen
  obtain ⟨r', hrun, hb, hrest⟩ := value_reads hout (by omega) (Reader.new b) [] (List.append_nil b).symm
  have hend : r'.offset = r'.bytes.length := by
    have := r'.le
    have hlen := congrArg List.length hrest
    unfold Reader.rest at hlen
    rw [List.length_drop, List.length_nil] at hlen
    omega
  have hfin : finish (arranged (MAX_DEPTH + 1) v) r' = .ok (arranged (MAX_DEPTH + 1) v, r') :=
    if_neg (fun hne => hne hend)
  unfold decode
  rw [Read.bind_ok hrun, hfin]

theorem decode_from (b : List UInt8) :
    decode b ≠ .error .panic ∧ ∀ v, decode b = .ok v → encodeInto (MAX_DEPTH + 1) v = .ok b := by
  have hfrom : From (Reader.new b) (value (MAX_DEPTH + 1) >>= finish)
      (fun v _ => encodeInto (MAX_DEPTH + 1) v = .ok b) := by
    refine (value_consumes (MAX_DEPTH + 1) (Reader.new b)).bind ?_
    rintro v r' ⟨w, hb, hr, hw⟩
    by_cases hend : r'.offset = r'.bytes.length
    · have hfin : finish v r' = .ok (v, r') := if_neg (fun hne => hne hend)
      refine ⟨fun hpanic => (nomatch hfin.symm.trans hpanic), fun v' r'' h => ?_⟩
      cases hfin.symm.trans h
      have hrest : r'.rest = [] := by
        unfold Reader.rest
        rw [hend, List.drop_length]
      rw [hrest, List.append_nil] at hr
      rw [show b = w from hr]
      exact hw
    · have hfin : finish v r' = .error (.error _) := if_pos hend
      exact ⟨fun hpanic => (nomatch hfin.symm.trans hpanic), fun _ _ h => (nomatch hfin.symm.trans h)⟩
  unfold decode
  cases hrun : (value (MAX_DEPTH + 1) >>= finish) (Reader.new b) with
  | error stop =>
    refine ⟨fun hpanic => ?_, nofun⟩
    obtain rfl : stop = .panic := Except.error.inj hpanic
    exact hfrom.1 hrun
  | ok x =>
    refine ⟨nofun, fun v hv => ?_⟩
    obtain rfl : x.1 = v := Except.ok.inj hv
    exact hfrom.2 x.1 x.2 hrun

/-- **The codec is canonical and exact.** A written value is read back, with one NaN for all and its maps
in the order of the encoded keys. Reading never leaves the input, and it gives only values within the depth
limit whose one spelling is the input. -/
theorem codec_exact : (∀ (v : Value) (b : List UInt8), encode v = .ok b → decode b = .ok (arranged (MAX_DEPTH + 1) v))
      ∧ (∀ b : List UInt8, decode b ≠ .error .panic)
      ∧ (∀ b : List UInt8, b.length ≤ ISIZE_MAX → ∀ v, decode b = .ok v → Fits (MAX_DEPTH + 1) v ∧ encode v = .ok b)
      ∧ ∀ b : List UInt8, b.length ≤ ISIZE_MAX → ((∃ v, decode b = .ok v) ↔ ∃ v, encode v = .ok b) := by
  have hexact : ∀ b : List UInt8, b.length ≤ ISIZE_MAX → ∀ v, decode b = .ok v →
      Fits (MAX_DEPTH + 1) v ∧ encode v = .ok b := by
    intro b hlen v hv
    have hout := (decode_from b).2 v hv
    exact ⟨fits_of_encodeInto hout, encode_eq_ok.mpr ⟨hout, hlen⟩⟩
  refine ⟨fun v b => decode_of_encode, fun b => (decode_from b).1, hexact, fun b hlen => ?_⟩
  constructor
  · rintro ⟨v, hv⟩
    exact ⟨v, (hexact b hlen v hv).2⟩
  · rintro ⟨v, hv⟩
    exact ⟨_, decode_of_encode hv⟩

/-- A map out of order, with a NaN of its own. -/
def outOfOrder : Value := .map [(.uint 300#64, .float 0xFFF0000000000001#64), (.uint 2#64, .bool true)]

theorem outOfOrder_bytes : encode outOfOrder = .ok [0xA2, 0x02, 0xF5, 0x19, 0x01, 0x2C, 0xF9, 0x7E, 0x00] := by
  have hsort : sortKeys [([0x19, 0x01, 0x2C], [0xF9, 0x7E, 0x00]), ([0x02], [0xF5])]
      = [([0x02], [0xF5]), ([0x19, 0x01, 0x2C], [0xF9, 0x7E, 0x00])] := by
    simp [sortKeys, List.mergeSort, List.MergeSort.Internal.splitInTwo, List.merge]
    decide
  refine encode_eq_ok.mpr ⟨encodeInto_map.mpr
    ⟨[([0x19, 0x01, 0x2C], [0xF9, 0x7E, 0x00]), ([0x02], [0xF5])], ?_, ?_, ?_⟩, by decide⟩
  · exact .cons ⟨rfl, rfl⟩ (.cons ⟨rfl, rfl⟩ .nil)
  · rw [hsort]
    decide
  · rw [hsort]
    rfl

theorem codec_exact_outOfOrder :
    decode [0xA2, 0x02, 0xF5, 0x19, 0x01, 0x2C, 0xF9, 0x7E, 0x00] = .ok (arranged (MAX_DEPTH + 1) outOfOrder)
      ∧ ∃ v, encode v = .ok [0xA2, 0x02, 0xF5, 0x19, 0x01, 0x2C, 0xF9, 0x7E, 0x00] :=
  ⟨codec_exact.1 _ _ outOfOrder_bytes, (codec_exact.2.2.2 _ (by decide)).mp ⟨_, codec_exact.1 _ _ outOfOrder_bytes⟩⟩

end Pie.Proof.Cbor
