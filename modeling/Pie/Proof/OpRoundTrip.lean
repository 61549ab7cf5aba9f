import Pie.Eta.Container

/-!
# Operations on the wire

An operation is written field by field after the layout of its tag, and read
back the same way. One lemma says for each kind of field that what is written of
a record is read into the same place of another; `loadAll` is the record a whole
layout gives. What is left for each operation is a computation: its layout holds
everything its arm of `toOp` asks for.
-/

namespace Pie.Proof

open List Option Pie.Eta Lib Decode Yields Reads

variable {op : Op} {wire : OpWire} {t i v x : Nat} {d : Dtype} {f : WireField}

/-- An operation that can be written: its types have tags, and its operands a number that fits a byte. -/
def OpFits : Op → Prop
  | .cast _ dtype => dtype.supports = true
  | .intrinsicVal _ _ dtype => dtype.supports = true
  | .kernelCall _ args _ dtype => args.length < 256 ∧ dtype.supports = true
  | .sinkCall _ args => args.length < 256
  | _ => True

/-! ## Words -/

def wordsLe (l : List (BitVec 32)) : List UInt8 := l.flatMap (fun x => toLe 4 x.toNat)

theorem foldl_putU32 (l : List (BitVec 32)) : ∀ w : List UInt8, l.foldl putU32 w = w ++ wordsLe l := by
  induction l with
  | nil => intro w; simp [wordsLe]
  | cons x l ih =>
    intro w
    rw [foldl_cons, ih]
    simp [wordsLe, putU32]

theorem reads_u8 (h : x < 256) : Reads u8 (toLe 1 x) x := number h

theorem reads_u16 (h : x < 2 ^ 16) : Reads u16 (toLe 2 x) x := number h

theorem reads_u32 (x : BitVec 32) : Reads u32 (toLe 4 x.toNat) x := by
  have h : Reads u32 (toLe 4 x.toNat) (BitVec.ofNat 32 x.toNat) := (Reads.number x.isLt).map
  rwa [BitVec.ofNat_toNat, BitVec.setWidth_eq] at h

theorem reads_words (l : List (BitVec 32)) : Reads (Read.replicate u32 l.length) (wordsLe l) l :=
  replicate (fun x _ => reads_u32 x)

def shapeBytes (dims : List (BitVec 32)) : List UInt8 := toLe 1 dims.length ++ wordsLe dims

theorem reads_shape (s : Shape) : Reads shape (shapeBytes s.dims) s := by
  have hrank := s.rank_le
  refine (reads_u8 (lt_of_le_of_lt hrank (by decide))).bind ?_
  rw [if_neg (not_lt.mpr hrank)]
  exact (reads_words s.dims).bind_last (expect (Shape.new_dims s))

theorem encodeShape_eq (w : List UInt8) (s : Shape) : encodeShape w s = some (w ++ shapeBytes s.dims) := by
  have hrank : s.rank < 256 ^ 1 := lt_of_le_of_lt s.rank_le (by decide)
  unfold encodeShape wireLen
  rw [if_pos hrank]
  show some (s.dims.foldl putU32 (w ++ toLe 1 s.rank)) = _
  rw [foldl_putU32, append_assoc]
  rfl

/-! ## Fields -/

/-- Where the next value and the next immediate are, past a field. -/
def pastField (v i : Nat) : WireField → Nat × Nat
  | .value => (v + 1, i)
  | .imm => (v, i + 1)
  | _ => (v, i)

/-- What makes a field of a record one that is read back. -/
def FieldOk (wire : OpWire) (v i : Nat) : WireField → Prop
  | .value => v < wire.args.length
  | .chan => ∃ chan : ChannelIndex, wire.chan = chan.toNat
  | .imm => i < 3
  | .dtype => (Dtype.fromWire wire.dtype).isSome = true
  | .shape => ShapeOk wire.shape
  | .rngKind => (RngKind.fromU8 wire.kind).isSome = true
  | .predicate => wire.predTag ≤ 2
  | .literal => (Dtype.fromWire wire.litDtype).isSome = true
  | .name => True
  | .intrinsic => (IntrinsicId.fromU16 wire.intr).isSome = true
  | .args => v ≤ wire.args.length ∧ wire.args.length - v < 256

def immAt (wire : OpWire) (i : Nat) : BitVec 32 := ([wire.imm, wire.imm2, wire.imm3][i]?).getD 0

def fieldBytes (wire : OpWire) (v i : Nat) : WireField → List UInt8
  | .value => toLe 4 ((wire.args[v]?).getD 0).toNat
  | .chan => toLe 4 (wire.channel.getD 0).toNat
  | .imm => toLe 4 (immAt wire i).toNat
  | .dtype => toLe 1 wire.dtype
  | .shape => shapeBytes wire.shape
  | .rngKind => toLe 1 wire.kind
  | .predicate => toLe 1 wire.predTag ++ toLe 4 wire.predPayload.toNat
  | .literal => toLe 1 wire.litDtype ++ toLe 4 wire.litBits.toNat
  | .name => toLe 2 wire.nameIdx.toNat
  | .intrinsic => toLe 2 wire.intr
  | .args => toLe 1 (wire.args.drop v).length ++ wordsLe (wire.args.drop v)

/-- A record with one field of another. -/
def load (wire : OpWire) (v i : Nat) (into : OpWire) : WireField → OpWire
  | .value => { into with args := into.args ++ [(wire.args[v]?).getD 0] }
  | .chan => { into with chan := wire.chan }
  | .imm => Decode.setImm into i (immAt wire i)
  | .dtype => { into with dtype := wire.dtype }
  | .shape => { into with shape := wire.shape }
  | .rngKind => { into with kind := wire.kind }
  | .predicate => { into with predTag := wire.predTag, predPayload := wire.predPayload }
  | .literal => { into with litBits := wire.litBits, litDtype := wire.litDtype }
  | .name => { into with nameIdx := wire.nameIdx }
  | .intrinsic => { into with intr := wire.intr }
  | .args => { into with args := into.args ++ wire.args.drop v }

theorem channel_of {chan : ChannelIndex} (h : wire.chan = chan.toNat) : wire.channel = some chan := by
  have hbound : 0 ≤ wire.chan ∧ wire.chan < 2 ^ 32 := by
    rw [h]
    omega
  unfold OpWire.channel
  rw [if_pos hbound, h, Int.toNat_natCast, BitVec.ofNat_toNat, BitVec.setWidth_eq]

theorem fromWire_lt (h : (Dtype.fromWire t).isSome = true) : t < 256 := by
  obtain ⟨d, hd⟩ := isSome_iff_exists.mp h
  exact lt_trans (Dtype.toWire_lt (Dtype.fromWire_eq_some.mp hd)) (by decide)

theorem rngKind_fromU8 {kind : RngKind} (h : RngKind.fromU8 t = some kind) : kind.toU8 = t ∧ t < 256 := by
  unfold RngKind.fromU8 at h
  split at h <;> cases h <;> exact ⟨rfl, by decide⟩

theorem intrinsic_fromU16 {intr : IntrinsicId} (h : IntrinsicId.fromU16 t = some intr) : t < 2 ^ 16 := by
  unfold IntrinsicId.fromU16 at h
  split at h <;> first | decide | cases h

theorem encodeField_eq (h : FieldOk wire v i f) (w : List UInt8) : encodeField wire ⟨w, v, i⟩ f
      = some ⟨w ++ fieldBytes wire v i f, (pastField v i f).1, (pastField v i f).2⟩ := by
  cases f with
  | value =>
    have harg := getElem?_eq_getElem (show v < wire.args.length from h)
    simp only [encodeField, fieldBytes, pastField, harg, bind_eq_bind, bind_some,
      getD_some, putU32]
  | chan =>
    obtain ⟨chan, hchan⟩ := h
    simp only [encodeField, fieldBytes, pastField, channel_of hchan, bind_eq_bind,
      bind_some, getD_some, putU32]
  | imm =>
    have himm : [wire.imm, wire.imm2, wire.imm3][i]? = some (immAt wire i) := by
      unfold immAt
      rw [getElem?_eq_getElem (show i < [wire.imm, wire.imm2, wire.imm3].length from h)]
      rfl
    simp only [encodeField, fieldBytes, pastField, himm, bind_eq_bind, bind_some, putU32]
  | shape =>
    have hrank : wire.shape.length < 256 ^ 1 := lt_of_le_of_lt h.1 (by decide)
    simp only [encodeField, fieldBytes, pastField, wireLen, if_pos hrank, bind_eq_bind,
      bind_some, foldl_putU32, putU8, shapeBytes, append_assoc]
  | args =>
    have hcount : (wire.args.drop v).length < 256 ^ 1 := by
      rw [length_drop]
      exact h.2
    simp only [encodeField, fieldBytes, pastField, if_neg (not_lt.mpr h.1), wireLen, if_pos hcount,
      bind_eq_bind, bind_some, foldl_putU32, putU8, append_assoc]
  | _ => simp [encodeField, fieldBytes, pastField, putU8, putU16, putU32]

/-- What is written of a field is read into its place. -/
theorem field_reads (h : FieldOk wire v i f) (into : OpWire) :
    Reads (field (into, i) f) (fieldBytes wire v i f) (load wire v i into f, (pastField v i f).2) := by
  cases f with
  | value => exact (reads_u32 _).bind_last (Reads.pure _)
  | chan =>
    obtain ⟨chan, hchan⟩ := h
    have hbytes : fieldBytes wire v i .chan = toLe 4 chan.toNat := by
      rw [fieldBytes, channel_of hchan]
      rfl
    rw [hbytes, load, hchan]
    exact (reads_u32 chan).bind_last (Reads.pure _)
  | imm => exact (reads_u32 _).bind_last (Reads.pure _)
  | dtype =>
    obtain ⟨d, hd⟩ := isSome_iff_exists.mp h
    refine (reads_u8 (fromWire_lt h)).bind_last ?_
    exact (expect hd).bind (Reads.pure _)
  | shape =>
    refine ?_
    exact (reads_shape ⟨wire.shape, h⟩).bind_last (Reads.pure _)
  | rngKind =>
    obtain ⟨kind, hkind⟩ := isSome_iff_exists.mp h
    obtain ⟨hback, hlt⟩ := rngKind_fromU8 hkind
    refine (reads_u8 hlt).bind_last ?_
    rw [load, ← hback]
    exact (Reads.expect (by rw [hback]; exact hkind)).bind (Reads.pure _)
  | predicate =>
    refine (reads_u8 (lt_of_le_of_lt h (by decide))).bind ?_
    rw [if_neg (not_lt.mpr h)]
    exact (reads_u32 _).bind_last (Reads.pure _)
  | literal =>
    obtain ⟨d, hd⟩ := isSome_iff_exists.mp h
    refine (reads_u8 (fromWire_lt h)).bind ?_
    refine (reads_u32 _).bind_last ?_
    exact (expect hd).bind (Reads.pure _)
  | name =>
    have hback : BitVec.ofNat 16 wire.nameIdx.toNat = wire.nameIdx := by
      rw [BitVec.ofNat_toNat, BitVec.setWidth_eq]
    refine (reads_u16 wire.nameIdx.isLt).bind_last ?_
    rw [hback]
    exact Reads.pure _
  | intrinsic =>
    obtain ⟨intr, hintr⟩ := isSome_iff_exists.mp h
    refine (reads_u16 (intrinsic_fromU16 hintr)).bind_last ?_
    exact (expect hintr).bind (Reads.pure _)
  | args =>
    have hcount : (wire.args.drop v).length < 256 := by
      rw [length_drop]
      exact h.2
    refine (reads_u8 hcount).bind ?_
    exact (reads_words _).bind_last (Reads.pure _)

/-! ## Layouts -/

def LayoutOk (wire : OpWire) : Nat → Nat → List WireField → Prop
  | _, _, [] => True
  | v, i, f :: fs => FieldOk wire v i f ∧ LayoutOk wire (pastField v i f).1 (pastField v i f).2 fs

def layoutBytes (wire : OpWire) : Nat → Nat → List WireField → List UInt8
  | _, _, [] => []
  | v, i, f :: fs => fieldBytes wire v i f ++ layoutBytes wire (pastField v i f).1 (pastField v i f).2 fs

/-- A record with the fields of a layout. -/
def loadAll (wire : OpWire) : Nat → Nat → List WireField → OpWire → OpWire
  | _, _, [], into => into
  | v, i, f :: fs, into =>
    loadAll wire (pastField v i f).1 (pastField v i f).2 fs (load wire v i into f)

theorem encodeFields_eq : ∀ {fs : List WireField} {v i : Nat}, LayoutOk wire v i fs →
    ∀ w : List UInt8, ∃ v' i', fs.foldlM (encodeField wire) ⟨w, v, i⟩
      = some ⟨w ++ layoutBytes wire v i fs, v', i'⟩ := by
  intro fs
  induction fs with
  | nil => intro v i _ w; exact ⟨v, i, by simp [layoutBytes]⟩
  | cons f fs ih =>
    intro v i h w
    obtain ⟨v', i', hrest⟩ := ih h.2 (w ++ fieldBytes wire v i f)
    refine ⟨v', i', ?_⟩
    rw [foldlM_cons, encodeField_eq h.1]
    show fs.foldlM _ _ = _
    rw [hrest, layoutBytes, append_assoc]

theorem fields_reads : ∀ {fs : List WireField} {v i : Nat}, LayoutOk wire v i fs →
    ∀ into : OpWire, ∃ i', Reads (fs.foldlM field (into, i)) (layoutBytes wire v i fs)
      (loadAll wire v i fs into, i') := by
  intro fs
  induction fs with
  | nil => intro v i _ into; exact ⟨i, Reads.pure _⟩
  | cons f fs ih =>
    intro v i h into
    obtain ⟨i', hrest⟩ := ih h.2 (load wire v i into f)
    refine ⟨i', ?_⟩
    rw [foldlM_cons]
    exact (field_reads h.1 into).bind hrest

/-! ## Operations -/

theorem fromWire_of_toWire (h : d.toWire = some t) : Dtype.fromWire t = some d :=
  Dtype.fromWire_eq_some.mpr h

theorem toWire_of_supports (h : d.supports = true) : ∃ t, d.toWire = some t :=
  isSome_iff_exists.mp (Dtype.toWire_isSome.trans h)

@[simp] theorem rngKind_back (kind : RngKind) : RngKind.fromU8 kind.toU8 = some kind := by cases kind <;> rfl

@[simp] theorem intrinsic_back (intr : IntrinsicId) : IntrinsicId.fromU16 intr.toU16 = some intr := by
  cases intr <;> rfl

/-- The layout of its tag carries an operation. -/
structure Carried (op : Op) (wire : OpWire) (row : OpSpec) : Prop where
  of : OpWire.of op = some wire
  tag : wire.tag = op.tag
  spec : spec op.tag = some row
  ok : LayoutOk wire 0 0 row.wire
  toOp : (loadAll wire 0 0 row.wire { tag := op.tag, chan := -1 }).toOp = some op

theorem op_carried (h : OpFits op) : ∃ wire row, Carried op wire row := by
  cases op with
  | cast value dtype =>
    obtain ⟨t, ht⟩ := toWire_of_supports h
    have hback := fromWire_of_toWire ht
    refine ⟨_, _, by rw [OpWire.of, OpWire.wireDtype, ht]; rfl, rfl, rfl, ?_, ?_⟩
    · simp [LayoutOk, FieldOk, hback]
    · simp [loadAll, load, OpWire.toOp, Op.tag, hback]
  | intrinsicVal intr shape dtype =>
    obtain ⟨t, ht⟩ := toWire_of_supports h
    have hback := fromWire_of_toWire ht
    refine ⟨_, _, by rw [OpWire.of, OpWire.wireDtype, ht]; rfl, rfl, rfl, ?_, ?_⟩
    · simp [LayoutOk, FieldOk, hback, shape.ok]
    · simp [loadAll, load, OpWire.toOp, Op.tag, hback]
  | kernelCall name args shape dtype =>
    obtain ⟨t, ht⟩ := toWire_of_supports h.2
    have hback := fromWire_of_toWire ht
    refine ⟨_, _, by rw [OpWire.of, OpWire.wireDtype, ht]; rfl, rfl, rfl, ?_, ?_⟩
    · simp [LayoutOk, FieldOk, pastField, hback, shape.ok, h.1]
    · simp [loadAll, load, pastField, OpWire.toOp, Op.tag, hback]
  | sinkCall name args =>
    have hcount : args.length < 256 := h
    exact ⟨_, _, rfl, rfl, rfl, by simp [LayoutOk, FieldOk, pastField, hcount], rfl⟩
  | const literal =>
    cases literal with
    | bool value => cases value <;> exact ⟨_, _, rfl, rfl, rfl, ⟨rfl, trivial⟩, rfl⟩
    | _ => exact ⟨_, _, rfl, rfl, rfl, ⟨rfl, trivial⟩, rfl⟩
  | pivotThreshold input predicate =>
    refine ⟨_, _, rfl, rfl, rfl, ?_, ?_⟩
    · cases predicate <;> simp [LayoutOk, FieldOk, Predicate.tag]
    · cases predicate <;> rfl
  | chanTake chan =>
    refine ⟨_, _, rfl, rfl, rfl, ⟨⟨chan, rfl⟩, trivial⟩, ?_⟩
    show (OpWire.channel _ >>= fun chan => some (Op.chanTake chan)) = _
    rw [channel_of rfl]
    rfl
  | chanRead chan =>
    refine ⟨_, _, rfl, rfl, rfl, ⟨⟨chan, rfl⟩, trivial⟩, ?_⟩
    show (OpWire.channel _ >>= fun chan => some (Op.chanRead chan)) = _
    rw [channel_of rfl]
    rfl
  | chanPut chan value =>
    refine ⟨_, _, rfl, rfl, rfl, ⟨⟨chan, rfl⟩, by simp [FieldOk, pastField], trivial⟩, ?_⟩
    show (OpWire.channel _ >>= fun chan => some (Op.chanPut chan value)) = _
    rw [channel_of rfl]
    rfl
  | broadcast value shape | reshape value shape =>
    refine ⟨_, _, rfl, rfl, rfl, ⟨by simp [FieldOk], shape.ok, trivial⟩, ?_⟩
    simp [loadAll, load, OpWire.toOp, Op.tag]
  | rng stream shape kind =>
    refine ⟨_, _, rfl, rfl, rfl, ⟨by simp [FieldOk], shape.ok, by simp [FieldOk], trivial⟩, ?_⟩
    simp [loadAll, load, OpWire.toOp, Op.tag, immAt, setImm]
  | rngKeyed state shape kind =>
    refine ⟨_, _, rfl, rfl, rfl, ⟨by simp [FieldOk], shape.ok, by simp [FieldOk], trivial⟩, ?_⟩
    simp [loadAll, load, OpWire.toOp, Op.tag]
  | _ => exact ⟨_, _, rfl, rfl, rfl, by simp [LayoutOk, FieldOk, pastField, Op.operands], rfl⟩

/-- What is written of an operation. -/
def opBytes (op : Op) : List UInt8 :=
  match OpWire.of op, spec op.tag with
  | some wire, some row => toLe 1 op.tag ++ layoutBytes wire 0 0 row.wire
  | _, _ => []

theorem Carried.bytes {row : OpSpec} (h : Carried op wire row) :
    opBytes op = toLe 1 op.tag ++ layoutBytes wire 0 0 row.wire := by
  unfold opBytes
  rw [h.of, h.spec]

theorem tag_lt (op : Op) : op.tag < 256 := by cases op <;> simp [Op.tag]

theorem encodeOp_eq (h : OpFits op) (w : List UInt8) : encodeOp w op = some (w ++ opBytes op) := by
  obtain ⟨wire, row, hc⟩ := op_carried h
  obtain ⟨v, i, hfields⟩ := encodeFields_eq hc.ok (putU8 w op.tag)
  unfold encodeOp
  simp only [hc.of, hc.tag, hc.spec, bind_eq_bind, bind_some, hfields]
  rw [hc.bytes, putU8, append_assoc]

theorem op_reads (h : OpFits op) : Reads Decode.op (opBytes op) op := by
  obtain ⟨wire, row, hc⟩ := op_carried h
  obtain ⟨i, hfields⟩ := fields_reads hc.ok { tag := op.tag, chan := -1 }
  rw [hc.bytes]
  refine (reads_u8 (tag_lt op)).bind ?_
  refine (expect hc.spec).bind ?_
  exact hfields.bind_last (expect hc.toOp)

theorem opBytes_pos (h : OpFits op) : 1 ≤ (opBytes op).length := by
  obtain ⟨wire, row, hc⟩ := op_carried h
  rw [hc.bytes, length_append, toLe_length]
  omega

/-! ## What is read fits -/

/-- How many operands a field can add. -/
def operandsOf : WireField → Nat
  | .value => 1
  | .args => 255
  | _ => 0

theorem yields_u8 : Yields u8 (· < 256) := number _ 1

theorem yields_u32 : Yields u32 (fun _ => True) :=
  (number _ 4).bind (fun _ _ => Yields.pure trivial)

theorem yields_expect {α : Type} {e : ContainerDecodeError} {x : Option α} :
    Yields (Read.expect e x) (fun _ => True) := expect (fun _ _ => trivial)

theorem yields_shape : Yields shape (fun _ => True) := by
  refine yields_u8.bind ?_
  intro rank _
  split
  · exact fail _
  · exact (replicate yields_u32 rank).bind (fun _ _ => expect (fun _ _ => trivial))

theorem field_yields (st : OpWire × Nat) (f : WireField) : Yields (field st f)
    (fun st' => st'.1.tag = st.1.tag ∧ st'.1.args.length ≤ st.1.args.length + operandsOf f) := by
  cases f with
  | value => exact yields_u32.bind (fun value _ => Yields.pure ⟨rfl, by simp [operandsOf]⟩)
  | chan => exact yields_u32.bind (fun _ _ => Yields.pure ⟨rfl, le_refl _⟩)
  | imm =>
    refine yields_u32.bind (fun value _ => Yields.pure ?_)
    unfold setImm
    split <;> exact ⟨rfl, le_refl _⟩
  | dtype =>
    refine yields_u8.bind (fun byte _ => ?_)
    exact yields_expect.bind
      (fun _ _ => Yields.pure ⟨rfl, le_refl _⟩)
  | shape => exact yields_shape.bind (fun s _ => Yields.pure ⟨rfl, le_refl _⟩)
  | rngKind =>
    refine yields_u8.bind (fun byte _ => ?_)
    exact yields_expect.bind
      (fun _ _ => Yields.pure ⟨rfl, le_refl _⟩)
  | predicate =>
    refine yields_u8.bind (fun pred _ => ?_)
    split
    · exact fail _
    · exact yields_u32.bind (fun _ _ => Yields.pure ⟨rfl, le_refl _⟩)
  | literal =>
    refine yields_u8.bind (fun dtype _ => yields_u32.bind (fun bits _ => ?_))
    exact yields_expect.bind
      (fun _ _ => Yields.pure ⟨rfl, le_refl _⟩)
  | name => exact (number _ 2).bind (fun _ _ => Yields.pure ⟨rfl, le_refl _⟩)
  | intrinsic =>
    refine (number _ 2).bind (fun intr _ => ?_)
    exact yields_expect.bind
      (fun _ _ => Yields.pure ⟨rfl, le_refl _⟩)
  | args =>
    refine yields_u8.bind (fun count hcount => ?_)
    refine (replicate yields_u32 count).bind (fun args hargs => Yields.pure ⟨rfl, ?_⟩)
    rw [length_append, hargs.1]
    simp only [operandsOf]
    omega

theorem fields_yields : ∀ (fs : List WireField) (st : OpWire × Nat), Yields (fs.foldlM field st)
    (fun st' => st'.1.tag = st.1.tag ∧ st'.1.args.length ≤ st.1.args.length + (fs.map operandsOf).sum) := by
  intro fs
  induction fs with
  | nil => intro st; exact Yields.pure ⟨rfl, le_refl _⟩
  | cons f fs ih =>
    intro st
    rw [foldlM_cons]
    refine (field_yields st f).bind (fun st₁ h₁ => (ih st₁).mono (fun st₂ h₂ => ?_))
    refine ⟨h₂.1.trans h₁.1, ?_⟩
    rw [map_cons, sum_cons]
    omega

theorem fromWire_supports (h : Dtype.fromWire t = some d) : d.supports = true := by
  rw [← Dtype.toWire_isSome, Dtype.fromWire_eq_some.mp h]
  rfl

theorem toOp_fits {w : OpWire} (h : w.toOp = some op)
    (hargs : w.tag = 0xA1 ∨ w.tag = 0xA2 → w.args.length < 256) : OpFits op := by
  unfold OpWire.toOp at h
  split at h
  all_goals
    simp only [bind_eq_bind, bind_eq_some_iff, Option.pure_def, some.injEq, reduceCtorEq] at h
  all_goals rename_i htag
  -- only these four are not trivial
  case h_11 =>
    obtain ⟨_, -, _, hd, rfl⟩ := h
    exact fromWire_supports hd
  case h_57 =>
    obtain ⟨_, -, _, -, _, hd, rfl⟩ := h
    exact fromWire_supports hd
  case h_58 =>
    obtain ⟨_, -, _, hd, rfl⟩ := h
    exact ⟨hargs (.inl htag), fromWire_supports hd⟩
  case h_59 =>
    subst h
    exact hargs (.inr htag)
  all_goals first
    | exact h.elim
    | (subst h; exact trivial)
    | (obtain ⟨_, _, rfl⟩ := h; exact trivial)
    | (obtain ⟨_, _, _, _, rfl⟩ := h; exact trivial)
    | (obtain ⟨_, _, _, _, _, _, rfl⟩ := h; exact trivial)

theorem op_yields : Yields Decode.op OpFits := by
  refine yields_u8.bind (fun tag _ => ?_)
  refine (@Yields.expect _ _ (fun row => spec tag = some row) _ _ (fun _ h => h)).bind (fun row hrow => ?_)
  refine (fields_yields row.wire _).bind (fun st hst => expect (fun op hop => ?_))
  refine toOp_fits hop (fun htag => ?_)
  rw [hst.1] at htag
  rcases htag with rfl | rfl
  all_goals
    cases hrow
    exact lt_of_le_of_lt hst.2 (by decide)

end Pie.Proof
