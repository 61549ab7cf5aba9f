import Pie.Proof.OpRoundTrip

/-!
# Containers round-trip

Each table is a list of records, and each record is read back from what was
written of it; a table is read once the string is known to hold its records at
their least size. What `decode` gives has been written again and compared, so
all that is left to say of it is that the writing did not panic: what is read
fits.
-/

namespace Pie.Proof

open List Option Pie.Eta Lib Lib.Utf8 Decode Yields Reads

variable {c : TraceContainer} {α β : Type} {ch : ChannelDecl} {dtype : ChanDType} {g : α → List β} {item : Decode α}
  {minimum n t maximum : Nat} {name : String} {p : PortBinding} {s : StageProgram}

/-! ## What can be written -/

/-- A constant holds as many bytes as its shape and its type say, and no list is longer than a word counts. -/
def SourceFits : PortSource → Prop
  | .channel _ => True
  | .const dtype shape data =>
    dtype.supports = true ∧ data.length = shape.numel * dtype.bytesCeil ∧ data.length < 2 ^ 64

def StageFits (s : StageProgram) : Prop := s.ops.length ≤ MAX_OPS ∧ ∀ op ∈ s.ops, OpFits op

def ChannelFits (ch : ChannelDecl) : Prop := ch.dtype.tag.isSome = true

/-- The limits of the wire. -/
structure Fits (c : TraceContainer) : Prop where
  names : c.names.length ≤ MAX_NAMES
  channels : c.channels.length ≤ MAX_CHANNELS
  ports : c.ports.length ≤ MAX_PORTS
  stages : c.stages.length ≤ MAX_STAGES
  externs : c.externs.length ≤ MAX_EXTERNS
  name : ∀ n ∈ c.names, n.bytes.length < 2 ^ 16
  channel : ∀ ch ∈ c.channels, ChannelFits ch
  source : ∀ p ∈ c.ports, SourceFits p.source
  stage : ∀ s ∈ c.stages, StageFits s

/-! ## Records -/

def nameBytes (n : Str) : List UInt8 := toLe 2 n.bytes.length ++ n.bytes

def channelBytes (ch : ChannelDecl) : List UInt8 :=
  toLe 1 (ch.dtype.tag.getD 0) ++ shapeBytes ch.shape.dims ++ toLe 4 ch.capacity.toNat
    ++ toLe 1 ch.hostRole.toU8 ++ toLe 1 ch.seeded.toNat

def sourceBytes : PortSource → List UInt8
  | .channel chan => toLe 1 0 ++ toLe 4 chan.toNat
  | .const dtype shape data => toLe 1 1 ++ toLe 1 (dtype.toWire.getD 0) ++ shapeBytes shape.dims ++ data

def portBytes (p : PortBinding) : List UInt8 := toLe 1 p.port.toU8 ++ sourceBytes p.source

def stageBytes (s : StageProgram) : List UInt8 :=
  toLe 1 s.stage.toU8 ++ toLe 4 s.ops.length ++ s.ops.flatMap opBytes

def externBytes (e : ExternDecl) : List UInt8 :=
  toLe 2 e.name.toNat ++ toLe 1 e.dir.toU8 ++ toLe 4 e.chan.toNat

theorem foldlM_append {f : List β → α → Option (List β)} : ∀ {l : List α}, (∀ a ∈ l, ∀ w, f w a = some (w ++ g a)) →
      ∀ w, l.foldlM f w = some (w ++ l.flatMap g) := by
  intro l
  induction l with
  | nil => intro _ w; simp
  | cons a l ih =>
    intro h w
    rw [foldlM_cons, h a mem_cons_self]
    show l.foldlM f (w ++ g a) = _
    rw [ih (fun b hb => h b (mem_cons_of_mem _ hb)), flatMap_cons, append_assoc]

theorem mul_le_flatMap : ∀ {l : List α},
    (∀ a ∈ l, minimum ≤ (g a).length) → l.length * minimum ≤ (l.flatMap g).length := by
  intro l
  induction l with
  | nil => intro _; simp
  | cons a l ih =>
    intro h
    have hrest := ih (fun b hb => h b (mem_cons_of_mem _ hb))
    have ha := h a mem_cons_self
    rw [length_cons, flatMap_cons, length_append, Nat.succ_mul]
    omega

/-- A table of records that are read back is read back. -/
theorem table_reads {enc : α → List UInt8} {l : List α} (hmin : 0 < minimum) (hmax : l.length ≤ maximum)
    (hlen : ∀ a ∈ l, minimum ≤ (enc a).length) (h : ∀ a ∈ l, Reads item (enc a) a) :
    Reads (table name minimum maximum l.length item) (l.flatMap enc) l :=
  bounded hmin hmax (mul_le_flatMap hlen) (replicate h)

theorem wireLen_eq {bytes n : Nat} (h : n < 256 ^ bytes) : wireLen bytes n = some n := if_pos h

theorem reads_count (h : n < 2 ^ 32) : ∃ x : BitVec 32, x.toNat = n ∧ Reads u32 (toLe 4 n) x := by
  have hx : (BitVec.ofNat 32 n).toNat = n := by
    rw [BitVec.toNat_ofNat]
    exact Nat.mod_eq_of_lt h
  refine ⟨BitVec.ofNat 32 n, hx, ?_⟩
  have h := reads_u32 (BitVec.ofNat 32 n)
  rwa [hx] at h

theorem name_reads {n : Str} (h : n.bytes.length < 2 ^ 16) : Reads Decode.name (nameBytes n) n := by
  refine (reads_u16 h).bind ?_
  refine (take rfl).bind_last ?_
  unfold text
  rw [dif_pos n.valid]
  exact Reads.pure _

theorem encodeName_eq {n : Str} (h : n.bytes.length < 2 ^ 16) (w : List UInt8) :
    encodeName w n = some (w ++ nameBytes n) := by
  unfold encodeName
  rw [wireLen_eq h]
  simp [putU16, nameBytes]

theorem channel_fromTag (h : dtype.tag = some t) : ChanDType.fromTag t = some dtype ∧ t < 256 := by
  cases dtype with
  | act =>
    cases h
    exact ⟨rfl, by decide⟩
  | concrete d =>
    have hlt := Dtype.toWire_lt h
    refine ⟨?_, by omega⟩
    unfold ChanDType.fromTag DT_ACT
    rw [if_neg (by omega), fromWire_of_toWire h]
    rfl

theorem hostRole_back (r : HostRole) : HostRole.fromU8 r.toU8 = some r ∧ r.toU8 < 256 := by
  cases r <;> exact ⟨rfl, by decide⟩

theorem externDir_back (d : ExternDir) : ExternDir.fromU8 d.toU8 = some d ∧ d.toU8 < 256 := by
  cases d <;> exact ⟨rfl, by decide⟩

theorem channel_reads (h : ChannelFits ch) : Reads channel (channelBytes ch) ch := by
  obtain ⟨t, ht⟩ := isSome_iff_exists.mp h
  obtain ⟨hback, hlt⟩ := channel_fromTag ht
  obtain ⟨hrole, hrole_lt⟩ := hostRole_back ch.hostRole
  have hseeded : ch.seeded.toNat < 256 := by cases ch.seeded <;> decide
  unfold channelBytes
  rw [ht, append_assoc, append_assoc, append_assoc]
  refine (reads_u8 hlt).bind ?_
  refine (expect hback).bind ?_
  refine (reads_shape ch.shape).bind ?_
  refine (reads_u32 ch.capacity).bind ?_
  refine (reads_u8 hrole_lt).bind ?_
  refine (expect hrole).bind ?_
  have hdone : ch = ⟨ch.shape, ch.dtype, ch.capacity, ch.hostRole, ch.seeded.toNat != 0⟩ := by
    obtain ⟨_, _, _, _, seeded⟩ := ch
    cases seeded <;> rfl
  refine (reads_u8 hseeded).bind_last ?_
  exact (congrArg (Lib.Reads _ []) hdone.symm).mp (Reads.pure _)

theorem encodeChannel_eq (h : ChannelFits ch) (w : List UInt8) :
    encodeChannel w ch = some (w ++ channelBytes ch) := by
  obtain ⟨t, ht⟩ := isSome_iff_exists.mp h
  unfold encodeChannel
  rw [ht]
  simp only [bind_eq_bind, bind_some, encodeShape_eq]
  simp [putU8, putU32, channelBytes, ht]

theorem source_reads {s : PortSource} (h : SourceFits s) :
    ∃ w tag, tag < 256 ∧ sourceBytes s = toLe 1 tag ++ w ∧ Reads (source tag) w s := by
  cases s with
  | channel chan => exact ⟨_, 0, by decide, rfl, (reads_u32 chan).map⟩
  | const dtype shape data =>
    obtain ⟨hd, hlen, hsmall⟩ := h
    obtain ⟨t, ht⟩ := toWire_of_supports hd
    refine ⟨toLe 1 t ++ (shapeBytes shape.dims ++ data), 1, by decide, ?_, ?_⟩
    · simp [sourceBytes, ht]
    · refine (reads_u8 (lt_trans (Dtype.toWire_lt ht) (by decide))).bind ?_
      refine (expect (fromWire_of_toWire ht)).bind ?_
      refine (reads_shape shape).bind ?_
      unfold constant
      rw [if_pos (by rw [← hlen]; exact hsmall)]
      exact (take hlen).bind_last (Reads.pure _)

theorem port_reads (h : SourceFits p.source) : Reads port (portBytes p) p := by
  obtain ⟨w, tag, htag, hbytes, hsource⟩ := source_reads h
  unfold portBytes
  rw [hbytes]
  refine (reads_u8 p.port.toU8_lt).bind ?_
  refine (expect p.port.fromU8_toU8).bind ?_
  refine (reads_u8 htag).bind ?_
  exact hsource.bind_last (Reads.pure _)

theorem encodePort_eq (h : SourceFits p.source) (w : List UInt8) : encodePort w p = some (w ++ portBytes p) := by
  obtain ⟨port, source⟩ := p
  cases source with
  | channel chan => simp [encodePort, portBytes, sourceBytes, putU8, putU32]
  | const dtype shape data =>
    obtain ⟨t, ht⟩ := toWire_of_supports h.1
    simp [encodePort, portBytes, sourceBytes, OpWire.wireDtype, encodeShape_eq, putU8, ht]

theorem portBytes_length (p : PortBinding) : 4 ≤ (portBytes p).length := by
  obtain ⟨port, source⟩ := p
  cases source with
  | channel chan => simp [portBytes, sourceBytes]
  | const dtype shape data =>
    simp only [portBytes, sourceBytes, shapeBytes, length_append, toLe_length]
    omega

theorem stage_reads (h : StageFits s) : Reads stage (stageBytes s) s := by
  obtain ⟨x, hx, hcount⟩ := reads_count (lt_of_le_of_lt h.1 (by decide : MAX_OPS < 2 ^ 32))
  unfold stageBytes
  rw [append_assoc]
  refine (reads_u8 s.stage.toU8_lt).bind ?_
  refine (expect s.stage.fromU8_toU8).bind ?_
  refine hcount.bind ?_
  rw [hx]
  refine (table_reads (by decide) h.1 ?_ ?_).bind_last (Reads.pure _)
  · exact fun op hop => opBytes_pos (h.2 op hop)
  · exact fun op hop => op_reads (h.2 op hop)

theorem putLen_eq (h : n < 2 ^ 32) (w : List UInt8) : putLen w n = some (w ++ toLe 4 n) := by
  unfold putLen
  rw [wireLen_eq h]
  rfl

theorem encodeStage_eq (h : StageFits s) (w : List UInt8) : encodeStage w s = some (w ++ stageBytes s) := by
  unfold encodeStage
  simp only [putLen_eq (lt_of_le_of_lt h.1 (by decide : MAX_OPS < 2 ^ 32)), bind_eq_bind,
    bind_some, foldlM_append (fun op hop w => encodeOp_eq (h.2 op hop) w), putU8, stageBytes,
    append_assoc]

theorem extern_reads (e : ExternDecl) : Reads extern_ (externBytes e) e := by
  obtain ⟨hdir, hdir_lt⟩ := externDir_back e.dir
  unfold externBytes
  rw [append_assoc]
  refine (reads_u16 e.name.isLt).bind ?_
  refine (reads_u8 hdir_lt).bind ?_
  refine (expect hdir).bind ?_
  have hname : BitVec.ofNat 16 e.name.toNat = e.name := by rw [BitVec.ofNat_toNat, BitVec.setWidth_eq]
  rw [hname]
  exact (reads_u32 e.chan).bind_last (Reads.pure _)

theorem foldl_encodeExtern (l : List ExternDecl) : ∀ w, l.foldl encodeExtern w = w ++ l.flatMap externBytes := by
  induction l with
  | nil => intro w; simp
  | cons e l ih =>
    intro w
    rw [foldl_cons, ih, flatMap_cons]
    simp [encodeExtern, externBytes, putU8, putU16, putU32]

/-! ## The header -/

def versionOf (c : TraceContainer) : Nat := if c.externs.isEmpty then ETA_VERSION else ETA_VERSION_EXTERN

def versionBytes (c : TraceContainer) : List UInt8 := ETA_MAGIC ++ toLe 2 (versionOf c) ++ toLe 2 0

/-- The number of externs is written where there is one. -/
def externCount (c : TraceContainer) : List UInt8 := if c.externs.isEmpty then [] else toLe 4 c.externs.length

theorem version_reads (c : TraceContainer) : Lib.Reads version (versionBytes c) (versionOf c) := by
  have hversion : versionOf c < 2 ^ 16 ∧ ¬(versionOf c ≠ ETA_VERSION ∧ versionOf c ≠ ETA_VERSION_EXTERN) := by
    unfold versionOf
    split
    · exact ⟨by decide, fun h => h.1 rfl⟩
    · exact ⟨by decide, fun h => h.2 rfl⟩
  unfold versionBytes
  rw [append_assoc]
  refine (take rfl).bind ?_
  rw [if_neg (fun h => h rfl)]
  refine (reads_u16 hversion.1).bind ?_
  rw [if_neg hversion.2]
  exact (reads_u16 (by decide : 0 < 2 ^ 16)).bind_last (Reads.pure _)

theorem externCount_reads (h : c.externs.length < 2 ^ 32) : ∃ x : BitVec 32, x.toNat = c.externs.length ∧
      Lib.Reads (Decode.externCount (versionOf c)) (externCount c) x := by
  unfold Decode.externCount versionOf externCount
  cases hc : c.externs with
  | nil => exact ⟨0, rfl, Reads.pure 0⟩
  | cons e externs =>
    rw [hc] at h
    exact reads_count h

def containerBytes (c : TraceContainer) : List UInt8 :=
  versionBytes c ++ (toLe 4 c.names.length ++ (toLe 4 c.channels.length ++ (toLe 4 c.ports.length
    ++ (toLe 4 c.stages.length ++ (externCount c ++ (c.names.flatMap nameBytes
    ++ (c.channels.flatMap channelBytes ++ (c.ports.flatMap portBytes ++ (c.stages.flatMap stageBytes
    ++ c.externs.flatMap externBytes)))))))))

theorem container_reads (h : Fits c) : Lib.Reads container (containerBytes c) c := by
  obtain ⟨names, hnames, readNames⟩ := reads_count (lt_of_le_of_lt h.names (by decide : MAX_NAMES < 2 ^ 32))
  obtain ⟨channels, hchannels, readChannels⟩ :=
    reads_count (lt_of_le_of_lt h.channels (by decide : MAX_CHANNELS < 2 ^ 32))
  obtain ⟨ports, hports, readPorts⟩ := reads_count (lt_of_le_of_lt h.ports (by decide : MAX_PORTS < 2 ^ 32))
  obtain ⟨stages, hstages, readStages⟩ :=
    reads_count (lt_of_le_of_lt h.stages (by decide : MAX_STAGES < 2 ^ 32))
  obtain ⟨externs, hexterns, readExterns⟩ :=
    externCount_reads (lt_of_le_of_lt h.externs (by decide : MAX_EXTERNS < 2 ^ 32))
  refine (version_reads c).bind ?_
  refine readNames.bind (readChannels.bind (readPorts.bind (readStages.bind (readExterns.bind ?_))))
  rw [hnames, hchannels, hports, hstages, hexterns]
  refine (table_reads (by decide) h.names ?_ (fun n hn => name_reads (h.name n hn))).bind ?_
  · intro n _
    simp [nameBytes]
  refine (table_reads (by decide) h.channels ?_ (fun ch hch => channel_reads (h.channel ch hch))).bind ?_
  · intro ch _
    simp only [channelBytes, shapeBytes, length_append, toLe_length]
    omega
  refine (table_reads (by decide) h.ports (fun p _ => portBytes_length p)
    (fun p hp => port_reads (h.source p hp))).bind ?_
  refine (table_reads (by decide) h.stages ?_ (fun s hs => stage_reads (h.stage s hs))).bind ?_
  · intro s _
    simp only [stageBytes, length_append, toLe_length]
    omega
  refine (table_reads (by decide) h.externs ?_ (fun e _ => extern_reads e)).bind_last (Reads.pure _)
  intro e _
  simp [externBytes]

theorem encode_eq (h : Fits c) : encode c = some (containerBytes c) := by
  have hheader : encodeHeader c = some (versionBytes c ++ toLe 4 c.names.length ++ toLe 4 c.channels.length
      ++ toLe 4 c.ports.length ++ toLe 4 c.stages.length ++ externCount c) := by
    unfold encodeHeader
    simp only [putLen_eq (lt_of_le_of_lt h.names (by decide : MAX_NAMES < 2 ^ 32)),
      putLen_eq (lt_of_le_of_lt h.channels (by decide : MAX_CHANNELS < 2 ^ 32)),
      putLen_eq (lt_of_le_of_lt h.ports (by decide : MAX_PORTS < 2 ^ 32)),
      putLen_eq (lt_of_le_of_lt h.stages (by decide : MAX_STAGES < 2 ^ 32)),
      putLen_eq (lt_of_le_of_lt h.externs (by decide : MAX_EXTERNS < 2 ^ 32)),
      bind_eq_bind, bind_some]
    unfold versionBytes versionOf externCount
    cases hc : c.externs <;> simp [putU16]
  unfold encode
  simp only [hheader, bind_eq_bind, bind_some,
    foldlM_append (fun n hn w => encodeName_eq (h.name n hn) w),
    foldlM_append (fun ch hch w => encodeChannel_eq (h.channel ch hch) w),
    foldlM_append (fun p hp w => encodePort_eq (h.source p hp) w),
    foldlM_append (fun s hs w => encodeStage_eq (h.stage s hs) w), foldl_encodeExtern, containerBytes,
    append_assoc]

/-- **What was written is read back.** -/
theorem decode_encode (h : Fits c) : decode (containerBytes c) = .ok c := by
  obtain ⟨r, hr, hbytes, hrest⟩ := container_reads h (Reader.new (containerBytes c)) [] (by simp)
  have hend : r.offset = (containerBytes c).length := by
    have := congrArg length hrest
    rw [← Reader.remaining_eq, Reader.remaining, hbytes] at this
    have hle := r.le
    rw [hbytes] at hle
    exact le_antisymm hle (Nat.sub_eq_zero_iff_le.mp this)
  unfold decode
  rw [hr]
  show finish (containerBytes c) (c, r) = _
  unfold finish
  rw [if_neg (fun h => h hend), encode_eq h]
  simp

/-! ## What is read fits -/

theorem yields_table {P : α → Prop} {minimum maximum count : Nat}
    (h : Yields item P) : Yields (table name minimum maximum count item)
      (fun l => l.length ≤ maximum ∧ ∀ a ∈ l, P a) := by
  refine (boundedCount _ count minimum maximum).bind (fun _ hcount => ?_)
  refine (replicate h count).mono (fun l hl => ⟨?_, hl.2⟩)
  rw [hl.1]
  exact hcount

theorem name_yields : Yields Decode.name (fun n => n.bytes.length < 2 ^ 16) := by
  refine (number _ 2).bind (fun len hlen => ?_)
  refine (take _ len).bind (fun bytes hbytes => ?_)
  unfold text
  split
  · exact Yields.pure (lt_of_eq_of_lt hbytes hlen)
  · exact fail _

theorem fromTag_fits (h : ChanDType.fromTag t = some dtype) : dtype.tag.isSome = true := by
  unfold ChanDType.fromTag at h
  split at h
  · cases h
    rfl
  · obtain ⟨d, hd, rfl⟩ := map_eq_some_iff.mp h
    exact Dtype.toWire_isSome.trans (fromWire_supports hd)

theorem channel_yields : Yields channel ChannelFits := by
  refine yields_u8.bind (fun dt _ => ?_)
  refine (expect (fun dtype h => fromTag_fits h)).bind (fun dtype hdtype => ?_)
  refine yields_shape.bind (fun shape _ => yields_u32.bind (fun capacity _ => ?_))
  refine yields_u8.bind (fun hr _ => yields_expect.bind (fun hostRole _ => ?_))
  exact yields_u8.bind (fun seeded _ => Yields.pure hdtype)

theorem source_yields (tag : Nat) : Yields (source tag) SourceFits := by
  unfold source
  split
  · rw [map_eq_pure_bind]
    exact yields_u32.bind (fun chan _ => Yields.pure trivial)
  · refine yields_u8.bind (fun dt _ => ?_)
    refine (expect (fun dtype h => fromWire_supports h)).bind (fun dtype hdtype => ?_)
    refine yields_shape.bind (fun shape _ => ?_)
    unfold constant
    split
    · rename_i hsmall
      refine (Yields.take _ _).bind (fun data hdata => Yields.pure ⟨hdtype, hdata, ?_⟩)
      rw [hdata]
      exact hsmall
    · exact fail _
  · exact fail _

theorem port_yields : Yields port (fun p => SourceFits p.source) := by
  refine yields_u8.bind (fun pt _ => yields_expect.bind (fun port _ => ?_))
  exact yields_u8.bind (fun src _ => (source_yields src).bind (fun source hsource => Yields.pure hsource))

theorem stage_yields : Yields stage StageFits := by
  refine yields_u8.bind (fun st _ => yields_expect.bind (fun stage _ => ?_))
  exact yields_u32.bind (fun n _ => (yields_table op_yields).bind (fun ops hops => Yields.pure hops))

theorem extern_yields : Yields extern_ (fun _ => True) := by
  refine (number _ 2).bind (fun name _ => yields_u8.bind (fun d _ => ?_))
  exact yields_expect.bind (fun dir _ => yields_u32.bind (fun chan _ => Yields.pure trivial))

theorem version_yields : Yields version (fun _ => True) := by
  refine (take _ 4).bind (fun magic _ => ?_)
  split
  · exact fail _
  · refine (number _ 2).bind (fun version _ => ?_)
    split
    · exact fail _
    · exact (number _ 2).bind (fun _ _ => Yields.pure trivial)

theorem container_yields : Yields Decode.container Fits := by
  refine version_yields.bind (fun version _ => yields_u32.bind (fun names _ => ?_))
  refine yields_u32.bind (fun channels _ => yields_u32.bind (fun ports _ => yields_u32.bind (fun stages _ => ?_)))
  have hexterns : Yields (Decode.externCount version) (fun _ => True) := by
    unfold Decode.externCount
    split
    · exact yields_u32
    · exact Yields.pure trivial
  refine hexterns.bind (fun externs _ => ?_)
  refine (yields_table name_yields).bind (fun names hnames => ?_)
  refine (yields_table channel_yields).bind (fun channels hchannels => ?_)
  refine (yields_table port_yields).bind (fun ports hports => ?_)
  refine (yields_table stage_yields).bind (fun stages hstages => ?_)
  refine (yields_table extern_yields).bind (fun externs hexterns => Yields.pure ?_)
  exact ⟨hnames.1, hchannels.1, hports.1, hstages.1, hexterns.1, hnames.2, hchannels.2, hports.2, hstages.2⟩

theorem decode_ne_panic (bytes : List UInt8) : decode bytes ≠ .error .panic := by
  have h := container_yields (Reader.new bytes)
  unfold decode
  cases hr : container (Reader.new bytes) with
  | error stop =>
    intro hpanic
    obtain rfl : stop = .panic := Except.error.inj hpanic
    exact h.1 hr
  | ok read =>
    have hfits := h.2 read.1 read.2 hr
    show finish bytes read ≠ _
    unfold finish
    rw [encode_eq hfits]
    dsimp only
    split
    · nofun
    · split <;> nofun

theorem encode_decode {bytes : List UInt8} (h : decode bytes = .ok c) : encode c = some bytes := by
  unfold decode at h
  cases hr : container (Reader.new bytes) with
  | error stop =>
    rw [hr] at h
    cases h
  | ok read =>
    rw [hr] at h
    have h : finish bytes read = .ok c := h
    unfold finish at h
    split at h
    · cases h
    · cases hback : encode read.1 with
      | none =>
        rw [hback] at h
        cases h
      | some back =>
        rw [hback] at h
        by_cases heq : back = bytes
        · obtain rfl : read.1 = c := Except.ok.inj ((if_neg (fun hne => hne heq)).symm.trans h)
          rw [hback, heq]
        · cases (if_pos heq).symm.trans h

/-- **The container round-trips.** What fits the wire is read back as it was; a string that is read is the one
that is written; so the strings of two containers differ. -/
theorem container_round_trip : (∀ c, Fits c → ∃ bytes, encode c = some bytes ∧ decode bytes = .ok c)
      ∧ (∀ bytes, decode bytes ≠ .error .panic ∧ ∀ c, decode bytes = .ok c → encode c = some bytes)
      ∧ ∀ c c', Fits c → Fits c' → encode c = encode c' → c = c' := by
  refine ⟨fun c h => ⟨_, encode_eq h, decode_encode h⟩,
    fun bytes => ⟨decode_ne_panic bytes, fun c h => encode_decode h⟩, ?_⟩
  intro c c' h h' heq
  rw [encode_eq h, encode_eq h', Option.some.injEq] at heq
  have hc := decode_encode h
  rw [heq, decode_encode h'] at hc
  exact (Except.ok.inj hc).symm

/-- A container with a record of each table but the externs. -/
def sampleContainer : TraceContainer where
  names := [⟨[0x6B], by decide⟩]
  channels := [⟨.scalar, .act, 1, .none, true⟩]
  ports := [⟨.embedIndptr, .const .bool .scalar [1]⟩]
  stages := [⟨.epilogue, [.const (.f32 0), .kernelCall 0 [0, 0] .scalar .f32, .chanPut 0 1]⟩]
  externs := []

theorem sampleContainer_round_trip :
    ∃ bytes, encode sampleContainer = some bytes ∧ decode bytes = .ok sampleContainer :=
  container_round_trip.1 sampleContainer
    ⟨by decide, by decide, by decide, by decide, by decide, by simp [sampleContainer],
      by simp [sampleContainer, ChannelFits, ChanDType.tag],
      by simp [sampleContainer, SourceFits, Dtype.supports, Dtype.classOf, Dtype.bytesCeil, Shape.scalar,
        Shape.numel, numelOf],
      by simp [sampleContainer, StageFits, OpFits, MAX_OPS, Dtype.supports, Dtype.classOf]⟩

end Pie.Proof
