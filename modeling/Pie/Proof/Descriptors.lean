import Pie.Exec.Descriptor
import Pie.Lib.Records
import Pie.Proof.Compositions

/-!
# Descriptors round trip

Bytes that are accepted as a descriptor have the length that their header tells,
so every read falls inside of them, and what is read is what is written back. The
order of the classes is not written: it is the order of their windows.
-/

namespace Pie.Proof.Descriptors

open List Pie.Exec Lib Lib.Records Compositions UInt32 Header FireDescriptor

/-! ## Numbers -/

theorem take32_put32 {a c : List UInt8} {v : UInt32} : take32 (a ++ put32 v ++ c) a.length = v := by
  have hlen : (put32 v).length = 4 := toLe_length 4 _
  have hin : a.length + 4 ≤ (a ++ put32 v ++ c).length := by
    rw [length_append, length_append, hlen]
    omega
  have hslice : ((a ++ put32 v ++ c).drop a.length).take 4 = put32 v := slice_append rfl hlen
  rw [take32, bytesAt, if_pos hin, Option.map_some, Option.getD_some, hslice, put32, ofLe_toLe v.toNat_lt]
  exact UInt32.ofNat_toNat

theorem take64_put64 {a c : List UInt8} {v : UInt64} : take64 (a ++ put64 v ++ c) a.length = v := by
  have hlen : (put64 v).length = 8 := toLe_length 8 _
  have hin : a.length + 8 ≤ (a ++ put64 v ++ c).length := by
    rw [length_append, length_append, hlen]
    omega
  have hslice : ((a ++ put64 v ++ c).drop a.length).take 8 = put64 v := slice_append rfl hlen
  rw [take64, bytesAt, if_pos hin, Option.map_some, Option.getD_some, hslice, put64, ofLe_toLe v.toNat_lt]
  exact UInt64.ofNat_toNat

variable {b : List UInt8} {here : Nat} {d : FireDescriptor}

theorem put32_take32 (h : here + 4 ≤ b.length) : put32 (take32 b here) = slice b here 4 := by
  have hlen : (slice b here 4).length = 4 := slice_length h
  have hlt := ofLe_lt (slice b here 4)
  rw [hlen] at hlt
  rw [take32, bytesAt, if_pos h, Option.map_some, Option.getD_some, put32]
  show toLe 4 (ofNat (ofLe (slice b here 4))).toNat = _
  rw [toNat_ofNat_of_lt' hlt]
  exact toLe_ofLe hlen

theorem put64_take64 (h : here + 8 ≤ b.length) : put64 (take64 b here) = slice b here 8 := by
  have hlen : (slice b here 8).length = 8 := slice_length h
  have hlt := ofLe_lt (slice b here 8)
  rw [hlen] at hlt
  rw [take64, bytesAt, if_pos h, Option.map_some, Option.getD_some, put64]
  show toLe 8 (UInt64.ofNat (ofLe (slice b here 8))).toNat = _
  rw [UInt64.toNat_ofNat_of_lt' hlt]
  exact toLe_ofLe hlen

/-! ## Records -/

def windowAt (b : List UInt8) (here : Nat) : ClassWindow :=
  ⟨take32 b here, take32 b (here + 4), take32 b (here + 8), take32 b (here + 12)⟩

def laneAt (b : List UInt8) (here : Nat) : LaneRow :=
  { (default : LaneRow) with
    word := take64 b here, source := take32 b (here + 8), cls := take32 b (here + 12)
    rowOffset := take32 b (here + 16), rows := take32 b (here + 20) }

def patchLaneAt (b : List UInt8) (here : Nat) (lane : LaneRow) : LaneRow :=
  { lane with
    patchOffset := take32 b here, patches := take32 b (here + 4)
    imageOffset := take32 b (here + 8), images := take32 b (here + 12) }

def voxelLaneAt (b : List UInt8) (here : Nat) (lane : LaneRow) : LaneRow :=
  { lane with
    voxelOffset := take32 b here, voxels := take32 b (here + 4)
    clipOffset := take32 b (here + 8), clips := take32 b (here + 12) }

def tableAt (b : List UInt8) (here classes : Nat) : List ClassWindow :=
  (List.range classes).map fun c => windowAt b (here + CLASS_BYTES * c)

def lanesAt (b : List UInt8) (here lanes : Nat) : List LaneRow :=
  (List.range lanes).map fun l => laneAt b (here + LANE_BYTES * l)

/-- Four numbers are written back where they were read. -/
theorem four_take32 (h : here + 16 ≤ b.length) :
    put32 (take32 b here) ++ put32 (take32 b (here + 4)) ++ put32 (take32 b (here + 8)) ++ put32 (take32 b (here + 12))
      = slice b here 16 := by
  rw [put32_take32 (by omega), put32_take32 (by omega), put32_take32 (by omega), put32_take32 (by omega),
    slice_append_slice, slice_append_slice, slice_append_slice]

theorem packLane_laneAt (h : here + 24 ≤ b.length) : packLane (laneAt b here) = slice b here 24 := by
  show put64 (take64 b here) ++ put32 (take32 b (here + 8)) ++ put32 (take32 b (here + 12))
    ++ put32 (take32 b (here + 16)) ++ put32 (take32 b (here + 20)) = _
  rw [put64_take64 (by omega), put32_take32 (by omega), put32_take32 (by omega), put32_take32 (by omega),
    put32_take32 (by omega), slice_append_slice, slice_append_slice, slice_append_slice, slice_append_slice]

theorem packTable_tableAt {here classes : Nat} (h : here + CLASS_BYTES * classes ≤ b.length) :
    (tableAt b here classes).flatMap packWindow = slice b here (CLASS_BYTES * classes) := by
  rw [← flatMap_slice, tableAt, flatMap_map]
  refine flatMap_congr fun c hc => four_take32 ?_
  have := mem_range.mp hc
  unfold CLASS_BYTES at *
  omega

theorem packLanes_lanesAt {here lanes : Nat} (h : here + LANE_BYTES * lanes ≤ b.length) :
    (lanesAt b here lanes).flatMap packLane = slice b here (LANE_BYTES * lanes) := by
  rw [← flatMap_slice, lanesAt, flatMap_map]
  refine flatMap_congr fun l hl => packLane_laneAt ?_
  have := mem_range.mp hl
  unfold LANE_BYTES at *
  omega

/-! ## What bytes hold -/

def headerAt (b : List UInt8) : Header :=
  ⟨take32 b 8, take32 b 12, take32 b 16, take32 b 20, take32 b 24, take32 b 28, take32 b 32, take32 b 36⟩

/-- What a trailer holds. -/
def trailerAt (b : List UInt8) (rows : UInt32) (here classes : Nat) (placed : List LaneRow)
    (laneAt : List UInt8 → Nat → LaneRow → LaneRow) (fault : Nat → UInt32 → Fault) :
    Except Fault (List ClassWindow × List LaneRow) :=
  if 0 < rows then
    if countedRows (tableAt b here classes) ≠ rows.toNat then .error (fault (countedRows (tableAt b here classes)) rows)
    else .ok (tableAt b here classes,
      placed.zipIdx.map fun l => laneAt b (here + CLASS_BYTES * classes + PATCH_LANE_BYTES * l.2) l.1)
  else .ok (List.replicate classes default, placed)

/-- The descriptor of a header, its windows and lanes. -/
def descriptorOf (h : Header) (table patchTable voxelTable : List ClassWindow) (patched placed : List LaneRow) :
    FireDescriptor where
  rows := h.rows
  bucket := h.bucket
  classes := .new table
  lanes := placed
  patchRows := h.patchRows
  images := .ofNat ((patched.map fun lane => lane.images.toNat).sum)
  runCaps := []
  runPasses := []
  patchBucket := h.patchBucket
  patchClasses := .new patchTable
  voxelRows := h.voxelRows
  clips := .ofNat ((placed.map fun lane => lane.clips.toNat).sum)
  voxelBucket := h.voxelBucket
  voxelClasses := .new voxelTable

/-- What is read behind a header that tells the right length. -/
def bodyAt (b : List UInt8) (h : Header) : Except Fault FireDescriptor :=
  let table := tableAt b HEADER_BYTES h.classes.toNat
  if countedRows table ≠ h.rows.toNat then .error (.descriptorRows (countedRows table) h.rows)
  else
    let here := h.base + LANE_BYTES * h.lanes.toNat
    match trailerAt b h.patchRows here h.classes.toNat (lanesAt b h.base h.lanes.toNat) patchLaneAt .descriptorPatchRows with
    | .error fault => .error fault
    | .ok (patchTable, patched) =>
      match trailerAt b h.voxelRows (here + h.trailer) h.classes.toNat patched voxelLaneAt
        .descriptorVoxelRows with
      | .error fault => .error fault
      | .ok (voxelTable, placed) => .ok (descriptorOf h table patchTable voxelTable patched placed)

def decoded (b : List UInt8) : Except Fault FireDescriptor :=
  if b.length < HEADER_BYTES then .error (.descriptorShort b.length)
  else if take32 b 0 ≠ MAGIC then .error (.descriptorMagic (take32 b 0))
  else if take32 b 4 ≠ ABI_VERSION then .error (.descriptorAbi (take32 b 4) ABI_VERSION)
  else if b.length ≠ (headerAt b).want then .error (.descriptorLength b.length (headerAt b).want)
  else bodyAt b (headerAt b)

/-! ## Where it is read -/

section Reading

variable {m : Type → Type} [Monad m] [LawfulMonad m] {r : Reader m} {b : List UInt8} {here n : Nat}

/-- Inside of the bytes the reader gives what they hold. -/
structure Agrees (r : Reader m) (b : List UInt8) : Prop where
  take32 : ∀ here, here + 4 ≤ b.length → r.take32 here = pure (Exec.take32 b here)
  take64 : ∀ here, here + 8 ≤ b.length → r.take64 here = pure (Exec.take64 b here)

theorem unpackWindow_eq (h : Agrees r b) (hin : here + 16 ≤ b.length) :
    unpackWindow r here = pure (windowAt b here) := by
  unfold unpackWindow
  rw [h.take32 _ (by omega), pure_bind, h.take32 _ (by omega), pure_bind, h.take32 _ (by omega), pure_bind,
    h.take32 _ (by omega), pure_bind]
  rfl

theorem unpackLane_eq (h : Agrees r b) (hin : here + 24 ≤ b.length) : unpackLane r here = pure (laneAt b here) := by
  unfold unpackLane
  rw [h.take64 _ (by omega), pure_bind, h.take32 _ (by omega), pure_bind, h.take32 _ (by omega), pure_bind,
    h.take32 _ (by omega), pure_bind, h.take32 _ (by omega), pure_bind]
  rfl

theorem unpackPatchLane_eq (h : Agrees r b) (hin : here + 16 ≤ b.length) {lane : LaneRow} :
    unpackPatchLane r here lane = pure (patchLaneAt b here lane) := by
  unfold unpackPatchLane
  rw [h.take32 _ (by omega), pure_bind, h.take32 _ (by omega), pure_bind, h.take32 _ (by omega), pure_bind,
    h.take32 _ (by omega), pure_bind]
  rfl

theorem unpackVoxelLane_eq (h : Agrees r b) (hin : here + 16 ≤ b.length) {lane : LaneRow} :
    unpackVoxelLane r here lane = pure (voxelLaneAt b here lane) := by
  unfold unpackVoxelLane
  rw [h.take32 _ (by omega), pure_bind, h.take32 _ (by omega), pure_bind, h.take32 _ (by omega), pure_bind,
    h.take32 _ (by omega), pure_bind]
  rfl

theorem unpackTable_eq (h : Agrees r b) (hin : here + CLASS_BYTES * n ≤ b.length) :
    unpackTable r here n = pure (tableAt b here n) := by
  refine mapM_eq_pure fun c hc => unpackWindow_eq h ?_
  have := mem_range.mp hc
  unfold CLASS_BYTES at *
  omega

theorem unpackLanes_eq (h : Agrees r b) (hin : here + LANE_BYTES * n ≤ b.length) :
    unpackLanes r here n = pure (lanesAt b here n) := by
  refine mapM_eq_pure fun l hl => unpackLane_eq h ?_
  have := mem_range.mp hl
  unfold LANE_BYTES at *
  omega

variable {fault : Nat → UInt32 → Fault} {laneAt : List UInt8 → Nat → LaneRow → LaneRow}

theorem unpackTrailer_eq (h : Agrees r b) {rows : UInt32} {placed : List LaneRow}
    {unpackLane : Reader m → Nat → LaneRow → m LaneRow}
    (hlane : ∀ here lane, here + 16 ≤ b.length → unpackLane r here lane = pure (laneAt b here lane))
    (hin : 0 < rows → here + CLASS_BYTES * n + PATCH_LANE_BYTES * placed.length ≤ b.length) :
    unpackTrailer r rows here n PATCH_LANE_BYTES placed unpackLane fault
      = pure (trailerAt b rows here n placed laneAt fault) := by
  unfold unpackTrailer trailerAt
  split
  · rename_i hrows
    have hin := hin hrows
    rw [unpackTable_eq h (by omega), pure_bind]
    split
    · rfl
    · rw [mapM_eq_pure fun l hl => hlane _ _ ?_, pure_bind]
      have := (List.getElem?_eq_some_iff.mp (mem_zipIdx_iff_getElem?.mp hl)).1
      unfold PATCH_LANE_BYTES at *
      omega
  · rfl

theorem unpackHeader_eq (h : Agrees r b) (hin : 40 ≤ b.length) : unpackHeader r = pure (headerAt b) := by
  unfold unpackHeader
  rw [h.take32 _ (by omega), pure_bind, h.take32 _ (by omega), pure_bind, h.take32 _ (by omega), pure_bind,
    h.take32 _ (by omega), pure_bind, h.take32 _ (by omega), pure_bind, h.take32 _ (by omega), pure_bind,
    h.take32 _ (by omega), pure_bind, h.take32 _ (by omega), pure_bind]
  rfl

theorem trailerAt_length {rows : UInt32} {placed : List LaneRow} {result : List ClassWindow × List LaneRow}
    (h : trailerAt b rows here n placed laneAt fault = .ok result) : result.2.length = placed.length := by
  unfold trailerAt at h
  split at h
  · split at h
    · cases h
    · rw [← Except.ok.inj h, length_map, length_zipIdx]
  · rw [← Except.ok.inj h]

theorem unpackBody_eq (h : Agrees r b) {hd : Header} (hlen : b.length = hd.want) :
    unpackBody r hd = pure (bodyAt b hd) := by
  have hbase : hd.base = HEADER_BYTES + CLASS_BYTES * hd.classes.toNat := rfl
  have hwant : hd.want = hd.base + LANE_BYTES * hd.lanes.toNat + hd.trailer + hd.voxelTrailer := rfl
  have hlanes : (lanesAt b hd.base hd.lanes.toNat).length = hd.lanes.toNat := by
    rw [lanesAt, length_map, length_range]
  unfold unpackBody bodyAt
  dsimp only
  rw [unpackTable_eq h (by omega), pure_bind]
  split
  · rfl
  rw [unpackLanes_eq h (by omega), pure_bind, unpackTrailer_eq h (fun here lane hin => unpackPatchLane_eq h hin) (fun hrows => ?_),
    pure_bind]
  · cases hpatch : trailerAt b hd.patchRows (hd.base + LANE_BYTES * hd.lanes.toNat) hd.classes.toNat
      (lanesAt b hd.base hd.lanes.toNat) patchLaneAt .descriptorPatchRows with
    | error fault => rfl
    | ok result =>
      have hpatched : result.2.length = hd.lanes.toNat := (trailerAt_length hpatch).trans hlanes
      dsimp only
      rw [show VOXEL_LANE_BYTES = PATCH_LANE_BYTES from rfl,
        unpackTrailer_eq h (fun here lane hin => unpackVoxelLane_eq h hin) (fun hrows => ?_), pure_bind]
      · generalize trailerAt b hd.voxelRows _ _ _ _ _ = voxeled
        cases voxeled <;> rfl
      · -- the voxels end where the bytes do
        have htrailer : hd.voxelTrailer = CLASS_BYTES * hd.classes.toNat + PATCH_LANE_BYTES * hd.lanes.toNat := if_pos hrows
        rw [hpatched]
        omega
  · have htrailer : hd.trailer = CLASS_BYTES * hd.classes.toNat + PATCH_LANE_BYTES * hd.lanes.toNat := if_pos hrows
    rw [hlanes]
    omega

theorem unpackWith_eq (h : Agrees r b) : unpackWith r b.length = pure (decoded b) := by
  unfold unpackWith decoded
  by_cases hshort : b.length < HEADER_BYTES
  · rw [if_pos hshort, if_pos hshort]
  have hheader : 40 ≤ b.length := Nat.le_of_not_lt hshort
  rw [if_neg hshort, if_neg hshort, h.take32 _ (by omega), pure_bind]
  by_cases hmagic : take32 b 0 ≠ MAGIC
  · rw [if_pos hmagic, if_pos hmagic]
  rw [if_neg hmagic, if_neg hmagic, h.take32 _ (by omega), pure_bind]
  by_cases habi : take32 b 4 ≠ ABI_VERSION
  · rw [if_pos habi, if_pos habi]
  rw [if_neg habi, if_neg habi, unpackHeader_eq h hheader, pure_bind]
  by_cases hlen : b.length ≠ (headerAt b).want
  · rw [if_pos hlen, if_pos hlen]
  · rw [if_neg hlen, if_neg hlen, unpackBody_eq h (not_not.mp hlen)]

end Reading

theorem lenient_agrees : Agrees (Reader.lenient b) b := ⟨fun _ _ => rfl, fun _ _ => rfl⟩

theorem strict_agrees : Agrees (Reader.strict b) b := by
  constructor
  · intro here hin
    show (bytesAt b here 4).map _ = some _
    rw [take32, bytesAt, if_pos hin, Option.map_some, Option.getD_some]
  · intro here hin
    show (bytesAt b here 8).map _ = some _
    rw [take64, bytesAt, if_pos hin, Option.map_some, Option.getD_some]

theorem unpack_eq (b : List UInt8) : FireDescriptor.unpack b = decoded b := unpackWith_eq lenient_agrees

theorem strict_eq (b : List UInt8) : unpackWith (Reader.strict b) b.length = some (FireDescriptor.unpack b) := by
  rw [unpack_eq]
  exact unpackWith_eq strict_agrees

/-! ## Writing back what was read -/

section Back

theorem packLane_patch {b : List UInt8} (here : Nat) (lane : LaneRow) : packLane (patchLaneAt b here lane) = packLane lane :=
  rfl

theorem packLane_voxel {b : List UInt8} (here : Nat) (lane : LaneRow) : packLane (voxelLaneAt b here lane) = packLane lane :=
  rfl

theorem packPatchLane_voxel {b : List UInt8} (here : Nat) (lane : LaneRow) :
    packPatchLane (voxelLaneAt b here lane) = packPatchLane lane := rfl

theorem packPatchLane_patch {b : List UInt8} (here : Nat) (lane : LaneRow) (hin : here + 16 ≤ b.length) :
    packPatchLane (patchLaneAt b here lane) = slice b here 16 := four_take32 hin

theorem packVoxelLane_voxel {b : List UInt8} (here : Nat) (lane : LaneRow) (hin : here + 16 ≤ b.length) :
    packVoxelLane (voxelLaneAt b here lane) = slice b here 16 := four_take32 hin

variable {b : List UInt8} {here classes : Nat} {rows : UInt32} {placed placed' : List LaneRow}
  {table : List ClassWindow} {laneAt : List UInt8 → Nat → LaneRow → LaneRow} {fault : Nat → UInt32 → Fault}

theorem trailerAt_keep {β : Type} {f : LaneRow → β} (hkeep : ∀ here lane, f (laneAt b here lane) = f lane)
    (h : trailerAt b rows here classes placed laneAt fault = .ok (table, placed')) : placed'.map f = placed.map f := by
  unfold trailerAt at h
  split at h
  · split at h
    · cases h
    · cases h
      have hcomp : (f ∘ fun l : LaneRow × Nat => laneAt b (here + CLASS_BYTES * classes + PATCH_LANE_BYTES * l.2) l.1)
          = f ∘ Prod.fst := funext fun l => hkeep _ _
      rw [map_map, hcomp, ← map_map, zipIdx_map_fst]
  · rw [(Prod.mk.inj (Except.ok.inj h)).2]

variable {f : LaneRow → List UInt8}

theorem flatMap_keep (hkeep : ∀ here lane, f (laneAt b here lane) = f lane)
    (h : trailerAt b rows here classes placed laneAt fault = .ok (table, placed')) :
    placed'.flatMap f = placed.flatMap f := by
  rw [flatMap_def, flatMap_def, trailerAt_keep hkeep h]

theorem trailerAt_pack {lanes : Nat}
    (hpack : ∀ here lane, here + 16 ≤ b.length → f (laneAt b here lane) = slice b here 16)
    (h : trailerAt b rows here classes placed laneAt fault = .ok (table, placed')) (hrows : 0 < rows)
    (hlen : placed.length = lanes) (hin : here + CLASS_BYTES * classes + PATCH_LANE_BYTES * lanes ≤ b.length) :
    table.flatMap packWindow ++ placed'.flatMap f = slice b here (CLASS_BYTES * classes + PATCH_LANE_BYTES * lanes) := by
  subst hlen
  unfold trailerAt at h
  rw [if_pos hrows] at h
  split at h
  · cases h
  · cases h
    have hlanes : (placed.zipIdx.flatMap fun l =>
          f (laneAt b (here + CLASS_BYTES * classes + PATCH_LANE_BYTES * l.2) l.1))
        = slice b (here + CLASS_BYTES * classes) (PATCH_LANE_BYTES * placed.length) := by
      rw [← flatMap_slice, range_eq_range', ← zipIdx_map_snd 0 placed, flatMap_map]
      refine flatMap_congr fun l hl => hpack _ _ ?_
      have := (List.getElem?_eq_some_iff.mp (mem_zipIdx_iff_getElem?.mp hl)).1
      unfold PATCH_LANE_BYTES at *
      omega
    rw [packTable_tableAt (by omega), flatMap_map, hlanes, slice_append_slice]

theorem trailerAt_table_length {result : List ClassWindow × List LaneRow}
    (h : trailerAt b rows here classes placed laneAt fault = .ok result) : result.1.length = classes := by
  unfold trailerAt at h
  split at h
  · split at h
    · cases h
    · rw [← Except.ok.inj h, tableAt, length_map, length_range]
  · rw [← Except.ok.inj h, length_replicate]

end Back

/-- What a descriptor was read from: the pieces of the bytes. -/
theorem decoded_cases (h : decoded b = .ok d) :
    40 ≤ b.length ∧ take32 b 0 = MAGIC ∧ take32 b 4 = ABI_VERSION ∧ b.length = (headerAt b).want
      ∧ bodyAt b (headerAt b) = .ok d := by
  unfold decoded at h
  split at h
  · cases h
  split at h
  · cases h
  split at h
  · cases h
  split at h
  · cases h
  · rename_i hshort hmagic habi hlen
    exact ⟨Nat.le_of_not_lt hshort, not_not.mp hmagic, not_not.mp habi, not_not.mp hlen, h⟩

theorem bodyAt_cases {hd : Header} (h : bodyAt b hd = .ok d) : ∃ patchTable patched voxelTable placed,
      trailerAt b hd.patchRows (hd.base + LANE_BYTES * hd.lanes.toNat) hd.classes.toNat
          (lanesAt b hd.base hd.lanes.toNat) patchLaneAt .descriptorPatchRows = .ok (patchTable, patched)
      ∧ trailerAt b hd.voxelRows (hd.base + LANE_BYTES * hd.lanes.toNat + hd.trailer) hd.classes.toNat patched voxelLaneAt
          .descriptorVoxelRows = .ok (voxelTable, placed)
      ∧ d = descriptorOf hd (tableAt b HEADER_BYTES hd.classes.toNat) patchTable voxelTable patched placed := by
  unfold bodyAt at h
  dsimp only at h
  split at h
  · cases h
  split at h
  · cases h
  · rename_i patchTable patched hpatch
    split at h
    · cases h
    · rename_i voxelTable placed hvoxel
      exact ⟨patchTable, patched, voxelTable, placed, hpatch, hvoxel, (Except.ok.inj h).symm⟩

theorem header_back (hin : 40 ≤ b.length) (hmagic : take32 b 0 = MAGIC) (habi : take32 b 4 = ABI_VERSION) :
    put32 MAGIC ++ put32 ABI_VERSION ++ put32 (headerAt b).rows ++ put32 (headerAt b).lanes ++ put32 (headerAt b).bucket
      ++ put32 (headerAt b).classes ++ put32 (headerAt b).patchRows ++ put32 (headerAt b).patchBucket
      ++ put32 (headerAt b).voxelRows ++ put32 (headerAt b).voxelBucket = slice b 0 40 := by
  rw [← hmagic, ← habi]
  dsimp only [headerAt]
  rw [put32_take32 (by omega), put32_take32 (by omega), put32_take32 (by omega), put32_take32 (by omega),
    put32_take32 (by omega), put32_take32 (by omega), put32_take32 (by omega), put32_take32 (by omega),
    put32_take32 (by omega), put32_take32 (by omega)]
  rw [slice_extend (k := 8) rfl, slice_extend (k := 12) rfl, slice_extend (k := 16) rfl, slice_extend (k := 20) rfl,
    slice_extend (k := 24) rfl, slice_extend (k := 28) rfl, slice_extend (k := 32) rfl, slice_extend (k := 36) rfl,
    slice_extend (k := 40) rfl]

/-- **What is accepted is written back.** -/
theorem pack_of_decoded (h : decoded b = .ok d) : d.pack = b ∧ d.bytes = b.length := by
  obtain ⟨hshort, hmagic, habi, hlen, hbody⟩ := decoded_cases h
  obtain ⟨patchTable, patched, voxelTable, placed, hpatch, hvoxel, rfl⟩ := bodyAt_cases hbody
  have hheaderPiece := header_back hshort hmagic habi
  generalize headerAt b = hd at *
  have hlanes : (lanesAt b hd.base hd.lanes.toNat).length = hd.lanes.toNat := by
    rw [lanesAt, length_map, length_range]
  have hpatched : patched.length = hd.lanes.toNat := (trailerAt_length hpatch).trans hlanes
  have hplaced : placed.length = hd.lanes.toNat := (trailerAt_length hvoxel).trans hpatched
  have htable : (tableAt b HEADER_BYTES hd.classes.toNat).length = hd.classes.toNat := by
    rw [tableAt, length_map, length_range]
  have hpatchTable : patchTable.length = hd.classes.toNat := trailerAt_table_length hpatch
  have hvoxelTable : voxelTable.length = hd.classes.toNat := trailerAt_table_length hvoxel
  have hbase : hd.base = HEADER_BYTES + CLASS_BYTES * hd.classes.toNat := rfl
  have hwant : hd.want = hd.base + LANE_BYTES * hd.lanes.toNat + hd.trailer + hd.voxelTrailer := rfl
  constructor
  · -- piece by piece, each behind the one before
    have hpatchPiece : packTrailer hd.patchRows (.new patchTable) placed packPatchLane
        = slice b (hd.base + LANE_BYTES * hd.lanes.toNat) hd.trailer := by
      unfold packTrailer trailer
      split
      · rename_i hrows
        have htrailer : hd.trailer = CLASS_BYTES * hd.classes.toNat + PATCH_LANE_BYTES * hd.lanes.toNat := if_pos hrows
        rw [flatMap_keep packPatchLane_voxel hvoxel]
        exact trailerAt_pack packPatchLane_patch hpatch hrows hlanes (by omega)
      · rw [slice, take_zero]
    have hvoxelPiece : packTrailer hd.voxelRows (.new voxelTable) placed packVoxelLane
        = slice b (hd.base + LANE_BYTES * hd.lanes.toNat + hd.trailer) hd.voxelTrailer := by
      unfold packTrailer voxelTrailer
      split
      · rename_i hrows
        have htrailer : hd.voxelTrailer = CLASS_BYTES * hd.classes.toNat + PATCH_LANE_BYTES * hd.lanes.toNat := if_pos hrows
        exact trailerAt_pack packVoxelLane_voxel hvoxel hrows hpatched (by omega)
      · rw [slice, take_zero]
    have hlanePiece : placed.flatMap packLane = slice b hd.base (LANE_BYTES * hd.lanes.toNat) := by
      rw [flatMap_keep packLane_voxel hvoxel, flatMap_keep packLane_patch hpatch]
      exact packLanes_lanesAt (by omega)
    have hclasses : (descriptorOf hd (tableAt b HEADER_BYTES hd.classes.toNat) patchTable voxelTable patched placed).classes.classes
        = tableAt b HEADER_BYTES hd.classes.toNat := rfl
    unfold FireDescriptor.pack
    rw [hclasses, htable]
    dsimp only [descriptorOf]
    rw [hplaced, UInt32.ofNat_toNat, UInt32.ofNat_toNat, hheaderPiece, hpatchPiece, hvoxelPiece, hlanePiece,
      packTable_tableAt (by omega)]
    have htotal : HEADER_BYTES + CLASS_BYTES * hd.classes.toNat = hd.base := rfl
    rw [show (40 : Nat) = HEADER_BYTES from rfl, slice_extend htotal, slice_extend rfl, slice_extend rfl, slice_extend rfl,
      ← hwant, ← hlen, slice_whole]
  · simp only [bytes, descriptorOf, WindowTable.new]
    rw [htable, hplaced, hpatchTable, hvoxelTable, hlen]
    rfl

/-! ## Reading what was written -/

/-- What is said of a lane without its patches and voxels. -/
def bare (lane : LaneRow) : LaneRow :=
  { (default : LaneRow) with
    word := lane.word, source := lane.source, cls := lane.cls, rowOffset := lane.rowOffset, rows := lane.rows }

def voxelless (lane : LaneRow) : LaneRow := { lane with voxelOffset := 0, voxels := 0, clipOffset := 0, clips := 0 }

section Written

variable {a c : List UInt8}

theorem put32_length {v : UInt32} : (put32 v).length = 4 := toLe_length 4 _

theorem put64_length {v : UInt64} : (put64 v).length = 8 := toLe_length 8 _

theorem take32_written {b : List UInt8} {here : Nat} {v : UInt32} (hb : b = a ++ put32 v ++ c) (hlen : a.length = here) :
    take32 b here = v := by
  rw [hb, ← hlen, take32_put32]

/-- Four numbers are read where they were written. -/
theorem four_written {w x y z : UInt32} {b : List UInt8} (hb : b = a ++ (put32 w ++ put32 x ++ put32 y ++ put32 z) ++ c) :
    take32 b a.length = w ∧ take32 b (a.length + 4) = x ∧ take32 b (a.length + 8) = y ∧ take32 b (a.length + 12) = z := by
  refine ⟨take32_written (a := a) (c := put32 x ++ put32 y ++ put32 z ++ c) ?_ rfl,
    take32_written (a := a ++ put32 w) (c := put32 y ++ put32 z ++ c) ?_ ?_,
    take32_written (a := a ++ put32 w ++ put32 x) (c := put32 z ++ c) ?_ ?_,
    take32_written (a := a ++ put32 w ++ put32 x ++ put32 y) (c := c) ?_ ?_⟩
  all_goals simp only [hb, length_append, put32_length, append_assoc]

theorem windowAt_written {w : ClassWindow} : windowAt (a ++ packWindow w ++ c) a.length = w := by
  obtain ⟨hrow, hrows, hlane, hlanes⟩ := four_written (b := a ++ packWindow w ++ c) rfl
  rw [windowAt, hrow, hrows, hlane, hlanes]

theorem patchLaneAt_written {lane : LaneRow} :
    patchLaneAt (a ++ packPatchLane lane ++ c) a.length (bare lane) = voxelless lane := by
  obtain ⟨hoffset, hpatches, himage, himages⟩ := four_written (b := a ++ packPatchLane lane ++ c) rfl
  rw [patchLaneAt, hoffset, hpatches, himage, himages]
  rfl

theorem voxelLaneAt_written {lane : LaneRow} :
    voxelLaneAt (a ++ packVoxelLane lane ++ c) a.length (voxelless lane) = lane := by
  obtain ⟨hoffset, hvoxels, hclip, hclips⟩ := four_written (b := a ++ packVoxelLane lane ++ c) rfl
  rw [voxelLaneAt, hoffset, hvoxels, hclip, hclips]
  rfl

theorem laneAt_written {lane : LaneRow} : laneAt (a ++ packLane lane ++ c) a.length = bare lane := by
  have hword : take64 (a ++ packLane lane ++ c) a.length = lane.word := by
    rw [packLane, append_assoc, append_assoc, append_assoc, append_assoc, append_assoc, ← append_assoc a]
    exact take64_put64
  have hrest : a ++ packLane lane ++ c
      = (a ++ put64 lane.word) ++ (put32 lane.source ++ put32 lane.cls ++ put32 lane.rowOffset ++ put32 lane.rows) ++ c := by
    simp only [packLane, append_assoc]
  obtain ⟨hsource, hcls, hoffset, hrows⟩ := four_written hrest
  rw [length_append, put64_length] at hsource hcls hoffset hrows
  rw [laneAt, hword, hsource, hcls, hoffset, hrows]
  rfl

theorem packWindow_length (w : ClassWindow) : (packWindow w).length = CLASS_BYTES := by
  simp only [packWindow, length_append, put32_length]
  rfl

variable (lane : LaneRow)

theorem packLane_length : (packLane lane).length = LANE_BYTES := by
  simp only [packLane, length_append, put32_length, put64_length]
  rfl

theorem packPatchLane_length : (packPatchLane lane).length = PATCH_LANE_BYTES := by
  simp only [packPatchLane, length_append, put32_length]
  rfl

theorem packVoxelLane_length : (packVoxelLane lane).length = PATCH_LANE_BYTES := by
  simp only [packVoxelLane, length_append, put32_length]
  rfl

theorem flatMap_width {β : Type} {write : β → List UInt8} {width : Nat} (h : ∀ x, (write x).length = width) {xs : List β} :
    (xs.flatMap write).length = width * xs.length := by
  rw [length_flatMap, map_congr_left fun x _ => h x, map_const', sum_replicate, smul_eq_mul, mul_comm]

theorem tableAt_written {table : List ClassWindow} {classes : Nat} (hlen : table.length = classes) :
    tableAt (a ++ table.flatMap packWindow ++ c) a.length classes = table := by
  rw [← hlen]
  exact (map_read (fun _ _ _ => windowAt_written) packWindow_length).trans (map_id _)

theorem lanesAt_written {lanes : List LaneRow} :
    lanesAt (a ++ lanes.flatMap packLane ++ c) a.length lanes.length = lanes.map bare :=
  map_read (fun _ _ _ => laneAt_written) packLane_length

/-- A table that can be told from its windows, and the rows that they hold. -/
structure Held (count : Nat) (rows : UInt32) (table : WindowTable) : Prop where
  length : table.classes.length = count
  retold : WindowTable.new table.classes = table
  counted : countedRows table.classes = rows.toNat
  blank : rows = 0 → table.classes = List.replicate count default

theorem trailerAt_written {count : Nat} {rows : UInt32} {table : WindowTable} {lanes : List LaneRow}
    {packLane : LaneRow → List UInt8} {laneAt : List UInt8 → Nat → LaneRow → LaneRow} {before view : LaneRow → LaneRow}
    {fault : Nat → UInt32 → Fault} (hheld : Held count rows table)
    (hread : ∀ a x c, laneAt (a ++ packLane x ++ c) a.length (before x) = view x)
    (hwidth : ∀ x, (packLane x).length = PATCH_LANE_BYTES) (hnone : rows = 0 → lanes.map before = lanes.map view) :
    trailerAt (a ++ packTrailer rows table lanes packLane ++ c) rows a.length count (lanes.map before) laneAt fault
      = .ok (table.classes, lanes.map view) := by
  unfold trailerAt packTrailer
  by_cases hrows : 0 < rows
  · rw [if_pos hrows, if_pos hrows]
    have htable : tableAt (a ++ (table.classes.flatMap packWindow ++ lanes.flatMap packLane) ++ c) a.length count = table.classes := by
      rw [append_assoc, append_assoc, ← append_assoc a]
      exact tableAt_written hheld.length
    have hat : (a ++ table.classes.flatMap packWindow).length = a.length + CLASS_BYTES * count := by
      rw [length_append, flatMap_width packWindow_length, hheld.length]
    have hlanes : a ++ (table.classes.flatMap packWindow ++ lanes.flatMap packLane) ++ c
        = (a ++ table.classes.flatMap packWindow) ++ lanes.flatMap packLane ++ c := by
      simp only [append_assoc]
    rw [htable, if_neg (not_not.mpr hheld.counted), hlanes, ← hat, zipIdx_read hread hwidth]
  · have hzero : rows = 0 := UInt32.le_antisymm (UInt32.not_lt.mp hrows) (UInt32.zero_le)
    rw [if_neg hrows, hheld.blank hzero, hnone hzero]

end Written

/-! ## Round trips -/

/-- A descriptor whose bytes say everything about it. -/
structure Sound (d : FireDescriptor) : Prop where
  lanes_lt : d.lanes.length < 2 ^ 32
  classes_lt : d.classes.classes.length < 2 ^ 32
  tokens : Held d.classes.classes.length d.rows d.classes
  patches : Held d.classes.classes.length d.patchRows d.patchClasses
  voxels : Held d.classes.classes.length d.voxelRows d.voxelClasses
  images : d.images = .ofNat ((d.lanes.map fun lane => lane.images.toNat).sum)
  clips : d.clips = .ofNat ((d.lanes.map fun lane => lane.clips.toNat).sum)
  patchless : d.patchRows = 0 → ∀ lane ∈ d.lanes, bare lane = voxelless lane
  clipless : d.voxelRows = 0 → ∀ lane ∈ d.lanes, voxelless lane = lane
  capless : d.runCaps = []
  passless : d.runPasses = []

/-- The numbers at the head of a descriptor. -/
def numbers (d : FireDescriptor) : List UInt32 :=
  [MAGIC, ABI_VERSION, d.rows, .ofNat d.lanes.length, d.bucket, .ofNat d.classes.classes.length, d.patchRows, d.patchBucket,
    d.voxelRows, d.voxelBucket]

section

variable {d : FireDescriptor}

theorem pack_eq : d.pack = (numbers d).flatMap put32 ++ d.classes.classes.flatMap packWindow ++ d.lanes.flatMap packLane
    ++ packTrailer d.patchRows d.patchClasses d.lanes packPatchLane
    ++ packTrailer d.voxelRows d.voxelClasses d.lanes packVoxelLane := by
  simp only [FireDescriptor.pack, numbers, flatMap_cons, flatMap_nil, append_assoc, append_nil]

theorem numbers_width : ((numbers d).flatMap put32).length = HEADER_BYTES := flatMap_width fun _ => put32_length

theorem number_read {k : Nat} {v : UInt32} (hv : (numbers d)[k]? = some v) : take32 d.pack (4 * k) = v := by
  obtain ⟨hk, rfl⟩ := List.getElem?_eq_some_iff.mp hv
  have hat := records_at (P := fun b here v => take32 b here = v) (a := []) (c := d.classes.classes.flatMap packWindow
    ++ d.lanes.flatMap packLane ++ packTrailer d.patchRows d.patchClasses d.lanes packPatchLane
    ++ packTrailer d.voxelRows d.voxelClasses d.lanes packVoxelLane)
    (fun _ _ _ => take32_put32) (fun _ => put32_length) hk
  rw [pack_eq]
  simpa only [nil_append, length_nil, zero_add, append_assoc] using hat

/-- The header that a descriptor is written with. -/
def headerOf (d : FireDescriptor) : Header :=
  ⟨d.rows, .ofNat d.lanes.length, d.bucket, .ofNat d.classes.classes.length, d.patchRows, d.patchBucket, d.voxelRows,
    d.voxelBucket⟩

theorem headerAt_pack : headerAt d.pack = headerOf d := by
  have hrows : take32 d.pack 8 = d.rows := number_read (k := 2) rfl
  have hlanes : take32 d.pack 12 = .ofNat d.lanes.length := number_read (k := 3) rfl
  have hbucket : take32 d.pack 16 = d.bucket := number_read (k := 4) rfl
  have hclasses : take32 d.pack 20 = .ofNat d.classes.classes.length := number_read (k := 5) rfl
  have hpatchRows : take32 d.pack 24 = d.patchRows := number_read (k := 6) rfl
  have hpatchBucket : take32 d.pack 28 = d.patchBucket := number_read (k := 7) rfl
  have hvoxelRows : take32 d.pack 32 = d.voxelRows := number_read (k := 8) rfl
  have hvoxelBucket : take32 d.pack 36 = d.voxelBucket := number_read (k := 9) rfl
  rw [headerAt, hrows, hlanes, hbucket, hclasses, hpatchRows, hpatchBucket, hvoxelRows, hvoxelBucket]
  rfl

theorem packTrailer_length {count : Nat} {rows : UInt32} {table : WindowTable} {lanes : List LaneRow}
    {packLane : LaneRow → List UInt8} (hlen : table.classes.length = count)
    (hwidth : ∀ x, (packLane x).length = PATCH_LANE_BYTES) :
    (packTrailer rows table lanes packLane).length
      = if 0 < rows then CLASS_BYTES * count + PATCH_LANE_BYTES * lanes.length else 0 := by
  unfold packTrailer
  split
  · rw [length_append, flatMap_width packWindow_length, flatMap_width hwidth, hlen]
  · rfl

theorem pack_length (h : Sound d) : d.pack.length = (headerOf d).want := by
  have hlanes : (ofNat d.lanes.length).toNat = d.lanes.length := toNat_ofNat_of_lt' h.lanes_lt
  have hclasses : (ofNat d.classes.classes.length).toNat = d.classes.classes.length :=
    toNat_ofNat_of_lt' h.classes_lt
  simp only [pack_eq, length_append, numbers_width, flatMap_width packWindow_length, flatMap_width packLane_length,
    packTrailer_length h.patches.length packPatchLane_length, packTrailer_length h.voxels.length packVoxelLane_length,
    want, base, trailer, voxelTrailer, headerOf, hlanes, hclasses]
  rfl

theorem descriptorOf_eq (h : Sound d) : descriptorOf (headerOf d) d.classes.classes d.patchClasses.classes
    d.voxelClasses.classes (d.lanes.map voxelless) (d.lanes.map id) = d := by
  have himages : (d.lanes.map voxelless).map (fun lane => lane.images.toNat) = d.lanes.map fun lane => lane.images.toNat := by
    rw [map_map]
    rfl
  rw [descriptorOf, himages, map_id, h.tokens.retold, h.patches.retold, h.voxels.retold, ← h.images, ← h.clips]
  obtain ⟨_, _, _, _, _, _, runCaps, runPasses, _, _, _, _, _, _⟩ := d
  obtain rfl : runCaps = [] := h.capless
  obtain rfl : runPasses = [] := h.passless
  rfl

/-- **A sound descriptor is read back as it was written.** -/
theorem decoded_pack (h : Sound d) : decoded d.pack = .ok d := by
  have hlanes : (headerOf d).lanes.toNat = d.lanes.length := toNat_ofNat_of_lt' h.lanes_lt
  have hclasses : (headerOf d).classes.toNat = d.classes.classes.length := toNat_ofNat_of_lt' h.classes_lt
  have hlen := pack_length h
  have hmagic : take32 d.pack 0 = MAGIC := number_read (k := 0) rfl
  have habi : take32 d.pack 4 = ABI_VERSION := number_read (k := 1) rfl
  have hshort : ¬d.pack.length < HEADER_BYTES := by
    rw [hlen, want, base]
    omega
  -- where each piece begins
  have hbase : ((numbers d).flatMap put32 ++ d.classes.classes.flatMap packWindow).length = (headerOf d).base := by
    rw [length_append, numbers_width, flatMap_width packWindow_length, base, hclasses]
  have hend : ((numbers d).flatMap put32 ++ d.classes.classes.flatMap packWindow ++ d.lanes.flatMap packLane).length
      = (headerOf d).base + LANE_BYTES * d.lanes.length := by
    rw [length_append, hbase, flatMap_width packLane_length]
  have hvoxelAt : ((numbers d).flatMap put32 ++ d.classes.classes.flatMap packWindow ++ d.lanes.flatMap packLane
      ++ packTrailer d.patchRows d.patchClasses d.lanes packPatchLane).length
      = (headerOf d).base + LANE_BYTES * d.lanes.length + (headerOf d).trailer := by
    rw [length_append, hend, packTrailer_length h.patches.length packPatchLane_length, trailer, hclasses, hlanes]
    rfl
  have htable : tableAt d.pack HEADER_BYTES (headerOf d).classes.toNat = d.classes.classes := by
    rw [pack_eq, ← numbers_width (d := d), append_assoc, append_assoc]
    exact tableAt_written hclasses.symm
  have hlanesAt : lanesAt d.pack (headerOf d).base (headerOf d).lanes.toNat = d.lanes.map bare := by
    rw [pack_eq, ← hbase, hlanes, append_assoc]
    exact lanesAt_written
  have hpatch : trailerAt d.pack d.patchRows ((headerOf d).base + LANE_BYTES * d.lanes.length) d.classes.classes.length
      (d.lanes.map bare) patchLaneAt .descriptorPatchRows = .ok (d.patchClasses.classes, d.lanes.map voxelless) := by
    rw [pack_eq, ← hend]
    exact trailerAt_written h.patches (fun _ _ _ => patchLaneAt_written) packPatchLane_length
      fun hzero => map_congr_left (h.patchless hzero)
  have hvoxel : trailerAt d.pack d.voxelRows ((headerOf d).base + LANE_BYTES * d.lanes.length + (headerOf d).trailer)
      d.classes.classes.length (d.lanes.map voxelless) voxelLaneAt .descriptorVoxelRows
      = .ok (d.voxelClasses.classes, d.lanes.map id) := by
    rw [pack_eq, ← hvoxelAt, ← append_nil (_ ++ packTrailer d.voxelRows _ _ _)]
    exact trailerAt_written h.voxels (fun _ _ _ => voxelLaneAt_written) packVoxelLane_length
      fun hzero => map_congr_left (h.clipless hzero)
  unfold decoded
  rw [if_neg hshort, if_neg (not_not.mpr hmagic), if_neg (not_not.mpr habi), headerAt_pack, if_neg (not_not.mpr hlen)]
  unfold bodyAt
  dsimp only
  have hcounted : countedRows d.classes.classes = (headerOf d).rows.toNat := h.tokens.counted
  rw [htable, if_neg (not_not.mpr hcounted), hlanesAt, hlanes, hclasses, show (headerOf d).patchRows = d.patchRows from rfl,
    hpatch]
  dsimp only
  rw [show (headerOf d).voxelRows = d.voxelRows from rfl, hvoxel]
  exact congrArg Except.ok (descriptorOf_eq h)

end

/-- **What is composed says everything about itself.** -/
theorem sound_of_composed {count : Nat} {lanes : List Classed} {placed : PerAxis (List (UInt32 × UInt32))} {c : Composition}
    (h : Composed count lanes placed c) : Sound (.ofComposition c) := by
  have hcount : c.axes.tokens.classes.classes.length = count := (h.axes .tokens).length
  have hheld (axis : RowAxis) : Held c.axes.tokens.classes.classes.length (c.axes.get axis).rows (c.axes.get axis).classes := by
    have hrows : (c.axes.get axis).rows.toNat = rowsAll axis lanes := by
      rw [(h.axes axis).rows, toNat_ofNat_of_lt' (h.fits axis)]
    refine ⟨(h.axes axis).length.trans hcount.symm, (h.axes axis).table, (h.axes axis).counted.trans hrows.symm, fun hzero => ?_⟩
    rw [hcount]
    exact ((h.axes axis).blank (hrows ▸ congrArg toNat hzero)).1
  have hzero {axis : RowAxis} (hrows : (c.axes.get axis).rows = 0) : rowsAll axis lanes = 0 := by
    have := congrArg toNat ((h.axes axis).rows.symm.trans hrows)
    rwa [toNat_ofNat_of_lt' (h.fits axis)] at this
  refine ⟨?_, ?_, hheld .tokens, hheld .patches, hheld .voxels, ?_, ?_, fun hrows lane hl => ?_, fun hrows lane hl => ?_, rfl, rfl⟩
  · exact h.length ▸ h.few
  · show c.axes.tokens.classes.classes.length < 2 ^ 32
    have := h.counted
    omega
  · exact (h.axes .patches).items.trans (congrArg ofNat (h.sum_eq fun _ _ => rfl).symm)
  · exact (h.axes .voxels).items.trans (congrArg ofNat (h.sum_eq fun _ _ => rfl).symm)
  · obtain ⟨l, hgiven, i, hi, rfl⟩ := h.mem hl
    obtain ⟨hpatches, himages, hplaced⟩ := h.blank (@hzero .patches hrows) hgiven hi
    change l.1.patches = 0 at hpatches
    change l.1.images = 0 at himages
    change placed.patches.getD i (0, 0) = (0, 0) at hplaced
    simp only [bare, voxelless, laneRow, hpatches, himages, hplaced]
    rfl
  · obtain ⟨l, hgiven, i, hi, rfl⟩ := h.mem hl
    obtain ⟨hvoxels, hclips, hplaced⟩ := h.blank (@hzero .voxels hrows) hgiven hi
    change l.1.voxels = 0 at hvoxels
    change l.1.clips = 0 at hclips
    change placed.voxels.getD i (0, 0) = (0, 0) at hplaced
    simp only [voxelless, laneRow, hvoxels, hclips, hplaced]

/-- **Descriptors round trip.** What is written of a composed fire is read back as it was, the order of the classes
too. Bytes are read only where they are, and are written back as they were read. -/
theorem descriptor_roundtrips :
    (∀ (compiled : CompiledModel) (budgets : Budgets) (lanes : List Lane) (c : Composition),
      composeAxes compiled budgets lanes = .ok c →
        FireDescriptor.unpack (FireDescriptor.pack (.ofComposition c)) = .ok (.ofComposition c))
      ∧ ∀ b : List UInt8, unpackWith (Reader.strict b) b.length = some (FireDescriptor.unpack b)
        ∧ ∀ d, FireDescriptor.unpack b = .ok d → d.pack = b ∧ d.bytes = b.length := by
  refine ⟨fun compiled budgets lanes c h => ?_, fun b => ⟨strict_eq b, fun d h => pack_of_decoded (unpack_eq b ▸ h)⟩⟩
  obtain ⟨classed, placed, hcomposed⟩ := seriate_composed h
  rw [unpack_eq]
  exact decoded_pack (sound_of_composed hcomposed)

/-- Two classes, of which the second comes first, and an encoder for images. -/
def twoClasses : CompiledModel where
  classes := ⟨[⟨[0], []⟩, ⟨[1], []⟩], [], [], [], 1, [], nofun⟩
  order := .seriated ⟨.p [.leaf 0, .leaf 1], [1, 0]⟩
  patches := some .identity
  voxels := none
  count_le := by decide
  order_orders := List.Perm.swap 0 1 []
  patches_orders := fun _ h => Option.some.inj h ▸ trivial
  voxels_orders := nofun

/-- A lane of text and one with an image, and no voxels. -/
theorem descriptor_roundtrips_image : ∃ c, composeAxes twoClasses ⟨⟨8, 64, [16]⟩, some ⟨64, 8, [16]⟩, none⟩
    [⟨0, 2, 0, 0, 0, 0⟩, ⟨1, 3, 1, 4, 0, 0⟩] = .ok c
      ∧ FireDescriptor.unpack (FireDescriptor.pack (.ofComposition c)) = .ok (.ofComposition c) := by
  obtain ⟨c, hc⟩ : ∃ c, composeAxes twoClasses ⟨⟨8, 64, [16]⟩, some ⟨64, 8, [16]⟩, none⟩
      [⟨0, 2, 0, 0, 0, 0⟩, ⟨1, 3, 1, 4, 0, 0⟩] = .ok c := ⟨_, rfl⟩
  exact ⟨c, hc, descriptor_roundtrips.1 _ _ _ c hc⟩

end Pie.Proof.Descriptors
